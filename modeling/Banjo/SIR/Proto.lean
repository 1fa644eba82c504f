import Mathlib.Data.List.Basic

/-!
# Structs and protos

What the semantic analysis and the SSA generator look at in a struct that implements protos. A
function is identified by its struct and its name: two functions of one name in one struct are an
overload set, which is a different symbol.
-/

namespace Banjo.SIR

abbrev Ident := String

abbrev StructDefId := ℕ

abbrev ProtoId := ℕ

/-- A function with a body. It is generic when it has generic parameters, those of its struct or
proto included. -/
structure FuncDef (τ : Type) where
  ident : Ident
  type : τ
  isGeneric : Bool := false
  deriving DecidableEq, Repr

/-- A function of a proto, with a default implementation or without one. One without need not be a
method. -/
inductive ProtoFuncDecl (τ : Type) where
  | funcDecl (ident : Ident) (type : τ) (isMethod : Bool := true)
  | funcDef (default : FuncDef τ)
  deriving DecidableEq, Repr

namespace ProtoFuncDecl

variable {τ : Type}

def ident : ProtoFuncDecl τ → Ident
  | funcDecl ident _ _ => ident
  | funcDef default => default.ident

def type : ProtoFuncDecl τ → τ
  | funcDecl _ type _ => type
  | funcDef default => default.type

/-- `is_method`. Functions with a body are in the list only when they are methods. -/
def isMethod : ProtoFuncDecl τ → Bool
  | funcDecl _ _ isMethod => isMethod
  | funcDef _ => true

end ProtoFuncDecl

structure ProtoDef (τ : Type) where
  id : ProtoId
  funcDecls : List (ProtoFuncDecl τ) := []
  deriving DecidableEq, Repr

namespace ProtoDef

variable {τ : Type}

/-- The names of the functions, in order. -/
def names (proto : ProtoDef τ) : List Ident := proto.funcDecls.map ProtoFuncDecl.ident

/-- The names of the functions that are called through a pointer to the proto. -/
def methods (proto : ProtoDef τ) : List Ident :=
  (proto.funcDecls.filter ProtoFuncDecl.isMethod).map ProtoFuncDecl.ident

theorem mem_names_of_mem_methods {proto : ProtoDef τ} {name : Ident} (h : name ∈ proto.methods) :
    name ∈ proto.names :=
  (List.filter_sublist.map ProtoFuncDecl.ident).subset h

/-- `get_index`: the first function of this name. -/
def getIndex (proto : ProtoDef τ) (name : Ident) : Option ℕ :=
  proto.funcDecls.findIdx? fun funcDecl ↦ funcDecl.ident = name

end ProtoDef

/-- `Concrete<ProtoDef>`: a proto with its generic arguments. -/
structure ConcreteProto (τ : Type) where
  proto : ProtoDef τ
  genericArgs : List τ := []
  deriving DecidableEq, Repr

/-- `==`: protos are compared by identity. -/
def ConcreteProto.eq {τ : Type} [DecidableEq τ] (a b : ConcreteProto τ) : Bool :=
  a.proto.id = b.proto.id && a.genericArgs = b.genericArgs

inductive Symbol (τ : Type) where
  | funcDef (funcDef : FuncDef τ)
  | other
  deriving DecidableEq, Repr

/-- A function stands in the symbol table under its name. -/
def Named {τ : Type} (entry : Ident × Symbol τ) : Prop :=
  ∀ funcDef, entry.2 = .funcDef funcDef → funcDef.ident = entry.1

structure StructDef (τ : Type) where
  ident : Ident
  impls : List (ConcreteProto τ) := []
  symbols : List (Ident × Symbol τ) := []
  named : ∀ entry ∈ symbols, Named entry := by simp

/-- The function that the symbol table has under a name. -/
def StructDef.lookUpFunc {τ : Type} (structDef : StructDef τ) (name : Ident) :
    Option (FuncDef τ) :=
  match structDef.symbols.lookup name with
  | some (.funcDef funcDef) => some funcDef
  | _ => none

theorem StructDef.ident_of_lookUpFunc {τ : Type} {structDef : StructDef τ} {name : Ident}
    {funcDef : FuncDef τ} (h : structDef.lookUpFunc name = some funcDef) :
    funcDef.ident = name := by
  unfold lookUpFunc at h
  split at h
  · rename_i symbol hlookup
    obtain ⟨before, after, hsymbols, -⟩ := List.lookup_eq_some_iff.mp hlookup
    cases h
    exact structDef.named (name, .funcDef _) (by simp [hsymbols]) _ rfl
  · cases h

end Banjo.SIR
