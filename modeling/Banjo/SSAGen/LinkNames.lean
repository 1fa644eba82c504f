import Banjo.SSAGen.ProtoCalls

/-!
# Name mangling

The link name of a function is a name that the source gives, or it is put together from the
containers, the name, the types and a number that is drawn.
-/

open List

namespace Banjo.SSAGen.NameMangling

open SIR (Ident)

/-- What a symbol is to the name mangling. Modules have no parent. -/
inductive Symbol where
  | null
  | module (path : List String)
  | structDef (ident : Ident) (parent : Symbol)
  | other (parent : Symbol)
  deriving DecidableEq, Repr

inductive Primitive where
  | I8 | I16 | I32 | I64 | U8 | U16 | U32 | U64 | USIZE | F32 | F64 | BOOL | ADDR | VOID
  deriving DecidableEq, Repr

inductive TypeExpr where
  | primitiveType (primitive : Primitive)
  | symbolExpr (symbol : Symbol)
  | pointerType (base : TypeExpr)
  | referenceType (base : TypeExpr)
  | tupleExpr (exprs : List TypeExpr)
  -- Arrays, functions, closures and everything else.
  | other

structure Attributes where
  linkName : Option String := none
  exposed : Bool := false
  dllexport : Bool := false
  deriving DecidableEq, Repr

/-- The overload is the index of the function in the overload set that its name has in its
parent. -/
structure FuncDef where
  ident : Ident
  parent : Symbol
  params : List TypeExpr := []
  attrs : Attributes := {}
  isGeneric : Bool := false
  isMethod : Bool := false
  inProto : Bool := false
  overload : Option ℕ := none

def FuncDef.isMain (funcDef : FuncDef) : Bool := funcDef.ident = "main"

def Primitive.code : Primitive → String
  | .I8 => "i0" | .I16 => "i1" | .I32 => "i2" | .I64 => "i3"
  | .U8 => "u0" | .U16 => "u1" | .U32 => "u2" | .U64 => "u3" | .USIZE => "u4"
  | .F32 => "f0" | .F64 => "f1" | .BOOL => "b0" | .ADDR => "a0" | .VOID => "v0"

def mangleSymbolName : Symbol → String
  | .null => ""
  | .module path => String.join (path.map fun component ↦
      "m" ++ toString component.length ++ component)
  | .structDef ident parent =>
    mangleSymbolName parent ++ "s" ++ toString ident.length ++ ident
  | .other parent => mangleSymbolName parent

mutual

def mangleType : TypeExpr → String
  | .primitiveType primitive => "p" ++ primitive.code
  | .symbolExpr symbol => "s" ++ mangleSymbolName symbol
  | .pointerType base => "a" ++ mangleType base
  | .referenceType base => "r" ++ mangleType base
  | .tupleExpr exprs => "t" ++ toString exprs.length ++ mangleTypes exprs
  | .other => ""

def mangleTypes : List TypeExpr → String
  | [] => ""
  | type :: types => mangleType type ++ mangleTypes types

end

/-- The mangled name without the number. -/
def signature (funcDef : FuncDef) (genericArgs : List TypeExpr) : String :=
  "bnj_" ++ mangleSymbolName funcDef.parent ++ "n" ++ toString funcDef.ident.length ++
    funcDef.ident ++
    (if genericArgs.isEmpty then "" else "g" ++ mangleTypes genericArgs) ++
    "p" ++ mangleTypes funcDef.params ++
    (match funcDef.overload with
    | some i => "_overload" ++ toString i
    | none => "")

def mangleFuncName (funcDef : FuncDef) (genericArgs : List TypeExpr) (rand : ℕ) : String :=
  signature funcDef genericArgs ++ toString rand

/-- The name that the source gives to a function. -/
def givenName (testing : Bool) (funcDef : FuncDef) : Option String :=
  match funcDef.attrs.linkName with
  | some linkName => some linkName
  | none =>
    if funcDef.isMain && !testing then some "main"
    else if funcDef.attrs.exposed || funcDef.attrs.dllexport then some funcDef.ident
    else none

def getLinkName (testing : Bool) (funcDef : FuncDef) (genericArgs : List TypeExpr) (rand : ℕ) :
    String :=
  (givenName testing funcDef).getD (mangleFuncName funcDef genericArgs rand)

end Banjo.SSAGen.NameMangling

/-!
## The names of the symbols of a program

The generator first creates the functions and variables of all modules, and while it generates the
function bodies, it adds strings and vtables when they are used.
-/

namespace Banjo.SSAGen.LinkNames

open SIR (Ident StructDef StructDefId)
open NameMangling

variable {τ : Type}

/-- A declaration. Functions and protos have the generic arguments that they are specialized for.
Declarations that create no symbol are left out. -/
inductive Decl where
  | funcDef (funcDef : FuncDef) (specializations : List (List TypeExpr))
  | structDef (block : List Decl)
  | unionDef (block : List Decl)
  | protoDef (isGeneric : Bool) (specializations : List (List TypeExpr)) (block : List Decl)
  | varDecl (ident : Ident)

/-- What is created for a declaration. -/
inductive Creation where
  | funcDef (funcDef : FuncDef) (genericArgs : List TypeExpr)
  | vtableType
  | varDecl (ident : Ident)

def createFuncDefs (funcDef : FuncDef) (specializations : List (List TypeExpr)) : List Creation :=
  if funcDef.inProto && funcDef.isMethod then []
  else if funcDef.isGeneric then specializations.map (.funcDef funcDef)
  else [.funcDef funcDef []]

mutual

def createDecl : Decl → List Creation
  | .funcDef funcDef specializations => createFuncDefs funcDef specializations
  | .structDef block => createDecls block
  | .unionDef block => createDecls block
  | .protoDef isGeneric specializations block =>
    (if isGeneric then specializations.map fun _ ↦ .vtableType else [.vtableType]) ++
      createDecls block
  | .varDecl ident => [.varDecl ident]

def createDecls : List Decl → List Creation
  | [] => []
  | decl :: decls => createDecl decl ++ createDecls decls

end

/-- What the code of a function body makes the generator add. -/
inductive Event where
  | stringLiteral (size : ℕ)
  | vtables (id : StructDefId)
  deriving DecidableEq, Repr

/-- A program, with the numbers that are drawn. No identifier has a dot. -/
structure Source (τ : Type) where
  modules : List (List Decl)
  structs : StructDefId → Option (StructDef τ)
  events : List Event := []
  testing : Bool := false
  rand : ℕ → ℕ
  dotless : ∀ id structDef, structs id = some structDef → '.' ∉ structDef.ident.toList
  rand_injective : Function.Injective rand

structure State where
  functions : List String := []
  ctx : Context := {}
  /-- How many numbers have been drawn. -/
  draws : ℕ := 0
  stringNameId : ℕ := 0

/-- A variable gets its type and its value later. -/
def addGlobal (name : String) (size : ℕ) (s : State) : State :=
  { s with ctx := { s.ctx with globals := s.ctx.globals ++ [⟨name, .bytes 1 size⟩] } }

variable (source : Source τ)

def create (s : State) : Creation → State
  | .funcDef funcDef genericArgs =>
    { s with
      functions := s.functions ++
        [getLinkName source.testing funcDef genericArgs (source.rand s.draws)]
      draws := if (givenName source.testing funcDef).isSome then s.draws else s.draws + 1 }
  | .vtableType => { s with draws := s.draws + 1 }
  | .varDecl ident => addGlobal ident 0 s

def stringName (id : ℕ) : String := "str." ++ toString id

def handle (s : State) : Event → Option State
  | .stringLiteral size =>
    some { addGlobal (stringName s.stringNameId) size s with stringNameId := s.stringNameId + 1 }
  | .vtables id => do
    let structDef ← source.structs id
    let (_, ctx) ← createVtables structDef id s.ctx
    return { s with ctx }

def creations : List Creation := source.modules.flatMap createDecls

def generate : Option State :=
  source.events.foldlM (handle source) ((creations source).foldl (create source) {})

/-- The link names of the functions and globals. -/
def State.names (s : State) : List String := s.functions ++ s.ctx.globals.map Global.name

/-- `symbol_indices`: a name stands for the first symbol that has it. -/
def resolve (names : List String) (name : String) : Option ℕ := names.findIdx? (· = name)

/-!
## The names that are put together

Mangled names, the names of vtables and the names of strings differ in their first letter. A vtable
name gives the struct, the proto and the method, as no part of it has a dot. A mangled name ends
with the number drawn for it, whose first digits may be taken for the end of the part in front.
-/

open SIR (Ident StructDef StructDefId ConcreteProto)

variable {τ : Type}

/-! ## Numbers -/

theorem toList_toString (n : ℕ) : (toString n).toList = Nat.toDigits 10 n := by
  rw [Nat.toString_eq_repr, Nat.toList_repr]

theorem toString_inj {m n : ℕ} (h : toString m = toString n) : m = n := by
  have hdigits := congrArg String.toList h
  rw [toList_toString, toList_toString] at hdigits
  rw [← Nat.ofDigitChars_ten_toDigits (n := m), hdigits, Nat.ofDigitChars_ten_toDigits]

theorem dot_notMem_toString (n : ℕ) : '.' ∉ (toString n).toList := by
  intro h
  rw [toList_toString] at h
  exact absurd (Nat.isDigit_of_mem_toDigits (by decide) (by decide) h) (by decide)

/-! ## Vtables -/

/-- The name of the entry for method `j` of proto `i`. -/
def vtableEntryName (ident : Ident) (i j : ℕ) : String :=
  let vtableName := "vtable." ++ ident ++ "." ++ toString i
  if j ≠ 0 then vtableName ++ "." ++ toString j else vtableName

theorem dot_split {a b x y : List Char} (ha : '.' ∉ a) (hb : '.' ∉ b)
    (h : a ++ '.' :: x = b ++ '.' :: y) : a = b ∧ x = y := by
  induction a generalizing b with
  | nil =>
    cases b with
    | nil => exact ⟨rfl, (cons.inj h).2⟩
    | cons c b => exact absurd (mem_cons.mpr (Or.inl (cons.inj h).1)) hb
  | cons c a ih =>
    cases b with
    | nil => exact absurd (mem_cons.mpr (Or.inl (cons.inj h).1.symm)) ha
    | cons c' b =>
      obtain ⟨rfl, htail⟩ := cons.inj h
      rw [mem_cons, not_or] at ha hb
      obtain ⟨rfl, rfl⟩ := ih ha.2 hb.2 htail
      exact ⟨rfl, rfl⟩

theorem vtableEntryName_inj {ident ident' : Ident} {i i' j j' : ℕ} (hdot : '.' ∉ ident.toList)
    (hdot' : '.' ∉ ident'.toList) (h : vtableEntryName ident i j = vtableEntryName ident' i' j') :
    ident = ident' ∧ i = i' ∧ j = j' := by
  have hi := dot_notMem_toString i
  have hi' := dot_notMem_toString i'
  have hlist := congrArg String.toList h
  have hsuffix : ∀ (ident : Ident) (i j : ℕ), (vtableEntryName ident i j).toList =
      "vtable.".toList ++ (ident.toList ++ '.' :: ((toString i).toList ++
        if j ≠ 0 then '.' :: (toString j).toList else [])) := by
    intro ident i j
    unfold vtableEntryName
    split_ifs <;> simp [String.toList_append]
  rw [hsuffix, hsuffix] at hlist
  obtain ⟨hident, hrest⟩ := dot_split hdot hdot' (append_cancel_left hlist)
  refine ⟨String.toList_inj.mp hident, ?_⟩
  -- The name of the first entry of a vtable ends with the number of the proto.
  split_ifs at hrest with hj hj' hj'
  · obtain ⟨hnum, hmethod⟩ := dot_split hi hi' hrest
    exact ⟨toString_inj (String.toList_inj.mp hnum), toString_inj (String.toList_inj.mp hmethod)⟩
  · rw [append_nil] at hrest
    exact absurd (hrest ▸ mem_append_right _ mem_cons_self) hi'
  · rw [append_nil] at hrest
    exact absurd (hrest.symm ▸ mem_append_right _ mem_cons_self) hi
  · rw [append_nil, append_nil] at hrest
    have hzero : j = j' := by omega
    exact ⟨toString_inj (String.toList_inj.mp hrest), hzero⟩

/-! ## Mangled names -/

/-- A mangled function with its number. -/
structure Numbered where
  signature : String
  number : ℕ

def Numbered.name (f : Numbered) : String := f.signature ++ toString f.number

/-- The signature of the one goes on with the first digits of the number of the other. -/
def Absorbs (a b : Numbered) : Prop :=
  ∃ digits ≠ "", b.signature = a.signature ++ digits ∧ toString a.number =
    digits ++ toString b.number

variable {a b : Numbered}

theorem name_eq_of_absorbs (h : Absorbs a b) : a.name = b.name := by
  obtain ⟨digits, -, hsignature, hnumber⟩ := h
  rw [Numbered.name, Numbered.name, hsignature, hnumber, String.append_assoc]

theorem absorbs_of_append_eq {digits : List Char}
    (hne : a.number ≠ b.number) (hsignature : b.signature.toList = a.signature.toList ++ digits)
    (hnumber : (toString a.number).toList = digits ++ (toString b.number).toList) :
    Absorbs a b := by
  refine ⟨String.ofList digits, fun hempty ↦ hne ?_, ?_, ?_⟩
  · have hdigits := congrArg String.toList hempty
    rw [String.toList_ofList] at hdigits
    rw [hdigits] at hnumber
    exact toString_inj (String.toList_inj.mp hnumber)
  · exact String.toList_inj.mp (by rw [String.toList_append, String.toList_ofList, hsignature])
  · exact String.toList_inj.mp (by rw [String.toList_append, String.toList_ofList, hnumber])

/-- Two functions with different numbers have one name in no other way. -/
theorem name_eq_iff_absorbs (hne : a.number ≠ b.number) :
    a.name = b.name ↔ Absorbs a b ∨ Absorbs b a := by
  constructor
  · intro h
    have hlist := congrArg String.toList h
    rw [Numbered.name, Numbered.name, String.toList_append, String.toList_append] at hlist
    obtain ⟨digits, hsignature, hnumber⟩ | ⟨digits, hsignature, hnumber⟩ :=
      append_eq_append_iff.mp hlist
    · exact Or.inl (absorbs_of_append_eq hne hsignature hnumber)
    · exact Or.inr (absorbs_of_append_eq hne.symm hsignature hnumber)
  · rintro (h | h)
    · exact name_eq_of_absorbs h
    · exact (name_eq_of_absorbs h).symm

end Banjo.SSAGen.LinkNames
