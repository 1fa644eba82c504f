import Mathlib.Data.List.Basic

/-!
# Expressions after their analysis

What the semantic analysis makes of an expression, as far as it matters for what the expression
gives access to, and how the mutability of a place is read off the expression.
-/

namespace Banjo.Sema.AccessCheck

abbrev SymbolId := ℕ

/-- A type. A proto is a type of its own, of which there are only pointers and references. -/
inductive SType where
  | primitive (id : ℕ)
  | addr
  | struct_ (id : SymbolId)
  | proto (id : SymbolId)
  | genericParam (id : SymbolId)
  | pointer (base : SType)
  | reference (mut_ : Bool) (base : SType)
  | staticArray (base : SType)
  | other (id : ℕ)
  deriving DecidableEq, Repr

/-- An expression of the SIR. -/
inductive Expr where
  | symbolExpr (symbol : SymbolId) (type : SType)
  | fieldExpr (base : Expr) (fieldIndex : ℕ) (type : SType)
  | indexExpr (base index : Expr) (type : SType)
  | deref (value : Expr) (type : SType)
  | addr (value : Expr) (type : SType)
  | coercionExpr (value : Expr) (type : SType)
  | callExpr (args : List Expr) (type : SType)
  -- Literals, operators, casts and everything else that makes a new value.
  | value (children : List Expr) (type : SType)

def Expr.type : Expr → SType
  | symbolExpr _ type | fieldExpr _ _ type | indexExpr _ _ type | deref _ type | addr _ type
  | coercionExpr _ type | callExpr _ type | value _ type => type

inductive Mutability where
  | MUTABLE | IMMUTABLE_REF
  deriving DecidableEq, Repr

/-- The mutability that `ExprPropertyAnalyzer` finds. -/
def analyzeMutability : Expr → Mutability
  | .indexExpr base _ _ => analyzeMutability base
  | .fieldExpr base _ _ => analyzeMutability base
  | .coercionExpr value _ => analyzeMutability value
  | .deref value _ =>
    match value.type with
    | .reference false _ => .IMMUTABLE_REF
    | _ => .MUTABLE
  | _ => .MUTABLE

/-! ## What is reached through an immutable reference -/

/-- The place is reached through an immutable reference: it is what the reference is to, a part of
such a place, or what a reference in such a place is to. -/
inductive Immutable : Expr → Prop
  | deref {value : Expr} {base type : SType} (h : value.type = .reference false base) :
      Immutable (.deref value type)
  | nested {value : Expr} {base type : SType} (h : value.type = .reference true base)
      (hvalue : Immutable value) : Immutable (.deref value type)
  | field {base : Expr} {fieldIndex : ℕ} {type : SType} (h : Immutable base) :
      Immutable (.fieldExpr base fieldIndex type)
  | index {base index : Expr} {type : SType} (h : Immutable base) :
      Immutable (.indexExpr base index type)
  | coercion {value : Expr} {type : SType} (h : Immutable value) :
      Immutable (.coercionExpr value type)

/-- On the way to the place, a mutable reference is followed that is itself in a place reached
through an immutable reference. -/
inductive Nested : Expr → Prop
  | deref {value : Expr} {base type : SType} (h : value.type = .reference true base)
      (hvalue : Immutable value) : Nested (.deref value type)
  | field {base : Expr} {fieldIndex : ℕ} {type : SType} (h : Nested base) :
      Nested (.fieldExpr base fieldIndex type)
  | index {base index : Expr} {type : SType} (h : Nested base) :
      Nested (.indexExpr base index type)
  | coercion {value : Expr} {type : SType} (h : Nested value) : Nested (.coercionExpr value type)

theorem Nested.immutable {e : Expr} (h : Nested e) : Immutable e := by
  induction h with
  | deref h hvalue => exact .nested h hvalue
  | field _ ih => exact .field ih
  | index _ ih => exact .index ih
  | coercion _ ih => exact .coercion ih

theorem immutable_of_analyzeMutability {e : Expr} (h : analyzeMutability e = .IMMUTABLE_REF) :
    Immutable e := by
  induction e using analyzeMutability.induct with
  | case1 base index type ih => exact .index (ih h)
  | case2 base fieldIndex type ih => exact .field (ih h)
  | case3 value type ih => exact .coercion (ih h)
  | case4 value type base heq => exact .deref heq
  | case5 value type hne =>
    rw [analyzeMutability] at h
    split at h
    · rename_i base heq
      exact absurd heq (hne base)
    · cases h
  | case6 e hindex hfield hcoercion hderef =>
    cases e with
    | indexExpr base index type => exact absurd rfl (hindex base index type)
    | fieldExpr base fieldIndex type => exact absurd rfl (hfield base fieldIndex type)
    | coercionExpr value type => exact absurd rfl (hcoercion value type)
    | deref value type => exact absurd rfl (hderef value type)
    | _ => cases h

/-- The analyzer sees every immutable reference but those behind a mutable one. -/
theorem immutable_iff (e : Expr) :
    Immutable e ↔ analyzeMutability e = .IMMUTABLE_REF ∨ Nested e := by
  constructor
  · intro h
    induction h with
    | deref h =>
      left
      rw [analyzeMutability, h]
    | nested h hvalue => exact Or.inr (.deref h hvalue)
    | field _ ih => exact ih.imp id .field
    | index _ ih => exact ih.imp id .index
    | coercion _ ih => exact ih.imp id .coercion
  · rintro (h | h)
    · exact immutable_of_analyzeMutability h
    · exact h.immutable

/-!
## What function bodies get access to

The analysis of expressions and statements. Names and types are resolved by the environment; what is
recorded are the accesses for writing: assignments, pointers and mutable references.
-/

inductive AccessKind where
  | ASSIGN | POINTER | COERCION
  -- A `ref mut` expression.
  | REF_MUT
  -- A `mut self` method that is called on a generic type.
  | GENERIC_SELF
  -- The argument of `__builtin_pointer_to`.
  | POINTER_TO
  deriving DecidableEq, Repr

structure Access where
  kind : AccessKind
  operand : Expr

/-- The state has the accesses so far. There is no result when an error is reported. -/
abbrev AnalyzerM := StateT (List Access) Option

def form (kind : AccessKind) (operand : Expr) : AnalyzerM Unit :=
  modify fun accesses ↦ accesses ++ [⟨kind, operand⟩]

structure Signature where
  params : List SType
  returnType : SType

/-- What a value becomes that is used as another type. -/
inductive Conversion where
  | COERCION | NEW_VALUE

/-- What the symbol tables say. The parameters of a method begin with `self`. -/
structure Env where
  findField : SType → String → Option (ℕ × SType)
  method : SType → String → Option Signature
  /-- A method of a constraint of a generic parameter, and whether its `self` is mutable. -/
  genericMethod : SymbolId → String → Option (Signature × Bool)
  opDeref : SymbolId → Option Signature
  opIndex : SymbolId → Option Signature
  opMutIndex : SymbolId → Option Signature
  conversion : SType → SType → Option Conversion

inductive RawExpr where
  | ident (symbol : SymbolId) (type : SType)
  | star (value : RawExpr)
  | dot (lhs : RawExpr) (rhs : String)
  | bracket (lhs index : RawExpr)
  | addr (value : RawExpr)
  | ref (value : RawExpr)
  | refMut (value : RawExpr)
  | call (callee : RawExpr) (args : List RawExpr) (signature : Signature)
  | methodCall (lhs : RawExpr) (rhs : String) (args : List RawExpr)
  | pointerTo (value : RawExpr)
  -- Any other expression. The operands are coerced to types where the expression says which.
  | value (operands : List RawExpr) (expected : List (Option SType)) (type : SType)

variable (env : Env)

/-! ## Coercions -/

/-- A place that must not be written is an error. -/
def checkMutable (kind : AccessKind) (operand : Expr) : AnalyzerM Unit :=
  if analyzeMutability operand = .IMMUTABLE_REF then failure else form kind operand

def convert (expr : Expr) (expected : SType) : AnalyzerM Expr :=
  match env.conversion expr.type expected with
  | some .COERCION => return .coercionExpr expr expected
  | some .NEW_VALUE => return .value [expr] expected
  | none => failure

/-- `finalize_by_coercion`, with `coerce_to_reference`. -/
def finalizeByCoercion (expr : Expr) : SType → AnalyzerM Expr
  | .reference mut_ base =>
    if expr.type = .reference mut_ base then return expr
    else
      match expr.type with
      | .pointer (.proto _) => return .coercionExpr expr (.reference mut_ base)
      | _ => do
        let value ← finalizeByCoercion expr base
        if mut_ then checkMutable .COERCION value
        return .addr value (.reference mut_ base)
  | expected => if expr.type = expected then return expr else convert env expr expected

def finalizeCallExprArgs : List Expr → List SType → AnalyzerM (List Expr)
  | [], [] => return []
  | arg :: args, param :: params => do
    let arg ← finalizeByCoercion env arg param
    let args ← finalizeCallExprArgs args params
    return arg :: args
  | _, _ => failure

def finalizeOperands : List Expr → List (Option SType) → AnalyzerM (List Expr)
  | [], _ => return []
  | operand :: operands, some type :: expected => do
    let operand ← finalizeByCoercion env operand type
    let operands ← finalizeOperands operands expected
    return operand :: operands
  | operand :: operands, expected => do
    let operands ← finalizeOperands operands expected.tail
    return operand :: operands

/-! ## Expressions -/

/-- A value of a reference type stands for what it refers to. -/
def autoDeref (expr : Expr) : Expr :=
  match expr.type with
  | .reference _ base => .deref expr base
  | _ => expr

/-- Pointers are followed to a struct. -/
def stripPointers (isCallee : Bool) (expr : Expr) : SType → Expr
  | .pointer (.proto id) =>
    if isCallee then expr else .deref expr (.proto id)
  | .pointer base => stripPointers isCallee (.deref expr base) base
  | _ => expr

def analyzeCall (args : List Expr) (signature : Option Signature) : AnalyzerM Expr :=
  match signature with
  | some signature => do
    let args ← finalizeCallExprArgs env args signature.params
    return .callExpr args signature.returnType
  | none => failure

/-- A method of the type of `lhs`. On a generic type, `self` becomes an immutable reference. -/
def analyzeMethodCall (lhs : Expr) (rhs : String) (args : List Expr) : AnalyzerM Expr :=
  match lhs.type with
  | .genericParam param =>
    match env.genericMethod param rhs with
    | some (signature, isSelfMut) => do
      if isSelfMut then form .GENERIC_SELF lhs
      let args ← finalizeCallExprArgs env (lhs :: args)
        (.reference false (.genericParam param) :: signature.params.tail)
      return .callExpr args signature.returnType
    | none => failure
  | type => analyzeCall env (lhs :: args) (env.method type rhs)

/-- Indexing a struct that is mutable prefers the operator for mutable indexing. -/
def analyzeBracket (lhs index : Expr) : AnalyzerM Expr :=
  match lhs.type with
  | .pointer base | .staticArray base => return .indexExpr lhs index base
  | .struct_ id =>
    if analyzeMutability lhs = .MUTABLE then
      analyzeCall env [lhs, index] ((env.opMutIndex id).or (env.opIndex id))
    else analyzeCall env [lhs, index] (env.opIndex id)
  | _ => failure

def analyzeStar (value : Expr) : AnalyzerM Expr :=
  match value.type with
  | .struct_ id => analyzeCall env [value] (env.opDeref id)
  | .pointer base | .reference _ base => return .deref value base
  | _ => failure

def analyzeDot (lhs : Expr) (rhs : String) : AnalyzerM Expr :=
  let lhs := stripPointers false lhs lhs.type
  match env.findField lhs.type rhs with
  | some (fieldIndex, type) => return .fieldExpr lhs fieldIndex type
  | none => failure

mutual

def analyzeUncoerced : RawExpr → AnalyzerM Expr
  | .ident symbol type => return autoDeref (.symbolExpr symbol type)
  | .star value => do return autoDeref (← analyzeStar env (← analyzeUncoerced value))
  | .dot lhs rhs => do return autoDeref (← analyzeDot env (← analyzeUncoerced lhs) rhs)
  | .bracket lhs index => do
    let lhs ← analyzeUncoerced lhs
    let index ← analyzeUncoerced index
    return autoDeref (← analyzeBracket env lhs index)
  | .addr value => do
    let value ← analyzeUncoerced value
    checkMutable .POINTER value
    return .addr value (.pointer value.type)
  | .ref value => do
    let value ← analyzeUncoerced value
    return .addr value (.reference false value.type)
  | .refMut value => do
    let value ← analyzeUncoerced value
    form .REF_MUT value
    return .addr value (.reference true value.type)
  | .call callee args signature => do
    let _ ← analyzeUncoerced callee
    let args ← analyzeList args
    return autoDeref (← analyzeCall env args (some signature))
  | .methodCall lhs rhs args => do
    let lhs ← analyzeUncoerced lhs
    let args ← analyzeList args
    return autoDeref (← analyzeMethodCall env (stripPointers true lhs lhs.type) rhs args)
  | .pointerTo value => do
    let value ← analyzeUncoerced value
    form .POINTER_TO value
    return .addr value (.pointer value.type)
  | .value operands expected type => do
    let operands ← analyzeList operands
    return autoDeref (.value (← finalizeOperands env operands expected) type)

def analyzeList : List RawExpr → AnalyzerM (List Expr)
  | [] => return []
  | raw :: raws => do
    let expr ← analyzeUncoerced raw
    let exprs ← analyzeList raws
    return expr :: exprs

end

/-- `analyze_value` with the type that is expected. -/
def analyzeValue (raw : RawExpr) (expected : SType) : AnalyzerM Expr := do
  finalizeByCoercion env (← analyzeUncoerced env raw) expected

/-! ## Statements -/

/-- A statement, after `while`, `for` and `try` are rewritten. A variable without a type that is
declared as `ref` or `ref mut` is a `refStmt`. -/
inductive RawStmt where
  | varStmt (type : Option SType) (value : Option RawExpr)
  | refStmt (mut_ : Bool) (value : RawExpr)
  | assignStmt (lhs rhs : RawExpr)
  | compAssignStmt (lhs rhs : RawExpr) (type : SType)
  | returnStmt (value : Option RawExpr) (returnType : SType)
  | ifStmt (condition : RawExpr) (block elseBlock : List RawStmt)
  | switchStmt (value : RawExpr) (branches : List RawStmt)
  | loopStmt (condition : RawExpr) (block latch : List RawStmt)
  | exprStmt (expr : RawExpr)
  | blockStmt (block : List RawStmt)

def analyzeVarStmt : Option SType → Option RawExpr → AnalyzerM Unit
  | _, none => return
  | some type, some value => do
    let _ ← analyzeValue env value type
  | none, some value => do
    let _ ← analyzeUncoerced env value

def analyzeRefStmt (mut_ : Bool) (value : RawExpr) : AnalyzerM Unit := do
  let value ← analyzeUncoerced env value
  let _ ← finalizeByCoercion env value (.reference mut_ value.type)

def analyzeAssignStmt (lhs rhs : RawExpr) : AnalyzerM Unit := do
  let lhs ← analyzeUncoerced env lhs
  checkMutable .ASSIGN lhs
  let _ ← analyzeValue env rhs lhs.type

/-- `lhs op= rhs` is `lhs = lhs op rhs`. -/
def analyzeCompAssignStmt (lhs rhs : RawExpr) (type : SType) : AnalyzerM Unit :=
  analyzeAssignStmt env lhs (.value [lhs, rhs] [] type)

mutual

def analyzeStmt : RawStmt → AnalyzerM Unit
  | .varStmt type value => analyzeVarStmt env type value
  | .refStmt mut_ value => analyzeRefStmt env mut_ value
  | .assignStmt lhs rhs => analyzeAssignStmt env lhs rhs
  | .compAssignStmt lhs rhs type => analyzeCompAssignStmt env lhs rhs type
  | .returnStmt value returnType => analyzeVarStmt env (some returnType) value
  | .ifStmt condition block elseBlock => do
    let _ ← analyzeUncoerced env condition
    analyzeBlock block
    analyzeBlock elseBlock
  | .switchStmt value branches => do
    let _ ← analyzeUncoerced env value
    analyzeBlock branches
  | .loopStmt condition block latch => do
    let _ ← analyzeUncoerced env condition
    analyzeBlock block
    analyzeBlock latch
  | .exprStmt expr => do
    let _ ← analyzeUncoerced env expr
  | .blockStmt block => analyzeBlock block

def analyzeBlock : List RawStmt → AnalyzerM Unit
  | [] => return
  | stmt :: stmts => do
    analyzeStmt stmt
    analyzeBlock stmts

end

/-- The accesses of a function body that is accepted. -/
def analyzeBody (body : List RawStmt) : Option (List Access) :=
  (analyzeBlock env body []).map Prod.snd

end Banjo.Sema.AccessCheck
