import Mathlib.Data.List.Basic
import Mathlib.Algebra.Order.Group.Int

/-!
# Types and generic arguments

A type is an expression. What the comparison of expressions does not look at is left out: the nodes
of the syntax tree, the types of the expressions themselves, the names and attributes of parameters
and the struct behind a closure. So two expressions that compare equal are the same one.
-/

namespace Banjo.SIR.Types

inductive Primitive where
  | i8 | i16 | i32 | i64 | u8 | u16 | u32 | u64 | usize | f32 | f64 | bool | addr | void
  deriving DecidableEq, Repr

inductive GenericParamKind where
  | type
  | sequence
  deriving DecidableEq, Repr

/-- A generic parameter is known by its address. -/
structure GenericParam where
  address : ℕ
  kind : GenericParamKind := .type
  deriving DecidableEq, Repr

inductive Symbol where
  | genericParam (param : GenericParam)
  /-- Every other symbol, by its address. -/
  | other (address : ℕ)
  deriving DecidableEq, Repr

inductive Expr where
  /-- No expression. -/
  | empty
  | intLiteral (value : ℤ)
  | symbolExpr (symbol : Symbol)
  | tupleExpr (exprs : List Expr)
  | specializeExpr (symbol : Symbol) (args : List Expr)
  | primitiveType (primitive : Primitive)
  | pointerType (baseType : Expr)
  | staticArrayType (baseType length : Expr)
  | funcType (params : List Expr) (returnType : Expr)
  | closureType (params : List Expr) (returnType : Expr)
  | referenceType (isMut : Bool) (baseType : Expr)
  | metaAccess (expr : Expr)
  | metaFieldExpr (base : Expr) (field : String)
  /-- An expression of a kind that no expression compares equal to. -/
  | unequal (kind address : ℕ)
  deriving Repr

namespace Expr

/-- The negation of `operator bool` -/
def isEmpty : Expr → Bool
  | empty => true
  | _ => false

theorem isEmpty_iff {expr : Expr} : expr.isEmpty = true ↔ expr = empty := by
  cases expr <;> simp [isEmpty]

end Expr

/-! ## Comparison -/

mutual

def compare : Expr → Expr → Bool
  | .empty, .empty => true
  | .intLiteral value, .intLiteral value' => value = value'
  | .symbolExpr symbol, .symbolExpr symbol' => symbol = symbol'
  | .tupleExpr exprs, .tupleExpr exprs' => compareList exprs exprs'
  | .specializeExpr symbol args, .specializeExpr symbol' args' =>
    symbol = symbol' && compareList args args'
  | .primitiveType primitive, .primitiveType primitive' => primitive = primitive'
  | .pointerType base, .pointerType base' => compare base base'
  | .staticArrayType base length, .staticArrayType base' length' =>
    compare base base' && compare length length'
  | .funcType params returnType, .funcType params' returnType' =>
    compareList params params' && compare returnType returnType'
  | .closureType params returnType, .closureType params' returnType' =>
    compareList params params' && compare returnType returnType'
  | .referenceType isMut base, .referenceType isMut' base' => isMut = isMut' && compare base base'
  | .metaAccess expr, .metaAccess expr' => compare expr expr'
  | .metaFieldExpr base field, .metaFieldExpr base' field' => compare base base' && field = field'
  | _, _ => false

def compareList : List Expr → List Expr → Bool
  | [], [] => true
  | expr :: exprs, expr' :: exprs' => compare expr expr' && compareList exprs exprs'
  | _, _ => false

end

mutual

theorem eq_of_compare {expr expr' : Expr} (h : compare expr expr' = true) : expr = expr' := by
  cases expr <;> cases expr' <;> simp only [compare, Bool.and_eq_true, decide_eq_true_eq,
    Bool.false_eq_true] at h
  case empty.empty => rfl
  case intLiteral.intLiteral => rw [h]
  case symbolExpr.symbolExpr => rw [h]
  case tupleExpr.tupleExpr => rw [eq_of_compareList h]
  case specializeExpr.specializeExpr => rw [h.1, eq_of_compareList h.2]
  case primitiveType.primitiveType => rw [h]
  case pointerType.pointerType => rw [eq_of_compare h]
  case staticArrayType.staticArrayType => rw [eq_of_compare h.1, eq_of_compare h.2]
  case funcType.funcType => rw [eq_of_compareList h.1, eq_of_compare h.2]
  case closureType.closureType => rw [eq_of_compareList h.1, eq_of_compare h.2]
  case referenceType.referenceType => rw [h.1, eq_of_compare h.2]
  case metaAccess.metaAccess => rw [eq_of_compare h]
  case metaFieldExpr.metaFieldExpr => rw [eq_of_compare h.1, h.2]

theorem eq_of_compareList {exprs exprs' : List Expr} (h : compareList exprs exprs' = true) :
    exprs = exprs' := by
  cases exprs <;> cases exprs' <;> simp only [compareList, Bool.and_eq_true,
    Bool.false_eq_true] at h
  case nil.nil => rfl
  case cons.cons => rw [eq_of_compare h.1, eq_of_compareList h.2]

end

/-! ## Specialization -/

/-- The argument of a generic parameter. A parameter that is none of these is asserted not to
occur. -/
def lookup : List GenericParam → List Expr → GenericParam → Option Expr
  | param :: params, arg :: args, genericParam =>
    if param = genericParam then some arg else lookup params args genericParam
  | _, _, _ => none

section Specializer

variable (params : List GenericParam) (args : List Expr)

mutual

/-- `Specializer::specialize_expr` -/
def specializeExpr : Expr → Option Expr
  | .symbolExpr (.genericParam param) => lookup params args param
  | .tupleExpr exprs => do return .tupleExpr (← specializeExprList exprs)
  | .specializeExpr symbol args => do return .specializeExpr symbol (← specializeExprList args)
  | .pointerType base => do
    let base' ← specializeExpr base
    return if compare base' base then .pointerType base else .pointerType base'
  | .staticArrayType base length => do
    let base' ← specializeExpr base
    return if compare base' base then .staticArrayType base length
      else .staticArrayType base' length
  | .funcType params returnType => do
    return .funcType (← specializeExprList params) (← specializeExpr returnType)
  | .closureType params returnType => do
    return .closureType (← specializeExprList params) (← specializeExpr returnType)
  | .referenceType isMut base => do
    let base' ← specializeExpr base
    return if compare base' base then .referenceType isMut base else .referenceType isMut base'
  | expr => some expr

def specializeExprList : List Expr → Option (List Expr)
  | [] => some []
  | expr :: exprs => do return (← specializeExpr expr) :: (← specializeExprList exprs)

end

attribute [local simp] specializeExpr specializeExprList

variable (exprs : List Expr)

theorem specializeExpr_tupleExpr :
    specializeExpr params args (.tupleExpr exprs) =
      (specializeExprList params args exprs).map .tupleExpr := by
  rw [specializeExpr]
  cases specializeExprList params args exprs <;> rfl

theorem specializeExpr_specializeExpr (symbol : Symbol) (exprs : List Expr) :
    specializeExpr params args (.specializeExpr symbol exprs) =
      (specializeExprList params args exprs).map (.specializeExpr symbol) := by
  rw [specializeExpr]
  cases specializeExprList params args exprs <;> rfl

theorem specializeExpr_closureType (returnType : Expr) :
    specializeExpr params args (.closureType exprs returnType) =
      (specializeExprList params args exprs).bind fun exprs' ↦
        (specializeExpr params args returnType).map (.closureType exprs') := by
  rw [specializeExpr]
  cases specializeExprList params args exprs <;> cases specializeExpr params args returnType <;> rfl

theorem specializeExprList_cons (expr : Expr) (exprs : List Expr) :
    specializeExprList params args (expr :: exprs) =
      (specializeExpr params args expr).bind fun expr' ↦
        (specializeExprList params args exprs).map (expr' :: ·) := by
  rw [specializeExprList]
  cases specializeExpr params args expr <;> cases specializeExprList params args exprs <;> rfl

variable (base : Expr)

theorem specializeExpr_pointerType : specializeExpr params args (.pointerType base) =
    (specializeExpr params args base).map .pointerType := by
  rw [specializeExpr]
  cases hbase : specializeExpr params args base with
  | none => rfl
  | some base' =>
    change some (if _ then _ else _) = _
    split_ifs with h
    · rw [eq_of_compare h]
      rfl
    · rfl

theorem specializeExpr_referenceType (isMut : Bool) (base : Expr) :
    specializeExpr params args (.referenceType isMut base) =
      (specializeExpr params args base).map (.referenceType isMut) := by
  rw [specializeExpr]
  cases hbase : specializeExpr params args base with
  | none => rfl
  | some base' =>
    change some (if _ then _ else _) = _
    split_ifs with h
    · rw [eq_of_compare h]
      rfl
    · rfl

theorem specializeExpr_staticArrayType (length : Expr) :
    specializeExpr params args (.staticArrayType base length) =
      (specializeExpr params args base).map (.staticArrayType · length) := by
  rw [specializeExpr]
  cases hbase : specializeExpr params args base with
  | none => rfl
  | some base' =>
    change some (if _ then _ else _) = _
    split_ifs with h
    · rw [eq_of_compare h]
      rfl
    · rfl

end Specializer

variable {args : List Expr} {param : GenericParam} {params : List GenericParam}

theorem lookup_eq_some {arg : Expr} (h : lookup params args param = some arg) :
    ∃ i : ℕ, params[i]? = some param ∧ args[i]? = some arg := by
  induction params generalizing args with
  | nil => cases h
  | cons param' params ih =>
    cases args with
    | nil => cases h
    | cons arg' args =>
      rw [lookup] at h
      split_ifs at h with heq
      · exact ⟨0, by rw [heq]; rfl, h⟩
      · obtain ⟨i, hparam, harg⟩ := ih h
        exact ⟨i + 1, hparam, harg⟩

theorem exists_lookup (hlength : args.length = params.length) (hmem : param ∈ params) :
    ∃ arg, lookup params args param = some arg := by
  induction params generalizing args with
  | nil => cases hmem
  | cons param' params ih =>
    obtain ⟨arg, args, rfl⟩ := List.exists_cons_of_length_eq_add_one hlength
    rw [lookup]
    split_ifs with heq
    · exact ⟨arg, rfl⟩
    · exact ih (by simpa using hlength)
        ((List.mem_cons.mp hmem).resolve_left fun h ↦ heq h.symm)

/-! ## Specialization in two steps -/

section Steps

variable {args' outerArgs : List Expr} {outerParams : List GenericParam}

theorem lookup_specialized {arg : Expr}
    (hargs : specializeExprList outerParams outerArgs args = some args')
    (h : lookup params args param = some arg) :
    lookup params args' param = specializeExpr outerParams outerArgs arg := by
  induction params generalizing args args' with
  | nil => cases h
  | cons param' params ih =>
    cases args with
    | nil => cases h
    | cons arg' args =>
      rw [specializeExprList_cons] at hargs
      obtain ⟨first, hfirst, hmap⟩ := Option.bind_eq_some_iff.mp hargs
      obtain ⟨rest, hrest, rfl⟩ := Option.map_eq_some_iff.mp hmap
      rw [lookup] at h ⊢
      split_ifs at h ⊢
      · rw [← Option.some.inj h, hfirst]
      · exact ih hrest h

mutual

/-- **Specialization composes**: with specialized arguments it is specialization twice. -/
theorem specializeExpr_specialized {expr expr' : Expr}
    (hargs : specializeExprList outerParams outerArgs args = some args')
    (h : specializeExpr params args expr = some expr') :
    specializeExpr params args' expr = specializeExpr outerParams outerArgs expr' := by
  cases expr
  case tupleExpr | specializeExpr =>
    simp only [specializeExpr_tupleExpr, specializeExpr_specializeExpr] at h ⊢
    obtain ⟨exprs', hexprs, rfl⟩ := Option.map_eq_some_iff.mp h
    simp only [specializeExpr_tupleExpr, specializeExpr_specializeExpr,
      specializeExprList_specialized hargs hexprs]
  case funcType | closureType =>
    rw [specializeExpr] at h ⊢
    obtain ⟨params', hparams, h⟩ := Option.bind_eq_some_iff.mp h
    obtain ⟨returnType', hreturnType, h⟩ := Option.bind_eq_some_iff.mp h
    obtain rfl := Option.some.inj h
    rw [specializeExpr, specializeExprList_specialized hargs hparams,
      specializeExpr_specialized hargs hreturnType]
  case pointerType | referenceType | staticArrayType =>
    simp only [specializeExpr_pointerType, specializeExpr_referenceType,
      specializeExpr_staticArrayType] at h ⊢
    obtain ⟨base', hbase, rfl⟩ := Option.map_eq_some_iff.mp h
    simp only [specializeExpr_pointerType, specializeExpr_referenceType,
      specializeExpr_staticArrayType, specializeExpr_specialized hargs hbase]
  case symbolExpr symbol =>
    cases symbol with
    | genericParam => exact lookup_specialized hargs h
    | other => cases h; rfl
  all_goals cases h; rfl

theorem specializeExprList_specialized {exprs exprs' : List Expr}
    (hargs : specializeExprList outerParams outerArgs args = some args')
    (h : specializeExprList params args exprs = some exprs') :
    specializeExprList params args' exprs = specializeExprList outerParams outerArgs exprs' := by
  cases exprs with
  | nil => cases h; rfl
  | cons expr exprs =>
    rw [specializeExprList_cons] at h
    obtain ⟨expr', hexpr, h⟩ := Option.bind_eq_some_iff.mp h
    obtain ⟨exprs', hexprs, rfl⟩ := Option.map_eq_some_iff.mp h
    rw [specializeExprList_cons, specializeExprList_cons, specializeExpr_specialized hargs hexpr,
      specializeExprList_specialized hargs hexprs]

end

/-- `*T` where `T` is another generic parameter, whose argument is `i8` -/
theorem specializeExpr_specialized_pointerType :
    specializeExpr [⟨0, .type⟩] [.primitiveType .i8]
        (.pointerType (.symbolExpr (.genericParam ⟨0, .type⟩))) =
      specializeExpr [⟨1, .type⟩] [.primitiveType .i8]
        (.pointerType (.symbolExpr (.genericParam ⟨1, .type⟩))) :=
  have hargs : specializeExprList [⟨1, .type⟩] [.primitiveType .i8]
      [.symbolExpr (.genericParam ⟨1, .type⟩)] = some [.primitiveType .i8] := rfl
  specializeExpr_specialized hargs rfl

end Steps

end Banjo.SIR.Types
