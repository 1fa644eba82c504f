import Banjo.Sema.GenericArgInference

/-!
# Inferred arguments fit the call

A successful inference has come to every occurrence without a conflict, so the arguments stand at
all of them. Substitution depends on nothing else: if there are any arguments that turn the type of
a parameter into the type of its argument, then the inferred ones do.
-/

open Option (map_eq_some_iff bind_eq_some_iff)

namespace Banjo.Sema.GenericArgInference

open SIR.Types

/-! ## Substitution -/

mutual

/-- There is no generic parameter where the specializer looks. -/
def Closed : Expr → Prop
  | .symbolExpr (.genericParam _) => False
  | .tupleExpr exprs => ClosedList exprs
  | .specializeExpr _ args => ClosedList args
  | .pointerType base => Closed base
  | .staticArrayType base _ => Closed base
  | .funcType params returnType => ClosedList params ∧ Closed returnType
  | .closureType params returnType => ClosedList params ∧ Closed returnType
  | .referenceType _ base => Closed base
  | _ => True

def ClosedList : List Expr → Prop
  | [] => True
  | expr :: exprs => Closed expr ∧ ClosedList exprs

end

mutual

/-- Generic parameters only stand where the inference looks, which are not the static arrays and the
types of functions. -/
def Reached : Expr → Prop
  | .tupleExpr exprs => ReachedList exprs
  | .specializeExpr _ args => ReachedList args
  | .pointerType base => Reached base
  | .staticArrayType base _ => Closed base
  | .funcType params returnType => ClosedList params ∧ Closed returnType
  | .closureType params returnType => ReachedList params ∧ Reached returnType
  | .referenceType _ base => Reached base
  | _ => True

def ReachedList : List Expr → Prop
  | [] => True
  | expr :: exprs => Reached expr ∧ ReachedList exprs

end

section Substitution

variable {params : List GenericParam} {args args' : List Expr}

mutual

theorem specializeExpr_of_closed (expr : Expr) (h : Closed expr) :
    specializeExpr params args expr = some expr := by
  match expr with
  | .symbolExpr (.genericParam _) => exact h.elim
  | .tupleExpr exprs => rw [specializeExpr, specializeExprList_of_closed exprs h]; rfl
  | .specializeExpr _ args => rw [specializeExpr, specializeExprList_of_closed args h]; rfl
  | .pointerType base => rw [specializeExpr_pointerType, specializeExpr_of_closed base h]; rfl
  | .staticArrayType base _ =>
    rw [specializeExpr_staticArrayType, specializeExpr_of_closed base h]
    rfl
  | .funcType params returnType =>
    rw [specializeExpr, specializeExprList_of_closed params h.1,
      specializeExpr_of_closed returnType h.2]
    rfl
  | .closureType params returnType =>
    rw [specializeExpr, specializeExprList_of_closed params h.1,
      specializeExpr_of_closed returnType h.2]
    rfl
  | .referenceType _ base => rw [specializeExpr_referenceType, specializeExpr_of_closed base h]; rfl
  | .symbolExpr (.other _) | .empty | .intLiteral _ | .primitiveType _ | .metaAccess _
  | .metaFieldExpr _ _ | .unequal _ _ => rfl

theorem specializeExprList_of_closed (exprs : List Expr) (h : ClosedList exprs) :
    specializeExprList params args exprs = some exprs := by
  match exprs with
  | [] => rfl
  | expr :: exprs =>
    rw [specializeExprList, specializeExpr_of_closed expr h.1,
      specializeExprList_of_closed exprs h.2]
    rfl

end

mutual

/-- What stands at an occurrence is what has been substituted there. -/
theorem lookup_of_occurrences (expr argType : Expr)
    (h : specializeExpr params args expr = some argType) {occurrence : GenericParam × Expr}
    (hmem : occurrence ∈ occurrences expr argType) :
    lookup params args occurrence.1 = some occurrence.2 := by
  match expr with
  | .symbolExpr (.genericParam param) =>
    obtain rfl := List.mem_singleton.mp hmem
    exact h
  | .tupleExpr exprs =>
    rw [specializeExpr_tupleExpr] at h
    obtain ⟨exprs', hexprs, rfl⟩ := map_eq_some_iff.mp h
    exact lookup_of_occurrencesList exprs exprs' hexprs hmem
  | .specializeExpr symbol exprs =>
    rw [specializeExpr_specializeExpr] at h
    obtain ⟨exprs', hexprs, rfl⟩ := map_eq_some_iff.mp h
    exact lookup_of_occurrencesList exprs exprs' hexprs hmem
  | .pointerType base =>
    rw [specializeExpr_pointerType] at h
    obtain ⟨base', hbase, rfl⟩ := map_eq_some_iff.mp h
    exact lookup_of_occurrences base base' hbase hmem
  | .closureType exprs returnType =>
    rw [specializeExpr_closureType] at h
    obtain ⟨exprs', hexprs, hrest⟩ := bind_eq_some_iff.mp h
    obtain ⟨returnType', hreturn, rfl⟩ := map_eq_some_iff.mp hrest
    obtain hmem | hmem := List.mem_append.mp hmem
    · exact lookup_of_occurrencesList exprs exprs' hexprs hmem
    · exact lookup_of_occurrences returnType returnType' hreturn hmem
  | .referenceType isMut base =>
    rw [specializeExpr_referenceType] at h
    obtain ⟨base', hbase, rfl⟩ := map_eq_some_iff.mp h
    exact lookup_of_occurrences base base' hbase hmem
  | .symbolExpr (.other _) | .empty | .intLiteral _ | .primitiveType _ | .staticArrayType _ _
  | .funcType _ _ | .metaAccess _ | .metaFieldExpr _ _ | .unequal _ _ => cases hmem

theorem lookup_of_occurrencesList (exprs argTypes : List Expr)
    (h : specializeExprList params args exprs = some argTypes) {occurrence : GenericParam × Expr}
    (hmem : occurrence ∈ occurrencesList exprs argTypes) :
    lookup params args occurrence.1 = some occurrence.2 := by
  match exprs with
  | [] => cases hmem
  | expr :: exprs =>
    rw [specializeExprList_cons] at h
    obtain ⟨expr', hexpr, hrest⟩ := bind_eq_some_iff.mp h
    obtain ⟨exprs', hexprs, rfl⟩ := map_eq_some_iff.mp hrest
    obtain hmem | hmem := List.mem_append.mp hmem
    · exact lookup_of_occurrences expr expr' hexpr hmem
    · exact lookup_of_occurrencesList exprs exprs' hexprs hmem

end

mutual

/-- Arguments that are the same at the occurrences give the same type. -/
theorem specializeExpr_congr (expr argType : Expr) (hreached : Reached expr)
    (h : specializeExpr params args expr = some argType)
    (hsame : ∀ occurrence ∈ occurrences expr argType,
      lookup params args' occurrence.1 = some occurrence.2) :
    specializeExpr params args' expr = some argType := by
  match expr with
  | .symbolExpr (.genericParam param) => exact hsame (param, argType) List.mem_cons_self
  | .tupleExpr exprs =>
    rw [specializeExpr_tupleExpr] at h ⊢
    obtain ⟨exprs', hexprs, rfl⟩ := map_eq_some_iff.mp h
    rw [specializeExprList_congr exprs exprs' hreached hexprs hsame]
    rfl
  | .specializeExpr symbol exprs =>
    rw [specializeExpr_specializeExpr] at h ⊢
    obtain ⟨exprs', hexprs, rfl⟩ := map_eq_some_iff.mp h
    rw [specializeExprList_congr exprs exprs' hreached hexprs hsame]
    rfl
  | .pointerType base =>
    rw [specializeExpr_pointerType] at h ⊢
    obtain ⟨base', hbase, rfl⟩ := map_eq_some_iff.mp h
    rw [specializeExpr_congr base base' hreached hbase hsame]
    rfl
  | .staticArrayType base length =>
    have hclosed : Closed (.staticArrayType base length) := hreached
    rw [specializeExpr_of_closed _ hclosed] at h ⊢
    exact h
  | .funcType exprs returnType =>
    have hclosed : Closed (.funcType exprs returnType) := hreached
    rw [specializeExpr_of_closed _ hclosed] at h ⊢
    exact h
  | .closureType exprs returnType =>
    rw [specializeExpr_closureType] at h ⊢
    obtain ⟨exprs', hexprs, hrest⟩ := bind_eq_some_iff.mp h
    obtain ⟨returnType', hreturn, rfl⟩ := map_eq_some_iff.mp hrest
    rw [specializeExprList_congr exprs exprs' hreached.1 hexprs
      fun occurrence hmem ↦ hsame occurrence (List.mem_append_left _ hmem),
      specializeExpr_congr returnType returnType' hreached.2 hreturn
        fun occurrence hmem ↦ hsame occurrence (List.mem_append_right _ hmem)]
    rfl
  | .referenceType isMut base =>
    rw [specializeExpr_referenceType] at h ⊢
    obtain ⟨base', hbase, rfl⟩ := map_eq_some_iff.mp h
    rw [specializeExpr_congr base base' hreached hbase hsame]
    rfl
  | .symbolExpr (.other _) | .empty | .intLiteral _ | .primitiveType _ | .metaAccess _
  | .metaFieldExpr _ _ | .unequal _ _ => exact h

theorem specializeExprList_congr (exprs argTypes : List Expr) (hreached : ReachedList exprs)
    (h : specializeExprList params args exprs = some argTypes)
    (hsame : ∀ occurrence ∈ occurrencesList exprs argTypes,
      lookup params args' occurrence.1 = some occurrence.2) :
    specializeExprList params args' exprs = some argTypes := by
  match exprs with
  | [] => exact h
  | expr :: exprs =>
    rw [specializeExprList_cons] at h ⊢
    obtain ⟨expr', hexpr, hrest⟩ := bind_eq_some_iff.mp h
    obtain ⟨exprs', hexprs, rfl⟩ := map_eq_some_iff.mp hrest
    rw [specializeExpr_congr expr expr' hreached.1 hexpr
      fun occurrence hmem ↦ hsame occurrence (List.mem_append_left _ hmem),
      specializeExprList_congr exprs exprs' hreached.2 hexprs
        fun occurrence hmem ↦ hsame occurrence (List.mem_append_right _ hmem)]
    rfl

end

end Substitution

/-! ## Calls -/

/-- A parameter without its references when the argument is none. -/
def unwrap : Expr → Expr → Expr
  | .referenceType isMut base, .referenceType _ _ => .referenceType isMut base
  | .referenceType _ base, argType => unwrap base argType
  | paramType, _ => paramType

theorem occurrences_unwrap (paramType argType : Expr) :
    occurrences (unwrap paramType argType) argType = occurrences paramType argType := by
  match paramType with
  | .referenceType isMut base =>
    cases argType with
    | referenceType => rfl
    | _ => exact occurrences_unwrap base _
  | .symbolExpr _ | .tupleExpr _ | .specializeExpr _ _ | .pointerType _ | .closureType _ _ | .empty
  | .intLiteral _ | .primitiveType _ | .staticArrayType _ _ | .funcType _ _ | .metaAccess _
  | .metaFieldExpr _ _ | .unequal _ _ => rfl

theorem Reached.unwrap {paramType : Expr} (h : Reached paramType) (argType : Expr) :
    Reached (unwrap paramType argType) := by
  match paramType with
  | .referenceType isMut base =>
    have hbase : Reached base := h
    cases argType with
    | referenceType => exact h
    | _ => exact hbase.unwrap _
  | .symbolExpr _ | .tupleExpr _ | .specializeExpr _ _ | .pointerType _ | .closureType _ _ | .empty
  | .intLiteral _ | .primitiveType _ | .staticArrayType _ _ | .funcType _ _ | .metaAccess _
  | .metaFieldExpr _ _ | .unequal _ _ => exact h

/-- The occurrences of a call, without those of arguments that have no type. -/
def callOccurrences (pairs : List (Expr × Expr)) : List (GenericParam × Expr) :=
  (pairs.filter fun pair ↦ !pair.2.isEmpty).flatMap fun pair ↦ occurrences pair.1 pair.2

theorem binds_of_inferParams {curArg : ℕ} {params argTypes : List Expr} {state state' : State}
    (h : inferParams curArg params argTypes state = (.success, state')) :
    Binds (callOccurrences (params.zip argTypes)) state state' := by
  induction params generalizing curArg argTypes state with
  | nil => simpa [inferParams, callOccurrences, Binds] using h
  | cons param params ih =>
    cases argTypes with
    | nil => simpa [inferParams, callOccurrences, Binds] using h
    | cons argType argTypes =>
      rw [inferParams] at h
      split_ifs at h with hempty
      · simpa [callOccurrences, hempty] using ih h
      · obtain ⟨hmerge, rfl⟩ := Prod.mk.inj h
        obtain ⟨hparam, hparams⟩ := Result.merge_eq_success hmerge
        have hbinds := (binds_of_infer param argType (Prod.ext hparam rfl)).append
          (ih (Prod.ext hparams rfl))
        simpa [callOccurrences, hempty] using hbinds

section Function

variable (genericParams : List GenericParam) (params argTypes genericArgs : List Expr)

/-- The generic parameter that takes the types of the remaining arguments. -/
def IsSequence (param : GenericParam) : Prop :=
  hasSequence genericParams = true ∧ genericParams.getLast? = some param

/-- The inference succeeds with these arguments. -/
def Inferred : Prop :=
  ∃ reports, inferCall genericParams params argTypes = (.success, genericArgs, reports)

/-- A parameter that is not the sequence, and the type of its argument. -/
def Passed (paramType argType : Expr) : Prop :=
  (paramType, argType) ∈ (params.take (nonSequenceEnd genericParams params)).zip argTypes ∧
    argType ≠ .empty

/-- What the generic arguments have to do with a call. -/
structure Consistent : Prop where
  length_eq : genericArgs.length = genericParams.length
  bound : ∀ arg ∈ genericArgs, arg ≠ .empty
  /-- Where a generic parameter stands its argument stands. -/
  occurrence : ∀ {paramType argType}, Passed genericParams params argTypes paramType argType →
    ∀ occurrence ∈ occurrences paramType argType, occurrence.1 ∈ genericParams →
      ¬IsSequence genericParams occurrence.1 → occurrence.2 ≠ .empty →
        lookup genericParams genericArgs occurrence.1 = some occurrence.2
  sequence : ∀ {param}, IsSequence genericParams param → param ∉ genericParams.dropLast →
    lookup genericParams genericArgs param =
      some (.tupleExpr (argTypes.drop (nonSequenceEnd genericParams params)))
  /-- A type that can be had by substitution is had by these arguments. -/
  substituted : ∀ {paramType argType}, Passed genericParams params argTypes paramType argType →
    Reached paramType →
    (∀ occurrence ∈ occurrences paramType argType, ¬IsSequence genericParams occurrence.1) →
    (∃ args, (∀ arg ∈ args, arg ≠ .empty) ∧
      specializeExpr genericParams args (unwrap paramType argType) = some argType) →
    specializeExpr genericParams genericArgs (unwrap paramType argType) = some argType

variable {genericParams params argTypes genericArgs}

theorem map_param_withSequence (slots : List Slot) :
    (withSequence genericParams params argTypes slots).map Slot.param = slots.map Slot.param := by
  rw [withSequence]
  split_ifs
  · obtain rfl | ⟨slots, slot, rfl⟩ := List.eq_nil_or_concat slots
    · rfl
    · simp
  · rfl

/-- What an inference that succeeds has done. -/
theorem exists_binds (h : Inferred genericParams params argTypes genericArgs) :
    ∃ state, Binds (callOccurrences
        ((params.take (nonSequenceEnd genericParams params)).zip argTypes))
        { slots := genericParams.map fun param ↦ { param } } state ∧
      genericArgs = (withSequence genericParams params argTypes state.slots).map Slot.arg ∧
      ∀ arg ∈ genericArgs, arg ≠ .empty := by
  obtain ⟨reports, h⟩ := h
  rw [inferCall] at h
  split_ifs at h with htooFew
  · cases h
  generalize hrun : inferParams 0 (params.take (nonSequenceEnd genericParams params)) argTypes
    { slots := genericParams.map fun param ↦ { param } } = run at h
  obtain ⟨result, state⟩ := run
  dsimp only at h
  split_ifs at h with hunbound
  · obtain ⟨rfl, hrest⟩ := Prod.mk.inj h
    obtain ⟨rfl, -⟩ := Prod.mk.inj hrest
    refine ⟨state, binds_of_inferParams hrun, rfl, fun arg hmem heq ↦ ?_⟩
    obtain ⟨slot, hslot, rfl⟩ := List.mem_map.mp hmem
    have hunbound' := List.filter_eq_nil_iff.mp (List.isEmpty_iff.mp hunbound) slot hslot
    exact hunbound' (Expr.isEmpty_iff.mpr heq)
  · cases h

theorem lookup_of_bound {slots : List Slot} (hparams : slots.map Slot.param = genericParams)
    {param : GenericParam} (hmem : param ∈ genericParams)
    (hsequence : ¬IsSequence genericParams param) {argType : Expr}
    (hbound : Bound slots param argType) :
    lookup genericParams ((withSequence genericParams params argTypes slots).map Slot.arg) param =
      some argType := by
  have hparams' : (withSequence genericParams params argTypes slots).map
    Slot.param = genericParams :=
    (map_param_withSequence slots).trans hparams
  have hlength : ((withSequence genericParams params argTypes slots).map Slot.arg).length =
      genericParams.length := by
    rw [List.length_map, ← congrArg List.length hparams', List.length_map]
  obtain ⟨arg, harg⟩ := exists_lookup hlength hmem
  obtain ⟨i, hi, hi'⟩ := lookup_eq_some harg
  rw [List.getElem?_map] at hi'
  obtain ⟨slot, hslot, rfl⟩ := map_eq_some_iff.mp hi'
  have hparam : slot.param = param := by
    have hget : (List.map Slot.param (withSequence genericParams params argTypes slots))[i]? =
        some param := by rw [hparams', hi]
    rw [List.getElem?_map, hslot] at hget
    exact Option.some.inj hget
  have hslot' := List.mem_of_getElem? hslot
  rw [withSequence] at hslot'
  split_ifs at hslot' with hhas
  · obtain hslot' | hslot' := List.mem_append.mp hslot'
    · rw [harg, hbound slot (List.dropLast_subset _ hslot') hparam]
    · -- The last generic parameter is the sequence.
      refine absurd ⟨hhas, ?_⟩ hsequence
      obtain ⟨last, hlast, rfl⟩ := List.mem_map.mp hslot'
      rw [← hparams, List.getLast?_map, Option.mem_toList.mp hlast, Option.map_some, ← hparam]
  · rw [harg, hbound slot hslot' hparam]

theorem lookup_append_of_not_mem {init : List GenericParam} {args : List Expr}
    (hlength : args.length = init.length) {param : GenericParam} (hmem : param ∉ init)
    (arg : Expr) : lookup (init ++ [param]) (args ++ [arg]) param = some arg := by
  induction init generalizing args with
  | nil =>
    obtain rfl := List.length_eq_zero_iff.mp hlength
    simp [lookup]
  | cons param' init ih =>
    obtain ⟨arg', args, rfl⟩ := List.exists_cons_of_length_eq_add_one hlength
    rw [List.mem_cons, not_or] at hmem
    rw [List.cons_append, List.cons_append, lookup, if_neg (Ne.symm hmem.1)]
    exact ih (by simpa using hlength) hmem.2

theorem consistent_of_inferred (h : Inferred genericParams params argTypes genericArgs) :
    Consistent genericParams params argTypes genericArgs := by
  obtain ⟨state, hbinds, rfl, hbound⟩ := exists_binds h
  have hparams : state.slots.map Slot.param = genericParams := by
    rw [hbinds.map_param]
    simp [Function.comp_def]
  have hlength : (withSequence genericParams params argTypes state.slots).length =
      genericParams.length := by
    rw [← List.length_map Slot.param, map_param_withSequence, hparams]
  have hlookup : ∀ {paramType argType}, Passed genericParams params argTypes paramType argType →
      ∀ occurrence ∈ occurrences paramType argType, occurrence.1 ∈ genericParams →
        ¬IsSequence genericParams occurrence.1 → occurrence.2 ≠ .empty →
        lookup genericParams ((withSequence genericParams params argTypes state.slots).map Slot.arg)
          occurrence.1 = some occurrence.2 := by
    intro paramType argType hpassed occurrence hmem hparam hsequence hne
    have hmem' : occurrence ∈ callOccurrences
        ((params.take (nonSequenceEnd genericParams params)).zip argTypes) :=
      List.mem_flatMap.mpr ⟨(paramType, argType), List.mem_filter.mpr
        ⟨hpassed.1, by simpa [← Expr.isEmpty_iff] using hpassed.2⟩, hmem⟩
    exact lookup_of_bound hparams hparam hsequence (hbinds.bound hmem' hne)
  refine ⟨by rw [List.length_map, hlength], hbound, hlookup, ?_, ?_⟩
  · rintro param ⟨hhas, hlast⟩ hmem
    obtain ⟨init, rfl⟩ := List.getLast?_eq_some_iff.mp hlast
    rw [List.dropLast_concat] at hmem
    obtain ⟨slots, slot, hslots⟩ : ∃ slots slot, state.slots = slots ++ [slot] := by
      obtain hnil | ⟨slots, slot, hslots⟩ := List.eq_nil_or_concat state.slots
      · rw [hnil] at hparams
        simp at hparams
      · exact ⟨slots, slot, by simpa using hslots⟩
    rw [hslots, List.map_append] at hparams
    have hinit := List.append_inj_left' hparams rfl
    rw [withSequence, if_pos hhas, hslots]
    simp only [List.dropLast_concat, List.getLast?_concat, Option.toList_some, List.map_cons,
      List.map_nil, List.map_append]
    exact lookup_append_of_not_mem (by rw [List.length_map, ← hinit, List.length_map]) hmem _
  · rintro paramType argType hpassed hreached hsequence ⟨args, hne, hargs⟩
    refine specializeExpr_congr _ argType (hreached.unwrap argType) hargs fun occurrence hmem ↦ ?_
    have harg := lookup_of_occurrences _ argType hargs hmem
    obtain ⟨i, hparam, hi⟩ := lookup_eq_some harg
    rw [occurrences_unwrap] at hmem
    exact hlookup hpassed occurrence hmem (List.mem_of_getElem? hparam) (hsequence occurrence hmem)
      (hne _ (List.mem_of_getElem? hi))

end Function

section

private def t : GenericParam := ⟨0, .type⟩

private def s : GenericParam := ⟨1, .sequence⟩

private def typeOf (param : GenericParam) : Expr := .symbolExpr (.genericParam param)

private def i32 : Expr := .primitiveType .i32

private def bool : Expr := .primitiveType .bool

/-- A pointer, what it points to, and a sequence of two. -/
theorem consistent_sample : Consistent [t, s] [.pointerType (typeOf t), typeOf t, typeOf s]
    [.pointerType i32, i32, bool, i32] [i32, .tupleExpr [bool, i32]] :=
  consistent_of_inferred ⟨[], rfl⟩

/-- The second parameter alone gives an argument; the first one, a pointer, is passed an integer. -/
theorem inferred_mismatch : Inferred [t] [.pointerType (typeOf t), typeOf t] [i32, i32] [i32] ∧
    specializeExpr [t] [i32] (.pointerType (typeOf t)) ≠ some i32 := by
  refine ⟨⟨[], rfl⟩, ?_⟩
  rw [specializeExpr_pointerType, show specializeExpr [t] [i32] (typeOf t) = some i32 from rfl]
  rintro ⟨⟩

end

end Banjo.Sema.GenericArgInference
