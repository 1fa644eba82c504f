import Banjo.SIR.Specializer

/-!
# Inferring generic arguments

The types of the parameters are walked together with the types of the arguments of the call. What
stands where a generic parameter stands becomes its argument, and different types there are a
conflict. A type that has another shape than the parameter's is no conflict: the arguments of the
call are compared with the specialized parameters later.

What the inference does is described by the occurrences that it comes to, in their order.
-/

open List

namespace Banjo.Sema.GenericArgInference

open SIR.Types

inductive Result where
  | success
  | error
  deriving DecidableEq, Repr

/-- `RESULT_MERGE` -/
def Result.merge : Result → Result → Result
  | result, .success => result
  | _, .error => .error

/-- The errors of the inference. The arguments of the call are known by their index. -/
inductive Report where
  | tooFewArgsToInferGenericArgs
  | cannotInferGenericArg (param : GenericParam)
  | genericArgInferenceConflict (param : GenericParam) (source : Option ℕ) (arg : ℕ)
  deriving DecidableEq, Repr

/-- A generic parameter with its elements of `generic_args` and `inference_sources`. -/
structure Slot where
  param : GenericParam
  arg : Expr := .empty
  source : Option ℕ := none

structure State where
  slots : List Slot
  reports : List Report := []

/-- The loop of `infer_on_symbol_expr` -/
def bindSlots (curArg : ℕ) (param : GenericParam) (argType : Expr) :
    List Slot → List Slot × Option Report
  | [] => ([], none)
  | slot :: slots =>
    if param ≠ slot.param then
      let (slots', report) := bindSlots curArg param argType slots
      (slot :: slots', report)
    else if ¬slot.arg.isEmpty ∧ ¬compare slot.arg argType then
      (slot :: slots, some (.genericArgInferenceConflict param slot.source curArg))
    else
      let (slots', report) := bindSlots curArg param argType slots
      ({ slot with arg := argType, source := some curArg } :: slots', report)

def inferOnGenericParam (curArg : ℕ) (param : GenericParam) (argType : Expr) (state : State) :
    Result × State :=
  match bindSlots curArg param argType state.slots with
  | (slots, none) => (.success, { state with slots })
  | (slots, some report) => (.error, { slots, reports := state.reports ++ [report] })

mutual

/-- `infer` on one parameter -/
def infer (curArg : ℕ) : Expr → Expr → State → Result × State
  | .symbolExpr (.genericParam param), argType, state =>
    inferOnGenericParam curArg param argType state
  | .tupleExpr exprs, .tupleExpr argExprs, state => inferList curArg exprs argExprs state
  | .specializeExpr _ args, .specializeExpr _ argArgs, state => inferList curArg args argArgs state
  | .pointerType base, .pointerType argBase, state => infer curArg base argBase state
  | .closureType params returnType, .closureType argParams argReturnType, state =>
    let (result, state) := inferList curArg params argParams state
    let (result', state) := infer curArg returnType argReturnType state
    (result.merge result', state)
  | .referenceType _ base, .referenceType _ argBase, state => infer curArg base argBase state
  | .referenceType _ base, argType, state => infer curArg base argType state
  | _, _, state => (.success, state)

/-- The loop over the elements that both have. -/
def inferList (curArg : ℕ) : List Expr → List Expr → State → Result × State
  | expr :: exprs, argExpr :: argExprs, state =>
    let (result, state) := infer curArg expr argExpr state
    let (result', state) := inferList curArg exprs argExprs state
    (result.merge result', state)
  | _, _, state => (.success, state)

end

/-- The loop over the parameters in front of a sequence. An argument without a type is skipped. -/
def inferParams : ℕ → List Expr → List Expr → State → Result × State
  | curArg, param :: params, argType :: argTypes, state =>
    if argType.isEmpty then
      inferParams (curArg + 1) params argTypes state
    else
      let (result, state) := infer curArg param argType state
      let (result', state) := inferParams (curArg + 1) params argTypes state
      (result.merge result', state)
  | _, _, _, state => (.success, state)

section Function

variable (genericParams : List GenericParam) (params argTypes : List Expr)

def hasSequence : Bool := genericParams.getLast?.any (·.kind = .sequence)

def nonSequenceEnd : ℕ := if hasSequence genericParams then params.length - 1 else params.length

/-- The arguments with the tuple of a sequence for the last one. -/
def withSequence (slots : List Slot) : List Slot :=
  if hasSequence genericParams then
    slots.dropLast ++ slots.getLast?.toList.map fun slot ↦
      { slot with arg := .tupleExpr (argTypes.drop (nonSequenceEnd genericParams params)) }
  else
    slots

/-- `infer`. Without parameters the number of those in front of a sequence wraps around. -/
def inferCall : Result × List Expr × List Report :=
  if hasSequence genericParams ∧ params = [] ∨
      argTypes.length < nonSequenceEnd genericParams params then
    (.error, [], [.tooFewArgsToInferGenericArgs])
  else
    let (result, state) := inferParams 0 (params.take
      (nonSequenceEnd genericParams params)) argTypes
      { slots := genericParams.map fun param ↦ { param } }
    let slots := withSequence genericParams params argTypes state.slots
    let unbound := slots.filter (·.arg.isEmpty)
    (if unbound.isEmpty then result else .error, slots.map Slot.arg,
      state.reports ++ unbound.map fun slot ↦ .cannotInferGenericArg slot.param)

end Function

/-! ## Occurrences -/

mutual

/-- The generic parameters that the inference comes to, with what stands there. -/
def occurrences : Expr → Expr → List (GenericParam × Expr)
  | .symbolExpr (.genericParam param), argType => [(param, argType)]
  | .tupleExpr exprs, .tupleExpr argExprs => occurrencesList exprs argExprs
  | .specializeExpr _ args, .specializeExpr _ argArgs => occurrencesList args argArgs
  | .pointerType base, .pointerType argBase => occurrences base argBase
  | .closureType params returnType, .closureType argParams argReturnType =>
    occurrencesList params argParams ++ occurrences returnType argReturnType
  | .referenceType _ base, .referenceType _ argBase => occurrences base argBase
  | .referenceType _ base, argType => occurrences base argType
  | _, _ => []

def occurrencesList : List Expr → List Expr → List (GenericParam × Expr)
  | expr :: exprs, argExpr :: argExprs => occurrences expr argExpr ++ occurrencesList exprs argExprs
  | _, _ => []

end

/-- What stands behind a reference. -/
def dereference : Expr → Expr
  | .referenceType _ base => base
  | expr => expr

theorem infer_referenceType (curArg : ℕ) (isMut : Bool) (base argType : Expr) (state : State) :
    infer curArg (.referenceType isMut base) argType state =
      infer curArg base (dereference argType) state := by
  cases argType <;> rfl

theorem occurrences_referenceType (isMut : Bool) (base argType : Expr) :
    occurrences (.referenceType isMut base) argType = occurrences base (dereference argType) := by
  cases argType <;> rfl

/-- One occurrence after the other without a conflict. -/
def Binds : List (GenericParam × Expr) → State → State → Prop
  | [], state, state' => state = state'
  | occurrence :: occurrences, state, state'' => ∃ curArg state',
    inferOnGenericParam curArg occurrence.1 occurrence.2 state = (.success, state') ∧
      Binds occurrences state' state''

variable {state state' : State}

theorem Binds.append {first second : List (GenericParam × Expr)} {state'' : State}
    (hfirst : Binds first state state') (hsecond : Binds second state' state'') :
    Binds (first ++ second) state state'' := by
  induction first generalizing state with
  | nil =>
    obtain rfl : state = state' := hfirst
    exact hsecond
  | cons occurrence first ih =>
    obtain ⟨curArg, state₁, hstep, hrest⟩ := hfirst
    exact ⟨curArg, state₁, hstep, ih hrest⟩

theorem Result.merge_eq_success {result result' : Result} (h : result.merge result' = .success) :
    result = .success ∧ result' = .success := by
  cases result <;> cases result' <;> simp_all [Result.merge]

mutual

theorem binds_of_infer {curArg : ℕ} (paramType argType : Expr) {state state' : State}
    (h : infer curArg paramType argType state = (.success, state')) :
    Binds (occurrences paramType argType) state state' := by
  match paramType with
  | .symbolExpr (.genericParam param) => exact ⟨curArg, state', by rwa [infer] at h, rfl⟩
  | .tupleExpr exprs =>
    cases argType with
    | tupleExpr argExprs => exact binds_of_inferList exprs argExprs (by rwa [infer] at h)
    | _ => simpa [infer, occurrences, Binds] using h
  | .specializeExpr symbol args =>
    cases argType with
    | specializeExpr symbol' argArgs => exact binds_of_inferList args argArgs (by rwa [infer] at h)
    | _ => simpa [infer, occurrences, Binds] using h
  | .pointerType base =>
    cases argType with
    | pointerType argBase => exact binds_of_infer base argBase (by rwa [infer] at h)
    | _ => simpa [infer, occurrences, Binds] using h
  | .closureType params returnType =>
    cases argType with
    | closureType argParams argReturnType =>
      rw [infer] at h
      obtain ⟨hmerge, rfl⟩ := Prod.mk.inj h
      obtain ⟨hparams, hreturn⟩ := Result.merge_eq_success hmerge
      exact (binds_of_inferList params argParams (Prod.ext hparams rfl)).append
        (binds_of_infer returnType argReturnType (Prod.ext hreturn rfl))
    | _ => simpa [infer, occurrences, Binds] using h
  | .referenceType isMut base =>
    rw [infer_referenceType] at h
    rw [occurrences_referenceType]
    exact binds_of_infer base _ h
  | .symbolExpr (.other _) | .empty | .intLiteral _ | .primitiveType _ | .staticArrayType _ _
  | .funcType _ _ | .metaAccess _ | .metaFieldExpr _ _ | .unequal _ _ =>
    simpa [infer, occurrences, Binds] using h

theorem binds_of_inferList {curArg : ℕ} (exprs argExprs : List Expr) {state state' : State}
    (h : inferList curArg exprs argExprs state = (.success, state')) :
    Binds (occurrencesList exprs argExprs) state state' := by
  match exprs with
  | [] => simpa [inferList, occurrencesList, Binds] using h
  | expr :: exprs =>
    cases argExprs with
    | nil => simpa [inferList, occurrencesList, Binds] using h
    | cons argExpr argExprs =>
      rw [inferList] at h
      obtain ⟨hmerge, rfl⟩ := Prod.mk.inj h
      obtain ⟨hexpr, hexprs⟩ := Result.merge_eq_success hmerge
      exact (binds_of_infer expr argExpr (Prod.ext hexpr rfl)).append
        (binds_of_inferList exprs argExprs (Prod.ext hexprs rfl))

end

/-! ## Bindings -/

/-- A generic parameter has this argument. -/
def Bound (slots : List Slot) (param : GenericParam) (argType : Expr) : Prop :=
  ∀ slot ∈ slots, slot.param = param → slot.arg = argType

variable {argType : Expr} {curArg : ℕ} {param : GenericParam}

variable {slots slots' : List Slot}

theorem bindSlots_bound
    (h : bindSlots curArg param argType slots = (slots', none)) : Bound slots' param argType := by
  induction slots generalizing slots' with
  | nil =>
    cases h
    rintro slot ⟨⟩
  | cons slot slots ih =>
    rw [bindSlots] at h
    split_ifs at h with hparam hconflict
    · obtain ⟨rfl, hrest⟩ := Prod.mk.inj h
      exact forall_mem_cons.mpr ⟨fun heq ↦ absurd heq.symm hparam, ih (Prod.ext rfl hrest)⟩
    · cases h
    · obtain ⟨rfl, hrest⟩ := Prod.mk.inj h
      exact forall_mem_cons.mpr ⟨fun _ ↦ rfl, ih (Prod.ext rfl hrest)⟩

/-- A binding stays as it is. -/
theorem Bound.bindSlots {param' : GenericParam} {argType' : Expr}
    (h : bindSlots curArg param argType slots = (slots', none)) (hne : argType' ≠ .empty)
    (hbound : Bound slots param' argType') : Bound slots' param' argType' := by
  induction slots generalizing slots' with
  | nil =>
    cases h
    exact hbound
  | cons slot slots ih =>
    obtain ⟨hslot, hslots⟩ := forall_mem_cons.mp hbound
    rw [GenericArgInference.bindSlots] at h
    split_ifs at h with hparam hconflict
    · obtain ⟨rfl, hrest⟩ := Prod.mk.inj h
      exact forall_mem_cons.mpr ⟨hslot, ih (Prod.ext rfl hrest) hslots⟩
    · cases h
    · obtain ⟨rfl, hrest⟩ := Prod.mk.inj h
      refine forall_mem_cons.mpr ⟨fun heq ↦ ?_, ih (Prod.ext rfl hrest) hslots⟩
      -- What has been bound before compares equal.
      have harg := hslot heq
      have hcompare : compare slot.arg argType = true := by
        by_contra hcompare
        refine hconflict ⟨fun hempty ↦ hne ?_, hcompare⟩
        rw [← harg]
        exact Expr.isEmpty_iff.mp hempty
      exact (eq_of_compare hcompare).symm.trans harg

theorem map_param_bindSlots (curArg : ℕ) (param : GenericParam) (argType : Expr)
    (slots : List Slot) :
    (bindSlots curArg param argType slots).1.map Slot.param = slots.map Slot.param := by
  induction slots with
  | nil => rfl
  | cons slot slots ih =>
    rw [bindSlots]
    split_ifs <;> simp [ih]

theorem bindSlots_of_success
    (h : inferOnGenericParam curArg param argType state = (.success, state')) :
    bindSlots curArg param argType state.slots = (state'.slots, none) := by
  rw [inferOnGenericParam] at h
  split at h
  · rename_i slots heq
    cases h
    exact heq
  · cases h

namespace Binds

variable {occurrences : List (GenericParam × Expr)} {state state' : State}

theorem map_param (h : Binds occurrences state state') :
    state'.slots.map Slot.param = state.slots.map Slot.param := by
  induction occurrences generalizing state with
  | nil =>
    obtain rfl : state = state' := h
    rfl
  | cons occurrence occurrences ih =>
    obtain ⟨curArg, state₁, hstep, hrest⟩ := h
    rw [ih hrest, ← map_param_bindSlots curArg occurrence.1 occurrence.2 state.slots,
      bindSlots_of_success hstep]

theorem bound_of_bound (h : Binds occurrences state state') (hne : argType ≠ .empty)
    (hbound : Bound state.slots param argType) : Bound state'.slots param argType := by
  induction occurrences generalizing state with
  | nil =>
    obtain rfl : state = state' := h
    exact hbound
  | cons occurrence occurrences ih =>
    obtain ⟨curArg, state₁, hstep, hrest⟩ := h
    exact ih hrest (hbound.bindSlots (bindSlots_of_success hstep) hne)

/-- Every occurrence ends up bound. -/
theorem bound (h : Binds occurrences state state') (hmem : (param, argType) ∈ occurrences)
    (hne : argType ≠ .empty) : Bound state'.slots param argType := by
  induction occurrences generalizing state with
  | nil => cases hmem
  | cons occurrence occurrences ih =>
    obtain ⟨curArg, state₁, hstep, hrest⟩ := h
    obtain rfl | hmem := mem_cons.mp hmem
    · exact bound_of_bound hrest hne (bindSlots_bound (bindSlots_of_success hstep))
    · exact ih hrest hmem

end Binds

end Banjo.Sema.GenericArgInference
