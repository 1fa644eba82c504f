import Banjo.Codegen.StackFramePass

/-!
# The offsets that the stack frame pass gives to arguments

For any calling convention that keeps the slots of the arguments of calls apart from the other
slots, the pass leaves an argument of a call at its number behind the stack pointer, and a parameter
at its offset behind the frame.
-/

open List

namespace Banjo.Codegen.StackFramePass

open MCode StackFrame
open SSA (SSAType)

/-- What the offsets rely on in a calling convention. -/
structure Lawful (conv : CallingConvention) where
  callArgs : FunctionType → List CallArg
  base : ℤ
  lowerCall_eq : ∀ type frame, conv.lowerCall type frame = frame.placeArgs (callArgs type)
  gapless : ∀ type, Gapless 0 (callArgs type)
  length_callArgs : ∀ type, (callArgs type).length = type.params.length
  length_getArgStorage : ∀ type, (conv.getArgStorage type).length = type.params.length
  implicitRegion_fresh : ∀ func, func.frame.Fresh → (conv.createImplicitRegion func).2.Fresh
  implicitRegion_extends : ∀ func, Extends func.frame (conv.createImplicitRegion func).2
  argStore_label : ∀ frame region, ∀ entry ∈ (conv.createArgStoreRegion frame region).offsets,
    ∃ k, frame.label entry.1 = some (.ARG_STORE, k)
  callArgRegion_label : ∀ func frame id,
    (conv.createCallArgRegion func frame).2.label id = frame.label id
  callArgRegion_eq : ∀ func frame, func.hasCall →
    (conv.createCallArgRegion func frame).2 = frame.defineCallArgSlots base

/-! ## Slots that have no offset yet -/

theorem label_of_mem_undefinedSlots {frame : StackFrame} {type : StackSlotType}
    {entry : StackSlotId × ℕ} (h : entry ∈ frame.undefinedSlots type) :
    ∃ k, frame.label entry.1 = some (type, k) := by
  obtain ⟨⟨slot, id⟩, hmem, hentry⟩ := mem_filterMap.mp h
  replace hentry :
      (if slot.offset.isNone ∧ slot.type = type then some (id, slot.size) else none) = some entry :=
    hentry
  split_ifs at hentry with hslot
  cases hentry
  refine ⟨slot.callArgIndex, ?_⟩
  rw [label, mem_zipIdx_iff_getElem?.mp hmem, Option.map_some, hslot.2]

/-- The offsets of slots that are laid out one after the other are offsets of these slots. -/
theorem mem_offsets_foldl {σ : Type} {offsets : σ → List (StackSlotId × ℤ)}
    {step : σ → StackSlotId × ℕ → σ}
    (hstep : ∀ state slot, ∃ offset, offsets (step state slot) = offsets state ++
      [(slot.1, offset)])
    {slots : List (StackSlotId × ℕ)} {state : σ} {entry : StackSlotId × ℤ}
    (h : entry ∈ offsets (slots.foldl step state)) :
    entry ∈ offsets state ∨ ∃ slot ∈ slots, slot.1 = entry.1 := by
  induction slots generalizing state with
  | nil => exact Or.inl h
  | cons slot slots ih =>
    obtain hmem | ⟨other, hother, hid⟩ := ih h
    · obtain ⟨offset, hoffsets⟩ := hstep state slot
      rw [hoffsets, mem_append, mem_singleton] at hmem
      obtain hmem | rfl := hmem
      · exact Or.inl hmem
      · exact Or.inr ⟨slot, mem_cons_self, rfl⟩
    · exact Or.inr ⟨other, mem_cons_of_mem _ hother, hid⟩

theorem label_of_mem_argStoreBelow {frame : StackFrame} {entry : StackSlotId × ℤ}
    (h : entry ∈ (argStoreBelow frame).offsets) :
    ∃ k, frame.label entry.1 = some (.ARG_STORE, k) := by
  obtain hmem | ⟨slot, hslot, hid⟩ :=
    mem_offsets_foldl (fun (state : ArgStoreStackRegion) _ ↦ ⟨_, rfl⟩) h
  · cases hmem
  · rw [← hid]
    exact label_of_mem_undefinedSlots hslot

theorem label_of_mem_createGenericRegion {frame : StackFrame} {top : ℤ}
    {entry : StackSlotId × ℤ} (h : entry ∈ (createGenericRegion frame top).1) :
    ∃ k, frame.label entry.1 = some (.GENERIC, k) := by
  obtain hmem | ⟨slot, hslot, hid⟩ :=
    @mem_offsets_foldl _ Prod.fst _ (fun _ _ ↦ ⟨_, rfl⟩) _ _ _ h
  · cases hmem
  · rw [← hid]
    exact label_of_mem_undefinedSlots hslot

/-! ## The parameters -/

/-- Different parameters have different slots. -/
def Apart (parameters : List Parameter) : Prop :=
  parameters.Pairwise fun param param' ↦
    ∀ id, param.storage = .stackSlot id → param'.storage ≠ .stackSlot id

/-- What `placeParams` does for one parameter. -/
def placeParam (frame : StackFrame) (entry : Parameter × ArgStorage) : StackFrame :=
  match entry.2, entry.1.storage with
  | .onStack _ stackOffset, .stackSlot id => frame.setOffset id (frame.totalSize + stackOffset)
  | _, _ => frame

variable {frame : StackFrame}

theorem placeParam_totalSize (entry : Parameter × ArgStorage) :
    (placeParam frame entry).totalSize = frame.totalSize := by
  unfold placeParam
  split <;> rfl

variable {id : StackSlotId}

theorem placeParam_offsetOf_of_ne {entry : Parameter × ArgStorage}
    (h : entry.1.storage ≠ .stackSlot id) :
    (placeParam frame entry).offsetOf id = frame.offsetOf id := by
  unfold placeParam
  split
  · rename_i stackOffset id' hstorage
    refine offsetOf_setOffset_of_ne ?_ _
    rintro rfl
    exact h hstorage
  · rfl

variable {parameters : List Parameter}

theorem foldl_placeParam_offsetOf_of_ne
    (storages : List ArgStorage) (h : ∀ param ∈ parameters, param.storage ≠ .stackSlot id) :
    ((parameters.zip storages).foldl placeParam frame).offsetOf id = frame.offsetOf id := by
  induction parameters generalizing storages frame with
  | nil => rfl
  | cons param parameters ih =>
    cases storages with
    | nil => rfl
    | cons storage storages =>
      rw [zip_cons_cons, foldl_cons, ih storages fun param hmem ↦ h param (mem_cons_of_mem _ hmem)]
      exact placeParam_offsetOf_of_ne (h param mem_cons_self)

theorem foldl_placeParam_offsetOf {storages : List ArgStorage} {i : ℕ} {param : Parameter}
    {slot stackOffset : ℕ} (hapart : Apart parameters) (hparam : parameters[i]? = some param)
    (hid : param.storage = .stackSlot id) (hslot : id < frame.stackSlots.length)
    (hstorage : storages[i]? = some (.onStack slot stackOffset)) :
    ((parameters.zip storages).foldl placeParam frame).offsetOf id =
      some (frame.totalSize + stackOffset) := by
  induction parameters generalizing storages frame i with
  | nil => cases hparam
  | cons first parameters ih =>
    cases storages with
    | nil => cases hstorage
    | cons storage storages =>
      obtain ⟨hfirst, hapart⟩ := pairwise_cons.mp hapart
      rw [zip_cons_cons, foldl_cons]
      cases i with
      | zero =>
        cases hparam
        cases hstorage
        rw [foldl_placeParam_offsetOf_of_ne storages fun param hmem ↦ hfirst param hmem id hid]
        have hplace : placeParam frame (param, .onStack slot stackOffset) =
            frame.setOffset id (frame.totalSize + stackOffset) := by
          simp [placeParam, hid]
        rw [hplace, offsetOf_setOffset_self hslot]
      | succ i =>
        rw [ih hapart hparam ?_ hstorage, placeParam_totalSize]
        unfold placeParam
        split
        · simpa [setOffset] using hslot
        · exact hslot

/-! ## The whole pass -/

section Run

variable (conv : CallingConvention) (func : Function)

def argStoreRegion : ArgStoreStackRegion :=
  conv.createArgStoreRegion (conv.createImplicitRegion func).2 (conv.createImplicitRegion func).1

def genericRegion : List (StackSlotId × ℤ) × ℤ :=
  createGenericRegion (conv.createImplicitRegion func).2 (argStoreRegion conv func).size

def callArgRegion : ℤ × StackFrame :=
  conv.createCallArgRegion func (conv.createImplicitRegion func).2

def allocaSize : ℤ :=
  conv.getAllocaSize ⟨(conv.createImplicitRegion func).1, argStoreRegion conv func,
    (genericRegion conv func).2, (callArgRegion conv func).1⟩

/-- The frame before the parameters on the stack get their offsets. -/
def allocated : StackFrame :=
  { ((argStoreRegion conv func).offsets ++ (genericRegion conv func).1).foldl
      (fun frame (id, offset) ↦ frame.setOffset id (offset + allocaSize conv func))
      (callArgRegion conv func).2 with
    size := allocaSize conv func
    totalSize := allocaSize conv func + (conv.createImplicitRegion func).1.size }

theorem run_frame : (run conv func).frame =
    (func.parameters.zip
      (conv.getArgStorage { params := func.parameters.map Parameter.type })).foldl
        placeParam (allocated conv func) :=
  rfl

theorem run_frame_size : (run conv func).frame.size = allocaSize conv func := by
  have hsize : ∀ (entries : List (Parameter × ArgStorage)) (frame : StackFrame),
      (entries.foldl placeParam frame).size = frame.size := by
    intro entries
    induction entries with
    | nil => exact fun _ ↦ rfl
    | cons entry entries ih =>
      intro frame
      rw [foldl_cons, ih]
      unfold placeParam
      split <;> rfl
  rw [run_frame, hsize]
  rfl

variable {conv func}

variable {id : StackSlotId}

variable {label : StackSlotType × ℕ}

theorem label_allocated (laws : Lawful conv) (h : func.frame.label id = some label) :
    (allocated conv func).label id = some label := by
  refine (label_foldl_setOffset _ _ id).trans ?_
  rw [callArgRegion, laws.callArgRegion_label]
  exact (laws.implicitRegion_extends func).label h

/-- An argument of a call lies at its number behind the stack pointer. -/
theorem offsetOf_run_callArg (laws : Lawful conv) (hfresh : func.frame.Fresh)
    (hcall : func.hasCall)
    (hparams : ∀ param ∈ func.parameters, ∀ id, param.storage = .stackSlot id →
      ∃ k, func.frame.label id = some (.GENERIC, k))
    {k : ℕ} (hid : func.frame.callArgSlotIndices[k]? = some id) :
    (run conv func).frame.offsetOf id = some (laws.base + 8 * k) := by
  have hfresh' := laws.implicitRegion_fresh func hfresh
  have hid' := (laws.implicitRegion_extends func).callArg hid
  have hlabel := hfresh'.numbered k id hid'
  rw [run_frame, foldl_placeParam_offsetOf_of_ne]
  · -- Slots for arguments are neither generic nor slots of stored arguments.
    refine (foldl_setOffset_of_notMem _ _ ?_).trans ?_
    · intro offset hmem
      obtain hmem | hmem := mem_append.mp hmem
      · obtain ⟨_, hstore⟩ := laws.argStore_label _ _ _ hmem
        cases hlabel.symm.trans hstore
      · obtain ⟨_, hgeneric⟩ := label_of_mem_createGenericRegion hmem
        cases hlabel.symm.trans hgeneric
    · rw [callArgRegion, laws.callArgRegion_eq func _ hcall]
      exact offsetOf_defineCallArgSlots hfresh' laws.base hid'
  · intro param hmem hstorage
    obtain ⟨_, hgeneric⟩ := hparams param hmem id hstorage
    cases (hfresh.numbered k id hid).symm.trans hgeneric

/-- A parameter on the stack lies at its offset behind the frame. -/
theorem offsetOf_run_param (laws : Lawful conv) (hapart : Apart func.parameters) {i : ℕ}
    {param : Parameter} (hparam : func.parameters[i]? = some param)
    (hid : param.storage = .stackSlot id)
    (hlabel : func.frame.label id = some label) {slot stackOffset : ℕ}
    (hstorage : (conv.getArgStorage { params := func.parameters.map Parameter.type })[i]? =
      some (.onStack slot stackOffset)) :
    (run conv func).frame.offsetOf id =
      some (allocaSize conv func + (conv.createImplicitRegion func).1.size + stackOffset) := by
  rw [run_frame, foldl_placeParam_offsetOf hapart hparam hid
    (lt_length_of_label (label_allocated laws hlabel)) hstorage]
  rfl

end Run

/-! ## Sizes -/

theorem le_align (value : ℤ) {boundary : ℤ} (h : 0 < boundary) : value ≤ align value boundary := by
  unfold align
  split
  · exact le_rfl
  · have := Int.emod_lt_of_pos value h
    omega

theorem argStoreBelow_size_le (frame : StackFrame) : (argStoreBelow frame).size ≤ 0 := by
  have hfold : ∀ (slots : List (StackSlotId × ℕ)) (region : ArgStoreStackRegion),
      (slots.foldl (fun region slot ↦ ArgStoreStackRegion.mk (region.size - slot.2)
        (region.offsets ++ [(slot.1, region.size - slot.2)])) region).size ≤ region.size := by
    intro slots
    induction slots with
    | nil => exact fun _ ↦ le_rfl
    | cons slot slots ih => exact fun _ ↦ (ih _).trans (sub_le_self _ (Int.natCast_nonneg _))
  exact hfold _ _

/-- The generic slots lie below the stored arguments, whose size counts twice. -/
theorem le_createGenericRegion_size (frame : StackFrame) (top : ℤ) :
    -(2 * top) ≤ (createGenericRegion frame top).2 := by
  have hfold : ∀ (slots : List (StackSlotId × ℕ)) (state : List (StackSlotId × ℤ) × ℤ),
      (slots.foldl (fun state slot ↦ (state.1 ++ [(slot.1, state.2 - align slot.2 8)],
        state.2 - align slot.2 8)) state).2 ≤ state.2 := by
    intro slots
    induction slots with
    | nil => exact fun _ ↦ le_rfl
    | cons slot slots ih =>
      refine fun state ↦ (ih _).trans (sub_le_self _ ?_)
      exact (Int.natCast_nonneg _).trans (le_align _ (by omega))
  have h := hfold (frame.undefinedSlots .GENERIC) ([], top)
  dsimp only [createGenericRegion] at h ⊢
  omega

end Banjo.Codegen.StackFramePass
