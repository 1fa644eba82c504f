import Banjo.Codegen.CallAgreement
import Banjo.Lib.Stacking

/-!
# The slots of a frame

The pass gives every slot of its own a place. What it does not change is the shape of the frame: the
kinds, sizes and numbers of the slots.
-/

open List Option

namespace Banjo.MCode.StackFrame

open Stacking

variable {frame : StackFrame} {id : StackSlotId} {slot : StackSlot}

/-! ## The shape of a frame -/

/-- A slot without its offset. -/
def erase (slot : StackSlot) : StackSlot := { slot with offset := none }

/-- The slots of a frame without their offsets. -/
def shape (frame : StackFrame) : List StackSlot := frame.stackSlots.map erase

theorem shape_setOffset (offset : ℤ) : (frame.setOffset id offset).shape = frame.shape := by
  refine ext_getElem? fun other ↦ ?_
  rw [shape, shape, setOffset, getElem?_map, getElem?_map, getElem?_modify]
  cases frame.stackSlots[other]? with
  | none => rfl
  | some slot =>
    by_cases h : id = other
    · simp [h, erase]
    · simp [h]

/-- What every step of a loop keeps, the loop keeps. -/
theorem apply_foldl {α β : Type} {f : StackFrame → β} {step : StackFrame → α → StackFrame}
    (hstep : ∀ frame x, f (step frame x) = f frame) (xs : List α) :
    f (xs.foldl step frame) = f frame := by
  induction xs generalizing frame with
  | nil => rfl
  | cons x xs ih => rw [foldl_cons, ih, hstep]

theorem getElem?_shape (hfresh : frame.Fresh) : frame.shape[id]? = frame.stackSlots[id]? := by
  rw [shape, getElem?_map]
  cases hslot : frame.stackSlots[id]? with
  | none => rfl
  | some slot =>
    rw [map_some, erase, ← hfresh.undefined slot (mem_of_getElem? hslot)]

theorem countP_type_shape (type : StackSlotType) :
    (frame.shape.take id).countP (·.type = type) =
      (frame.stackSlots.take id).countP (·.type = type) := by
  rw [shape, ← map_take, countP_map]
  rfl

/-! ## Slots without offsets -/

theorem mem_undefinedSlots {type : StackSlotType} {entry : StackSlotId × ℕ} :
    entry ∈ frame.undefinedSlots type ↔
      ∃ slot, frame.stackSlots[entry.1]? = some slot ∧ slot.offset = none ∧ slot.type = type ∧
        slot.size = entry.2 := by
  rw [undefinedSlots, mem_filterMap]
  constructor
  · rintro ⟨⟨slot, id⟩, hmem, hentry⟩
    dsimp only at hentry
    split_ifs at hentry with hslot
    cases hentry
    exact ⟨slot, mem_zipIdx_iff_getElem?.mp hmem, isNone_iff_eq_none.mp hslot.1, hslot.2, rfl⟩
  · rintro ⟨slot, hslot, hoffset, htype, hsize⟩
    refine ⟨(slot, entry.1), mem_zipIdx_iff_getElem?.mpr hslot, ?_⟩
    dsimp only
    rw [if_pos ⟨isNone_iff_eq_none.mpr hoffset, htype⟩, hsize]

theorem nodup_undefinedSlots (frame : StackFrame) (type : StackSlotType) :
    ((frame.undefinedSlots type).map Prod.fst).Nodup := by
  have hids : (frame.stackSlots.zipIdx.map Prod.snd).Nodup := by
    rw [zipIdx_map_snd]
    exact nodup_range'
  refine pairwise_map.mpr (List.Pairwise.filterMap _ ?_ (pairwise_map.mp hids))
  rintro ⟨slot, id⟩ ⟨slot', id'⟩ hne entry hentry entry' hentry'
  dsimp only at hentry hentry'
  split_ifs at hentry hentry'
  cases hentry
  cases hentry'
  exact hne

/-- A slot comes behind as many others of its kind as the frame has before it. -/
theorem getElem?_undefinedSlots (hfresh : frame.Fresh) (hslot : frame.stackSlots[id]? = some slot) :
    (frame.undefinedSlots slot.type)[(frame.stackSlots.take id).countP (·.type = slot.type)]? =
      some (id, slot.size) := by
  have hfilter : ∀ (slots : List StackSlot) (start id : ℕ), (∀ slot ∈ slots, slot.offset = none) →
      slots[id]? = some slot →
      ((slots.zipIdx start).filterMap fun entry ↦ if entry.1.offset.isNone ∧
        entry.1.type = slot.type then some (entry.2, entry.1.size) else none)[
          (slots.take id).countP (·.type = slot.type)]? = some (start + id, slot.size) := by
    intro slots
    induction slots with
    | nil => intro start id _ hslot; cases hslot
    | cons first slots ih =>
      intro start id hundefined hslot
      have hfirst := hundefined first mem_cons_self
      rw [zipIdx_cons, filterMap_cons]
      cases id with
      | zero =>
        obtain rfl : first = slot := by simpa using hslot
        simp [hfirst]
      | succ id =>
        have hrest := ih (start + 1) id (fun slot hmem ↦ hundefined slot
          (mem_cons_of_mem _ hmem)) hslot
        rw [show start + (id + 1) = start + 1 + id by omega, ← hrest, take_succ_cons, countP_cons]
        by_cases htype : first.type = slot.type
        · simp [hfirst, htype]
        · simp [htype]
  simpa [undefinedSlots] using hfilter frame.stackSlots 0 id hfresh.undefined hslot

/-- Every slot that is in the list of offsets once gets its offset, moved by `shift`. -/
theorem foldl_setOffset_of_mem {entries : List (StackSlotId × ℤ)} (shift : ℤ)
    (hnodup : (entries.map Prod.fst).Nodup) {offset : ℤ} (hmem : (id, offset) ∈ entries)
    (hid : id < frame.stackSlots.length) :
    (entries.foldl (fun frame (id, offset) ↦ frame.setOffset id (offset + shift)) frame).offsetOf
      id = some (offset + shift) := by
  induction entries generalizing frame with
  | nil => cases hmem
  | cons entry entries ih =>
    obtain ⟨hfirst, hnodup⟩ := nodup_cons.mp hnodup
    rw [foldl_cons]
    obtain rfl | hlater := mem_cons.mp hmem
    · rw [foldl_setOffset_of_notMem]
      · exact offsetOf_setOffset_self hid _
      · exact fun offset' hmem' ↦ hfirst (mem_map.mpr ⟨_, hmem', rfl⟩)
    · exact ih hnodup hlater (by simpa [setOffset] using hid)

/-! ## The regions -/

theorem argStoreBelow_eq (frame : StackFrame) : argStoreBelow frame =
    ⟨bottom (fun size ↦ size) 0 (frame.undefinedSlots .ARG_STORE),
      below (fun size ↦ size) 0 (frame.undefinedSlots .ARG_STORE)⟩ := by
  have hfold : ∀ (slots : List (StackSlotId × ℕ)) (placed : List (StackSlotId × ℤ)) (top : ℤ),
      slots.foldl (fun (region : ArgStoreStackRegion) slot ↦
        ⟨region.size - slot.2, region.offsets ++ [(slot.1, region.size - slot.2)]⟩) ⟨top, placed⟩ =
      ⟨bottom (fun size ↦ size) top slots, placed ++ below (fun size ↦ size) top slots⟩ := by
    intro slots
    induction slots with
    | nil => intro placed top; simp [below, bottom]
    | cons slot slots ih =>
      intro placed top
      rw [foldl_cons, ih, below, append_assoc]
      rfl
  exact hfold _ [] 0

/-! ## Slots for the arguments of calls -/

/-- Every slot for the argument of a call has 8 bytes and is the slot of its number. -/
def Registered (frame : StackFrame) : Prop :=
  ∀ (id : StackSlotId) (slot : StackSlot), frame.stackSlots[id]? = some slot →
    slot.type = .CALL_ARG → slot.size = 8 ∧ frame.callArgSlotIndices[slot.callArgIndex]? = some id

theorem Registered.newStackSlot (h : frame.Registered)
    (hslot : slot.type = .CALL_ARG →
      slot.size = 8 ∧ slot.callArgIndex = frame.callArgSlotIndices.length) :
    (frame.newStackSlot slot).2.Registered := by
  intro id other hother htype
  obtain hlt | heq | hgt := Nat.lt_trichotomy id frame.stackSlots.length
  · rw [StackFrame.newStackSlot, getElem?_append_left hlt] at hother
    obtain ⟨hsize, hindex⟩ := h id other hother htype
    exact ⟨hsize, (extends_newStackSlot frame slot).callArg hindex⟩
  · subst heq
    obtain rfl : slot = other := by simpa [StackFrame.newStackSlot] using hother
    obtain ⟨hsize, hindex⟩ := hslot htype
    refine ⟨hsize, ?_⟩
    simp [StackFrame.newStackSlot, htype, hindex]
  · rw [getElem?_eq_none (by simp [StackFrame.newStackSlot]; omega)] at hother
    cases hother

theorem Registered.createCallArgSlot (h : frame.Registered) {k : ℕ}
    (hk : k ≤ frame.callArgSlotIndices.length) : (frame.createCallArgSlot k).2.Registered := by
  unfold StackFrame.createCallArgSlot
  split
  · exact h
  · rename_i hnone
    exact h.newStackSlot fun _ ↦ ⟨rfl, le_antisymm hk (getElem?_eq_none_iff.mp hnone)⟩

theorem Registered.placeArgs (h : frame.Registered) (hfresh : frame.Fresh) {args : List CallArg}
    (hargs : Gapless frame.callArgSlotIndices.length args) :
    (placeArgs args frame).2.Registered := by
  induction args generalizing frame with
  | nil => exact h
  | cons arg args ih =>
    cases arg with
    | reg reg => exact ih h hfresh hargs
    | slot k =>
      obtain ⟨hk, hrest⟩ := hargs
      obtain ⟨hfresh', hextends, -, hlt⟩ := hfresh.createCallArgSlot hk
      exact ih (h.createCallArgSlot hk) hfresh'
        (hrest.mono (max_le hextends.callArgs.length_le hlt))

end Banjo.MCode.StackFrame

namespace Banjo.Codegen.StackFramePass

open MCode StackFrame Stacking
open Relation (ReflTransGen)
open SSA (SSAType)

variable {conv : CallingConvention} {func : Function}

variable (frame : StackFrame)

theorem createGenericRegion_eq (top : ℤ) : createGenericRegion frame top =
    (below (align · 8) top (frame.undefinedSlots .GENERIC),
      -(bottom (align · 8) top (frame.undefinedSlots .GENERIC) + top)) := by
  rw [createGenericRegion, foldl_eq_below (align · 8)]
  rfl

/-! ## Lowered functions -/

theorem lowerParams_callArgs (params : List (SSAType × ArgStorage)) {frame : StackFrame}
    (h : frame.Registered) :
    (lowerParams params frame).2.Registered ∧
      (lowerParams params frame).2.callArgSlotIndices = frame.callArgSlotIndices := by
  induction params generalizing frame with
  | nil => exact ⟨h, rfl⟩
  | cons entry params ih =>
    obtain ⟨type, storage⟩ := entry
    cases storage with
    | inReg reg => exact ih h
    | onStack index stackOffset => exact ih (h.newStackSlot fun htype ↦ by cases htype)

/-- Only a function with a call has slots for the arguments of calls. -/
theorem Lowered.callArgs (laws : Lawful conv) {type : FunctionType} (h : Lowered conv type func) :
    func.frame.Registered ∧ (func.frame.callArgSlotIndices ≠ [] → func.hasCall) := by
  induction h with
  | refl =>
    have hempty : StackFrame.Registered {} := fun id slot hslot ↦ by simp at hslot
    obtain ⟨hregistered, hindices⟩ :=
      lowerParams_callArgs (type.params.zip (conv.getArgStorage type)) hempty
    exact ⟨hregistered, fun hne ↦ absurd hindices hne⟩
  | tail hbefore hstep ih =>
    obtain ⟨hregistered, hcall⟩ := ih
    obtain ⟨hfresh, -, -⟩ := Lowered.spec laws hbefore
    cases hstep with
    | newStackSlot slot htype hoffset =>
      refine ⟨hregistered.newStackSlot fun h ↦ absurd h htype, fun hne ↦ hcall ?_⟩
      simpa [newStackSlot, htype] using hne
    | emit dests => exact ⟨hregistered, hcall⟩
    | lowerCall type =>
      refine ⟨?_, fun _ ↦ rfl⟩
      rw [laws.lowerCall_eq]
      exact hregistered.placeArgs hfresh ((laws.gapless type).mono (Nat.zero_le _))

/-! ## The whole pass -/

theorem shape_defineCallArgSlots (base : ℤ) : (frame.defineCallArgSlots base).shape = frame.shape :=
  apply_foldl (fun _ _ ↦ shape_setOffset _) _

variable (entry : Parameter × ArgStorage)

theorem shape_placeParam : (placeParam frame entry).shape = frame.shape := by
  unfold placeParam
  split
  · exact shape_setOffset _
  · rfl

/-- The pass changes nothing of the slots but their offsets. -/
theorem shape_run
    (hcallArgs : (callArgRegion conv func).2.shape = (conv.createImplicitRegion func).2.shape) :
    (run conv func).frame.shape = (conv.createImplicitRegion func).2.shape := by
  rw [run_frame, apply_foldl shape_placeParam, ← hcallArgs]
  exact apply_foldl (fun _ _ ↦ shape_setOffset _) _

theorem callArgSlotIndices_placeParam :
    (placeParam frame entry).callArgSlotIndices = frame.callArgSlotIndices := by
  unfold placeParam
  split <;> rfl

theorem callArgSlotIndices_run : (run conv func).frame.callArgSlotIndices =
    (callArgRegion conv func).2.callArgSlotIndices := by
  rw [run_frame, apply_foldl callArgSlotIndices_placeParam]
  exact apply_foldl (f := callArgSlotIndices) (fun _ _ ↦ setOffset_callArgSlotIndices _) _

/-- The slots of the regions below the stack pointer have different numbers. -/
theorem nodup_regions
    (hargStore : (argStoreRegion conv func).offsets.map Prod.fst =
      ((conv.createImplicitRegion func).2.undefinedSlots .ARG_STORE).map Prod.fst) :
    (((argStoreRegion conv func).offsets ++ (genericRegion conv func).1).map Prod.fst).Nodup := by
  rw [map_append, hargStore, genericRegion, createGenericRegion_eq, map_fst_below]
  refine nodup_append.mpr ⟨nodup_undefinedSlots _ _, nodup_undefinedSlots _ _, ?_⟩
  rintro id hid id' hid' rfl
  obtain ⟨entry, hentry, rfl⟩ := mem_map.mp hid
  obtain ⟨entry', hentry', heq⟩ := mem_map.mp hid'
  obtain ⟨k, hk⟩ := label_of_mem_undefinedSlots hentry
  obtain ⟨k', hk'⟩ := label_of_mem_undefinedSlots hentry'
  rw [heq, hk] at hk'
  cases hk'

/-- A slot in one of these regions lies there, unless a parameter is in it. -/
theorem offsetOf_run_of_mem
    (hargStore : (argStoreRegion conv func).offsets.map Prod.fst =
      ((conv.createImplicitRegion func).2.undefinedSlots .ARG_STORE).map Prod.fst)
    (hcallArgs : (callArgRegion conv func).2.shape = (conv.createImplicitRegion func).2.shape)
    {id : StackSlotId} {offset : ℤ}
    (hmem : (id, offset) ∈ (argStoreRegion conv func).offsets ++ (genericRegion conv func).1)
    (hid : id < (conv.createImplicitRegion func).2.stackSlots.length)
    (hparam : ∀ param ∈ func.parameters, param.storage ≠ .stackSlot id) :
    (run conv func).frame.offsetOf id = some (offset + allocaSize conv func) := by
  rw [run_frame, foldl_placeParam_offsetOf_of_ne _ hparam]
  refine foldl_setOffset_of_mem (allocaSize conv func) (nodup_regions hargStore) hmem ?_
  have hlength := congrArg List.length hcallArgs
  rw [shape, shape, length_map, length_map] at hlength
  rwa [hlength]

end Banjo.Codegen.StackFramePass
