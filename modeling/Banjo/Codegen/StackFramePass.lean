import Banjo.MCode.StackFrame
import Mathlib.Tactic.Linarith

/-!
# The stack frame pass

The pass gives every slot of a function its offset from the stack pointer behind the prologue. The
parameters on the stack lie behind the frame of the function, which is where its caller put them.
-/

open List Option

namespace Banjo.Codegen.StackFramePass

open MCode
open SSA (SSAType)

variable (conv : CallingConvention)

/-- The offsets of the generic slots from the stack pointer before the allocation, and their
size. -/
def createGenericRegion (frame : StackFrame) (top : ℤ) : List (StackSlotId × ℤ) × ℤ :=
  let (offsets, offset) := (frame.undefinedSlots .GENERIC).foldl
    (fun (offsets, offset) (id, size) ↦
      (offsets ++ [(id, offset - align size 8)], offset - align size 8)) ([], top)
  (offsets, -(offset + top))

/-- The parameters on the stack lie above everything that the function has put there. -/
def placeParams (func : Function) (frame : StackFrame) : StackFrame :=
  let storages := conv.getArgStorage { params := func.parameters.map Parameter.type }
  (func.parameters.zip storages).foldl (fun frame (param, storage) ↦
    match storage, param.storage with
    | .onStack _ stackOffset, .stackSlot id => frame.setOffset id (frame.totalSize + stackOffset)
    | _, _ => frame) frame

def run (func : Function) : Function :=
  let (implicitRegion, frame) := conv.createImplicitRegion func
  let argStoreRegion := conv.createArgStoreRegion frame implicitRegion
  let (genericOffsets, genericSize) := createGenericRegion frame argStoreRegion.size
  let (callArgSize, frame) := conv.createCallArgRegion func frame
  let allocaSize :=
    conv.getAllocaSize ⟨implicitRegion, argStoreRegion, genericSize, callArgSize⟩
  -- The offsets are from the stack pointer before the allocation.
  let frame := (argStoreRegion.offsets ++ genericOffsets).foldl
    (fun frame (id, offset) ↦ frame.setOffset id (offset + allocaSize)) frame
  let frame := { frame with size := allocaSize, totalSize := allocaSize + implicitRegion.size }
  { func with frame := placeParams conv func frame }

/-! ## Lowering -/

/-- `lower_param`, for every parameter. -/
def lowerParams : List (SSAType × ArgStorage) → StackFrame → List Parameter × StackFrame
  | [], frame => ([], frame)
  | (type, .inReg reg) :: params, frame =>
    let (parameters, frame) := lowerParams params frame
    (⟨type, .register reg⟩ :: parameters, frame)
  | (type, .onStack _ _) :: params, frame =>
    let (id, frame) := frame.newStackSlot { type := .GENERIC, size := 8 }
    let (parameters, frame) := lowerParams params frame
    (⟨type, .stackSlot id⟩ :: parameters, frame)

/-- A function before its blocks are lowered. -/
def lowerFunc (type : FunctionType) : Function :=
  let (parameters, frame) := lowerParams (type.params.zip (conv.getArgStorage type)) {}
  { parameters, frame }

/-- The place that `LOADARG` reads parameter `i` from. -/
def lowerLoadarg (type : FunctionType) (func : Function) (i : ℕ) : Option ParamStorage :=
  match (conv.getArgStorage type)[i]? with
  | some (.inReg reg) => some (.register reg)
  | some (.onStack _ _) => func.parameters[i]?.map Parameter.storage
  | none => none

/-- What the lowering of the blocks and the register allocation do to a function: new slots, new
instructions and calls, whose arguments they write to their places. -/
inductive Step : Function → Function → Prop where
  | newStackSlot (func : Function) (slot : StackSlot) (htype : slot.type ≠ .CALL_ARG)
      (hoffset : slot.offset = none) :
    Step func { func with frame := (func.frame.newStackSlot slot).2 }
  | emit (func : Function) (dests : List MCode.PhysicalReg) : Step func { func with dests }
  | lowerCall (func : Function) (type : FunctionType) :
    Step func { func with frame := (conv.lowerCall type func.frame).2, hasCall := true }

/-- A function of this type whose lowering has come this far. -/
def Lowered (type : FunctionType) (func : Function) : Prop :=
  Relation.ReflTransGen (Step conv) (lowerFunc conv type) func

end Banjo.Codegen.StackFramePass

/-!
## The layout of a stack frame

The slots for the arguments of calls are numbered without gaps, so that a slot of number `i` lies
`8 * i` bytes behind the first. The pass defines a slot of one kind without touching the others.
-/

namespace Banjo.MCode

open SSA (SSAType)

namespace StackFrame

variable {frame frame' : StackFrame} {id : StackSlotId} {slot : StackSlot}

/-! ## Offsets -/

variable (offset : ℤ)

@[simp]
theorem setOffset_callArgSlotIndices :
    (frame.setOffset id offset).callArgSlotIndices = frame.callArgSlotIndices :=
  rfl

theorem offsetOf_setOffset_self (h : id < frame.stackSlots.length) (offset : ℤ) :
    (frame.setOffset id offset).offsetOf id = some offset := by
  simp [offsetOf, setOffset, getElem?_modify_eq, getElem?_eq_getElem h]

theorem offsetOf_setOffset_of_ne {other : StackSlotId} (h : id ≠ other) (offset : ℤ) :
    (frame.setOffset id offset).offsetOf other = frame.offsetOf other := by
  rw [offsetOf, offsetOf, setOffset, getElem?_modify]
  cases frame.stackSlots[other]? with
  | none => rfl
  | some slot => simp [h]

/-- The kind and the number of a slot, which never change. -/
def label (frame : StackFrame) (id : StackSlotId) : Option (StackSlotType × ℕ) :=
  frame.stackSlots[id]?.map fun slot ↦ (slot.type, slot.callArgIndex)

theorem label_setOffset (other : StackSlotId) :
    (frame.setOffset id offset).label other = frame.label other := by
  rw [label, label, setOffset, getElem?_modify]
  cases frame.stackSlots[other]? with
  | none => rfl
  | some slot =>
    by_cases h : id = other
    · simp [h]
    · simp [h]

theorem lt_length_of_label {label : StackSlotType × ℕ} (h : frame.label id = some label) :
    id < frame.stackSlots.length := by
  obtain ⟨slot, hslot, -⟩ := map_eq_some_iff.mp h
  exact (List.getElem?_eq_some_iff.mp hslot).1

variable (entries : List (StackSlotId × ℤ)) (shift : ℤ)

/-- Setting the offsets of other slots changes nothing. -/
theorem foldl_setOffset_of_notMem (h : ∀ offset, (id, offset) ∉ entries) :
    (entries.foldl (fun frame (id, offset) ↦ frame.setOffset id (offset + shift)) frame).offsetOf
      id = frame.offsetOf id := by
  induction entries generalizing frame with
  | nil => rfl
  | cons entry entries ih =>
    rw [foldl_cons, ih fun offset hmem ↦ h offset (mem_cons_of_mem _ hmem)]
    refine offsetOf_setOffset_of_ne ?_ _
    rintro rfl
    exact h entry.2 mem_cons_self

theorem label_foldl_setOffset (other : StackSlotId) :
    (entries.foldl (fun frame (id, offset) ↦ frame.setOffset id (offset + shift)) frame).label
      other = frame.label other := by
  induction entries generalizing frame with
  | nil => rfl
  | cons entry entries ih => rw [foldl_cons, ih, label_setOffset]

/-! ## Slots for the arguments of calls -/

/-- No slot has an offset yet, and the slots for arguments are numbered without gaps. -/
structure Fresh (frame : StackFrame) : Prop where
  undefined : ∀ slot ∈ frame.stackSlots, slot.offset = none
  numbered : ∀ (k : ℕ) (id : StackSlotId), frame.callArgSlotIndices[k]? = some id →
    frame.label id = some (.CALL_ARG, k)

/-- One frame has the slots of another, and maybe more. -/
structure Extends (frame frame' : StackFrame) : Prop where
  slots : frame.stackSlots <+: frame'.stackSlots
  callArgs : frame.callArgSlotIndices <+: frame'.callArgSlotIndices

theorem Extends.refl (frame : StackFrame) : Extends frame frame :=
  ⟨prefix_rfl, prefix_rfl⟩

theorem Extends.trans {frame'' : StackFrame} (h : Extends frame frame')
    (h' : Extends frame' frame'') : Extends frame frame'' :=
  ⟨h.slots.trans h'.slots, h.callArgs.trans h'.callArgs⟩

theorem Extends.label {label : StackSlotType × ℕ} (h : Extends frame frame')
    (hlabel : frame.label id = some label) : frame'.label id = some label := by
  obtain ⟨slots, hslots⟩ := h.slots
  rw [StackFrame.label, ← hslots, getElem?_append_left (lt_length_of_label hlabel)]
  exact hlabel

theorem Extends.callArg (h : Extends frame frame') {k : ℕ}
    (hid : frame.callArgSlotIndices[k]? = some id) : frame'.callArgSlotIndices[k]? = some id := by
  obtain ⟨ids, hids⟩ := h.callArgs
  rw [← hids, List.getElem?_append_left (List.getElem?_eq_some_iff.mp hid).1, hid]

theorem extends_newStackSlot (frame : StackFrame) (slot : StackSlot) :
    Extends frame (frame.newStackSlot slot).2 := by
  refine ⟨prefix_append _ _, ?_⟩
  change _ <+: if slot.type = .CALL_ARG then _ else _
  split_ifs
  · exact prefix_append _ _
  · exact prefix_rfl

theorem label_newStackSlot (frame : StackFrame) (slot : StackSlot) :
    (frame.newStackSlot slot).2.label (frame.newStackSlot slot).1 =
      some (slot.type, slot.callArgIndex) := by
  simp [label, newStackSlot]

/-- A new slot for an argument has to have the next number. -/
theorem Fresh.newStackSlot (h : frame.Fresh) (hoffset : slot.offset = none)
    (hindex : slot.type = .CALL_ARG → slot.callArgIndex = frame.callArgSlotIndices.length) :
    (frame.newStackSlot slot).2.Fresh where
  undefined := by
    intro other hother
    obtain hother | hother := mem_append.mp hother
    · exact h.undefined other hother
    · rwa [mem_singleton.mp hother]
  numbered := by
    intro k id hid
    by_cases htype : slot.type = .CALL_ARG
    · replace hid : (frame.callArgSlotIndices ++ [frame.stackSlots.length])[k]? = some id := by
        simpa [StackFrame.newStackSlot, htype] using hid
      obtain hk | hk | hk := lt_trichotomy k frame.callArgSlotIndices.length
      · rw [getElem?_append_left hk] at hid
        exact (extends_newStackSlot frame slot).label (h.numbered k id hid)
      · subst hk
        obtain rfl : frame.stackSlots.length = id := by simpa using hid
        rw [← hindex htype, ← htype]
        exact label_newStackSlot frame slot
      · rw [getElem?_eq_none (by simp; omega)] at hid
        cases hid
    · replace hid : frame.callArgSlotIndices[k]? = some id := by
        simpa [StackFrame.newStackSlot, htype] using hid
      exact (extends_newStackSlot frame slot).label (h.numbered k id hid)

/-- A call that needs the next number at most gets a slot of the number it asks for. -/
theorem Fresh.createCallArgSlot (h : frame.Fresh) {k : ℕ}
    (hk : k ≤ frame.callArgSlotIndices.length) :
    (frame.createCallArgSlot k).2.Fresh ∧ Extends frame (frame.createCallArgSlot k).2 ∧
      (frame.createCallArgSlot k).2.callArgSlotIndices[k]? = some (frame.createCallArgSlot k).1 ∧
      k < (frame.createCallArgSlot k).2.callArgSlotIndices.length := by
  unfold StackFrame.createCallArgSlot
  split
  · rename_i id hid
    exact ⟨h, .refl frame, hid, (List.getElem?_eq_some_iff.mp hid).1⟩
  · rename_i hnone
    obtain rfl : k = frame.callArgSlotIndices.length :=
      le_antisymm hk (List.getElem?_eq_none_iff.mp hnone)
    refine ⟨h.newStackSlot rfl fun _ ↦ rfl, extends_newStackSlot _ _, ?_, ?_⟩
    · simp [StackFrame.newStackSlot]
    · simp [StackFrame.newStackSlot]

/-- The places of a call: the numbers of its slots leave no gap behind those below `bound`. -/
def Gapless : ℕ → List CallArg → Prop
  | _, [] => True
  | bound, .reg _ :: args => Gapless bound args
  | bound, .slot k :: args => k ≤ bound ∧ Gapless (max bound (k + 1)) args

variable {args : List CallArg}

theorem Gapless.mono {bound bound' : ℕ} (h : Gapless bound args)
    (hle : bound ≤ bound') : Gapless bound' args := by
  induction args generalizing bound bound' with
  | nil => trivial
  | cons arg args ih =>
    cases arg with
    | reg _ => exact ih h hle
    | slot k => exact ⟨h.1.trans hle, ih h.2 (max_le_max_right _ hle)⟩

/-- Where a frame has an argument. -/
def Places (frame : StackFrame) : CallArg → ParamStorage → Prop
  | .reg reg, place => place = .register reg
  | .slot k, place => ∃ id, place = .stackSlot id ∧ frame.callArgSlotIndices[k]? = some id

theorem Places.extends {arg : CallArg} {place : ParamStorage} (h : Places frame arg place)
    (hextends : Extends frame frame') : Places frame' arg place := by
  cases arg with
  | reg reg => exact h
  | slot k =>
    obtain ⟨id, hplace, hid⟩ := h
    exact ⟨id, hplace, hextends.callArg hid⟩

theorem placeArgs_spec (h : frame.Fresh) (hargs : Gapless frame.callArgSlotIndices.length args) :
    (placeArgs args frame).2.Fresh ∧ Extends frame (placeArgs args frame).2 ∧
      List.Forall₂ (Places (placeArgs args frame).2) args (placeArgs args frame).1 := by
  induction args generalizing frame with
  | nil => exact ⟨h, .refl frame, .nil⟩
  | cons arg args ih =>
    cases arg with
    | reg reg =>
      obtain ⟨hfresh, hextends, hplaces⟩ := ih h hargs
      exact ⟨hfresh, hextends, .cons rfl hplaces⟩
    | slot k =>
      obtain ⟨hk, hrest⟩ := hargs
      obtain ⟨hfresh, hextends, hid, hlt⟩ := h.createCallArgSlot hk
      obtain ⟨hfresh', hextends', hplaces⟩ := ih hfresh
        (hrest.mono (max_le hextends.callArgs.length_le hlt))
      exact ⟨hfresh', hextends.trans hextends', .cons ⟨_, rfl, hextends'.callArg hid⟩ hplaces⟩

/-- Every slot for an argument lies at its number. -/
theorem offsetOf_defineCallArgSlots (h : frame.Fresh) (base : ℤ) {k : ℕ}
    (hid : frame.callArgSlotIndices[k]? = some id) :
    (frame.defineCallArgSlots base).offsetOf id = some (base + 8 * k) := by
  have hfold : ∀ (ids : List StackSlotId) (frame' : StackFrame),
      (∀ other, frame'.label other = frame.label other) →
      (id ∈ ids ∨ frame'.offsetOf id = some (base + 8 * k)) →
      (ids.foldl (fun frame id ↦ frame.setOffset id
        (base + 8 * ((frame.stackSlots[id]?.map StackSlot.callArgIndex).getD 0))) frame').offsetOf
          id = some (base + 8 * k) := by
    intro ids
    induction ids with
    | nil =>
      rintro frame' - (hmem | hoffset)
      · cases hmem
      · exact hoffset
    | cons other ids ih =>
      intro frame' hlabel hmem
      refine ih _ (fun i ↦ by rw [label_setOffset, hlabel]) ?_
      by_cases hother : other = id
      · subst hother
        refine Or.inr ?_
        have hk := (hlabel other).trans (h.numbered k other hid)
        rw [offsetOf_setOffset_self (lt_length_of_label hk)]
        obtain ⟨slot, hslot, hslot'⟩ := map_eq_some_iff.mp hk
        rw [hslot, map_some, getD_some, (Prod.mk.inj hslot').2]
      · rw [offsetOf_setOffset_of_ne hother]
        exact hmem.imp_left fun hmem ↦ (mem_cons.mp hmem).resolve_left (Ne.symm hother)
  exact hfold _ frame (fun _ ↦ rfl) (Or.inl (mem_of_getElem? hid))

theorem label_defineCallArgSlots (base : ℤ) (other : StackSlotId) :
    (frame.defineCallArgSlots base).label other = frame.label other := by
  unfold defineCallArgSlots
  generalize frame.callArgSlotIndices = ids
  induction ids generalizing frame with
  | nil => rfl
  | cons id ids ih => rw [foldl_cons, ih, label_setOffset]

end StackFrame

end Banjo.MCode
