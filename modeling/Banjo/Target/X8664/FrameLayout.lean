import Banjo.Codegen.SlotLayout
import Banjo.Target.CallAgreement

/-!
# The regions of a frame of x86-64

The stored arguments that lie in the frame, and the generic slots, follow one below the other from
the stack pointer of the caller on. What the frame allocates leaves room for the arguments of calls
below them.
-/

open List Option

namespace Banjo.Target

open MCode MCode.StackFrame Codegen.StackFramePass Stacking
open SSA (SSAType)

inductive X8664CallingConv where
  | X86_64_SYS_V_ABI
  | X86_64_MS_ABI
  deriving DecidableEq, Repr

namespace X8664CallingConv

def conv : X8664CallingConv → CallingConvention
  | X86_64_SYS_V_ABI => SysVCallingConv.conv
  | X86_64_MS_ABI => MSABICallingConv.conv

/-- The space at the bottom of a frame for the arguments in registers. -/
def shadowSpace : X8664CallingConv → ℤ
  | X86_64_SYS_V_ABI => 0
  | X86_64_MS_ABI => 32

/-- Does the prologue align the stack pointer? On Microsoft x64 only where there is a call. -/
def aligns (abi : X8664CallingConv) (func : Function) : Prop :=
  abi = X86_64_SYS_V_ABI ∨ func.hasCall

instance (abi : X8664CallingConv) (func : Function) : Decidable (abi.aligns func) :=
  inferInstanceAs (Decidable (_ ∨ _))

end X8664CallingConv

variable (abi : X8664CallingConv) (func : Function)

/-- The frame behind the pass. -/
def frameOf : StackFrame := (run abi.conv func).frame

/-- The slots that lie in the frame of the function itself. -/
structure Own (id : StackSlotId) (slot : StackSlot) : Prop where
  getElem : (frameOf abi func).stackSlots[id]? = some slot
  param : ∀ param ∈ func.parameters, param.storage ≠ .stackSlot id
  argStore : abi = .X86_64_MS_ABI → slot.type ≠ .ARG_STORE

/-- The bytes for the arguments of calls. -/
def callArgBytes : ℤ :=
  if abi.aligns func then abi.shadowSpace + 8 * (frameOf abi func).callArgSlotIndices.length else 0

/-- The stack pointer behind the prologue, for a call with the stack pointer `sp`. -/
def spBehindProlog (sp : ℤ) : ℤ :=
  calleeSp abi.conv ((abi.conv.getProlog (run abi.conv func)).getD []) sp

/-! ## The implicit region -/

section Implicit

variable {abi func}

/-- The frame with the slots for saved registers. -/
def implicitFrame (abi : X8664CallingConv) (func : Function) : StackFrame :=
  (abi.conv.createImplicitRegion func).2

theorem saveRegs_callArgs (modified : List PhysicalReg) {frame : StackFrame}
    (h : frame.Registered) :
    (saveRegs modified frame).2.Registered ∧
      (saveRegs modified frame).2.callArgSlotIndices = frame.callArgSlotIndices := by
  unfold saveRegs
  generalize (0 : ℤ) = size
  induction modified generalizing size frame with
  | nil => exact ⟨h, rfl⟩
  | cons reg regs ih =>
    rw [foldl_cons]
    split_ifs
    · exact ih h _
    · refine ih ?_ _
      exact @Registered.newStackSlot _ { type := .GENERIC, size := 8 } h fun htype ↦ by cases htype

theorem implicitFrame_fresh (h : func.frame.Fresh) : (implicitFrame abi func).Fresh := by
  cases abi with
  | X86_64_SYS_V_ABI => exact SysVCallingConv.lawful.implicitRegion_fresh func h
  | X86_64_MS_ABI => exact MSABICallingConv.lawful.implicitRegion_fresh func h

theorem implicitFrame_callArgs (h : func.frame.Registered) :
    (implicitFrame abi func).Registered ∧
      (implicitFrame abi func).callArgSlotIndices = func.frame.callArgSlotIndices := by
  cases abi with
  | X86_64_SYS_V_ABI => exact saveRegs_callArgs _ h
  | X86_64_MS_ABI => exact saveRegs_callArgs _ h

theorem callArgRegion_shape :
    (callArgRegion abi.conv func).2.shape = (implicitFrame abi func).shape := by
  cases abi with
  | X86_64_SYS_V_ABI => exact shape_defineCallArgSlots _ _
  | X86_64_MS_ABI =>
    change (MSABICallingConv.createCallArgRegion func _).2.shape = _
    unfold MSABICallingConv.createCallArgRegion
    split_ifs
    · exact shape_defineCallArgSlots _ _
    · rfl

theorem argStoreRegion_ids : (argStoreRegion abi.conv func).offsets.map Prod.fst =
    ((implicitFrame abi func).undefinedSlots .ARG_STORE).map Prod.fst := by
  cases abi with
  | X86_64_SYS_V_ABI =>
    change (argStoreBelow _).offsets.map Prod.fst = _
    rw [argStoreBelow_eq]
    exact map_fst_below _ _ _
  | X86_64_MS_ABI =>
    change (mapIdx _ _).map Prod.fst = _
    refine ext_getElem? fun i ↦ ?_
    rw [getElem?_map, getElem?_mapIdx, getElem?_map, Option.map_map]
    rfl

/-! ## The slots below the stack pointer of the caller -/

theorem dvd_align (value : ℤ) {boundary : ℤ} : boundary ∣ align value boundary := by
  unfold align
  split_ifs with h
  · exact Int.dvd_of_emod_eq_zero h
  · refine Int.dvd_of_emod_eq_zero ?_
    rw [Int.sub_emod, Int.add_emod_right, ← Int.sub_emod]
    simp

/-- Where the stored arguments end that lie in the frame itself. -/
def argStoreEnd (abi : X8664CallingConv) (func : Function) : ℤ :=
  (argStoreRegion abi.conv func).size

/-- Where the last generic slot lies. -/
def low (abi : X8664CallingConv) (func : Function) : ℤ :=
  bottom (align · 8) (argStoreEnd abi func) ((implicitFrame abi func).undefinedSlots .GENERIC)

/-- The slots of the frame itself but those for the arguments of calls. -/
def placed (abi : X8664CallingConv) (func : Function) : List (StackSlotId × ℤ) :=
  (match abi with
    | .X86_64_SYS_V_ABI => (argStoreRegion abi.conv func).offsets
    | .X86_64_MS_ABI => []) ++
  below (align · 8) (argStoreEnd abi func) ((implicitFrame abi func).undefinedSlots .GENERIC)

def sizeIn (abi : X8664CallingConv) (func : Function) (id : StackSlotId) : ℕ :=
  ((implicitFrame abi func).stackSlots[id]?.map StackSlot.size).getD 0

theorem sizeIn_of_mem {type : StackSlotType} {entry : StackSlotId × ℕ}
    (h : entry ∈ (implicitFrame abi func).undefinedSlots type) :
    sizeIn abi func entry.1 = entry.2 := by
  obtain ⟨slot, hslot, -, -, hsize⟩ := mem_undefinedSlots.mp h
  rw [sizeIn, hslot, map_some, getD_some, hsize]

theorem descends_placed : Descends (sizeIn abi func) 0 (placed abi func) (low abi func) := by
  refine Descends.append (?_ : Descends _ 0 _ (argStoreEnd abi func))
    (descends_below (fun n ↦ le_align n (by decide)) _ fun _ ↦ sizeIn_of_mem)
  cases abi with
  | X86_64_SYS_V_ABI =>
    change Descends _ 0 (argStoreBelow _).offsets (argStoreBelow _).size
    rw [argStoreBelow_eq]
    exact descends_below (fun n ↦ le_rfl) _ fun _ ↦ sizeIn_of_mem
  | X86_64_MS_ABI => exact le_rfl

theorem genericRegion_eq : genericRegion abi.conv func =
    (below (align · 8) (argStoreEnd abi func) ((implicitFrame abi func).undefinedSlots .GENERIC),
      -(low abi func + argStoreEnd abi func)) :=
  createGenericRegion_eq _ _

theorem mem_regions_of_mem_placed {entry : StackSlotId × ℤ} (h : entry ∈ placed abi func) :
    entry ∈ (argStoreRegion abi.conv func).offsets ++ (genericRegion abi.conv func).1 := by
  rw [genericRegion_eq]
  obtain h | h := mem_append.mp h
  · cases abi with
    | X86_64_SYS_V_ABI => exact mem_append_left _ h
    | X86_64_MS_ABI => cases h
  · exact mem_append_right _ h

variable {id : StackSlotId} {slot : StackSlot}

/-- What a slot is behind the pass, it was before. -/
theorem getElem?_implicitFrame (hfresh : func.frame.Fresh)
    (h : (frameOf abi func).stackSlots[id]? = some slot) :
    (implicitFrame abi func).stackSlots[id]? = some (erase slot) := by
  rw [← getElem?_shape (implicitFrame_fresh hfresh), implicitFrame,
    ← shape_run callArgRegion_shape, shape, getElem?_map]
  rw [frameOf] at h
  rw [h]
  rfl

theorem offsetOf_of_getElem? {frame : StackFrame}
    (h : frame.stackSlots[id]? = some slot) : frame.offsetOf id = slot.offset := by
  rw [offsetOf, h, bind_some]

theorem sizeIn_eq (hfresh : func.frame.Fresh)
    (h : (frameOf abi func).stackSlots[id]? = some slot) : sizeIn abi func id = slot.size := by
  rw [sizeIn, getElem?_implicitFrame hfresh h]
  rfl

/-- Every own slot but those for the arguments of calls is placed. -/
theorem Own.exists_mem_placed (hfresh : func.frame.Fresh) {id : StackSlotId} {slot : StackSlot}
    (h : Own abi func id slot) (htype : slot.type ≠ .CALL_ARG) :
    ∃ offset, (id, offset) ∈ placed abi func ∧
      slot.offset = some (offset + allocaSize abi.conv func) := by
  have hslot := getElem?_implicitFrame hfresh h.getElem
  have hundefined : (id, slot.size) ∈ (implicitFrame abi func).undefinedSlots slot.type :=
    mem_undefinedSlots.mpr ⟨erase slot, hslot, rfl, rfl, rfl⟩
  have hplaced : ∃ offset, (id, offset) ∈ placed abi func := by
    have hid := mem_map_of_mem (f := Prod.fst) hundefined
    cases hkind : slot.type with
    | GENERIC =>
      rw [hkind, ← map_fst_below (align · 8) (argStoreEnd abi func)] at hid
      obtain ⟨⟨_, offset⟩, hmem, rfl⟩ := mem_map.mp hid
      exact ⟨offset, mem_append_right _ hmem⟩
    | ARG_STORE =>
      rw [hkind, ← argStoreRegion_ids] at hid
      obtain ⟨⟨_, offset⟩, hmem, rfl⟩ := mem_map.mp hid
      cases abi with
      | X86_64_SYS_V_ABI => exact ⟨offset, mem_append_left _ hmem⟩
      | X86_64_MS_ABI => exact absurd hkind (h.argStore rfl)
    | CALL_ARG => exact absurd hkind htype
  obtain ⟨offset, hmem⟩ := hplaced
  refine ⟨offset, hmem, ?_⟩
  rw [← offsetOf_of_getElem? h.getElem]
  exact offsetOf_run_of_mem argStoreRegion_ids callArgRegion_shape (mem_regions_of_mem_placed hmem)
    (List.getElem?_eq_some_iff.mp hslot).1 h.param

/-- Where the stored arguments fill their last word, all slots begin at words. -/
theorem dvd_placed (hargStore : abi = .X86_64_SYS_V_ABI →
      ∀ entry ∈ (implicitFrame abi func).undefinedSlots .ARG_STORE, 8 ∣ entry.2) :
    (8 : ℤ) ∣ low abi func ∧ ∀ {id offset}, (id, offset) ∈ placed abi func → 8 ∣ offset := by
  have hregion : 8 ∣ argStoreEnd abi func ∧
      ∀ {id offset}, (id, offset) ∈ (match abi with
        | .X86_64_SYS_V_ABI => (argStoreRegion abi.conv func).offsets
        | .X86_64_MS_ABI => []) → 8 ∣ offset := by
    cases abi with
    | X86_64_SYS_V_ABI =>
      have hroom := fun entry hmem ↦ Int.natCast_dvd_natCast.mpr (hargStore rfl entry hmem)
      change 8 ∣ (argStoreBelow _).size ∧ ∀ {id offset},
        (id, offset) ∈ (argStoreBelow _).offsets → _
      rw [argStoreBelow_eq]
      exact ⟨dvd_bottom (dvd_zero 8) hroom, dvd_of_mem_below (dvd_zero 8) hroom⟩
    | X86_64_MS_ABI => exact ⟨dvd_zero 8, fun hmem ↦ by cases hmem⟩
  have hroom : ∀ entry ∈ (implicitFrame abi func).undefinedSlots .GENERIC,
      8 ∣ align entry.2 8 := fun _ _ ↦ dvd_align _
  refine ⟨dvd_bottom hregion.1 hroom, fun hmem ↦ ?_⟩
  obtain hmem | hmem := mem_append.mp hmem
  · exact hregion.2 hmem
  · exact dvd_of_mem_below hregion.1 hroom hmem

/-! ## The sizes of the regions -/

def savedRegSize (abi : X8664CallingConv) (func : Function) : ℤ :=
  (abi.conv.createImplicitRegion func).1.savedRegSize

theorem dvd_savedRegSize : (8 : ℤ) ∣ savedRegSize abi func := by
  have hsaved := fun modified ↦ (saveRegs_spec modified func.frame).1
  cases abi with
  | X86_64_SYS_V_ABI => exact ⟨_, hsaved _⟩
  | X86_64_MS_ABI => exact ⟨_, hsaved _⟩

theorem implicitRegion_size : (abi.conv.createImplicitRegion func).1.size =
    (match abi with | .X86_64_SYS_V_ABI => 16 | .X86_64_MS_ABI => 8) + savedRegSize abi func := by
  cases abi <;> rfl

variable (hregistered : func.frame.Registered)
include hregistered

theorem callArgSlotIndices_frameOf :
    (frameOf abi func).callArgSlotIndices = func.frame.callArgSlotIndices := by
  have hcallArgs := (@implicitFrame_callArgs abi func hregistered).2
  rw [frameOf, callArgSlotIndices_run, ← hcallArgs]
  cases abi with
  | X86_64_SYS_V_ABI =>
    exact apply_foldl (f := callArgSlotIndices) (fun _ _ ↦ setOffset_callArgSlotIndices _) _
  | X86_64_MS_ABI =>
    change (MSABICallingConv.createCallArgRegion func _).2.callArgSlotIndices = _
    unfold MSABICallingConv.createCallArgRegion
    split_ifs
    · exact apply_foldl (f := callArgSlotIndices) (fun _ _ ↦ setOffset_callArgSlotIndices _) _
    · rfl

variable (abi) in
theorem callArgRegion_size : (callArgRegion abi.conv func).1 = callArgBytes abi func := by
  have hcallArgs := (@implicitFrame_callArgs abi func hregistered).2
  rw [callArgBytes, callArgSlotIndices_frameOf hregistered, ← hcallArgs]
  cases abi with
  | X86_64_SYS_V_ABI =>
    rw [if_pos (show X8664CallingConv.aligns _ func from Or.inl rfl)]
    change 8 * (implicitFrame .X86_64_SYS_V_ABI func).callArgSlotIndices.length = (0 : ℤ) + _
    rw [zero_add]
  | X86_64_MS_ABI =>
    change (MSABICallingConv.createCallArgRegion func _).1 = _
    unfold MSABICallingConv.createCallArgRegion X8664CallingConv.aligns
    simp only [reduceCtorEq, false_or]
    split_ifs
    · rfl
    · rfl

variable (abi) in
/-- The frame has room for its slots and the arguments of calls, and its end is aligned. -/
theorem allocaSize_spec :
    callArgBytes abi func ≤ low abi func + allocaSize abi.conv func ∧
      (abi.aligns func →
        16 ∣ allocaSize abi.conv func + (abi.conv.createImplicitRegion func).1.size) ∧
      (¬abi.aligns func → allocaSize abi.conv func = -low abi func) := by
  have hsize := callArgRegion_size abi hregistered
  have hgeneric : (argStoreRegion abi.conv func).size + (genericRegion abi.conv func).2 =
      -low abi func := by
    rw [genericRegion_eq]
    change argStoreEnd abi func + _ = _
    dsimp only
    omega
  rw [implicitRegion_size]
  cases abi with
  | X86_64_SYS_V_ABI =>
    have halloca : allocaSize X8664CallingConv.X86_64_SYS_V_ABI.conv func =
      align ((argStoreRegion X8664CallingConv.X86_64_SYS_V_ABI.conv func).size +
        (genericRegion X8664CallingConv.X86_64_SYS_V_ABI.conv func).2 +
        (callArgRegion X8664CallingConv.X86_64_SYS_V_ABI.conv func).1 +
        savedRegSize .X86_64_SYS_V_ABI func) 16 - savedRegSize .X86_64_SYS_V_ABI func := rfl
    rw [hgeneric, hsize] at halloca
    have hle := le_align (-low .X86_64_SYS_V_ABI func + callArgBytes .X86_64_SYS_V_ABI func +
      savedRegSize .X86_64_SYS_V_ABI func) (show (0 : ℤ) < 16 by decide)
    refine ⟨by omega, fun _ ↦ ?_, fun h ↦ absurd (Or.inl rfl) h⟩
    rw [halloca]
    have := @dvd_align (-low .X86_64_SYS_V_ABI func + callArgBytes .X86_64_SYS_V_ABI func +
      savedRegSize .X86_64_SYS_V_ABI func) 16
    dsimp only
    omega
  | X86_64_MS_ABI =>
    have halloca : allocaSize X8664CallingConv.X86_64_MS_ABI.conv func =
      if (callArgRegion X8664CallingConv.X86_64_MS_ABI.conv func).1 = 0 then
        (argStoreRegion X8664CallingConv.X86_64_MS_ABI.conv func).size +
          (genericRegion X8664CallingConv.X86_64_MS_ABI.conv func).2 +
          (callArgRegion X8664CallingConv.X86_64_MS_ABI.conv func).1
      else align ((argStoreRegion X8664CallingConv.X86_64_MS_ABI.conv func).size +
          (genericRegion X8664CallingConv.X86_64_MS_ABI.conv func).2 +
          (callArgRegion X8664CallingConv.X86_64_MS_ABI.conv func).1 +
          (8 + savedRegSize .X86_64_MS_ABI func)) 16 - (8 + savedRegSize .X86_64_MS_ABI func) := rfl
    rw [hgeneric, hsize] at halloca
    by_cases haligns : X8664CallingConv.X86_64_MS_ABI.aligns func
    · have hbytes : 32 ≤ callArgBytes .X86_64_MS_ABI func := by
        rw [callArgBytes, if_pos haligns, X8664CallingConv.shadowSpace]
        omega
      rw [if_neg (by omega)] at halloca
      have hle := le_align (-low .X86_64_MS_ABI func + callArgBytes .X86_64_MS_ABI func +
        (8 + savedRegSize .X86_64_MS_ABI func)) (show (0 : ℤ) < 16 by decide)
      have := @dvd_align (-low .X86_64_MS_ABI func + callArgBytes .X86_64_MS_ABI func +
        (8 + savedRegSize .X86_64_MS_ABI func)) 16
      refine ⟨by omega, fun _ ↦ ?_, fun h ↦ absurd haligns h⟩
      rw [halloca]
      dsimp only
      omega
    · have hbytes : callArgBytes .X86_64_MS_ABI func = 0 := by rw [callArgBytes, if_neg haligns]
      rw [hbytes, if_pos rfl] at halloca
      exact ⟨by omega, fun h ↦ absurd h haligns, fun _ ↦ by omega⟩

end Implicit

/-!
## The frames of x86-64

Behind its prologue a function has its own slots between the stack pointer and the end of the
frame: the slots for the arguments of its calls at the bottom, on Microsoft x64 behind the space for
those in registers, and the others above them. The parameters on the stack belong to the caller's
frame, and so do the stored arguments on Microsoft x64, which lie where the caller has left space
for them.
-/

/-- The layout of a frame. -/
structure LaidOut (abi : X8664CallingConv) (func : Function) : Prop where
  inside : ∀ {id} {slot : StackSlot}, Own abi func id slot → ∃ offset, slot.offset = some offset ∧
    0 ≤ offset ∧ offset + slot.size ≤ (frameOf abi func).size
  disjoint : ∀ {id id'} {slot slot' : StackSlot}, Own abi func id slot → Own abi func id' slot' →
    id ≠ id' → ∀ {offset offset'}, slot.offset = some offset → slot'.offset = some offset' →
      offset + slot.size ≤ offset' ∨ offset' + slot'.size ≤ offset
  /-- The arguments of calls are at the bottom. -/
  callArg : ∀ {id} {slot : StackSlot}, Own abi func id slot → slot.type = .CALL_ARG →
    slot.offset = some (abi.shadowSpace + 8 * slot.callArgIndex) ∧
      abi.shadowSpace + 8 * slot.callArgIndex + slot.size ≤ callArgBytes abi func
  aboveCallArgs : ∀ {id} {slot : StackSlot}, Own abi func id slot → slot.type ≠ .CALL_ARG →
    ∀ {offset}, slot.offset = some offset → callArgBytes abi func ≤ offset
  /-- Every slot is aligned to 8 bytes, if the stored arguments fill their last word. -/
  aligned : (∀ {id} {slot : StackSlot}, Own abi func id slot → slot.type = .ARG_STORE →
      8 ∣ slot.size) →
    ∀ {sp}, 16 ∣ sp → ∀ {id} {slot : StackSlot}, Own abi func id slot →
      ∀ {offset}, slot.offset = some offset → 8 ∣ spBehindProlog abi func sp + offset
  spAligned : abi.aligns func → ∀ {sp}, 16 ∣ sp → 16 ∣ spBehindProlog abi func sp
  /-- On Microsoft x64 the stored arguments lie in the words that the caller has left for them. -/
  argStore : abi = .X86_64_MS_ABI → ∀ {id} {slot : StackSlot},
    (frameOf abi func).stackSlots[id]? = some slot → slot.type = .ARG_STORE →
      ∃ offset, slot.offset = some offset ∧ ∀ sp, spBehindProlog abi func sp + offset =
        sp + 8 * ((frameOf abi func).stackSlots.take id).countP (·.type = .ARG_STORE)
  /-- The parameters on the stack lie where the caller has put them. -/
  param : ∀ {i : ℕ} {param : Parameter} {id index stackOffset : ℕ},
    func.parameters[i]? = some param → param.storage = .stackSlot id →
    (abi.conv.getArgStorage { params := func.parameters.map Parameter.type })[i]? =
        some (.onStack index stackOffset) →
      ∃ offset, (frameOf abi func).offsetOf id = some offset ∧
        ∀ sp, spBehindProlog abi func sp + offset = sp + stackOffset

variable {abi : X8664CallingConv} {func : Function}

def X8664CallingConv.lawful : (abi : X8664CallingConv) → Lawful abi.conv
  | X86_64_SYS_V_ABI => SysVCallingConv.lawful
  | X86_64_MS_ABI => MSABICallingConv.lawful

theorem X8664CallingConv.lawful_base (abi : X8664CallingConv) :
    abi.lawful.base = abi.shadowSpace := by
  cases abi <;> rfl

/-- The frame ends where the caller's begins. -/
theorem spBehindProlog_add (sp : ℤ) : spBehindProlog abi func sp +
    (allocaSize abi.conv func + (abi.conv.createImplicitRegion func).1.size) = sp := by
  unfold spBehindProlog calleeSp
  cases abi with
  | X86_64_SYS_V_ABI =>
    have := SysVCallingConv.prolog_gap func
    change sp + SysVCallingConv.conv.callDelta +
      ((SysVCallingConv.getProlog (run SysVCallingConv.conv func)).map PrologInstr.spDelta).sum +
      (allocaSize SysVCallingConv.conv func + _) = sp
    change _ + (allocaSize SysVCallingConv.conv func +
      (SysVCallingConv.conv.createImplicitRegion func).1.size) = sp
    omega
  | X86_64_MS_ABI =>
    have := MSABICallingConv.prolog_gap func
    change sp + MSABICallingConv.conv.callDelta +
      ((MSABICallingConv.getProlog (run MSABICallingConv.conv func)).map PrologInstr.spDelta).sum +
      (allocaSize MSABICallingConv.conv func +
        (MSABICallingConv.conv.createImplicitRegion func).1.size) = sp
    omega

section Lowered

variable {type : FunctionType} (h : Lowered abi.conv type func)
include h

theorem Own.callArg {id : StackSlotId} {slot : StackSlot} (hown : Own abi func id slot)
    (htype : slot.type = .CALL_ARG) :
    slot.size = 8 ∧ (frameOf abi func).callArgSlotIndices[slot.callArgIndex]? = some id ∧
      func.hasCall ∧ slot.offset = some (abi.shadowSpace + 8 * slot.callArgIndex) := by
  obtain ⟨hfresh, -, -⟩ := h.spec abi.lawful
  obtain ⟨hregistered, hcall⟩ := h.callArgs abi.lawful
  have hslot := getElem?_implicitFrame hfresh hown.getElem
  obtain ⟨hregistered', hindices⟩ := @implicitFrame_callArgs abi func hregistered
  obtain ⟨hsize, hindex⟩ := hregistered' id _ hslot htype
  rw [hindices] at hindex
  have hcall' : func.hasCall := hcall fun hnil ↦ by simp [hnil] at hindex
  refine ⟨hsize, ?_, hcall', ?_⟩
  · rw [callArgSlotIndices_frameOf hregistered]
    exact hindex
  · rw [← offsetOf_of_getElem? hown.getElem, ← abi.lawful_base]
    exact offsetOf_run_callArg abi.lawful hfresh hcall'
      (fun param hmem id hid ↦ ⟨0, h.label_param abi.lawful hmem hid⟩) hindex

theorem Own.callArg_le {id : StackSlotId} {slot : StackSlot} (hown : Own abi func id slot)
    (htype : slot.type = .CALL_ARG) :
    abi.shadowSpace + 8 * slot.callArgIndex + slot.size ≤ callArgBytes abi func := by
  obtain ⟨hsize, hindex, hcall, -⟩ := Own.callArg h hown htype
  have hlt := (List.getElem?_eq_some_iff.mp hindex).1
  rw [callArgBytes, if_pos (show abi.aligns func from Or.inr hcall), hsize]
  push_cast
  omega

variable {id : StackSlotId} {offset : ℤ} {slot : StackSlot}

theorem Own.callArgBytes_le (hown : Own abi func id slot)
    (htype : slot.type ≠ .CALL_ARG) (hoffset : slot.offset = some offset) :
    callArgBytes abi func ≤ offset ∧ offset + slot.size ≤ allocaSize abi.conv func := by
  obtain ⟨hfresh, -, -⟩ := h.spec abi.lawful
  obtain ⟨hregistered, -⟩ := h.callArgs abi.lawful
  obtain ⟨place, hmem, hplace⟩ := hown.exists_mem_placed hfresh htype
  obtain ⟨hlow, hhigh⟩ := descends_placed.within hmem
  rw [sizeIn_eq hfresh hown.getElem] at hhigh
  have hroom := (allocaSize_spec abi hregistered).1
  obtain rfl : place + _ = offset := some.inj (hplace.symm.trans hoffset)
  exact ⟨by omega, by omega⟩

/-- Every own slot lies in the frame. -/
theorem Own.inside (hown : Own abi func id slot) :
    ∃ offset, slot.offset = some offset ∧ 0 ≤ offset ∧
      offset + slot.size ≤ (frameOf abi func).size := by
  obtain ⟨hfresh, -, -⟩ := h.spec abi.lawful
  obtain ⟨hregistered, -⟩ := h.callArgs abi.lawful
  have hshadow : 0 ≤ abi.shadowSpace := by cases abi <;> decide
  have hbytes : 0 ≤ callArgBytes abi func := by
    unfold callArgBytes
    split_ifs
    · omega
    · exact le_rfl
  rw [frameOf, run_frame_size]
  by_cases htype : slot.type = .CALL_ARG
  · obtain ⟨-, -, -, hoffset⟩ := Own.callArg h hown htype
    refine ⟨_, hoffset, by omega, ?_⟩
    have hle := Own.callArg_le h hown htype
    have hroom := (allocaSize_spec abi hregistered).1
    have hlow := (@descends_placed abi func).low_le
    omega
  · obtain ⟨place, -, hoffset⟩ := hown.exists_mem_placed hfresh htype
    obtain ⟨hle, hle'⟩ := Own.callArgBytes_le h hown htype hoffset
    exact ⟨_, hoffset, by omega, hle'⟩

theorem Own.disjoint {id' : StackSlotId} {slot' : StackSlot} (hown : Own abi func id slot)
    (hown' : Own abi func id' slot') (hne : id ≠ id') {offset' : ℤ}
    (hoffset : slot.offset = some offset) (hoffset' : slot'.offset = some offset') :
    offset + slot.size ≤ offset' ∨ offset' + slot'.size ≤ offset := by
  obtain ⟨hfresh, -, -⟩ := h.spec abi.lawful
  -- The arguments of calls are told apart by their numbers, and lie below everything else.
  by_cases htype : slot.type = .CALL_ARG
  · obtain ⟨hsize, hindex, -, hcallArg⟩ := Own.callArg h hown htype
    have hle := Own.callArg_le h hown htype
    obtain rfl := some.inj (hcallArg.symm.trans hoffset)
    by_cases htype' : slot'.type = .CALL_ARG
    · obtain ⟨hsize', hindex', -, hcallArg'⟩ := Own.callArg h hown' htype'
      obtain rfl := some.inj (hcallArg'.symm.trans hoffset')
      have hnumber : slot.callArgIndex ≠ slot'.callArgIndex := by
        intro heq
        rw [heq, hindex'] at hindex
        exact hne (some.inj hindex).symm
      omega
    · obtain ⟨hle', -⟩ := Own.callArgBytes_le h hown' htype' hoffset'
      exact Or.inl (hle.trans hle')
  · by_cases htype' : slot'.type = .CALL_ARG
    · obtain ⟨-, -, -, hcallArg⟩ := Own.callArg h hown' htype'
      have hle := Own.callArg_le h hown' htype'
      obtain rfl := some.inj (hcallArg.symm.trans hoffset')
      obtain ⟨hle', -⟩ := Own.callArgBytes_le h hown htype hoffset
      exact Or.inr (hle.trans hle')
    · obtain ⟨place, hmem, hplace⟩ := hown.exists_mem_placed hfresh htype
      obtain ⟨place', hmem', hplace'⟩ := hown'.exists_mem_placed hfresh htype'
      have := descends_placed.disjoint hmem hmem' hne
      rw [sizeIn_eq hfresh hown.getElem, sizeIn_eq hfresh hown'.getElem] at this
      obtain rfl := some.inj (hplace.symm.trans hoffset)
      obtain rfl := some.inj (hplace'.symm.trans hoffset')
      omega

theorem spBehindProlog_aligned (haligns : abi.aligns func) {sp : ℤ} (hsp : 16 ∣ sp) :
    16 ∣ spBehindProlog abi func sp := by
  obtain ⟨hregistered, -⟩ := h.callArgs abi.lawful
  have hframe := (allocaSize_spec abi hregistered).2.1 haligns
  have := @spBehindProlog_add abi func sp
  omega

/-- No parameter is in a slot for a stored argument. -/
theorem ne_stackSlot_of_argStore
    (hslot : (implicitFrame abi func).stackSlots[id]? = some slot) (htype : slot.type = .ARG_STORE)
    (param : Parameter) (hmem : param ∈ func.parameters) : param.storage ≠ .stackSlot id := by
  intro hid
  have hlabel := (abi.lawful.implicitRegion_extends func).label
    (h.label_param abi.lawful hmem hid)
  rw [label, ← implicitFrame, hslot, map_some] at hlabel
  have := congrArg Prod.fst (some.inj hlabel)
  exact absurd (this.symm.trans htype) (by decide)

/-- What a slot is before the pass, it is behind it. -/
theorem exists_own_of_argStore
    (habi : abi = .X86_64_SYS_V_ABI) (hslot : (implicitFrame abi func).stackSlots[id]? = some slot)
    (htype : slot.type = .ARG_STORE) :
    ∃ slot', Own abi func id slot' ∧ slot'.type = .ARG_STORE ∧ slot'.size = slot.size := by
  obtain ⟨hfresh, -, -⟩ := h.spec abi.lawful
  have hshape := congrArg (·[id]?) (shape_run (@callArgRegion_shape abi func))
  rw [shape, getElem?_map, ← implicitFrame, getElem?_shape (implicitFrame_fresh hfresh),
    hslot] at hshape
  obtain ⟨slot', hslot', heq⟩ := map_eq_some_iff.mp hshape
  subst heq
  refine ⟨slot', ⟨hslot', ne_stackSlot_of_argStore h hslot htype, fun hms ↦ ?_⟩, htype, rfl⟩
  rw [habi] at hms
  cases hms

theorem Own.aligned (hargStore : ∀ {id} {slot : StackSlot}, Own abi func id slot →
      slot.type = .ARG_STORE → 8 ∣ slot.size) {sp : ℤ} (hsp : 16 ∣ sp) (hown : Own abi func id slot)
    (hoffset : slot.offset = some offset) : 8 ∣ spBehindProlog abi func sp + offset := by
  obtain ⟨hfresh, -, -⟩ := h.spec abi.lawful
  obtain ⟨hregistered, -⟩ := h.callArgs abi.lawful
  obtain ⟨hlow, hplaced⟩ := @dvd_placed abi func fun habi entry hmem ↦ by
    obtain ⟨slot, hslot, -, htype, hsize⟩ := mem_undefinedSlots.mp hmem
    obtain ⟨slot', hown', htype', hsize'⟩ := exists_own_of_argStore h habi hslot htype
    rw [← hsize, ← hsize']
    exact hargStore hown' htype'
  -- The end of the frame is at a word, and so are both sides of it.
  have himplicit : 8 ∣ (abi.conv.createImplicitRegion func).1.size := by
    have := @dvd_savedRegSize abi func
    rw [implicitRegion_size]
    cases abi <;> dsimp only <;> omega
  have halloca : 8 ∣ allocaSize abi.conv func := by
    obtain ⟨-, haligns, hnot⟩ := allocaSize_spec abi hregistered
    by_cases h : abi.aligns func
    · have := haligns h
      omega
    · rw [hnot h]
      exact Int.dvd_neg.mpr hlow
  have hend := @spBehindProlog_add abi func sp
  have hword : 8 ∣ offset := by
    by_cases htype : slot.type = .CALL_ARG
    · obtain ⟨-, -, -, hcallArg⟩ := Own.callArg h hown htype
      obtain rfl := some.inj (hcallArg.symm.trans hoffset)
      cases abi <;> simp only [X8664CallingConv.shadowSpace] <;> omega
    · obtain ⟨place, hmem, hplace⟩ := hown.exists_mem_placed hfresh htype
      obtain rfl := some.inj (hplace.symm.trans hoffset)
      exact Int.dvd_add (hplaced hmem) halloca
  omega

/-- A stored argument on Microsoft x64 lies in the word of its number behind the return address. -/
theorem exists_argStore_eq (habi : abi = .X86_64_MS_ABI) {id : StackSlotId} {slot : StackSlot}
    (hslot : (frameOf abi func).stackSlots[id]? = some slot) (htype : slot.type = .ARG_STORE) :
    ∃ offset, slot.offset = some offset ∧ ∀ sp, spBehindProlog abi func sp + offset =
      sp + 8 * ((frameOf abi func).stackSlots.take id).countP (·.type = .ARG_STORE) := by
  obtain ⟨hfresh, -, -⟩ := h.spec abi.lawful
  have hslot' := getElem?_implicitFrame hfresh hslot
  have hnumber := getElem?_undefinedSlots (implicitFrame_fresh hfresh) hslot'
  rw [← countP_type_shape, implicitFrame, ← shape_run callArgRegion_shape, countP_type_shape,
    ← frameOf, show (erase slot).type = _ from htype] at hnumber
  set number := ((frameOf abi func).stackSlots.take id).countP (·.type = .ARG_STORE)
  have hmem : (id, (abi.conv.createImplicitRegion func).1.size + 8 * (number : ℤ)) ∈
      (argStoreRegion abi.conv func).offsets := by
    subst habi
    refine mem_of_getElem? (i := number) ?_
    change (mapIdx _ (StackFrame.undefinedSlots _ _))[number]? = _
    rw [getElem?_mapIdx]
    exact congrArg (Option.map _) hnumber
  have hoffset := offsetOf_run_of_mem argStoreRegion_ids callArgRegion_shape
    (mem_append_left _ hmem) (List.getElem?_eq_some_iff.mp hslot').1
    (ne_stackSlot_of_argStore h hslot' htype)
  refine ⟨_, (offsetOf_of_getElem? hslot).symm.trans hoffset, fun sp ↦ ?_⟩
  have := @spBehindProlog_add abi func sp
  omega

/-- A parameter on the stack lies where the caller has put it. -/
theorem exists_param_eq {i : ℕ} {param : Parameter} {id index stackOffset : ℕ}
    (hparam : func.parameters[i]? = some param) (hid : param.storage = .stackSlot id)
    (hstorage : (abi.conv.getArgStorage { params := func.parameters.map Parameter.type })[i]? =
      some (.onStack index stackOffset)) :
    ∃ offset, (frameOf abi func).offsetOf id = some offset ∧
      ∀ sp, spBehindProlog abi func sp + offset = sp + stackOffset := by
  obtain ⟨-, hapart, -⟩ := h.spec abi.lawful
  have hlabel := h.label_param abi.lawful (mem_of_getElem? hparam) hid
  refine ⟨_, offsetOf_run_param abi.lawful hapart hparam hid hlabel hstorage, fun sp ↦ ?_⟩
  have := @spBehindProlog_add abi func sp
  omega

end Lowered

/-- No two slots of a function overlap. -/
def AllDisjoint (abi : X8664CallingConv) (func : Function) : Prop :=
  ∀ (id id' : StackSlotId) (slot slot' : StackSlot),
    (frameOf abi func).stackSlots[id]? = some slot →
    (frameOf abi func).stackSlots[id']? = some slot' → id ≠ id' →
      ∀ {offset offset'}, slot.offset = some offset → slot'.offset = some offset' →
        offset + slot.size ≤ offset' ∨ offset' + slot'.size ≤ offset

section

open SSA.Primitive (I64)

/-- A function with five parameters, the last of them on the stack. -/
private def fiveParams : Function :=
  lowerFunc MSABICallingConv.conv { params := replicate 5 I64 }

/-- The function with a slot for each of its arguments. -/
private def storesArgs : Function :=
  { fiveParams with
    frame := (List.range 5).foldl
      (fun frame _ ↦ (frame.newStackSlot { type := .ARG_STORE, size := 8 }).2) fiveParams.frame }

theorem lowered_storesArgs :
    Lowered MSABICallingConv.conv { params := replicate 5 I64 } storesArgs := by
  have hstep : ∀ func : Function, Step MSABICallingConv.conv func
      { func with frame := (func.frame.newStackSlot { type := .ARG_STORE, size := 8 }).2 } :=
    fun func ↦ .newStackSlot func _ (by decide) rfl
  exact ((((Relation.ReflTransGen.single (hstep _)).tail (hstep _)).tail (hstep _)).tail
    (hstep _)).tail (hstep _)

end

end Banjo.Target
