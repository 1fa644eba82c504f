import Banjo.SSA.Instruction
import Mathlib.Data.List.GetD

/-!
# Stack frames

A stack frame is a list of slots, which get their offsets from the stack pointer when the function
is complete. The slots for the arguments of calls are shared by all calls of the function.
-/

namespace Banjo.MCode

open SSA (SSAType)

abbrev PhysicalReg := ℕ

abbrev StackSlotId := ℕ

inductive StackSlotType where
  | GENERIC | ARG_STORE | CALL_ARG
  deriving DecidableEq, Repr

/-- `is_defined` holds of a slot that has an offset. -/
structure StackSlot where
  type : StackSlotType
  size : ℕ
  offset : Option ℤ := none
  callArgIndex : ℕ := 0
  deriving DecidableEq, Repr

structure StackFrame where
  stackSlots : List StackSlot := []
  callArgSlotIndices : List StackSlotId := []
  regSaveSlotIndices : List StackSlotId := []
  size : ℤ := 0
  totalSize : ℤ := 0
  deriving DecidableEq, Repr

namespace StackFrame

variable (frame : StackFrame)

def newStackSlot (slot : StackSlot) : StackSlotId × StackFrame :=
  let index := frame.stackSlots.length
  (index, { frame with
    stackSlots := frame.stackSlots ++ [slot]
    callArgSlotIndices := if slot.type = .CALL_ARG then frame.callArgSlotIndices ++ [index]
      else frame.callArgSlotIndices })

/-- The slot of an argument on the stack, a new one unless an earlier call has made it. -/
def createCallArgSlot (index : ℕ) : StackSlotId × StackFrame :=
  match frame.callArgSlotIndices[index]? with
  | some slot => (slot, frame)
  | none => frame.newStackSlot { type := .CALL_ARG, size := 8, callArgIndex := index }

def setOffset (id : StackSlotId) (offset : ℤ) : StackFrame :=
  { frame with stackSlots := frame.stackSlots.modify id ({ · with offset := some offset }) }

def offsetOf (id : StackSlotId) : Option ℤ := frame.stackSlots[id]?.bind StackSlot.offset

/-- The slots of a type that have no offset yet, with their sizes. -/
def undefinedSlots (type : StackSlotType) : List (StackSlotId × ℕ) :=
  frame.stackSlots.zipIdx.filterMap fun (slot, id) ↦
    if slot.offset.isNone ∧ slot.type = type then some (id, slot.size) else none

end StackFrame

/-- Where an argument is passed. -/
inductive ArgStorage where
  | inReg (reg : PhysicalReg)
  | onStack (argSlotIndex stackOffset : ℕ)
  deriving DecidableEq, Repr

/-- Where a call passes an argument, before the stack frame has a slot for it. -/
inductive CallArg where
  | reg (reg : PhysicalReg)
  | slot (argSlotIndex : ℕ)
  deriving DecidableEq, Repr

/-- Where a parameter is stored: `std::variant` of the register and the slot. -/
inductive ParamStorage where
  | register (reg : PhysicalReg)
  | stackSlot (slot : StackSlotId)
  deriving DecidableEq, Repr

structure Parameter where
  type : SSAType
  storage : ParamStorage
  deriving DecidableEq, Repr

namespace StackFrame

/-- The places that a call writes its arguments to, in order. -/
def placeArgs : List CallArg → StackFrame → List ParamStorage × StackFrame
  | [], frame => ([], frame)
  | .reg reg :: args, frame =>
    let (places, frame) := placeArgs args frame
    (.register reg :: places, frame)
  | .slot index :: args, frame =>
    let (id, frame) := frame.createCallArgSlot index
    let (places, frame) := placeArgs args frame
    (.stackSlot id :: places, frame)

/-- The slots for the arguments of calls lie at the stack pointer, behind `base`. -/
def defineCallArgSlots (frame : StackFrame) (base : ℤ) : StackFrame :=
  frame.callArgSlotIndices.foldl (fun frame id ↦
    frame.setOffset id (base + 8 * ((frame.stackSlots[id]?.map StackSlot.callArgIndex).getD 0)))
    frame

end StackFrame

/-- A machine function: of its instructions only the physical registers they name first, and whether
one of them is a call. -/
structure Function where
  parameters : List Parameter
  frame : StackFrame
  dests : List PhysicalReg := []
  hasCall : Bool := false
  deriving DecidableEq, Repr

structure ImplicitStackRegion where
  size : ℤ
  savedRegSize : ℤ

structure ArgStoreStackRegion where
  size : ℤ
  offsets : List (StackSlotId × ℤ)

structure StackRegions where
  implicitRegion : ImplicitStackRegion
  argStoreRegion : ArgStoreStackRegion
  genericSize : ℤ
  callArgSize : ℤ

/-- The instructions of a prologue. -/
inductive PrologInstr where
  | push (reg : PhysicalReg)
  | ehPushreg (reg : PhysicalReg)
  | mov (dst src : PhysicalReg)
  | subSp (imm : ℤ) (shift : ℕ)
  | storeSlot (slot : StackSlotId) (reg : PhysicalReg)
  | strPreIndex (reg : PhysicalReg) (offset : ℤ)
  | stpPreIndex (reg₁ reg₂ : PhysicalReg) (offset : ℤ)
  deriving DecidableEq, Repr

/-- How an instruction of a prologue moves the stack pointer. -/
def PrologInstr.spDelta : PrologInstr → ℤ
  | push _ => -8
  | subSp imm shift => -(imm * 2 ^ shift)
  | strPreIndex _ offset => offset
  | stpPreIndex _ _ offset => offset
  | ehPushreg _ | mov _ _ | storeSlot _ _ => 0

/-- The type of the function that a call expects, or that a function has. -/
structure FunctionType where
  params : List SSAType
  variadic : Bool := false
  firstVariadicIndex : ℕ := 0
  deriving DecidableEq, Repr

/-- The virtual functions of a calling convention. `callDelta` is how the call instruction moves the
stack pointer. A call returns the places it writes its arguments to. -/
structure CallingConvention where
  volatileRegs : List PhysicalReg
  callDelta : ℤ
  lowerCall : FunctionType → StackFrame → List ParamStorage × StackFrame
  createArgStoreRegion : StackFrame → ImplicitStackRegion → ArgStoreStackRegion
  createCallArgRegion : Function → StackFrame → ℤ × StackFrame
  createImplicitRegion : Function → ImplicitStackRegion × StackFrame
  getAllocaSize : StackRegions → ℤ
  getProlog : Function → Option (List PrologInstr)
  getArgStorage : FunctionType → List ArgStorage

/-- The registers that a function writes and has to save, in the order of the first writes. -/
def getModifiedVolatileRegs (volatileRegs : List PhysicalReg) (func : Function) :
    List PhysicalReg :=
  func.dests.foldl (fun result reg ↦
    if reg ∉ volatileRegs ∧ reg ∉ result then result ++ [reg] else result) []

/-- `utils::align`. -/
def align (value boundary : ℤ) : ℤ :=
  if value % boundary = 0 then value else value + boundary - value % boundary

/-- The slots for stored arguments, one below the other from the stack pointer on. -/
def argStoreBelow (frame : StackFrame) : ArgStoreStackRegion :=
  (frame.undefinedSlots .ARG_STORE).foldl (fun region (id, size) ↦
    ⟨region.size - size, region.offsets ++ [(id, region.size - size)]⟩) ⟨0, []⟩

end Banjo.MCode
