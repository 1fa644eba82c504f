import Banjo.MCode.StackFrame

/-!
# The calling conventions of x86-64

Both conventions pass the first arguments in registers. System V counts integers and floating-point
numbers apart; Microsoft x64 has one position for each argument, and 32 bytes of the caller's frame
for the arguments that are passed in registers.
-/

namespace Banjo.Target

open MCode
open SSA (SSAType)

namespace X8664Register

def RAX : PhysicalReg := 0
def RCX : PhysicalReg := 1
def RDX : PhysicalReg := 2
def RSI : PhysicalReg := 4
def RDI : PhysicalReg := 5
def RSP : PhysicalReg := 6
def RBP : PhysicalReg := 7
def R8 : PhysicalReg := 8
def R9 : PhysicalReg := 9
def R10 : PhysicalReg := 10
def R11 : PhysicalReg := 11
def R15 : PhysicalReg := 15
def XMM0 : PhysicalReg := 16

/-- Is this a register that is saved by a push? -/
def isGeneral (reg : PhysicalReg) : Bool := RAX ≤ reg && reg ≤ R15

end X8664Register

open X8664Register

/-- The space of the pushed registers, and the frame with slots for the other ones. -/
def saveRegs (modified : List PhysicalReg) (frame : StackFrame) : ℤ × StackFrame :=
  modified.foldl (fun (size, frame) reg ↦
    if isGeneral reg then (size + 8, frame)
    else
      let (id, frame) := frame.newStackSlot { type := .GENERIC, size := 8 }
      (size, { frame with regSaveSlotIndices := frame.regSaveSlotIndices ++ [id] })) (0, frame)

/-- The pushes at the start of a prologue. -/
def pushRegs (modified : List PhysicalReg) : List PrologInstr :=
  (modified.filter isGeneral).flatMap fun reg ↦ [.push reg, .ehPushreg reg]

/-- The stores into the slots of the other registers, at the end of a prologue. -/
def storeRegs (modified : List PhysicalReg) (frame : StackFrame) : List PrologInstr :=
  List.zipWith (fun reg slot ↦ .storeSlot slot reg) (modified.filter (!isGeneral ·))
    frame.regSaveSlotIndices

/-! ## System V -/

namespace SysVCallingConv

def argRegsInt : List PhysicalReg := [RDI, RSI, RDX, RCX, R8, R9]

def argRegsFloat : List PhysicalReg := (List.range 9).map (XMM0 + ·)

def volatileRegs : List PhysicalReg :=
  [RAX, RDI, RSI, RDX, RCX, RSP, RBP, R8, R9, R10, R11] ++ (List.range 16).map (XMM0 + ·)

/-- The storage of the parameters behind `general` integers and `float` floating-point numbers in
registers and `slot` arguments on the stack. -/
def argStorageFrom (general float slot : ℕ) : List SSAType → List ArgStorage
  | [] => []
  | param :: params =>
    if param.isFloatingPoint ∧ float < argRegsFloat.length then
      .inReg (argRegsFloat.getD float 0) :: argStorageFrom general (float + 1) slot params
    else if ¬param.isFloatingPoint ∧ general < argRegsInt.length then
      .inReg (argRegsInt.getD general 0) :: argStorageFrom (general + 1) float slot params
    else
      .onStack slot (8 * slot) :: argStorageFrom general float (slot + 1) params

def getArgStorage (type : FunctionType) : List ArgStorage := argStorageFrom 0 0 0 type.params

/-- `get_arg_dst`. -/
def getArgDst : ArgStorage → CallArg
  | .inReg reg => .reg reg
  | .onStack argSlotIndex _ => .slot argSlotIndex

def implicitStackBytes : ℤ := 16

def createImplicitRegion (func : Function) : ImplicitStackRegion × StackFrame :=
  let (savedRegSize, frame) := saveRegs (getModifiedVolatileRegs volatileRegs func) func.frame
  (⟨implicitStackBytes + savedRegSize, savedRegSize⟩, frame)

def getAllocaSize (regions : StackRegions) : ℤ :=
  let minimumSize := regions.argStoreRegion.size + regions.genericSize + regions.callArgSize
  let savedRegBytes := regions.implicitRegion.savedRegSize
  align (minimumSize + savedRegBytes) 16 - savedRegBytes

def getProlog (func : Function) : List PrologInstr :=
  let modified := getModifiedVolatileRegs volatileRegs func
  pushRegs modified ++ [.push RBP, .mov RBP RSP, .subSp func.frame.size 0] ++
    storeRegs modified func.frame

def conv : CallingConvention where
  volatileRegs := volatileRegs
  callDelta := -8
  lowerCall type frame := frame.placeArgs ((getArgStorage type).map getArgDst)
  createArgStoreRegion frame _ := argStoreBelow frame
  createCallArgRegion _ frame :=
    (8 * frame.callArgSlotIndices.length, frame.defineCallArgSlots 0)
  createImplicitRegion := createImplicitRegion
  getAllocaSize := getAllocaSize
  getProlog func := some (getProlog func)
  getArgStorage := getArgStorage

end SysVCallingConv

/-! ## Microsoft x64 -/

namespace MSABICallingConv

def argRegsInt : List PhysicalReg := [RCX, RDX, R8, R9]

def argRegsFp : List PhysicalReg := (List.range 4).map (XMM0 + ·)

def volatileRegs : List PhysicalReg :=
  [RAX, RCX, RDX, RSP, RBP, R8, R9, R10, R11] ++ (List.range 6).map (XMM0 + ·)

/-- The register of the position. A variadic call also writes a floating-point number to the integer
register. -/
def argReg (param : SSAType) (index : ℕ) : PhysicalReg :=
  if param.isFloatingPoint then argRegsFp.getD index 0 else argRegsInt.getD index 0

def getArgStorage (type : FunctionType) : List ArgStorage :=
  type.params.mapIdx fun i param ↦
    if i < argRegsInt.length then .inReg (argReg param i) else .onStack 0 (8 * i)

def emitArgMove (index : ℕ) (param : SSAType) : CallArg :=
  if index < 4 then .reg (argReg param index) else .slot (index - 4)

def implicitStackBytes : ℤ := 8

def createImplicitRegion (func : Function) : ImplicitStackRegion × StackFrame :=
  let (savedRegSize, frame) := saveRegs (getModifiedVolatileRegs volatileRegs func) func.frame
  (⟨implicitStackBytes + savedRegSize, savedRegSize⟩, frame)

/-- The stored arguments lie above the implicit region. -/
def createArgStoreRegion (frame : StackFrame) (implicitRegion : ImplicitStackRegion) :
    ArgStoreStackRegion :=
  ⟨0, (frame.undefinedSlots .ARG_STORE).mapIdx fun i (id, _) ↦ (id, implicitRegion.size + 8 * i)⟩

def createCallArgRegion (func : Function) (frame : StackFrame) : ℤ × StackFrame :=
  if func.hasCall then
    (32 + 8 * frame.callArgSlotIndices.length, frame.defineCallArgSlots 32)
  else
    (0, frame)

def getAllocaSize (regions : StackRegions) : ℤ :=
  let minimumSize := regions.argStoreRegion.size + regions.genericSize + regions.callArgSize
  let implicitBytes := regions.implicitRegion.size
  -- Without calls the frame need not be aligned.
  if regions.callArgSize = 0 then minimumSize
  else align (minimumSize + implicitBytes) 16 - implicitBytes

def getProlog (func : Function) : List PrologInstr :=
  let modified := getModifiedVolatileRegs volatileRegs func
  pushRegs modified ++ (if func.frame.size > 0 then [.subSp func.frame.size 0] else []) ++
    storeRegs modified func.frame

def conv : CallingConvention where
  volatileRegs := volatileRegs
  callDelta := -8
  lowerCall type frame := frame.placeArgs (type.params.mapIdx emitArgMove)
  createArgStoreRegion := createArgStoreRegion
  createCallArgRegion := createCallArgRegion
  createImplicitRegion := createImplicitRegion
  getAllocaSize := getAllocaSize
  getProlog func := some (getProlog func)
  getArgStorage := getArgStorage

end MSABICallingConv

end Banjo.Target
