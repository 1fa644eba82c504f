import Banjo.MCode.StackFrame

/-!
# The calling convention of AArch64

The call passes its first eight arguments in registers and the rest on the stack. The called
function takes the first eight integers and the first eight floating-point numbers from registers.
-/

namespace Banjo.Target

open MCode
open SSA (SSAType)

namespace AArch64Register

def R0 : PhysicalReg := 0
def R29 : PhysicalReg := 29
def R30 : PhysicalReg := 30
def V0 : PhysicalReg := 31
def SP : PhysicalReg := 62

end AArch64Register

open AArch64Register

namespace AAPCSCallingConv

inductive Variant where
  | STANDARD | APPLE
  deriving DecidableEq, Repr

def argRegsInt : List PhysicalReg := (List.range 8).map (R0 + ·)

def argRegsFp : List PhysicalReg := (List.range 8).map (V0 + ·)

def volatileRegs : List PhysicalReg :=
  (List.range 19).map (R0 + ·) ++ (List.range 8).map (V0 + ·) ++ [SP]

variable (variant : Variant) (type : FunctionType)

/-- The places of the arguments from `index` on, behind `gp` integers and `fp` floating-point
numbers in registers. -/
def emitArgMoves (index gp fp : ℕ) : List SSAType → List CallArg
  | [] => []
  | param :: params =>
    if variant = .APPLE ∧ type.variadic ∧ index ≥ type.firstVariadicIndex then
      .slot (index - type.firstVariadicIndex) :: emitArgMoves (index + 1) gp fp params
    else if index < 8 then
      if param.isFloatingPoint then
        .reg (argRegsFp.getD fp 0) :: emitArgMoves (index + 1) gp (fp + 1) params
      else
        .reg (argRegsInt.getD gp 0) :: emitArgMoves (index + 1) (gp + 1) fp params
    else
      .slot (index - 8) :: emitArgMoves (index + 1) gp fp params

/-- The storage of the parameters from `index` on, behind `general` integers and `float`
floating-point numbers in registers and `stackOffset` bytes on the stack. -/
def argStorageFrom (index general float stackOffset : ℕ) : List SSAType → List ArgStorage
  | [] => []
  | param :: params =>
    if variant = .APPLE ∧ type.variadic ∧ index ≥ type.firstVariadicIndex then
      .onStack 0 stackOffset :: argStorageFrom (index + 1) general float (stackOffset + 8) params
    else if param.isFloatingPoint ∧ float < argRegsFp.length then
      .inReg (argRegsFp.getD float 0) ::
        argStorageFrom (index + 1) general (float + 1) stackOffset params
    else if ¬param.isFloatingPoint ∧ general < argRegsInt.length then
      .inReg (argRegsInt.getD general 0) ::
        argStorageFrom (index + 1) (general + 1) float stackOffset params
    else
      .onStack 0 stackOffset :: argStorageFrom (index + 1) general float (stackOffset + 8) params

def getArgStorage : List ArgStorage := argStorageFrom variant type 0 0 0 0 type.params

/-- The frame pointer and the link register. -/
def implicitStackBytes : ℤ := 16

def createImplicitRegion (func : Function) : ImplicitStackRegion × StackFrame :=
  let savedRegSpaceSize : ℤ := 8 * (getModifiedVolatileRegs volatileRegs func).length
  (⟨implicitStackBytes + savedRegSpaceSize, savedRegSpaceSize⟩, func.frame)

def getAllocaSize (regions : StackRegions) : ℤ :=
  let minimumSize := regions.argStoreRegion.size + regions.genericSize + regions.callArgSize
  align minimumSize 16 + 16

/-- `modify_sp`, which has no case for large frames. -/
def modifySp (value : ℕ) : Option (List PrologInstr) :=
  if value < 4096 then some [.subSp value 0]
  else if value < 4096 * 4096 then
    some [.subSp (value / 4096 : ℕ) 12, .subSp (value % 4096 : ℕ) 0]
  else none

/-- The registers that the prologue stores apart. -/
def storedRegs (func : Function) : List PhysicalReg :=
  (getModifiedVolatileRegs volatileRegs func).filter fun reg ↦ reg ≠ R29 ∧ reg ≠ R30

def getProlog (func : Function) : Option (List PrologInstr) := do
  let alloca ← modifySp func.frame.size.toNat
  return (storedRegs func).map (.strPreIndex · (-16)) ++ [.stpPreIndex R29 R30 (-16)] ++ alloca

def conv : CallingConvention where
  volatileRegs := volatileRegs
  callDelta := 0
  lowerCall type frame := frame.placeArgs (emitArgMoves variant type 0 0 0 type.params)
  createArgStoreRegion frame _ := argStoreBelow frame
  createCallArgRegion _ frame :=
    (8 * frame.callArgSlotIndices.length, frame.defineCallArgSlots 0)
  createImplicitRegion := createImplicitRegion
  getAllocaSize := getAllocaSize
  getProlog := getProlog
  getArgStorage := getArgStorage variant

end AAPCSCallingConv

end Banjo.Target
