import Banjo.Passes.Precomputing
import Banjo.Passes.StackLayout

/-!
# The peephole optimizer

The optimizer walks the instructions of a block and remembers, for each member of a stack slot, the
value that was stored to it last. A `LOAD` of a member with a remembered value is replaced by the
value, and what may write to memory makes the optimizer forget everything. A `memcpy` of a few bytes
becomes a `LOAD` and a `STORE`, and the walk goes on after both of them.

The state of a walk holds the instructions of the current block before and after the iterator. An
instruction that is done with is moved to the ones before, so that the iterator is at the last of
these when the loop advances it.
-/

namespace Banjo.Passes

open SSA PassUtils

/-- What the optimizer asks of its target and its module. -/
structure PeepholeOptimizer where
  fp : FloatArithmetic
  layout : DataLayout
  registerSize : ℕ
  structs : StructTable
  externFuncName : FuncId → String
  externalFunctions : List FuncId
  /-- The size of the string a global is initialised with, if it is one. -/
  stringSize : GlobalId → Option ℕ

namespace PeepholeOptimizer

structure Walk where
  /-- The blocks before the current one. -/
  visited : List (BlockId × BasicBlock)
  id : BlockId
  paramRegs : List VirtualRegister
  paramTypes : List SSAType
  /-- The instructions of the current block up to the iterator. -/
  done : List Instruction
  rest : List Instruction
  /-- The blocks after the current one. -/
  later : List (BlockId × BasicBlock)
  lastVirtualReg : ℕ
  stackValues : ℕ → Option Operand

namespace Walk

/-- The function as it is rewritten so far. -/
def func (w : Walk) : Function where
  blocks := w.visited ++ (w.id, ⟨w.done ++ w.rest, w.paramRegs, w.paramTypes⟩) :: w.later
  lastVirtualReg := w.lastVirtualReg

def replaceInBlock (w : Walk) (reg : VirtualRegister) (value : Operand) : Walk :=
  { w with
    done := w.done.map (replaceInInstr reg value)
    rest := w.rest.map (replaceInInstr reg value) }

def replaceInFunc (w : Walk) (reg : VirtualRegister) (value : Operand) : Walk :=
  { w.replaceInBlock reg value with
    visited := w.visited.map fun (b, block) ↦ (b, replaceInInstrs reg value block)
    later := w.later.map fun (b, block) ↦ (b, replaceInInstrs reg value block) }

def discardStackValues (w : Walk) : Walk := { w with stackValues := fun _ ↦ none }

/-- Go on after instructions that take the place of the current one. -/
def advance (w : Walk) (instrs : List Instruction) : Walk :=
  { w with done := w.done ++ instrs, rest := w.rest.tail }

/-- `eliminate`: the current instruction is removed and its result replaced. -/
def eliminate (w : Walk) (instr : Instruction) (value : Operand) : Option Walk :=
  instr.dest.map fun dest ↦ (w.replaceInFunc dest value).advance []

/-- Start a block. -/
def enter (visited : List (BlockId × BasicBlock)) (lastVirtualReg : ℕ) :
    List (BlockId × BasicBlock) → Option Walk
  | [] => none
  | (id, block) :: later =>
    some ⟨visited, id, block.paramRegs, block.paramTypes, [], block.instrs, later, lastVirtualReg,
      fun _ ↦ none⟩

def nextBlock (w : Walk) : Option Walk :=
  enter (w.visited ++ [(w.id, ⟨w.done, w.paramRegs, w.paramTypes⟩)]) w.lastVirtualReg w.later

end Walk

variable (opt : PeepholeOptimizer) (stack : StackLayout)

/-! ## Loads and stores -/

def typesCompatible (a b : SSAType) : Bool :=
  match a.kind, b.kind with
  | .primitive p, .primitive q =>
    p = q || (opt.layout.size a = opt.layout.size b && a.isFloatingPoint = b.isFloatingPoint)
  | _, _ => false

/-- The value that is remembered for what a `LOAD` reads. -/
def rememberedValue (w : Walk) (instr : Instruction) : Option (Option Operand) :=
  match (instr.getOperand 1).value with
  | .register addr =>
    (stack.findMember opt.layout w.func addr).map fun
      | some member =>
        if opt.typesCompatible (instr.getOperand 0).type member.type then
          w.stackValues member.index
        else none
      | none => none
  | _ => some none

def processLoad (w : Walk) (instr : Instruction) : Option Walk :=
  (opt.rememberedValue stack w instr).bind fun
    | some value => w.eliminate instr value
    | none => some (w.advance [instr])

def processStore (w : Walk) (instr : Instruction) : Option Walk :=
  match (instr.getOperand 1).value with
  | .register addr =>
    (stack.findMember opt.layout w.func addr).map fun
      | some member =>
        if opt.typesCompatible (instr.getOperand 0).type member.type then
          { w.advance [instr] with
            stackValues := Function.update w.stackValues member.index (some (instr.getOperand 0)) }
        else (w.advance [instr]).discardStackValues
      | none => (w.advance [instr]).discardStackValues
  | _ => some (w.advance [instr]).discardStackValues

/-! ## Arithmetic -/

def isIntImmediate (operand : Operand) : Bool :=
  match operand.value with
  | .intImmediate _ => true
  | _ => false

/-- `std::swap` of the first two operands. -/
def swapOperands (instr : Instruction) : Instruction :=
  { instr with
    operands := (instr.operands.set 0 (instr.getOperand 1)).set 1 (instr.getOperand 0) }

/-- The instruction with an immediate on the left moved to the right. -/
def canonicalize (instr : Instruction) : Instruction :=
  if isIntImmediate (instr.getOperand 0) && !isIntImmediate (instr.getOperand 1) then
    swapOperands instr
  else instr

def isPowerOfTwo (value : BitVec 64) : Bool := value &&& (value - 1) = 0

/-- `first_bit_set`, as an `unsigned` number. -/
def firstBitSet (value : BitVec 64) : BitVec 64 :=
  if value = 0 then 0xFFFFFFFF else BitVec.ofNat 64 value.toNat.log2

/-- A shift in the place of a multiplication or a division. -/
def shiftInstr (instr : Instruction) (opcode : Opcode) (lhs : Operand) (value : BitVec 64)
    (type : SSAType) : Instruction :=
  { opcode, dest := instr.dest,
    operands := [lhs, ⟨.intImmediate ⟨firstBitSet value, false⟩, type⟩] }

def processAdd (w : Walk) (original : Instruction) : Option Walk :=
  let instr := canonicalize original
  if (instr.getOperand 1).value = .intImmediate 0 then w.eliminate instr (instr.getOperand 0)
  else some (w.advance [instr])

def processSub (w : Walk) (instr : Instruction) : Option Walk :=
  if (instr.getOperand 1).value = .intImmediate 0 then w.eliminate instr (instr.getOperand 0)
  else some (w.advance [instr])

def processMul (w : Walk) (original : Instruction) : Option Walk :=
  let type := (original.getOperand 0).type
  let instr := canonicalize original
  match (instr.getOperand 1).value with
  | .intImmediate immediate =>
    let value := immediate.toBits
    if value = 0 then w.eliminate instr ⟨.intImmediate 0, type⟩
    else if value = 1 then w.eliminate instr (instr.getOperand 0)
    else if isPowerOfTwo value then
      instr.dest.map fun _ ↦ w.advance [shiftInstr instr .LSHL (instr.getOperand 0) value type]
    else some (w.advance [instr])
  | _ => some (w.advance [instr])

/-- `process_sdiv` and `process_udiv`, which differ in the shift. -/
def processDiv (opcode : Opcode) (w : Walk) (instr : Instruction) : Option Walk :=
  match (instr.getOperand 1).value with
  | .intImmediate immediate =>
    let value := immediate.toBits
    if value = 1 then w.eliminate instr (instr.getOperand 0)
    else if isPowerOfTwo value then
      instr.dest.map fun _ ↦
        w.advance [shiftInstr instr opcode (instr.getOperand 0) value (instr.getOperand 0).type]
    else some (w.advance [instr])
  | _ => some (w.advance [instr])

def processSdiv (w : Walk) (instr : Instruction) : Option Walk := processDiv .ASHR w instr

def processUdiv (w : Walk) (instr : Instruction) : Option Walk := processDiv .LSHR w instr

def isFpImmediate (operand : Operand) : Bool :=
  match operand.value with
  | .fpImmediate _ => true
  | _ => false

def isFloatOne (operand : Operand) : Bool :=
  match operand.value with
  | .fpImmediate value => value.eq ⟨0x3FF0000000000000⟩
  | _ => false

def processFmul (w : Walk) (instr : Instruction) : Option Walk :=
  if isFloatOne (instr.getOperand 0) then w.eliminate instr (instr.getOperand 1)
  else if isFloatOne (instr.getOperand 1) then w.eliminate instr (instr.getOperand 0)
  else if isFpImmediate (instr.getOperand 0) && !isFpImmediate (instr.getOperand 1) then
    some (w.advance [swapOperands instr])
  else some (w.advance [instr])

/-! ## Calls -/

/-- The type of a number of bytes. -/
def bytesType (size : BitVec 32) : SSAType := ⟨.primitive .U8, size.toNat⟩

/-- A `memcpy` of less than a register becomes a `LOAD` and a `STORE`, which are not looked at
again; any other becomes a `COPY`, which is. -/
def expandMemcpy (w : Walk) (dst src : Operand) (size : BitVec 32) : Walk :=
  let type : Operand := ⟨.type, bytesType size⟩
  if size.toNat < opt.registerSize ∧ size.toNat ∈ [1, 2, 4, 8] then
    { w.advance [{ opcode := .LOAD, dest := some w.lastVirtualReg, operands := [type, src] },
        { opcode := .STORE, operands := [⟨.register w.lastVirtualReg, type.type⟩, dst] }] with
      lastVirtualReg := w.lastVirtualReg + 1 }
  else { w with rest := { opcode := .COPY, operands := [dst, src, type] } :: w.rest.tail }

def processMemcpy (w : Walk) (instr : Instruction) : Walk :=
  if instr.operands.length ≠ 4 ∨ instr.dest ≠ none then w.advance [instr]
  else
    match (instr.getOperand 1).value, (instr.getOperand 2).value, (instr.getOperand 3).value with
    | .register _, .register _, .intImmediate size =>
      if size.negative then w.advance [instr]
      else opt.expandMemcpy w (instr.getOperand 1) (instr.getOperand 2) (size.magnitude.setWidth 32)
    | _, _, _ => w.advance [instr]

/-- The function is called by the name `memcpy` in a module that declares it. -/
def processMemmove (w : Walk) (instr : Instruction) : Option Walk :=
  if instr.operands.length ≠ 4 ∨ instr.dest ≠ none then some (w.advance [instr])
  else
    match (instr.getOperand 1).value, (instr.getOperand 2).value, (instr.getOperand 3).value with
    | .register dst, .register src, .intImmediate size =>
      (stack.isNonOverlapping opt.layout w.func dst src (size.magnitude.setWidth 32)).bind
        fun nonOverlapping ↦
          if nonOverlapping then
            (opt.externalFunctions.find? fun f ↦ opt.externFuncName f = "memcpy").map fun memcpy ↦
              opt.processMemcpy w
                { instr with
                  operands := instr.operands.set 0 ⟨.externFunc memcpy, Primitive.VOID⟩ }
          else some (w.advance [instr])
    | .register _, .register _, .fpImmediate _ => none
    | _, _, _ => some (w.advance [instr])

def processStrlen (w : Walk) (instr : Instruction) : Option Walk :=
  if instr.operands.length ≠ 2 ∨ instr.dest = none then some (w.advance [instr])
  else
    match (instr.getOperand 1).value with
    | .global global =>
      (opt.stringSize global).bind fun size ↦
        w.eliminate instr
          ⟨.intImmediate ⟨((BitVec.ofNat 64 size - 1).setWidth 32).setWidth 64, false⟩,
            Primitive.U64⟩
    | _ => some (w.advance [instr])

def processCall (w : Walk) (instr : Instruction) : Option Walk :=
  match (instr.getOperand 0).value with
  | .externFunc callee =>
    if opt.externFuncName callee = "memcpy" then some (opt.processMemcpy w instr)
    else if opt.externFuncName callee = "memmove" then opt.processMemmove stack w instr
    else if opt.externFuncName callee = "strlen" then opt.processStrlen w instr
    else some (w.advance [instr])
  | _ => some (w.advance [instr])

/-! ## The walk -/

def process (w : Walk) (instr : Instruction) : Option Walk :=
  match instr.opcode with
  | .LOAD => opt.processLoad stack w instr
  | .STORE => opt.processStore stack w instr
  | .ADD => processAdd w instr
  | .SUB => processSub w instr
  | .MUL => processMul w instr
  | .SDIV => processSdiv w instr
  | .UDIV => processUdiv w instr
  | .FMUL => processFmul w instr
  | .CALL => opt.processCall stack w instr
  | _ => some (w.advance [instr])

/-- Forget the stack values after an instruction that might access memory in a way that was not
followed. In front of the first instruction there is nothing to forget. -/
def forget (w : Walk) : Walk :=
  match w.done.getLast? with
  | some instr =>
    if instr.opcode ≠ .LOAD ∧ instr.opcode ≠ .STORE ∧ instr.mightAccessMemory then
      w.discardStackValues
    else w
  | none => w

/-- One turn of the loop over the instructions, with the precomputed result of the instruction. -/
def visit (w : Walk) (instr : Instruction) : Option Operand → Option Walk
  | some value => instr.dest.map fun dest ↦
      (w.replaceInBlock dest value).advance [replaceInInstr dest value instr]
  | none => (opt.process stack w instr).map forget

def step (w : Walk) : Option Walk :=
  match w.rest with
  | [] => w.nextBlock
  | instr :: _ => (Precomputing.precomputeResult opt.fp instr).bind (opt.visit stack w instr)

/-- The walks the run of the optimizer over a function goes through. -/
inductive Visits (func : Function) : Walk → Prop
  | enter {w : Walk} : Walk.enter [] func.lastVirtualReg func.blocks = some w → Visits func w
  | step {w w' : Walk} : Visits func w →
    opt.step (.build opt.structs opt.layout func) w = some w' → Visits func w'

end PeepholeOptimizer

end Banjo.Passes
