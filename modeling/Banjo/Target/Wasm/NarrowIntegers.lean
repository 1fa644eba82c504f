import Banjo.Lib.NarrowBits
import Banjo.Target.Wasm.BlockSemantics

/-!
# Integers of 8 and 16 bits

What an SSA function computes with integers of 8 and 16 bits, and what the WebAssembly instructions
compute with the locals of 32 bits that hold them. A local represents a number when its low bits
are the number; what is above them differs from instruction to instruction, and some instructions
read it.
-/

namespace Banjo.Target.Wasm

open SSA (SSAType Primitive Comparison VirtualRegister BlockId BasicBlock BranchTarget)
open NarrowBits

/-- The floating-point numbers nearest to an integer. -/
structure IntToFloat where
  f32 : ℤ → BitVec 32
  f64 : ℤ → BitVec 64

/-! ## Numeric instructions -/

def i32Binop : WasmOpcode → BitVec 32 → BitVec 32 → Option (BitVec 32)
  | .I32_SUB, a, b => some (a - b)
  | .I32_MUL, a, b => some (a * b)
  | .I32_DIV_S, a, b =>
    if b = 0 ∨ (a = BitVec.intMin 32 ∧ b = -1#32) then none else some (a.sdiv b)
  | .I32_DIV_U, a, b => if b = 0 then none else some (a / b)
  | .I32_REM_S, a, b => if b = 0 then none else some (a.srem b)
  | .I32_REM_U, a, b => if b = 0 then none else some (a % b)
  | .I32_AND, a, b => some (a &&& b)
  | .I32_OR, a, b => some (a ||| b)
  | .I32_XOR, a, b => some (a ^^^ b)
  | .I32_SHL, a, b => some (a <<< (b.toNat % 32))
  | .I32_SHR_S, a, b => some (a.sshiftRight (b.toNat % 32))
  | .I32_SHR_U, a, b => some (a >>> (b.toNat % 32))
  | _, _, _ => none

def i32Conversion (conv : IntToFloat) : WasmOpcode → BitVec 32 → Option WVal
  | .I64_EXTEND_I32_S, a => some (.i64 (a.signExtend 64))
  | .I64_EXTEND_I32_U, a => some (.i64 (a.setWidth 64))
  | .F32_CONVERT_I32_S, a => some (.f32 (conv.f32 a.toInt))
  | .F32_CONVERT_I32_U, a => some (.f32 (conv.f32 a.toNat))
  | .F64_CONVERT_I32_S, a => some (.f64 (conv.f64 a.toInt))
  | .F64_CONVERT_I32_U, a => some (.f64 (conv.f64 a.toNat))
  | _, _ => none

def isBinop (opcode : WasmOpcode) : Bool :=
  opcode ∈ [WasmOpcode.I32_SUB, .I32_MUL, .I32_DIV_S, .I32_DIV_U, .I32_REM_S, .I32_REM_U, .I32_AND,
    .I32_OR, .I32_XOR, .I32_SHL, .I32_SHR_S, .I32_SHR_U]

def isConversion (opcode : WasmOpcode) : Bool :=
  opcode ∈ [WasmOpcode.I64_EXTEND_I32_S, .I64_EXTEND_I32_U, .F32_CONVERT_I32_S, .F32_CONVERT_I32_U,
    .F64_CONVERT_I32_S, .F64_CONVERT_I32_U]

variable {W : Type}

/-- A host that knows the arithmetic on 32 bits, the conversions from them and `I32_WRAP_I64`. -/
def numericHost (host : Host W) (conv : IntToFloat) : Host W :=
  { host with
      other := fun instr stack w ↦
        if isBinop instr.opcode then
          match stack with
          | .i32 b :: .i32 a :: stack =>
            (i32Binop instr.opcode a b).map fun r ↦ (.i32 r :: stack, w)
          | _ => none
        else if isConversion instr.opcode then
          match stack with
          | .i32 a :: stack => (i32Conversion conv instr.opcode a).map fun r ↦ (r :: stack, w)
          | _ => none
        else if instr.opcode = .I32_WRAP_I64 then
          match stack with
          | .i64 a :: stack => some (.i32 (a.setWidth 32) :: stack, w)
          | _ => none
        else host.other instr stack w }

/-! ## The SSA function -/

/-- The value of a register. -/
inductive SVal where
  | int (w : ℕ) (bits : BitVec w)
  | f32 (bits : BitVec 32)
  | f64 (bits : BitVec 64)
  deriving DecidableEq

/-- The width of an integer type. -/
def intWidth (type : SSAType) : Option ℕ :=
  if type.arrayLength = 1 then
    match type.kind with
    | .primitive .I8 | .primitive .U8 => some 8
    | .primitive .I16 | .primitive .U16 => some 16
    | .primitive .I32 | .primitive .U32 => some 32
    | .primitive .I64 | .primitive .U64 => some 64
    | _ => none
  else none

/-- The width of an integer type of 8 or 16 bits. -/
def narrowWidth (type : SSAType) : Option ℕ := (intWidth type).filter (· ≤ 16)

abbrev SEnv := VirtualRegister → Option SVal

def SEnv.value (env : SEnv) (operand : SSA.Operand) : Option SVal :=
  match operand.value with
  | .register reg => env reg
  | .intImmediate immediate =>
    (intWidth operand.type).map fun w ↦ .int w (immediate.toBits.setWidth w)
  | _ => none

/-- The bits of an operand of a width. -/
def SEnv.bits (env : SEnv) (w : ℕ) (operand : SSA.Operand) : Option (BitVec w) :=
  match env.value operand with
  | some (.int w' bits) => if w' = w then some (bits.setWidth w) else none
  | _ => none

def evalBinary {w : ℕ} (opcode : SSA.Opcode) (a b : BitVec w) : Option (BitVec w) :=
  match opcode with
  | .ADD => some (a + b)
  | .SUB => some (a - b)
  | .MUL => some (a * b)
  | .SDIV => if b = 0 then none else some (a.sdiv b)
  | .SREM => if b = 0 then none else some (a.srem b)
  | .UDIV => if b = 0 then none else some (a / b)
  | .UREM => if b = 0 then none else some (a % b)
  | .AND => some (a &&& b)
  | .OR => some (a ||| b)
  | .XOR => some (a ^^^ b)
  | .LSHL => some (a <<< b.toNat)
  | .LSHR => some (a >>> b.toNat)
  | .ASHR => some (a.sshiftRight b.toNat)
  | _ => none

/-- The outcome of a comparison of integers. -/
def evalComparison {w : ℕ} (comparison : Comparison) (a b : BitVec w) : Option Bool :=
  if isFloatComparison comparison then none
  else some ((relation comparison).1.int (relation comparison).2 a b)

/-- The outcome of the comparison three operands describe. -/
def SEnv.holds (env : SEnv) (instr : SSA.Instruction) : Option Bool :=
  match (instr.getOperand 1).value, narrowWidth (instr.getOperand 0).type with
  | .comparison comparison, some w => do
    let a ← env.bits w (instr.getOperand 0)
    let b ← env.bits w (instr.getOperand 2)
    evalComparison comparison a b
  | _, _ => none

/-- An integer as a floating-point number of a type. -/
def toFloat (conv : IntToFloat) (type : SSAType) (i : ℤ) : SVal :=
  if isF64 type then .f64 (conv.f64 i) else .f32 (conv.f32 i)

/-- What an instruction computes. -/
def SEnv.eval (conv : IntToFloat) (env : SEnv) (instr : SSA.Instruction) : Option SVal :=
  match instr.opcode with
  | .SELECT => do
    let holds ← env.holds instr
    let valTrue ← env.value (instr.getOperand 3)
    let valFalse ← env.value (instr.getOperand 4)
    some (if holds then valTrue else valFalse)
  | .TRUNCATE => do
    let d ← narrowWidth (instr.getOperand 1).type
    let w ← intWidth (instr.getOperand 0).type
    let a ← env.bits w (instr.getOperand 0)
    if d ≤ w then some (.int d (a.setWidth d)) else none
  | .UEXTEND => do
    let w ← narrowWidth (instr.getOperand 0).type
    let d ← intWidth (instr.getOperand 1).type
    let a ← env.bits w (instr.getOperand 0)
    if w ≤ d then some (.int d (a.setWidth d)) else none
  | .SEXTEND => do
    let w ← narrowWidth (instr.getOperand 0).type
    let d ← intWidth (instr.getOperand 1).type
    let a ← env.bits w (instr.getOperand 0)
    if w ≤ d then some (.int d (a.signExtend d)) else none
  | .UTOF => do
    let w ← narrowWidth (instr.getOperand 0).type
    let a ← env.bits w (instr.getOperand 0)
    some (toFloat conv (instr.getOperand 1).type a.toNat)
  | .STOF => do
    let w ← narrowWidth (instr.getOperand 0).type
    let a ← env.bits w (instr.getOperand 0)
    some (toFloat conv (instr.getOperand 1).type a.toInt)
  | opcode => do
    let w ← narrowWidth (instr.getOperand 0).type
    let a ← env.bits w (instr.getOperand 0)
    let b ← env.bits w (instr.getOperand 1)
    let r ← evalBinary opcode a b
    some (.int w r)

/-- The instructions of a block before its terminator. -/
def SEnv.run (conv : IntToFloat) (env : SEnv) (instrs : List SSA.Instruction) : Option SEnv :=
  instrs.foldlM (fun env instr ↦ do
    let dest ← instr.dest
    let v ← env.eval conv instr
    some (Function.update env dest (some v))) env

/-- The target a terminator takes. -/
inductive SEnv.Takes (env : SEnv) (instr : SSA.Instruction) : BranchTarget → Prop
  | jmp {target : BranchTarget} : instr.opcode = .JMP → instr.targets = [target] →
    Takes env instr target
  | cond {targetTrue targetFalse : BranchTarget} {taken : Bool} : instr.opcode = .CJMP →
    instr.targets = [targetTrue, targetFalse] → env.holds instr = some taken →
    Takes env instr (if taken then targetTrue else targetFalse)

/-- The registers when a block starts. -/
def SEnv.enter (env : SEnv) (block : BasicBlock) (values : List SVal) : SEnv :=
  (block.paramRegs.zip values).foldl (fun env entry ↦
    Function.update env entry.1 (some entry.2)) env

/-- A step from block to block. -/
inductive NarrowStep (conv : IntToFloat) (func : SSA.Function) :
    BlockId × SEnv → BlockId × SEnv → Prop
  | branch {b : BlockId} {env env' : SEnv} {block next : BasicBlock} {last : SSA.Instruction}
    {target : BranchTarget} {values : List SVal} :
    func.find b = some block → block.instrs.getLast? = some last →
    env.run conv block.instrs.dropLast = some env' → env'.Takes last target →
    (∀ target ∈ last.targets, ∃ values, target.args.mapM env'.value = some values) →
    func.find target.block = some next → target.args.mapM env'.value = some values →
    NarrowStep conv func (b, env) (target.block, env'.enter next values)

/-! ## Representation -/

/-- A value is in the low bits of a local. -/
def Represents : SVal → WVal → Prop
  | .int w bits, .i32 x => w ≤ 32 ∧ x.setWidth w = bits
  | .int w bits, .i64 x => w = 64 ∧ x.setWidth w = bits
  | .f32 a, .f32 b => a = b
  | .f64 a, .f64 b => a = b
  | _, _ => False

/-- Some instruction reads the register. -/
def Used (func : SSA.Function) (reg : VirtualRegister) : Prop :=
  ∃ instr ∈ func.instrs, reg ∈ instr.uses

/-- The registers that are read are in their locals. -/
def Holds (data : FuncData) (func : SSA.Function) (env : SEnv) (s : State W) : Prop :=
  ∀ reg v, env reg = some v → Used func reg →
    data.stackRegs.lookup reg = none ∧ reg ∈ data.vregs2locals.map Prod.fst ∧
      Represents v (s.locals (data.localOf reg))

/-! ## What the locals must hold -/

/-- The locals a comparison compares are extended as it reads them. -/
def CleanComparison (comparison : Comparison) (w : ℕ) (x y : BitVec 32) : Prop :=
  if (relation comparison).2 then SignExtended w x ∧ SignExtended w y
  else (ZeroExtended w x ∧ ZeroExtended w y) ∨ (SignExtended w x ∧ SignExtended w y)

/-- The locals an operation reads are extended as it reads them; a count is less than 32. -/
def CleanBinary (opcode : SSA.Opcode) (w : ℕ) (x y : BitVec 32) : Prop :=
  match opcode with
  | .UDIV | .UREM => ZeroExtended w x ∧ ZeroExtended w y
  | .SDIV | .SREM => SignExtended w x ∧ SignExtended w y
  | .LSHL => (y.setWidth w).toNat < 32
  | .LSHR => ZeroExtended w x ∧ (y.setWidth w).toNat < 32
  | .ASHR => SignExtended w x ∧ (y.setWidth w).toNat < 32
  | _ => True

/-- The local a conversion reads is extended as it reads it, as far as the type of the result
reaches. -/
def CleanConversion (opcode : SSA.Opcode) (w d : ℕ) (x : BitVec 32) : Prop :=
  match opcode with
  | .UEXTEND => x.setWidth (min d 32) = (x.setWidth w).setWidth (min d 32)
  | .SEXTEND => x.setWidth (min d 32) = (x.setWidth w).signExtend (min d 32)
  | .UTOF => x.toInt = (x.setWidth w).toNat
  | .STOF => (x.toNat : ℤ) = (x.setWidth w).toInt
  | _ => True

section Clean

variable (host : Host W) (ctx : Context) (data : FuncData) (func : SSA.Function)

/-- The comparison of an instruction is clean. -/
def ComparesClean (s : State W) (instr : SSA.Instruction) : Prop :=
  ∀ comparison w x y, (instr.getOperand 1).value = .comparison comparison →
    narrowWidth (instr.getOperand 0).type = some w →
    operandValue host ctx data s (instr.getOperand 0) = some (.i32 x) →
    operandValue host ctx data s (instr.getOperand 2) = some (.i32 y) →
    CleanComparison comparison w x y

/-- The instruction reads no upper bits that are not as it takes them to be. -/
def Clean (s : State W) (instr : SSA.Instruction) : Prop :=
  match instr.opcode with
  | .SELECT => ComparesClean host ctx data s instr
  | .TRUNCATE => True
  | .UEXTEND | .SEXTEND | .UTOF | .STOF =>
    ∀ w x, narrowWidth (instr.getOperand 0).type = some w →
      operandValue host ctx data s (instr.getOperand 0) = some (.i32 x) →
      CleanConversion instr.opcode w ((intWidth (instr.getOperand 1).type).getD 0) x
  | opcode => ∀ w x y, narrowWidth (instr.getOperand 0).type = some w →
      operandValue host ctx data s (instr.getOperand 0) = some (.i32 x) →
      operandValue host ctx data s (instr.getOperand 1) = some (.i32 y) →
      CleanBinary opcode w x y

/-- Every instruction that is run is clean in the state it is run in. -/
def CleanBody : List SSA.Instruction → State W → Prop
  | [], _ => True
  | instr :: rest, s =>
    if isUnused func instr then CleanBody rest s
    else Clean host ctx data s instr ∧
      ∀ s', host.execAll (lowerInstr ctx data instr) s = some s' → CleanBody rest s'

/-- Every instruction of a block is clean, its conditional branch as well. -/
def CleanBlock (c : BlockConfig W) : Prop :=
  ∀ block, func.find c.block = some block →
    CleanBody host ctx data func block.instrs.dropLast c.state ∧
      ∀ last s, Leaves host ctx data func c block last s → last.opcode = .CJMP →
        ComparesClean host ctx data s last

end Clean

/-- Both functions take a step from a block that is clean. -/
def LockStep (host : Host W) (conv : IntToFloat) (ctx : Context) (data : FuncData)
    (func : SSA.Function) (p q : (BlockId × SEnv) × BlockConfig W) : Prop :=
  CleanBlock (numericHost host conv) ctx data func p.2 ∧ NarrowStep conv func p.1 q.1 ∧
    BlockStep (numericHost host conv) ctx data func p.2 q.2

/-- What the lowering relies on: the sizes of integers, and that the registers defined have no stack
slots. -/
structure NarrowLowerable (ctx : Context) (type : FunctionType)
    (stackRegs : List (VirtualRegister × ℕ)) (func : SSA.Function) : Prop where
  lowerable : Lowerable ctx type stackRegs func
  sizes : ∀ type w, intWidth type = some w → 8 * ctx.getSize type = w
  dests : ∀ entry ∈ func.blocks, ∀ instr ∈ entry.2.instrs, instr.opcode ≠ .ALLOCA →
    ∀ dest, instr.dest = some dest → stackRegs.lookup dest = none
  params : ∀ entry ∈ func.blocks, ∀ reg ∈ entry.2.paramRegs, stackRegs.lookup reg = none

end Banjo.Target.Wasm
