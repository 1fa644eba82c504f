import Banjo.Target.Wasm.Numbering
import Banjo.Target.Wasm.Execution

/-!
# The control flow of an SSA function over locals

What an SSA function does when its registers are kept in locals: a block runs the code of its
instructions, its terminator takes a target, and the parameters of that block are given the values
of the arguments all at once. There is no dispatcher here, and no block index or temporary.
-/

namespace Banjo.Target.Wasm

open SSA (SSAType Primitive Comparison VirtualRegister BlockId BasicBlock BranchTarget)

variable {W : Type}

/-! ## Operands and comparisons -/

def isFloatComparison (comparison : Comparison) : Bool :=
  comparison ∈ [Comparison.FEQ, .FNE, .FGT, .FGE, .FLT, .FLE]

/-- The relation a comparison tests, and whether it is one of signed numbers. -/
def relation : Comparison → Rel × Bool
  | .EQ | .FEQ => (.eq, false)
  | .NE | .FNE => (.ne, false)
  | .UGT | .FGT => (.gt, false)
  | .UGE | .FGE => (.ge, false)
  | .ULT | .FLT => (.lt, false)
  | .ULE | .FLE => (.le, false)
  | .SGT => (.gt, true)
  | .SGE => (.ge, true)
  | .SLT => (.lt, true)
  | .SLE => (.le, true)

/-- The type of the locals that hold the operands of a comparison. -/
def comparedType (comparison : Comparison) (type : SSAType) : WasmType :=
  if isFloatComparison comparison then if isF64 type then .F64 else .F32
  else if is64BitInt type then .I64 else .I32

/-- The outcome of a comparison of two operands of a type. -/
def compareValues (comparison : Comparison) (type : SSAType) (a b : WVal) : Option Bool :=
  WVal.compare (comparedType comparison type) (relation comparison).1 (relation comparison).2 a b

/-- The value of an operand. -/
def operandValue (host : Host W) (ctx : Context) (data : FuncData) (s : State W)
    (operand : SSA.Operand) : Option WVal :=
  match operand.value with
  | .register reg =>
    match data.stackRegs.lookup reg with
    | some slot =>
      match s.locals data.stackPointerLocal with
      | .i32 base => some (.i32 (base + host.stackOffset slot 0))
      | _ => none
    | none => some (s.locals (data.localOf reg))
  | .intImmediate immediate =>
    some (if is64BitInt operand.type then .i64 immediate.toBits
      else .i32 (immediate.toBits.setWidth 32))
  | .fpImmediate immediate =>
    some (if isF64 operand.type then .f64 immediate.bits else .f32 (host.toF32 immediate))
  | .global global => some (.i32 (host.symbol ⟨ctx.globalName global, .MEMORY_ADDR_SLEB⟩))
  | .func func => some (.i32 (host.symbol ⟨ctx.funcName func, .TABLE_INDEX_SLEB⟩))
  | _ => none

/-- The values of the arguments of a branch. -/
def argValues (host : Host W) (ctx : Context) (data : FuncData) (s : State W)
    (target : BranchTarget) : Option (List WVal) :=
  target.args.mapM (operandValue host ctx data s)

/-- Locals with some of them set. -/
def setLocals (locals : ℕ → WVal) (entries : List (ℕ × WVal)) : ℕ → WVal :=
  entries.foldl (fun locals entry ↦ Function.update locals entry.1 entry.2) locals

/-! ## Steps -/

section Steps

variable (host : Host W) (ctx : Context) (data : FuncData) (func : SSA.Function)

/-- The target a terminator takes. -/
inductive Takes (s : State W) (instr : SSA.Instruction) : BranchTarget → Bool → Prop
  | jmp {target : BranchTarget} : instr.opcode = .JMP → instr.targets = [target] →
    Takes s instr target true
  | cond {comparison : Comparison} {a b : WVal} {targetTrue targetFalse : BranchTarget}
    {taken : Bool} : instr.isCondBranch = true →
    (instr.getOperand 1).value = .comparison comparison →
    instr.targets = [targetTrue, targetFalse] →
    operandValue host ctx data s (instr.getOperand 0) = some a →
    operandValue host ctx data s (instr.getOperand 2) = some b →
    compareValues comparison (instr.getOperand 0).type a b = some taken →
    Takes s instr (if taken then targetTrue else targetFalse) taken

/-- The code of the instructions of a block before its terminator. -/
def bodyCode (block : BasicBlock) : List Instruction :=
  (block.instrs.dropLast.filter fun instr ↦ !isUnused func instr).flatMap (lowerInstr ctx data)

/-- A basic block about to run, without its prologue. -/
structure BlockConfig (W : Type) where
  block : BlockId
  state : State W

/-- The block has run up to its terminator. -/
structure Leaves (c : BlockConfig W) (block : BasicBlock) (last : SSA.Instruction)
    (s : State W) : Prop where
  find : func.find c.block = some block
  last : block.instrs.getLast? = some last
  body : host.execAll (bodyCode ctx data func block) c.state = some s

/-- The branch at the end of a block to a target, with every argument of both edges readable. -/
structure Branches (c : BlockConfig W) (s : State W) (last : SSA.Instruction)
    (target : BranchTarget) (next : BasicBlock) (values : List WVal) : Prop where
  leaves : ∃ block, Leaves host ctx data func c block last s
  takes : ∃ taken, Takes host ctx data s last target taken
  readable : ∀ target ∈ last.targets, ∃ values, argValues host ctx data s target = some values
  next : func.find target.block = some next
  values : argValues host ctx data s target = some values

/-- The state in which a block starts: its parameters are set all at once. -/
def enter (s : State W) (block : BasicBlock) (values : List WVal) : State W where
  locals := setLocals s.locals ((block.paramRegs.map data.localOf).zip values)
  stack := []
  world := s.world

/-- The second target leads to the same block with other arguments. -/
def Overwrites (s : State W) (last : SSA.Instruction) (target : BranchTarget) : Prop :=
  ∃ other, last.targets.getLast? = some other ∧ other.block = target.block ∧
    argValues host ctx data s other ≠ argValues host ctx data s target

/-- A step from block to block. -/
inductive BlockStep : BlockConfig W → BlockConfig W → Prop
  | branch {c : BlockConfig W} {s : State W} {last : SSA.Instruction} {target : BranchTarget}
    {next : BasicBlock} {values : List WVal} :
    Branches host ctx data func c s last target next values →
    BlockStep c ⟨target.block, enter data s next values⟩

/-- A step along an edge whose arguments are not overwritten: not the true edge of a conditional
branch both of whose edges lead to one block, with different arguments. -/
inductive CleanStep : BlockConfig W → BlockConfig W → Prop
  | branch {c : BlockConfig W} {s : State W} {last : SSA.Instruction} {target : BranchTarget}
    {next : BasicBlock} {values : List WVal} :
    Branches host ctx data func c s last target next values →
    ¬Overwrites host ctx data s last target →
    CleanStep c ⟨target.block, enter data s next values⟩

/-- The function returns from the block. -/
inductive Returns : BlockConfig W → List WVal → W → Prop
  | ret {c : BlockConfig W} {block : BasicBlock} {s : State W} {last : SSA.Instruction}
    {values : List WVal} : Leaves host ctx data func c block last s → last.opcode = .RET →
    last.operands.mapM (operandValue host ctx data s) = some values →
    Returns c values s.world

end Steps

/-! ## Functions the lowering is for -/

/-- Code that leaves the locals of the dispatcher alone and has no structure. -/
def Tidy (data : FuncData) (code : List Instruction) : Prop :=
  ∀ instr ∈ code, instr.opcode.isPlain = true ∧
    (instr.opcode ∈ [WasmOpcode.LOCAL_GET, .LOCAL_SET, .LOCAL_TEE] →
      ∀ operand ∈ instr.operands, ¬data.Scratch operand.index)

/-- What the lowering relies on: blocks end in their only terminator, branches lead to blocks of
the function and pass as many arguments as those have parameters, no register is a parameter twice,
`CJMP` compares integers and `FCJMP` floating-point numbers, a value is returned just when the
function has a return type, and nothing is passed to the entry. The code of the instructions that
are not lowered here keeps to the locals of registers. The counts fit in 32 bits, as they do in the
source. -/
structure Lowerable (ctx : Context) (type : FunctionType)
    (stackRegs : List (VirtualRegister × ℕ)) (func : SSA.Function) : Prop where
  nodup : func.ids.Nodup
  entryParams : ∀ entry ∈ func.blocks.head?, entry.2.paramRegs = []
  paramsNodup : (func.blocks.flatMap fun entry ↦ entry.2.paramRegs).Nodup
  shape : ∀ entry ∈ func.blocks, ∃ body last, entry.2.instrs = body ++ [last] ∧
    last.isTerminator = true ∧ last.dest = none ∧ ∀ instr ∈ body, instr.isTerminator = false
  targets : ∀ entry ∈ func.blocks, ∀ instr ∈ entry.2.instrs, ∀ target ∈ instr.targets,
    ∃ next, func.find target.block = some next ∧ target.args.length = next.paramRegs.length
  comparisons : ∀ entry ∈ func.blocks, ∀ instr ∈ entry.2.instrs, ∀ comparison,
    (instr.getOperand 1).value = .comparison comparison →
      (instr.opcode = .CJMP → isFloatComparison comparison = false) ∧
        (instr.opcode = .FCJMP → isFloatComparison comparison = true)
  returns : ∀ entry ∈ func.blocks, ∀ instr ∈ entry.2.instrs, instr.opcode = .RET →
    if type.returnType = (Primitive.VOID : SSAType) then instr.operands = []
    else ∃ value, instr.operands = [value]
  loadargs : ∀ entry ∈ func.blocks, ∀ instr ∈ entry.2.instrs, instr.opcode = .LOADARG →
    ∀ index, (instr.getOperand 1).value = .intImmediate index →
      (index.toBits.setWidth 32).toNat < type.params.length
  memory : ∀ entry ∈ func.blocks, ∀ instr ∈ entry.2.instrs,
    Tidy (initFunc ctx type stackRegs func) (ctx.lowerMemory instr)
  blocksFit : func.blocks.length + 2 < 2 ^ 32
  localsFit : type.params.length + (initFunc ctx type stackRegs func).locals.length < 2 ^ 32

/-- The configurations agree but for the locals of the dispatcher. -/
structure Agree (data : FuncData) (s t : State W) : Prop where
  locals : ∀ i, ¬data.Scratch i → s.locals i = t.locals i
  stack : s.stack = t.stack
  world : s.world = t.world

end Banjo.Target.Wasm
