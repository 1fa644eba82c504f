import Banjo.SSA.Function
import Banjo.Target.Wasm.WasmMcode

/-!
# Lowering SSA to WebAssembly

WebAssembly has no jumps, so the blocks of a function are nested into a dispatcher: a loop around
one block for each basic block, and a table branch that goes to the end of the block whose index is
in a local. A basic block ends by storing the index of its successor and branching to the loop.

Every virtual register has a local, and every block parameter a second one, which a branch stores
its argument into and the prologue of the block copies it from. The instructions that need the
data layout, the stack frame or the module (memory accesses, pointer arithmetic, calls) are
lowered by a parameter.
-/

namespace Banjo.Target.Wasm

open SSA (SSAType Primitive Comparison VirtualRegister BlockId BasicBlock BranchTarget)

structure FunctionType where
  params : List SSAType
  returnType : SSAType
  variadic : Bool := false
  deriving DecidableEq, Repr

/-- `Operand::from_int_immediate`, of an unsigned number. -/
def imm (n : ℕ) : Operand := .intImmediate ⟨BitVec.ofNat 64 n, false⟩

/-- What the lowering of instructions needs to know beyond the function: the names of functions and
globals, the size of types, and the code of the instructions that are not lowered here. -/
structure Context where
  funcName : SSA.FuncId → String
  globalName : SSA.GlobalId → String
  getSize : SSAType → ℕ
  /-- `lower_load`, `lower_store`, `lower_offsetptr`, `lower_memberptr`, `lower_call`. -/
  lowerMemory : SSA.Instruction → List Instruction

/-- `type_as_primitive`. -/
def typeAsPrimitive (ctx : Context) (type : SSAType) : Primitive :=
  match type.kind with
  | .primitive primitive => primitive
  | .struct_ _ => if ctx.getSize type = 8 then .U64 else .U32

def lowerType (ctx : Context) (type : SSAType) : WasmType :=
  match typeAsPrimitive ctx type with
  | .U64 | .I64 => .I64
  | .F32 => .F32
  | .F64 => .F64
  | _ => .I32

def lowerFuncType (ctx : Context) (type : FunctionType) : WasmFuncType where
  params := type.params.map (lowerType ctx) ++ if type.variadic then [.I32] else []
  resultType :=
    if type.returnType = (Primitive.VOID : SSAType) then none
    else some (lowerType ctx type.returnType)

/-- `is_64_bit_int`. -/
def is64BitInt (type : SSAType) : Bool :=
  type = (Primitive.U64 : SSAType) || type = (Primitive.I64 : SSAType)

/-- The function data and the maps of a function. -/
structure FuncData where
  type : WasmFuncType
  locals : List WasmType
  stackPointerLocal : ℕ
  blockIndexLocal : ℕ
  returnValueLocal : ℕ
  vregs2locals : List (VirtualRegister × ℕ) := []
  blockArgTmpLocals : List (VirtualRegister × ℕ) := []
  /-- The stack slots of the registers an `ALLOCA` defines. -/
  stackRegs : List (VirtualRegister × ℕ) := []

namespace FuncData

/-- `vregs2locals.at`. A register without a local, which the source does not survive, is given
local `0`. -/
def localOf (data : FuncData) (reg : VirtualRegister) : ℕ := (data.vregs2locals.lookup reg).getD 0

/-- `block_arg_tmp_locals.at`, as `localOf`. -/
def tmpLocalOf (data : FuncData) (reg : VirtualRegister) : ℕ :=
  (data.blockArgTmpLocals.lookup reg).getD 0

/-- The locals of a block parameter. `emplace` keeps the first local of a register, and so does
looking it up. -/
def addParam (params : ℕ) (data : FuncData) (param : VirtualRegister × WasmType) : FuncData :=
  let localIndex := params + data.locals.length
  { data with
      locals := data.locals ++ [param.2, param.2]
      vregs2locals := data.vregs2locals ++ [(param.1, localIndex)]
      blockArgTmpLocals := data.blockArgTmpLocals ++ [(param.1, localIndex + 1)] }

/-- `get_result_type`. -/
def resultType (instr : SSA.Instruction) : SSAType :=
  match instr.opcode with
  | .ALLOCA | .MEMBERPTR | .OFFSETPTR => Primitive.U32
  | .STORE | .JMP | .CJMP | .FCJMP | .RET | .COPY => Primitive.VOID
  | .SELECT => (instr.getOperand 3).type
  | .UEXTEND | .SEXTEND | .TRUNCATE | .FPROMOTE | .FDEMOTE | .UTOF | .STOF | .FTOU | .FTOS =>
    (instr.getOperand 1).type
  | _ => (instr.getOperand 0).type

/-- The local of the register an instruction defines. -/
def addDest (ctx : Context) (params : ℕ) (data : FuncData) (instr : SSA.Instruction) : FuncData :=
  match instr.dest with
  | none => data
  | some dest =>
    if instr.opcode = .ALLOCA then data
    else
      { data with
          locals := data.locals ++ [lowerType ctx (resultType instr)]
          vregs2locals := data.vregs2locals ++ [(dest, params + data.locals.length)] }

/-- The parameters of a block with their types. -/
def blockParams (ctx : Context) (block : BasicBlock) : List (VirtualRegister × WasmType) :=
  block.paramRegs.mapIdx fun i reg ↦ (reg, lowerType ctx (block.paramTypes.getD i Primitive.VOID))

def addBlock (ctx : Context) (params : ℕ) (data : FuncData) (block : BasicBlock) : FuncData :=
  block.instrs.foldl (addDest ctx params) ((blockParams ctx block).foldl (addParam params) data)

end FuncData

/-- `init_func`. -/
def initFunc (ctx : Context) (type : FunctionType) (stackRegs : List (VirtualRegister × ℕ))
    (func : SSA.Function) : FuncData :=
  let funcType := lowerFuncType ctx type
  let stackPointerLocal := funcType.params.length
  let blockIndexLocal := stackPointerLocal + 1
  func.blocks.foldl (fun data entry ↦ data.addBlock ctx type.params.length entry.2)
    { type := funcType
      locals := [.I32, .I32] ++ funcType.resultType.toList
      stackPointerLocal := stackPointerLocal
      blockIndexLocal := blockIndexLocal
      returnValueLocal := blockIndexLocal + 1
      stackRegs := stackRegs }

section Lowering

variable (ctx : Context) (data : FuncData)

/-- `push_operand`. Operands that cannot be pushed, which the source asserts do not occur, push
nothing. -/
def pushOperand (operand : SSA.Operand) : List Instruction :=
  match operand.value with
  | .register reg =>
    match data.stackRegs.lookup reg with
    | some slot =>
      [⟨.LOCAL_GET, [imm data.stackPointerLocal]⟩, ⟨.I32_CONST, [.stackOffset slot 0]⟩,
        ⟨.I32_ADD, []⟩]
    | none => [⟨.LOCAL_GET, [imm (data.localOf reg)]⟩]
  | .intImmediate immediate =>
    [⟨if is64BitInt operand.type then .I64_CONST else .I32_CONST, [.intImmediate immediate]⟩]
  | .fpImmediate immediate =>
    [⟨if operand.type = (Primitive.F64 : SSAType) then .F64_CONST else .F32_CONST,
      [.fpImmediate immediate]⟩]
  | .global global => [⟨.I32_CONST, [.symbol ⟨ctx.globalName global, .MEMORY_ADDR_SLEB⟩]⟩]
  | .func func => [⟨.I32_CONST, [.symbol ⟨ctx.funcName func, .TABLE_INDEX_SLEB⟩]⟩]
  | _ => []

def lowerComparison (comparison : Comparison) (is64Bit : Bool) : WasmOpcode :=
  match comparison with
  | .EQ => if is64Bit then .I64_EQ else .I32_EQ
  | .NE => if is64Bit then .I64_NE else .I32_NE
  | .UGT => if is64Bit then .I64_GT_U else .I32_GT_U
  | .UGE => if is64Bit then .I64_GE_U else .I32_GE_U
  | .ULT => if is64Bit then .I64_LT_U else .I32_LT_U
  | .ULE => if is64Bit then .I64_LE_U else .I32_LE_U
  | .SGT => if is64Bit then .I64_GT_S else .I32_GT_S
  | .SGE => if is64Bit then .I64_GE_S else .I32_GE_S
  | .SLT => if is64Bit then .I64_LT_S else .I32_LT_S
  | .SLE => if is64Bit then .I64_LE_S else .I32_LE_S
  | .FEQ => if is64Bit then .F64_EQ else .F32_EQ
  | .FNE => if is64Bit then .F64_NE else .F32_NE
  | .FGT => if is64Bit then .F64_GT else .F32_GT
  | .FGE => if is64Bit then .F64_GE else .F32_GE
  | .FLT => if is64Bit then .F64_LT else .F32_LT
  | .FLE => if is64Bit then .F64_LE else .F32_LE

/-- Setting the local of the register an instruction defines. -/
def setDest (instr : SSA.Instruction) : List Instruction :=
  [⟨.LOCAL_SET, [imm (data.localOf (instr.dest.getD 0))]⟩]

/-- `lower_2_operand_numeric`, with the opcodes for 32 and for 64 bits. -/
def lowerNumeric (is64Bit : SSAType → Bool) (m32 m64 : WasmOpcode) (instr : SSA.Instruction) :
    List Instruction :=
  pushOperand ctx data (instr.getOperand 0) ++ pushOperand ctx data (instr.getOperand 1) ++
    [⟨if is64Bit (instr.getOperand 0).type then m64 else m32, []⟩] ++ setDest data instr

/-- The lowering of an instruction that converts its first operand by some operations. -/
def lowerConversion (ops : List Instruction) (instr : SSA.Instruction) : List Instruction :=
  pushOperand ctx data (instr.getOperand 0) ++ ops ++ setDest data instr

def isF64 (type : SSAType) : Bool := type = (Primitive.F64 : SSAType)

def lowerSelect (instr : SSA.Instruction) : List Instruction :=
  let inputType := (instr.getOperand 0).type
  match (instr.getOperand 1).value with
  | .comparison comparison =>
    pushOperand ctx data (instr.getOperand 3) ++ pushOperand ctx data (instr.getOperand 4) ++
      pushOperand ctx data (instr.getOperand 0) ++ pushOperand ctx data (instr.getOperand 2) ++
      [⟨lowerComparison comparison (is64BitInt inputType || isF64 inputType), []⟩, ⟨.SELECT, []⟩] ++
      setDest data instr
  | _ => []

def lowerLoadarg (instr : SSA.Instruction) : List Instruction :=
  match (instr.getOperand 1).value with
  | .intImmediate index =>
    ⟨.LOCAL_GET, [imm (index.toBits.setWidth 32).toNat]⟩ :: setDest data instr
  | _ => []

/-- The operations of `lower_truncate`. -/
def truncateOps (instr : SSA.Instruction) : List Instruction :=
  let dstSize := ctx.getSize (instr.getOperand 1).type
  (if ctx.getSize (instr.getOperand 0).type = 8 then [⟨.I32_WRAP_I64, []⟩] else []) ++
    if dstSize = 1 then [⟨.I32_CONST, [imm 0xFF]⟩, ⟨.I32_AND, []⟩]
    else if dstSize = 2 then [⟨.I32_CONST, [imm 0xFFFF]⟩, ⟨.I32_AND, []⟩]
    else []

/-- The conversion of a number of the size and between floating-point types as given. -/
def convertOp (size : ℕ) (isDouble : Bool) (narrow32 narrow64 wide32 wide64 : WasmOpcode) :
    Instruction :=
  if size = 8 then ⟨if isDouble then wide64 else wide32, []⟩
  else ⟨if isDouble then narrow64 else narrow32, []⟩

/-- `lower_instr`, of the instructions that are not terminators. `COPY` and `SQRT` are lowered by
other targets only. -/
def lowerInstr (instr : SSA.Instruction) : List Instruction :=
  let srcSize := ctx.getSize (instr.getOperand 0).type
  let dstSize := ctx.getSize (instr.getOperand 1).type
  let fromDouble := isF64 (instr.getOperand 0).type
  let toDouble := isF64 (instr.getOperand 1).type
  match instr.opcode with
  | .LOADARG => lowerLoadarg data instr
  | .ADD => lowerNumeric ctx data is64BitInt .I32_ADD .I64_ADD instr
  | .SUB => lowerNumeric ctx data is64BitInt .I32_SUB .I64_SUB instr
  | .MUL => lowerNumeric ctx data is64BitInt .I32_MUL .I64_MUL instr
  | .SDIV => lowerNumeric ctx data is64BitInt .I32_DIV_S .I64_DIV_S instr
  | .SREM => lowerNumeric ctx data is64BitInt .I32_REM_S .I64_REM_S instr
  | .UDIV => lowerNumeric ctx data is64BitInt .I32_DIV_U .I64_DIV_U instr
  | .UREM => lowerNumeric ctx data is64BitInt .I32_REM_U .I64_REM_U instr
  | .FADD => lowerNumeric ctx data isF64 .F32_ADD .F64_ADD instr
  | .FSUB => lowerNumeric ctx data isF64 .F32_SUB .F64_SUB instr
  | .FMUL => lowerNumeric ctx data isF64 .F32_MUL .F64_MUL instr
  | .FDIV => lowerNumeric ctx data isF64 .F32_DIV .F64_DIV instr
  | .AND => lowerNumeric ctx data is64BitInt .I32_AND .I64_AND instr
  | .OR => lowerNumeric ctx data is64BitInt .I32_OR .I64_OR instr
  | .XOR => lowerNumeric ctx data is64BitInt .I32_XOR .I64_XOR instr
  | .LSHL => lowerNumeric ctx data is64BitInt .I32_SHL .I64_SHL instr
  | .LSHR => lowerNumeric ctx data is64BitInt .I32_SHR_U .I64_SHR_U instr
  | .ASHR => lowerNumeric ctx data is64BitInt .I32_SHR_S .I64_SHR_S instr
  | .SELECT => lowerSelect ctx data instr
  | .UEXTEND =>
    lowerConversion ctx data (if dstSize = 8 then [⟨.I64_EXTEND_I32_U, []⟩] else []) instr
  | .SEXTEND =>
    lowerConversion ctx data (if dstSize = 8 then [⟨.I64_EXTEND_I32_S, []⟩] else []) instr
  | .TRUNCATE => lowerConversion ctx data (truncateOps ctx instr) instr
  | .FPROMOTE => lowerConversion ctx data [⟨.F64_PROMOTE_F32, []⟩] instr
  | .FDEMOTE => lowerConversion ctx data [⟨.F32_DEMOTE_F64, []⟩] instr
  | .UTOF => lowerConversion ctx data [convertOp srcSize toDouble .F32_CONVERT_I32_S
      .F64_CONVERT_I32_S .F32_CONVERT_I64_S .F64_CONVERT_I64_S] instr
  | .STOF => lowerConversion ctx data [convertOp srcSize toDouble .F32_CONVERT_I32_U
      .F64_CONVERT_I32_U .F32_CONVERT_I64_U .F64_CONVERT_I64_U] instr
  | .FTOU => lowerConversion ctx data [convertOp dstSize fromDouble .I32_TRUNC_SAT_F32_U
      .I32_TRUNC_SAT_F64_U .I64_TRUNC_SAT_F32_U .I64_TRUNC_SAT_F64_U] instr
  | .FTOS => lowerConversion ctx data [convertOp dstSize fromDouble .I32_TRUNC_SAT_F32_S
      .I32_TRUNC_SAT_F64_S .I64_TRUNC_SAT_F32_S .I64_TRUNC_SAT_F64_S] instr
  | .LOAD | .STORE | .OFFSETPTR | .MEMBERPTR | .CALL => ctx.lowerMemory instr
  | .ALLOCA | .COPY | .SQRT | .JMP | .CJMP | .FCJMP | .RET => []

variable (func : SSA.Function)

/-- The parameters of the block a branch goes to. -/
def targetParams (target : BranchTarget) : List VirtualRegister :=
  ((func.find target.block).map BasicBlock.paramRegs).getD []

def storeBranchArgs (target : BranchTarget) : List Instruction :=
  (target.args.zip (targetParams func target)).flatMap fun (arg, reg) ↦
    pushOperand ctx data arg ++ [⟨.LOCAL_SET, [imm (data.tmpLocalOf reg)]⟩]

/-- `block_indices.at`. -/
def blockIndex (b : BlockId) : ℕ := func.ids.idxOf b

/-- The end of a terminator: the index on the operand stack is stored, and the dispatcher is
entered again. -/
def leave (blockDepth : ℕ) : List Instruction :=
  [⟨.LOCAL_SET, [imm data.blockIndexLocal]⟩, ⟨.BR, [imm blockDepth]⟩]

def lowerJmp (blockDepth : ℕ) (instr : SSA.Instruction) : List Instruction :=
  match instr.targets with
  | [target] =>
    storeBranchArgs ctx data func target ++ [⟨.I32_CONST, [imm (blockIndex func target.block)]⟩] ++
      leave data blockDepth
  | _ => []

/-- `lower_cjmp` and `lower_fcjmp`, which differ in the types that have 64 bits. -/
def lowerCondJmp (is64Bit : SSAType → Bool) (blockDepth : ℕ) (instr : SSA.Instruction) :
    List Instruction :=
  match (instr.getOperand 1).value, instr.targets with
  | .comparison comparison, [targetTrue, targetFalse] =>
    storeBranchArgs ctx data func targetTrue ++ storeBranchArgs ctx data func targetFalse ++
      [⟨.I32_CONST, [imm (blockIndex func targetTrue.block)]⟩,
        ⟨.I32_CONST, [imm (blockIndex func targetFalse.block)]⟩] ++
      pushOperand ctx data (instr.getOperand 0) ++ pushOperand ctx data (instr.getOperand 2) ++
      [⟨lowerComparison comparison (is64Bit (instr.getOperand 0).type), []⟩, ⟨.SELECT, []⟩] ++
      leave data blockDepth
  | _, _ => []

def lowerCjmp (blockDepth : ℕ) (instr : SSA.Instruction) : List Instruction :=
  lowerCondJmp ctx data func is64BitInt blockDepth instr

def lowerFcjmp (blockDepth : ℕ) (instr : SSA.Instruction) : List Instruction :=
  lowerCondJmp ctx data func isF64 blockDepth instr

def lowerRet (blockDepth : ℕ) (instr : SSA.Instruction) : List Instruction :=
  (match instr.operands with
    | [] => []
    | value :: _ =>
      pushOperand ctx data value ++ [⟨.LOCAL_SET, [imm data.returnValueLocal]⟩]) ++
    [⟨.I32_CONST, [imm func.blocks.length]⟩] ++ leave data blockDepth

/-- `lower_instr`, of any instruction. -/
def lowerAny (blockDepth : ℕ) (instr : SSA.Instruction) : List Instruction :=
  match instr.opcode with
  | .JMP => lowerJmp ctx data func blockDepth instr
  | .CJMP => lowerCjmp ctx data func blockDepth instr
  | .FCJMP => lowerFcjmp ctx data func blockDepth instr
  | .RET => lowerRet ctx data func blockDepth instr
  | _ => lowerInstr ctx data instr

/-- The instructions that are skipped: what they define is not used, and they are no calls. -/
def isUnused (instr : SSA.Instruction) : Bool :=
  instr.opcode ≠ .CALL && match instr.dest with
    | some dest => !func.instrs.any fun user ↦ dest ∈ user.uses
    | none => false

def emitBlockPrologue (block : BasicBlock) : List Instruction :=
  block.paramRegs.flatMap fun reg ↦
    [⟨.LOCAL_GET, [imm (data.tmpLocalOf reg)]⟩, ⟨.LOCAL_SET, [imm (data.localOf reg)]⟩]

/-- `generate_basic_block`. The source goes backwards and emits at the front. -/
def generateBasicBlock (blockDepth : ℕ) (block : BasicBlock) : List Instruction :=
  emitBlockPrologue data block ++
    (block.instrs.filter fun instr ↦ !isUnused func instr).flatMap
      (lowerAny ctx data func blockDepth)

/-- The code before the first basic block. -/
def entryCode : List Instruction :=
  [⟨.I32_CONST, [imm 0]⟩, ⟨.LOCAL_SET, [imm data.blockIndexLocal]⟩, ⟨.BLOCK, []⟩, ⟨.LOOP, []⟩] ++
    List.replicate func.blocks.length ⟨.BLOCK, []⟩ ++
    [⟨.BLOCK, []⟩, ⟨.LOCAL_GET, [imm data.blockIndexLocal]⟩,
      ⟨.BR_TABLE, (List.range func.blocks.length).map imm ++ [imm (func.blocks.length + 2)]⟩,
      ⟨.END_BLOCK, []⟩]

/-- The code after the last basic block. -/
def exitCode (type : FunctionType) : List Instruction :=
  [⟨.END_LOOP, []⟩, ⟨.END_BLOCK, []⟩] ++
    (if type.returnType = (Primitive.VOID : SSAType) then []
      else [⟨.LOCAL_GET, [imm data.returnValueLocal]⟩]) ++
    [⟨.END_FUNCTION, []⟩]

/-- The code of the basic blocks, the depth of each one less than that of the one before. -/
def blocksCode : List (BlockId × BasicBlock) → List (List Instruction)
  | [] => []
  | (_, block) :: rest =>
    (generateBasicBlock ctx data func (rest.length + 1) block ++ [⟨.END_BLOCK, []⟩]) ::
      blocksCode rest

/-- `generate_blocks`. -/
def generateBlocks (type : FunctionType) : List (List Instruction) :=
  [entryCode data func] ++ blocksCode ctx data func func.blocks ++ [exitCode data type]

end Lowering

/-- `lower_func`. -/
def lowerFunc (ctx : Context) (name : String) (type : FunctionType)
    (stackRegs : List (VirtualRegister × ℕ)) (stackSlots : List (BitVec 32))
    (func : SSA.Function) : Function :=
  let data := initFunc ctx type stackRegs func
  { name := name
    type := data.type
    locals := data.locals
    stackSlots := stackSlots
    blocks := generateBlocks ctx data func type }

end Banjo.Target.Wasm
