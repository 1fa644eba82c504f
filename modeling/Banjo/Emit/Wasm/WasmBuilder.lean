import Banjo.Target.Wasm.WasmMcode
import Banjo.Utils.WriteBuffer

/-!
# Building WebAssembly object files

The builder numbers the symbols of a module first and then adds the imports, the globals and the
functions to the file, each with its symbol. Code and data refer to symbols by their numbers.
Numbers are natural numbers here; what does not get to a file, because a symbol is not there or an
operand is not what the instruction has, is `none`.
-/

namespace Banjo.Emit.Wasm

open Target.Wasm WriteBuffer

/-! ## The file -/

structure WasmFunctionType where
  paramTypes : List Byte
  resultTypes : List Byte
  deriving DecidableEq, Repr

inductive ImportKind where
  | typeIndex (value : ℕ)
  | table (elementType : Byte) (minSize : ℕ)
  | memory (minSize : ℕ)
  | globalType (type : Byte) (isMut : Bool)
  deriving DecidableEq, Repr

structure WasmImport where
  mod : String
  name : String
  kind : ImportKind
  deriving DecidableEq, Repr

structure WasmLocalGroup where
  count : ℕ
  type : Byte
  deriving DecidableEq, Repr

inductive WasmRelocType where
  | FUNCTION_INDEX_LEB | TABLE_INDEX_SLEB | TABLE_INDEX_I32 | MEMORY_ADDR_LEB | MEMORY_ADDR_SLEB
  | MEMORY_ADDR_I32 | TYPE_INDEX_LEB | GLOBAL_INDEX_LEB | TABLE_NUMBER_LEB
  deriving DecidableEq, Repr

structure WasmRelocation where
  type : WasmRelocType
  offset : ℕ
  index : ℕ
  addend : ℕ := 0
  deriving DecidableEq, Repr

structure WasmFunction where
  typeIndex : ℕ
  localGroups : List WasmLocalGroup
  body : List Byte
  relocs : List WasmRelocation
  deriving DecidableEq, Repr

structure WasmDataSegment where
  offsetExpr : List Byte
  initBytes : List Byte
  relocs : List WasmRelocation
  deriving DecidableEq, Repr

inductive WasmSymbolType where
  | FUNCTION | DATA | GLOBAL | TABLE
  deriving DecidableEq, Repr

structure WasmSymbolFlags where
  bindingLocal : Bool := false
  undefined : Bool := false
  exported : Bool := false
  noStrip : Bool := false
  deriving DecidableEq, Repr

structure WasmSymbol where
  type : WasmSymbolType
  flags : WasmSymbolFlags
  name : String := ""
  index : ℕ := 0
  offset : ℕ := 0
  size : ℕ := 0
  deriving DecidableEq, Repr

structure WasmObjectFile where
  types : List WasmFunctionType := []
  imports : List WasmImport := []
  functions : List WasmFunction := []
  dataSegments : List WasmDataSegment := []
  symbols : List WasmSymbol := []
  deriving DecidableEq, Repr

/-! ## Types and locals -/

def buildValueType : WasmType → Byte
  | .I32 => 0x7F
  | .I64 => 0x7E
  | .F32 => 0x7D
  | .F64 => 0x7C

def buildFuncType (type : WasmFuncType) : WasmFunctionType where
  paramTypes := type.params.map buildValueType
  resultTypes := type.resultType.toList.map buildValueType

/-- A group for each run of locals of one type. -/
def addLocal (groups : List WasmLocalGroup) (type : WasmType) : List WasmLocalGroup :=
  match groups.getLast? with
  | some group =>
    if group.type = buildValueType type then
      groups.dropLast ++ [{ group with count := group.count + 1 }]
    else groups ++ [⟨1, buildValueType type⟩]
  | none => [⟨1, buildValueType type⟩]

def buildLocalGroups (func : Function) : List WasmLocalGroup := func.locals.foldl addLocal []

/-! ## Encoding instructions -/

structure FuncContext where
  body : List Byte := []
  relocs : List WasmRelocation := []
  deriving DecidableEq, Repr

namespace FuncContext

def write (ctx : FuncContext) (bytes : List Byte) : FuncContext :=
  { ctx with body := ctx.body ++ bytes }

/-- A relocation, and the five bytes it is for. -/
def writeReloc (ctx : FuncContext) (type : WasmRelocType) (index : ℕ) : FuncContext where
  body := ctx.body ++ [0x80, 0x80, 0x80, 0x80, 0x00]
  relocs := ctx.relocs ++ [{ type, offset := ctx.body.length, index }]

end FuncContext

/-- The instructions that are nothing but their opcode. -/
def plainBytes : WasmOpcode → Option (List Byte)
  | .END_BLOCK => some [0x0B]
  | .END_LOOP => some [0x0B]
  | .END_FUNCTION => some [0x0B]
  | .DROP => some [0x1A]
  | .SELECT => some [0x1B]
  | .I32_EQ => some [0x46]
  | .I32_NE => some [0x47]
  | .I32_LT_S => some [0x48]
  | .I32_LT_U => some [0x49]
  | .I32_GT_S => some [0x4A]
  | .I32_GT_U => some [0x4B]
  | .I32_LE_S => some [0x4C]
  | .I32_LE_U => some [0x4D]
  | .I32_GE_S => some [0x4E]
  | .I32_GE_U => some [0x4F]
  | .I64_EQ => some [0x51]
  | .I64_NE => some [0x52]
  | .I64_LT_S => some [0x53]
  | .I64_LT_U => some [0x54]
  | .I64_GT_S => some [0x55]
  | .I64_GT_U => some [0x56]
  | .I64_LE_S => some [0x57]
  | .I64_LE_U => some [0x58]
  | .I64_GE_S => some [0x59]
  | .I64_GE_U => some [0x5A]
  | .F32_EQ => some [0x5B]
  | .F32_NE => some [0x5C]
  | .F32_LT => some [0x5D]
  | .F32_GT => some [0x5E]
  | .F32_LE => some [0x5F]
  | .F32_GE => some [0x60]
  | .F64_EQ => some [0x61]
  | .F64_NE => some [0x62]
  | .F64_LT => some [0x63]
  | .F64_GT => some [0x64]
  | .F64_LE => some [0x65]
  | .F64_GE => some [0x66]
  | .I32_ADD => some [0x6A]
  | .I32_SUB => some [0x6B]
  | .I32_MUL => some [0x6C]
  | .I32_DIV_S => some [0x6D]
  | .I32_DIV_U => some [0x6E]
  | .I32_REM_S => some [0x6F]
  | .I32_REM_U => some [0x70]
  | .I32_AND => some [0x71]
  | .I32_OR => some [0x72]
  | .I32_XOR => some [0x73]
  | .I32_SHL => some [0x74]
  | .I32_SHR_S => some [0x75]
  | .I32_SHR_U => some [0x76]
  | .I64_ADD => some [0x7C]
  | .I64_SUB => some [0x7D]
  | .I64_MUL => some [0x7E]
  | .I64_DIV_S => some [0x7F]
  | .I64_DIV_U => some [0x80]
  | .I64_REM_S => some [0x81]
  | .I64_REM_U => some [0x82]
  | .I64_AND => some [0x83]
  | .I64_OR => some [0x84]
  | .I64_XOR => some [0x85]
  | .I64_SHL => some [0x86]
  | .I64_SHR_S => some [0x87]
  | .I64_SHR_U => some [0x88]
  | .F32_ADD => some [0x92]
  | .F32_SUB => some [0x93]
  | .F32_MUL => some [0x94]
  | .F32_DIV => some [0x95]
  | .F64_ADD => some [0xA0]
  | .F64_SUB => some [0xA1]
  | .F64_MUL => some [0xA2]
  | .F64_DIV => some [0xA3]
  | .I32_WRAP_I64 => some [0xA7]
  | .I64_EXTEND_I32_S => some [0xAC]
  | .I64_EXTEND_I32_U => some [0xAD]
  | .F32_CONVERT_I32_S => some [0xB2]
  | .F32_CONVERT_I32_U => some [0xB3]
  | .F32_CONVERT_I64_S => some [0xB4]
  | .F32_CONVERT_I64_U => some [0xB5]
  | .F32_DEMOTE_F64 => some [0xB6]
  | .F64_CONVERT_I32_S => some [0xB7]
  | .F64_CONVERT_I32_U => some [0xB8]
  | .F64_CONVERT_I64_S => some [0xB9]
  | .F64_CONVERT_I64_U => some [0xBA]
  | .F64_PROMOTE_F32 => some [0xBB]
  | .I32_EXTEND8_S => some [0xC0]
  | .I32_EXTEND16_S => some [0xC1]
  | .I32_TRUNC_SAT_F32_S => some [0xFC, 0x00]
  | .I32_TRUNC_SAT_F32_U => some [0xFC, 0x01]
  | .I32_TRUNC_SAT_F64_S => some [0xFC, 0x02]
  | .I32_TRUNC_SAT_F64_U => some [0xFC, 0x03]
  | .I64_TRUNC_SAT_F32_S => some [0xFC, 0x04]
  | .I64_TRUNC_SAT_F32_U => some [0xFC, 0x05]
  | .I64_TRUNC_SAT_F64_S => some [0xFC, 0x06]
  | .I64_TRUNC_SAT_F64_U => some [0xFC, 0x07]
  | .BLOCK => some [0x02, 0x40]
  | .LOOP => some [0x03, 0x40]
  | _ => none

/-- The opcodes and alignments of the loads and stores. -/
def memoryBytes : WasmOpcode → Option (List Byte)
  | .I32_LOAD => some [0x28, 0x02]
  | .I64_LOAD => some [0x29, 0x03]
  | .F32_LOAD => some [0x2A, 0x02]
  | .F64_LOAD => some [0x2B, 0x03]
  | .I32_LOAD8_S => some [0x2C, 0x00]
  | .I32_LOAD8_U => some [0x2D, 0x00]
  | .I32_LOAD16_S => some [0x2E, 0x01]
  | .I32_LOAD16_U => some [0x2F, 0x01]
  | .I32_STORE => some [0x36, 0x02]
  | .I64_STORE => some [0x37, 0x03]
  | .F32_STORE => some [0x38, 0x02]
  | .F64_STORE => some [0x39, 0x03]
  | .I32_STORE8 => some [0x3A, 0x00]
  | .I32_STORE16 => some [0x3B, 0x01]
  | _ => none

/-- The immediates of `br`, `br_if` and the instructions for locals are unsigned. -/
def indexBytes : WasmOpcode → Option Byte
  | .BR => some 0x0C
  | .BR_IF => some 0x0D
  | .LOCAL_GET => some 0x20
  | .LOCAL_SET => some 0x21
  | .LOCAL_TEE => some 0x22
  | _ => none

structure Encoder where
  symbolIndices : List (String × ℕ)
  indirectCallTypesOffset : ℕ
  stackSlots : List (BitVec 32)
  /-- The bits of a double as a float. -/
  toF32 : Double → BitVec 32

namespace Encoder

variable (enc : Encoder)

/-- A relocation to a symbol, by its name. -/
def symbolReloc (ctx : FuncContext) (type : WasmRelocType) (name : String) : Option FuncContext :=
  (enc.symbolIndices.lookup name).map (ctx.writeReloc type)

/-- The offset of a stack slot and an offset in it, a signed number. -/
def stackOffset (slot : ℕ) (offset : BitVec 32) : Option (BitVec 64) :=
  enc.stackSlots[slot]?.map fun base ↦ (base + offset).signExtend 64

/-- A number of 32 bits, which may be given without its sign. -/
def signed32 (value : LargeInt) : LargeInt :=
  if LargeInt.lt ⟨0x7FFFFFFF, false⟩ value then
    LargeInt.sub (LargeInt.sub value ⟨0xFFFFFFFF, false⟩) ⟨1, false⟩
  else value

def signed64 (value : LargeInt) : LargeInt :=
  if LargeInt.lt ⟨0x7FFFFFFFFFFFFFFF, false⟩ value then
    LargeInt.sub (LargeInt.sub value ⟨0xFFFFFFFFFFFFFFFF, false⟩) ⟨1, false⟩
  else value

def encodeLoadStoreAddr (ctx : FuncContext) : Operand → Option FuncContext
  | .intImmediate offset => some (ctx.write (uleb128 offset.magnitude))
  | .stackOffset slot offset => (enc.stackOffset slot offset).map fun value ↦
      ctx.write (uleb128 value)
  | .symbol symbol => enc.symbolReloc ctx .MEMORY_ADDR_LEB symbol.name
  | .fpImmediate _ => none

def encodeGlobal (ctx : FuncContext) (opcode : Byte) : Operand → Option FuncContext
  | .intImmediate index => some (ctx.write (opcode :: sleb128 index))
  | .symbol symbol => enc.symbolReloc (ctx.write [opcode]) .GLOBAL_INDEX_LEB symbol.name
  | _ => some (ctx.write [opcode])

def encodeI32Const (ctx : FuncContext) : Operand → Option FuncContext
  | .intImmediate value => some (ctx.write (0x41 :: sleb128 (signed32 value)))
  | .symbol symbol =>
    match symbol.reloc with
    | .MEMORY_ADDR_SLEB => enc.symbolReloc (ctx.write [0x41]) .MEMORY_ADDR_SLEB symbol.name
    | .TABLE_INDEX_SLEB => enc.symbolReloc (ctx.write [0x41]) .TABLE_INDEX_SLEB symbol.name
    | .NONE => none
  | .stackOffset slot offset => (enc.stackOffset slot offset).map fun value ↦
      ctx.write (0x41 :: sleb128 (signed32 (LargeInt.ofSigned value)))
  | .fpImmediate _ => none

def encodeCallIndirect (ctx : FuncContext) : Operand → Option FuncContext
  | .intImmediate typeOffset =>
    enc.symbolReloc
      ((ctx.write [0x11]).writeReloc .TYPE_INDEX_LEB
        (enc.indirectCallTypesOffset + (typeOffset.magnitude.setWidth 32).toNat))
      .TABLE_NUMBER_LEB "__indirect_function_table"
  | _ => none

def encodeLabel : Operand → Option (List Byte)
  | .intImmediate label => some (uleb128 label.magnitude)
  | _ => none

/-- The labels of a `br_table`, the default one last. -/
def encodeBrTable (ctx : FuncContext) (operands : List Operand) : Option FuncContext :=
  (operands.mapM encodeLabel).map fun labels ↦
    ctx.write (0x0E :: uleb128 (BitVec.ofNat 64 (operands.length - 1)) ++ labels.flatten)

/-- The instructions with one operand. -/
def encodeOperand (ctx : FuncContext) (opcode : WasmOpcode) (operand : Operand) :
    Option FuncContext :=
  match opcode, operand with
  | .CALL, .symbol symbol => enc.symbolReloc (ctx.write [0x10]) .FUNCTION_INDEX_LEB symbol.name
  | .CALL, _ => none
  | .CALL_INDIRECT, _ => enc.encodeCallIndirect ctx operand
  | .GLOBAL_GET, _ => enc.encodeGlobal ctx 0x23 operand
  | .GLOBAL_SET, _ => enc.encodeGlobal ctx 0x24 operand
  | .I32_CONST, _ => enc.encodeI32Const ctx operand
  | .I64_CONST, .intImmediate value => some (ctx.write (0x42 :: sleb128 (signed64 value)))
  | .F32_CONST, .fpImmediate value =>
    some (ctx.write (0x43 :: u32 ((enc.toF32 value).setWidth 64)))
  | .F64_CONST, .fpImmediate value => some (ctx.write (0x44 :: u64 value.bits))
  | _, _ =>
    match memoryBytes opcode, indexBytes opcode, operand with
    | some bytes, _, _ => enc.encodeLoadStoreAddr (ctx.write bytes) operand
    | none, some byte, .intImmediate index => some (ctx.write (byte :: uleb128 index.magnitude))
    | _, _, _ => none

def encodeInstr (ctx : FuncContext) (instr : Instruction) : Option FuncContext :=
  match plainBytes instr.opcode with
  | some bytes => some (ctx.write bytes)
  | none =>
    if instr.opcode = .BR_TABLE then encodeBrTable ctx instr.operands
    else instr.operands.head?.bind (enc.encodeOperand ctx instr.opcode)

def encodeInstrs (func : Function) : Option FuncContext :=
  func.blocks.flatten.foldlM enc.encodeInstr {}

end Encoder

/-! ## The builder -/

structure WasmBuilder where
  file : WasmObjectFile
  numFuncImports : ℕ := 0
  symbolIndices : List (String × ℕ) := []
  funcSymbols : List String := []
  indirectCallTypesOffset : ℕ := 0
  dataBuffer : List Byte := []
  dataRelocs : List WasmRelocation := []
  deriving DecidableEq, Repr

namespace WasmBuilder

/-- The file before anything of the module is in it. -/
def emptyFile : WasmObjectFile where
  imports := [⟨"env", "__linear_memory", .memory 0⟩,
    ⟨"env", "__stack_pointer", .globalType 0x7F true⟩,
    ⟨"env", "__indirect_function_table", .table 0x70 1⟩]
  symbols := [
    { type := .GLOBAL, flags := { undefined := true }, name := "__stack_pointer" },
    { type := .TABLE, flags := { exported := true, noStrip := true, undefined := true },
      name := "__indirect_function_table" }]

/-- `symbol_indices.insert`, which keeps what is there, and the next index. -/
def insertSymbol (acc : List (String × ℕ) × ℕ) (name : String) : List (String × ℕ) × ℕ :=
  (if (acc.1.lookup name).isSome then acc.1 else acc.1 ++ [(name, acc.2)], acc.2 + 1)

/-- The names of the symbols, in the order in which they are numbered. -/
def symbolNames (mod : Module) : List String :=
  ["__stack_pointer", "__indirect_function_table"] ++ mod.funcImports.map WasmFuncImport.name ++
    mod.externGlobals ++ mod.globals.map Global.name ++ mod.functions.map Function.name

def collectSymbolIndices (builder : WasmBuilder) (mod : Module) : WasmBuilder :=
  { builder with
    symbolIndices := ((symbolNames mod).foldl insertSymbol (builder.symbolIndices, 0)).1
    funcSymbols := builder.funcSymbols ++ mod.funcImports.map WasmFuncImport.name ++
      mod.functions.map Function.name }

def buildFuncImport (builder : WasmBuilder) (funcImport : WasmFuncImport) : WasmBuilder :=
  { builder with
    file := { builder.file with
      types := builder.file.types ++ [buildFuncType funcImport.type]
      imports := builder.file.imports ++
        [⟨funcImport.mod, funcImport.name, .typeIndex builder.file.types.length⟩]
      symbols := builder.file.symbols ++
        [{ type := .FUNCTION, flags := { undefined := true }, index := builder.numFuncImports }] }
    numFuncImports := builder.numFuncImports + 1 }

def buildExternGlobal (builder : WasmBuilder) (externGlobal : String) : WasmBuilder :=
  { builder with
    file := { builder.file with
      symbols := builder.file.symbols ++
        [{ type := .DATA, flags := { undefined := true }, name := externGlobal }] } }

/-- The bytes of a global and the relocation in it. -/
def encodeGlobalValue (toF32 : Double → BitVec 32) (builder : WasmBuilder) (global : Global) :
    Option (List Byte × List WasmRelocation) :=
  match global.value with
  | .integer value =>
    if global.size ∈ [1, 2, 4, 8] then some (Memory.toBytes value.toBits global.size, []) else none
  | .floatingPoint value =>
    match global.size with
    | 4 => some (u32 ((toF32 value).setWidth 64), [])
    | 8 => some (u64 value.bits, [])
    | _ => none
  | .bytes value | .string value => some (value, [])
  | .symbolRef name =>
    (builder.symbolIndices.lookup name).map fun index ↦
      (u32 0, [{ type := if name ∈ builder.funcSymbols then .TABLE_INDEX_I32 else .MEMORY_ADDR_I32
                 offset := builder.dataBuffer.length, index }])
  | .none => some (List.replicate global.size 0, [])

def buildGlobal (toF32 : Double → BitVec 32) (builder : WasmBuilder) (global : Global) :
    Option WasmBuilder :=
  (builder.encodeGlobalValue toF32 global).map fun (bytes, relocs) ↦
    { builder with
      file := { builder.file with
        symbols := builder.file.symbols ++
          [{ type := .DATA, flags := { bindingLocal := true }, name := global.name
             offset := builder.dataBuffer.length, size := bytes.length }] }
      dataBuffer := builder.dataBuffer ++ bytes
      dataRelocs := builder.dataRelocs ++ relocs }

/-- The data segment and the types of indirect calls. -/
def buildData (builder : WasmBuilder) (mod : Module) : WasmBuilder :=
  { builder with
    file := { builder.file with
      dataSegments := builder.file.dataSegments ++
        [⟨0x41 :: sleb128 0 ++ [0x0B], builder.dataBuffer, builder.dataRelocs⟩]
      types := builder.file.types ++ mod.indirectCallTypes.map buildFuncType }
    indirectCallTypesOffset := builder.file.types.length }

def encoder (toF32 : Double → BitVec 32) (builder : WasmBuilder) (func : Function) : Encoder :=
  ⟨builder.symbolIndices, builder.indirectCallTypesOffset, func.stackSlots, toF32⟩

def buildFunc (toF32 : Double → BitVec 32) (builder : WasmBuilder) (func : Function) :
    Option WasmBuilder :=
  ((builder.encoder toF32 func).encodeInstrs func).map fun ctx ↦
    { builder with
      file := { builder.file with
        types := builder.file.types ++ [buildFuncType func.type]
        functions := builder.file.functions ++
          [⟨builder.file.types.length, buildLocalGroups func, ctx.body, ctx.relocs⟩]
        symbols := builder.file.symbols ++
          [{ type := .FUNCTION, flags := { exported := true }, name := func.name
             index := builder.numFuncImports + builder.file.functions.length }] } }

def build (toF32 : Double → BitVec 32) (mod : Module) : Option WasmBuilder := do
  let builder := collectSymbolIndices { file := emptyFile } mod
  let builder := mod.funcImports.foldl buildFuncImport builder
  let builder := mod.externGlobals.foldl buildExternGlobal builder
  let builder ← mod.globals.foldlM (buildGlobal toF32) builder
  let builder := builder.buildData mod
  mod.functions.foldlM (buildFunc toF32) builder

end WasmBuilder

end Banjo.Emit.Wasm
