import Banjo.SSA.Instruction

/-!
# Machine code for WebAssembly

The machine instructions the WebAssembly target lowers to, and the functions and modules they are
in.
-/

namespace Banjo.Target.Wasm

inductive WasmType where
  | I32 | I64 | F32 | F64
  deriving DecidableEq, Repr

structure WasmFuncType where
  params : List WasmType
  resultType : Option WasmType
  deriving DecidableEq, Repr

structure WasmFuncImport where
  mod : String
  name : String
  type : WasmFuncType
  deriving DecidableEq, Repr

inductive WasmOpcode where
  | BLOCK | END_BLOCK | LOOP | END_LOOP | BR | BR_IF | BR_TABLE | END_FUNCTION | CALL
  | CALL_INDIRECT | DROP | SELECT | LOCAL_GET | LOCAL_SET | LOCAL_TEE | GLOBAL_GET | GLOBAL_SET
  | I32_LOAD | I64_LOAD | F32_LOAD | F64_LOAD | I32_LOAD8_S | I32_LOAD8_U | I32_LOAD16_S
  | I32_LOAD16_U | I32_STORE | I64_STORE | F32_STORE | F64_STORE | I32_STORE8 | I32_STORE16
  | I32_CONST | I64_CONST | F32_CONST | F64_CONST | I32_EQ | I32_NE | I32_LT_S | I32_LT_U
  | I32_GT_S | I32_GT_U | I32_LE_S | I32_LE_U | I32_GE_S | I32_GE_U | I64_EQ | I64_NE | I64_LT_S
  | I64_LT_U | I64_GT_S | I64_GT_U | I64_LE_S | I64_LE_U | I64_GE_S | I64_GE_U | F32_EQ | F32_NE
  | F32_LT | F32_GT | F32_LE | F32_GE | F64_EQ | F64_NE | F64_LT | F64_GT | F64_LE | F64_GE
  | I32_ADD | I32_SUB | I32_MUL | I32_DIV_S | I32_DIV_U | I32_REM_S | I32_REM_U | I32_AND | I32_OR
  | I32_XOR | I32_SHL | I32_SHR_S | I32_SHR_U | I64_ADD | I64_SUB | I64_MUL | I64_DIV_S
  | I64_DIV_U | I64_REM_S | I64_REM_U | I64_AND | I64_OR | I64_XOR | I64_SHL | I64_SHR_S
  | I64_SHR_U | F32_ADD | F32_SUB | F32_MUL | F32_DIV | F64_ADD | F64_SUB | F64_MUL | F64_DIV
  | I32_WRAP_I64 | I64_EXTEND_I32_S | I64_EXTEND_I32_U | F32_CONVERT_I32_S | F32_CONVERT_I32_U
  | F32_CONVERT_I64_S | F32_CONVERT_I64_U | F32_DEMOTE_F64 | F64_CONVERT_I32_S | F64_CONVERT_I32_U
  | F64_CONVERT_I64_S | F64_CONVERT_I64_U | F64_PROMOTE_F32 | I32_EXTEND8_S | I32_EXTEND16_S
  | I32_TRUNC_SAT_F32_S | I32_TRUNC_SAT_F32_U | I32_TRUNC_SAT_F64_S | I32_TRUNC_SAT_F64_U
  | I64_TRUNC_SAT_F32_S | I64_TRUNC_SAT_F32_U | I64_TRUNC_SAT_F64_S | I64_TRUNC_SAT_F64_U
  deriving DecidableEq, Repr

/-- The relocations of symbols in operands that WebAssembly has. -/
inductive Relocation where
  | NONE | MEMORY_ADDR_SLEB | TABLE_INDEX_SLEB
  deriving DecidableEq, Repr

structure Symbol where
  name : String
  reloc : Relocation := .NONE
  deriving DecidableEq, Repr

inductive Operand where
  | intImmediate (immediate : LargeInt)
  | fpImmediate (immediate : Double)
  | symbol (symbol : Symbol)
  /-- An offset into a stack slot. -/
  | stackOffset (slot : ℕ) (offset : BitVec 32)
  deriving DecidableEq, Repr

structure Instruction where
  opcode : WasmOpcode
  operands : List Operand := []
  deriving DecidableEq, Repr

structure Function where
  name : String
  type : WasmFuncType
  locals : List WasmType := []
  /-- The offsets of the stack slots. -/
  stackSlots : List (BitVec 32) := []
  /-- The instructions of the blocks, block by block. -/
  blocks : List (List Instruction)
  deriving DecidableEq, Repr

inductive GlobalValue where
  | none
  | integer (value : LargeInt)
  | floatingPoint (value : Double)
  | bytes (value : List (BitVec 8))
  | string (value : List (BitVec 8))
  | symbolRef (name : String)
  deriving DecidableEq, Repr

structure Global where
  name : String
  size : ℕ
  value : GlobalValue
  deriving DecidableEq, Repr

structure Module where
  funcImports : List WasmFuncImport
  externGlobals : List String
  indirectCallTypes : List WasmFuncType
  globals : List Global
  functions : List Function
  deriving DecidableEq, Repr

end Banjo.Target.Wasm
