import Banjo.Emit.BinaryBuilder
import Banjo.Target.X8664.RegAnalyzer

/-!
# Encoding x86-64 instructions

`X8664Encoder`: what encoding an instruction does to the builder of a module, instruction by
instruction. Symbols are their numbers. What an assertion of the source stops is `none`, and an
instruction with operands of kinds it does not have encodes to nothing.
-/

namespace Banjo.Target.X8664.Encoder

open Emit WriteBuffer
open Codegen (PhysicalReg StackSlotID)
open Mcode (Opcode)
open X8664Register

/-! ## Operands -/

/-- A symbol with the kind of use its relocation makes of it. -/
structure Symbol where
  index : ℕ
  useKind : BinSymbolUseKind
  deriving DecidableEq, Repr

/-- The scales an index can have. -/
inductive Scale where
  | one | two | four | eight
  deriving DecidableEq, Repr

/-- An `int`, or a stack slot and an offset in it. -/
inductive ConstOffset where
  | imm (offset : BitVec 32)
  | stack (slot : StackSlotID) (offset : BitVec 32)
  deriving DecidableEq, Repr

inductive Base where
  | register (reg : PhysicalReg)
  | symbol (symbol : Symbol)
  deriving DecidableEq, Repr

/-- `X8664Address`. -/
structure MachineAddress where
  base : Base
  offsetConst : ConstOffset := .imm 0
  offsetReg : Option (PhysicalReg × Scale) := none
  deriving DecidableEq, Repr

inductive Value where
  | register (reg : PhysicalReg)
  | intImmediate (value : LargeInt)
  | symbol (symbol : Symbol)
  | symbolDeref (symbol : Symbol)
  | basicBlock (label : ℕ)
  | addr (addr : MachineAddress)
  | stackSlot (slot : StackSlotID)
  deriving DecidableEq, Repr

structure Operand where
  value : Value
  size : ℕ := 0
  deriving DecidableEq, Repr

structure Instruction where
  opcode : Opcode
  operands : List Operand := []
  deriving DecidableEq, Repr

/-! ## Registers and addresses -/

abbrev RegCode := BitVec 4

/-- The number of a register in an encoding. -/
def regCode (reg : PhysicalReg) : RegCode :=
  if reg = RSI then 6
  else if reg = RDI then 7
  else if reg = RSP then 4
  else if reg = RBP then 5
  else if reg < 32 then BitVec.ofNat 4 reg
  else 0

def EDI : RegCode := 7

def ADDR_ESP : RegCode := 4

def ADDR_EBP : RegCode := 5

/-- The number of the register that is no index. -/
def ADDR_NO_INDEX : RegCode := 4

/-- The value of an immediate is that of its bits. -/
structure Immediate where
  value : BitVec 64
  symbolIndex : Option ℕ := none
  deriving DecidableEq, Repr

structure RegAddress where
  scale : Scale := .one
  index : RegCode := ADDR_NO_INDEX
  base : RegCode
  displacement : BitVec 32
  deriving DecidableEq, Repr

structure SymbolAddress where
  symbolIndex : ℕ
  useKind : BinSymbolUseKind
  deriving DecidableEq, Repr

inductive Address where
  | reg (addr : RegAddress)
  | symbol (addr : SymbolAddress)
  deriving DecidableEq, Repr

inductive RegOrAddr where
  | reg (reg : RegCode)
  | addr (addr : Address)
  deriving DecidableEq, Repr

/-- The offsets of the stack slots. -/
abbrev Frame := StackSlotID → BitVec 32

section Operands

variable (frame : Frame)

/-- `is_reg` and `reg`. -/
def reg (operand : Operand) : Option RegCode :=
  match operand.value with
  | .register reg => some (regCode reg)
  | _ => none

/-- `is_imm` and `imm`. -/
def imm (operand : Operand) : Option Immediate :=
  match operand.value with
  | .intImmediate value => some ⟨value.toBits, none⟩
  | .symbol symbol => some ⟨0, some symbol.index⟩
  | _ => none

def offsetOf : ConstOffset → BitVec 32
  | .imm offset => offset
  | .stack slot offset => frame slot + offset

/-- An address relative to a symbol has nothing else. -/
def machineAddr (addr : MachineAddress) : Option Address :=
  match addr.base with
  | .register base =>
    some (.reg {
      scale := (addr.offsetReg.map Prod.snd).getD .one
      index := (addr.offsetReg.map fun offset ↦ regCode offset.1).getD ADDR_NO_INDEX
      base := regCode base
      displacement := offsetOf frame addr.offsetConst })
  | .symbol symbol =>
    if addr.offsetConst = .imm 0 ∧ addr.offsetReg = none then
      some (.symbol ⟨symbol.index, symbol.useKind⟩)
    else none

/-- `is_addr` and `addr`. -/
def addr (operand : Operand) : Option Address :=
  match operand.value with
  | .stackSlot slot => some (.reg { base := ADDR_ESP, displacement := frame slot })
  | .symbolDeref symbol => some (.symbol ⟨symbol.index, symbol.useKind⟩)
  | .addr addr => machineAddr frame addr
  | _ => none

/-- `is_roa` and `roa`. -/
def roa (operand : Operand) : Option RegOrAddr :=
  (reg operand).map .reg <|> (addr frame operand).map .addr

end Operands

/-! ## Bytes -/

def emitOpcode (opcode : Byte) : List Action := [.write [opcode]]

def writeI8 (value : BitVec 64) : List Action := [.write [value.setWidth 8]]

def writeI16 (value : BitVec 64) : List Action := [.write (u16 value)]

def writeI32 (value : BitVec 64) : List Action := [.write (u32 value)]

def writeI64 (value : BitVec 64) : List Action := [.write (u64 value)]

def bit (b : Bool) : Byte := if b then 1 else 0

def emitRex (w r x b : Bool) : List Action :=
  [.write [0x40 ||| (bit w <<< 3) ||| (bit r <<< 2) ||| (bit x <<< 1) ||| bit b]]

def emit16BitPrefix : List Action := [.write [0x66]]

def emit16BitPrefixIfRequired (size : ℕ) : List Action := if size = 2 then emit16BitPrefix else []

/-- The lowest three bits. -/
def low (reg : RegCode) : Byte := reg.setWidth 8 &&& 7

def emitModrm (mod reg rm : RegCode) : List Action :=
  [.write [((mod.setWidth 8 &&& 3) <<< 6) ||| (low reg <<< 3) ||| low rm]]

def Scale.ss : Scale → Byte
  | .one => 0
  | .two => 1
  | .four => 2
  | .eight => 3

def emitSib (scale : Scale) (index base : RegCode) : List Action :=
  [.write [(scale.ss <<< 6) ||| (low index <<< 3) ||| low base]]

/-- `EBX`, the last of the registers that has a byte of its own without a prefix. -/
def aboveEbx (reg : RegCode) : Bool := 3 < reg &&& 7

def emitRexRR (size : ℕ) (reg rm : RegCode) : List Action :=
  let w := decide (size = 8)
  let r := decide (EDI < reg)
  let b := decide (EDI < rm)
  if size = 1 ∧ (aboveEbx reg ∨ aboveEbx rm) ∨ w ∨ r ∨ b then emitRex w r false b else []

/-- Without a register, `NO_BASE` counts as one that needs an extension. -/
def emitRexRM (size : ℕ) (reg : RegCode) (addr : Address) : List Action :=
  let w := decide (size = 8)
  let r := decide (EDI < reg)
  let x : Bool := match addr with
    | .reg addr => decide (EDI < addr.index)
    | .symbol _ => false
  let b : Bool := match addr with
    | .reg addr => decide (EDI < addr.base)
    | .symbol _ => true
  if size = 1 ∧ aboveEbx reg ∨ w ∨ r ∨ x ∨ b then emitRex w r x b else []

def emitRexRroa (size : ℕ) (reg : RegCode) : RegOrAddr → List Action
  | .reg rm => emitRexRR size reg rm
  | .addr addr => emitRexRM size reg addr

def emitRexO (size : ℕ) (opcodeExt : RegCode) : List Action :=
  let w := decide (size = 8)
  let b := decide (EDI < opcodeExt)
  if size = 1 ∧ aboveEbx opcodeExt ∨ w ∨ b then emitRex w false false b else []

def emitCombinedOpcode (opcode : Byte) (reg : RegCode) : List Action :=
  [.write [opcode ||| low reg]]

def emitModrmRR (reg rm : RegCode) : List Action := emitModrm 3 reg rm

/-- The displacement decides the form, and `RBP` and `R13` have none without one. -/
def emitMemReg (addr : RegAddress) (digit : RegCode) : List Action :=
  let hasIndex := addr.index ≠ ADDR_NO_INDEX
  let baseTrunc := addr.base &&& 7
  if addr.displacement = 0 then
    if baseTrunc = ADDR_EBP then
      (if hasIndex then emitModrm 1 digit 4 ++ emitSib addr.scale addr.index addr.base
        else emitModrm 1 digit 5) ++ [.write [0]]
    else if hasIndex ∨ baseTrunc = ADDR_ESP then
      emitModrm 0 digit 4 ++ emitSib addr.scale addr.index addr.base
    else emitModrm 0 digit addr.base
  else if fitsInI8 addr.displacement.toInt then
    (if hasIndex ∨ baseTrunc = ADDR_ESP then
      emitModrm 1 digit 4 ++ emitSib addr.scale addr.index addr.base
    else emitModrm 1 digit addr.base) ++ writeI8 (addr.displacement.signExtend 64)
  else
    (if hasIndex ∨ baseTrunc = ADDR_ESP then
      emitModrm 2 digit 4 ++ emitSib addr.scale addr.index addr.base
    else emitModrm 2 digit addr.base) ++ writeI32 (addr.displacement.signExtend 64)

/-- `emit_mem_digit`, and `emit_mem_reg` with nothing after the address. -/
def emitMemDigit (addr : Address) (digit : RegCode) (offsetToNextInstr : ℕ := 0) : List Action :=
  match addr with
  | .reg addr => emitMemReg addr digit
  | .symbol addr =>
    emitModrm 0 digit 5 ++ [.use addr.symbolIndex addr.useKind (-offsetToNextInstr) false]

def emitModrmSib (reg : RegCode) : RegOrAddr → List Action
  | .reg rm => emitModrmRR reg rm
  | .addr addr => emitMemDigit addr reg

/-! ## Instructions of one shape -/

/-- Bytes of an immediate. -/
def writeImm (size : ℕ) (value : BitVec 64) : List Action :=
  if size = 1 then writeI8 value
  else if size = 2 then writeI16 value
  else if size = 4 then writeI32 value
  else []

def fitsInImm8 (value : BitVec 64) : Bool := fitsInI8 value.toInt

/-- The test is against the minimum. -/
def fitsIn32Bits (imm : Immediate) : Bool := imm.symbolIndex.isNone && imm.value ≤ 0

def emitBasicRR (opcode8 opcode32 : Byte) (dst src : RegCode) (size : ℕ) : List Action :=
  emit16BitPrefixIfRequired size ++ emitRexRR size src dst ++
    emitOpcode (if size = 1 then opcode8 else opcode32) ++ emitModrmRR src dst

def emitBasicRM (opcode8 opcode32 : Byte) (dst : RegCode) (src : Address) (size : ℕ) :
    List Action :=
  emit16BitPrefixIfRequired size ++ emitRexRM size dst src ++
    emitOpcode (if size = 1 then opcode8 else opcode32) ++ emitMemDigit src dst

def emitBasicMR (opcode8 opcode32 : Byte) (dst : Address) (src : RegCode) (size : ℕ) :
    List Action :=
  emit16BitPrefixIfRequired size ++ emitRexRM size src dst ++
    emitOpcode (if size = 1 then opcode8 else opcode32) ++ emitMemDigit dst src

def emitMovRR (dst src : RegCode) (size : ℕ) : List Action := emitBasicRR 0x88 0x89 dst src size

def emitMovRI (dst : RegCode) (imm : Immediate) (size : ℕ) : Option (List Action) :=
  let size := if size = 8 ∧ fitsIn32Bits imm then 4 else size
  let first := emit16BitPrefixIfRequired size ++ emitRexO size dst ++
    emitCombinedOpcode (if size = 1 then 0xB0 else 0xB8) dst
  match imm.symbolIndex with
  | none =>
    if size = 1 ∨ size = 2 ∨ size = 4 then some (first ++ writeImm size imm.value)
    else if size = 8 then some (first ++ writeI64 imm.value)
    else none
  | some symbol => some (first ++ [.use symbol .ABS64 0 true])

def emitMovRM (dst : RegCode) (src : Address) (size : ℕ) : List Action :=
  emitBasicRM 0x8A 0x8B dst src size

def emitMovMR (dst : Address) (src : RegCode) (size : ℕ) : List Action :=
  emitBasicMR 0x88 0x89 dst src size

def emitMovMI (dst : Address) (imm : Immediate) (size : ℕ) : Option (List Action) :=
  if imm.symbolIndex.isSome then none
  else
    let immSize := if size = 8 then 4 else size
    some (emit16BitPrefixIfRequired size ++ emitRexRM size 0 dst ++
      emitOpcode (if size = 1 then 0xC6 else 0xC7) ++ emitMemDigit dst 0 immSize ++
      writeImm immSize imm.value)

def emitImulRR (dst src : RegCode) (size : ℕ) : List Action :=
  emit16BitPrefixIfRequired size ++ emitRexRR size dst src ++ emitOpcode 0x0F ++ emitOpcode 0xAF ++
    emitModrmRR dst src

def emitImulRM (dst : RegCode) (src : Address) (size : ℕ) : List Action :=
  emit16BitPrefixIfRequired size ++ emitRexRM size dst src ++ emitOpcode 0x0F ++ emitOpcode 0xAF ++
    emitMemDigit src dst

def emitImulRRI (dst : RegCode) (imm : Immediate) (size : ℕ) : Option (List Action) :=
  if (size = 4 ∨ size = 8) ∧ imm.symbolIndex = none then
    some (emit16BitPrefixIfRequired size ++ emitRexRR size dst dst ++ emitOpcode 0x69 ++
      emitModrmRR dst dst ++ writeI32 imm.value)
  else none

def emitLeaRM (dst : RegCode) (src : Address) (size : ℕ) : List Action :=
  emit16BitPrefixIfRequired size ++ emitRexRM size dst src ++ emitOpcode 0x8D ++
    emitMemDigit src dst

def emitCmovcc (opcode : Byte) (dst : RegCode) (src : RegOrAddr) (size : ℕ) : List Action :=
  emit16BitPrefixIfRequired size ++ emitRexRroa size dst src ++ emitOpcode 0x0F ++
    emitOpcode opcode ++ emitModrmSib dst src

def emitSse (first opcode : Byte) (dst : RegCode) (src : RegOrAddr) (size : ℕ) : List Action :=
  emitOpcode first ++ emitRexRroa size dst src ++ emitOpcode 0x0F ++ emitOpcode opcode ++
    emitModrmSib dst src

/-! ## Instructions -/

structure BasicInstrOpcodes where
  digit : RegCode
  raxImm8 : Byte
  raxImm16 : Byte
  rm8Imm8 : Byte
  rm16Imm16 : Byte
  rm16Imm8 : Byte
  rm8R8 : Byte
  rm16R16 : Byte
  r8Rm8 : Byte
  r16Rm16 : Byte
  deriving DecidableEq, Repr

section Instructions

variable (frame : Frame)

/-- The two operands most instructions have. -/
def dstSrc (instr : Instruction) : Option (Operand × Operand) := do
  let dst ← instr.operands[0]?
  let src ← instr.operands[1]?
  pure (dst, src)

def encodeMov (instr : Instruction) : Option (List Action) := do
  let (dst, src) ← dstSrc instr
  match reg dst, addr frame dst with
  | some dstReg, _ =>
    match reg src, imm src, addr frame src with
    | some srcReg, _, _ => some (emitMovRR dstReg srcReg dst.size)
    | _, some srcImm, _ => emitMovRI dstReg srcImm dst.size
    | _, _, some srcAddr => some (emitMovRM dstReg srcAddr dst.size)
    | _, _, _ => some []
  | _, some dstAddr =>
    match reg src, imm src with
    | some srcReg, _ => some (emitMovMR dstAddr srcReg dst.size)
    | _, some srcImm => emitMovMI dstAddr srcImm dst.size
    | _, _ => some []
  | _, _ => some []

def encodeMovsx (instr : Instruction) : Option (List Action) := do
  let (dst, src) ← dstSrc instr
  let dstReg ← reg dst
  let srcRoa ← roa frame src
  let opcode :=
    if src.size = 1 then emitOpcode 0x0F ++ emitOpcode 0xBE
    else if src.size = 2 then emitOpcode 0x0F ++ emitOpcode 0xBF
    else if src.size = 4 then emitOpcode 0x63
    else []
  some (emit16BitPrefixIfRequired dst.size ++ emitRexRroa dst.size dstReg srcRoa ++ opcode ++
    emitModrmSib dstReg srcRoa)

def encodeMovzx (instr : Instruction) : Option (List Action) := do
  let (dst, src) ← dstSrc instr
  let dstReg ← reg dst
  let srcRoa ← roa frame src
  some (emit16BitPrefixIfRequired dst.size ++ emitRexRroa dst.size dstReg srcRoa ++
    emitOpcode 0x0F ++ emitOpcode (if src.size = 1 then 0xB6 else 0xB7) ++
    emitModrmSib dstReg srcRoa)

/-- The destination is `RAX`, which `EAX` and `XMM0` have the number of, too. -/
def isRax (operand : Operand) : Bool := operand.value = .register RAX

def encodeBasicInstr (opcodes : BasicInstrOpcodes) (instr : Instruction) :
    Option (List Action) := do
  let (dst, src) ← dstSrc instr
  let size := dst.size
  let first := emit16BitPrefixIfRequired size
  match roa frame dst, imm src, reg src, reg dst, roa frame src with
  | some dstRoa, some srcImm, _, _, _ =>
    let isImm8 := fitsInImm8 srcImm.value
    let immSize := if size = 8 then 4 else size
    -- the shorter encoding of `RAX`, where it is one
    if isRax dst ∧ ¬(isImm8 ∧ 1 < size) then
      some (first ++ emitRexRR size 0 0 ++
        emitOpcode (if size = 1 then opcodes.raxImm8 else opcodes.raxImm16) ++
        writeImm immSize srcImm.value)
    else if isImm8 then
      some (first ++ emitRexRroa size 0 dstRoa ++
        emitOpcode (if size = 1 then opcodes.rm8Imm8 else opcodes.rm16Imm8) ++
        emitModrmSib opcodes.digit dstRoa ++ writeI8 srcImm.value)
    else
      some (first ++ emitRexRroa size 0 dstRoa ++ emitOpcode opcodes.rm16Imm16 ++
        emitModrmSib opcodes.digit dstRoa ++
        if size = 1 then [] else writeImm immSize srcImm.value)
  | some dstRoa, _, some srcReg, _, _ =>
    some (first ++ emitRexRroa size srcReg dstRoa ++
      emitOpcode (if size = 1 then opcodes.rm8R8 else opcodes.rm16R16) ++
      emitModrmSib srcReg dstRoa)
  | _, _, _, some dstReg, some srcRoa =>
    some (first ++ emitRexRroa size dstReg srcRoa ++
      emitOpcode (if size = 1 then opcodes.r8Rm8 else opcodes.r16Rm16) ++
      emitModrmSib dstReg srcRoa)
  | _, _, _, _, _ => some first

def encodeAdd := encodeBasicInstr frame ⟨0, 0x04, 0x05, 0x80, 0x81, 0x83, 0x00, 0x01, 0x02, 0x03⟩

def encodeSub := encodeBasicInstr frame ⟨5, 0x2C, 0x2D, 0x80, 0x81, 0x83, 0x28, 0x29, 0x2A, 0x2B⟩

def encodeAnd := encodeBasicInstr frame ⟨4, 0x24, 0x25, 0x80, 0x81, 0x83, 0x20, 0x21, 0x22, 0x23⟩

def encodeOr := encodeBasicInstr frame ⟨1, 0x0C, 0x0D, 0x80, 0x81, 0x83, 0x08, 0x09, 0x0A, 0x0B⟩

def encodeXor := encodeBasicInstr frame ⟨6, 0x34, 0x35, 0x80, 0x81, 0x83, 0x30, 0x31, 0x32, 0x33⟩

def encodeCmp := encodeBasicInstr frame ⟨7, 0x3C, 0x3D, 0x80, 0x81, 0x83, 0x38, 0x39, 0x3A, 0x3B⟩

def encodeImul (instr : Instruction) : Option (List Action) := do
  let (dst, src) ← dstSrc instr
  let dstReg ← reg dst
  match reg src, addr frame src, imm src with
  | some srcReg, _, _ => some (emitImulRR dstReg srcReg dst.size)
  | _, some srcAddr, _ => some (emitImulRM dstReg srcAddr dst.size)
  | _, _, some srcImm => emitImulRRI dstReg srcImm dst.size
  | _, _, _ => some []

/-- `encode_div` and `encode_idiv`. -/
def encodeDivision (digit : RegCode) (instr : Instruction) : Option (List Action) := do
  let operand ← instr.operands[0]?
  let src ← roa frame operand
  some (emit16BitPrefixIfRequired operand.size ++ emitRexRroa operand.size 0 src ++
    emitOpcode (if operand.size = 1 then 0xF6 else 0xF7) ++ emitModrmSib digit src)

def encodeDiv := encodeDivision frame 6

def encodeIdiv := encodeDivision frame 7

/-- The shift by one is tested for with `-1`. -/
def encodeShift (digit : RegCode) (instr : Instruction) : Option (List Action) := do
  let (dst, src) ← dstSrc instr
  let size := dst.size
  let dstRoa ← roa frame dst
  let first := emit16BitPrefixIfRequired size ++ emitRexRroa size 0 dstRoa
  match reg src, imm src with
  | some srcReg, _ =>
    if srcReg = 1 then
      some (first ++ emitOpcode (if size = 1 then 0xD2 else 0xD3) ++ emitModrmSib digit dstRoa)
    else none
  | _, some srcImm =>
    if srcImm.symbolIndex.isSome then none
    else if srcImm.value = -1 then
      some (first ++ emitOpcode (if size = 1 then 0xD0 else 0xD1) ++ emitModrmSib digit dstRoa)
    else
      some (first ++ emitOpcode (if size = 1 then 0xC0 else 0xC1) ++ emitModrmSib digit dstRoa ++
        writeI8 srcImm.value)
  | _, _ => some first

def encodeShl := encodeShift frame 4

def encodeShr := encodeShift frame 5

def encodeSar := encodeShift frame 7

def encodeCwd : List Action := emit16BitPrefix ++ emitOpcode 0x99

def encodeCdq : List Action := emitOpcode 0x99

def encodeCqo : List Action := emitRex true false false false ++ emitOpcode 0x99

def encodeJmp (instr : Instruction) : Option (List Action) := do
  let target ← instr.operands[0]?
  match target.value with
  | .basicBlock label => some [.jmp label]
  | _ => some []

def encodeJcc (condition : Condition) (instr : Instruction) : Option (List Action) := do
  let target ← instr.operands[0]?
  match target.value with
  | .basicBlock label => some [.jcc condition label]
  | _ => some []

def encodeCmovcc (opcode : Byte) (instr : Instruction) : Option (List Action) := do
  let (dst, src) ← dstSrc instr
  let dstReg ← reg dst
  let srcRoa ← roa frame src
  if dst.size = 1 then none else some (emitCmovcc opcode dstReg srcRoa dst.size)

def encodeLea (instr : Instruction) : Option (List Action) := do
  let (dst, src) ← dstSrc instr
  let dstReg ← reg dst
  let srcAddr ← addr frame src
  some (emitLeaRM dstReg srcAddr dst.size)

def encodeCall (instr : Instruction) : Option (List Action) := do
  let target ← instr.operands[0]?
  match target.value, reg target, addr frame target with
  | .symbol symbol, _, _ => some (emitOpcode 0xE8 ++ [.use symbol.index symbol.useKind 0 false])
  | _, some targetReg, _ =>
    if target.size = 8 then some (emitOpcode 0xFF ++ emitModrmRR 2 targetReg) else none
  | _, _, some targetAddr =>
    some (emitRexRM 0 0 targetAddr ++ emitOpcode 0xFF ++ emitMemDigit targetAddr 2)
  | _, _, _ => none

def encodeRet : List Action := [.write [0xC3]]

/-- `encode_push` and `encode_pop`. -/
def encodePushPop (opcode : Byte) (instr : Instruction) : Option (List Action) := do
  let operand ← instr.operands[0]?
  let operandReg ← reg operand
  some ((if EDI < operandReg then emitRex false false false true else []) ++
    emitCombinedOpcode opcode operandReg)

def encodePush := encodePushPop 0x50

def encodePop := encodePushPop 0x58

/-- `encode_movss` and `encode_movsd`. -/
def encodeScalarMove (first : Byte) (instr : Instruction) : Option (List Action) := do
  let (dst, src) ← dstSrc instr
  match reg dst, addr frame dst with
  | some dstReg, _ => (roa frame src).map fun srcRoa ↦ emitSse first 0x10 dstReg srcRoa 0
  | _, some dstAddr =>
    (reg src).map fun srcReg ↦ emitOpcode first ++ emitRexRM 0 srcReg dstAddr ++ emitOpcode 0x0F ++
      emitOpcode 0x11 ++ emitMemDigit dstAddr srcReg
  | _, _ => some []

def encodeMovss := encodeScalarMove frame 0xF3

def encodeMovsd := encodeScalarMove frame 0xF2

/-- `encode_movaps` and `encode_movups`. -/
def encodePackedMove (load store : Byte) (instr : Instruction) : Option (List Action) := do
  let (dst, src) ← dstSrc instr
  match reg dst, addr frame dst with
  | some dstReg, _ =>
    (roa frame src).map fun srcRoa ↦ emitRexRroa 0 dstReg srcRoa ++ emitOpcode 0x0F ++
      emitOpcode load ++ emitModrmSib dstReg srcRoa
  | _, some dstAddr =>
    (reg src).map fun srcReg ↦ emitRexRroa 0 srcReg (.addr dstAddr) ++ emitOpcode 0x0F ++
      emitOpcode store ++ emitModrmSib srcReg (.addr dstAddr)
  | _, _ => some []

def encodeMovaps := encodePackedMove frame 0x28 0x29

def encodeMovups := encodePackedMove frame 0x10 0x11

/-- From an SSE register to a general purpose one. The second assertion tests the destination
twice. -/
def encodeMovq (instr : Instruction) : Option (List Action) := do
  let (dst, src) ← dstSrc instr
  match dst.value, src.value with
  | .register dstReg, .register srcReg =>
    if dstReg ≤ R15 ∧ XMM0 ≤ srcReg then
      some (emitOpcode 0x66 ++ emitRexRR 8 (regCode srcReg) (regCode dstReg) ++ emitOpcode 0x0F ++
        emitOpcode 0x7E ++ emitModrmRR (regCode srcReg) (regCode dstReg))
    else none
  | _, _ => none

def encodeSseOp (first opcode : Byte) (instr : Instruction) : Option (List Action) := do
  let (dst, src) ← dstSrc instr
  let dstReg ← reg dst
  let srcRoa ← roa frame src
  some (emitSse first opcode dstReg srcRoa 0)

def encodeXorps (instr : Instruction) : Option (List Action) := do
  let (dst, src) ← dstSrc instr
  let dstReg ← reg dst
  match reg src, addr frame src with
  | some srcReg, _ =>
    some (emitRexRR 0 dstReg srcReg ++ emitOpcode 0x0F ++ emitOpcode 0x57 ++
      emitModrmRR dstReg srcReg)
  | _, some srcAddr =>
    some (emitRexRM 0 dstReg srcAddr ++ emitOpcode 0x0F ++ emitOpcode 0x57 ++
      emitMemDigit srcAddr dstReg)
  | _, _ => some []

def encodeXorpd (instr : Instruction) : Option (List Action) :=
  (encodeXorps frame instr).map (emitOpcode 0x66 ++ ·)

def encodeUcomiss (instr : Instruction) : Option (List Action) := do
  let (dst, src) ← dstSrc instr
  let dstReg ← reg dst
  let srcRoa ← roa frame src
  some (emitRexRroa 4 dstReg srcRoa ++ emitOpcode 0x0F ++ emitOpcode 0x2E ++
    emitModrmSib dstReg srcRoa)

/-- The prefix comes after the `REX` prefix. -/
def encodeUcomisd (instr : Instruction) : Option (List Action) := do
  let (dst, src) ← dstSrc instr
  let dstReg ← reg dst
  let srcRoa ← roa frame src
  some (emitRexRroa 4 dstReg srcRoa ++ emitOpcode 0x66 ++ emitOpcode 0x0F ++ emitOpcode 0x2E ++
    emitModrmSib dstReg srcRoa)

def encodeSseCvt (first opcode : Byte) (size : ℕ) (instr : Instruction) :
    Option (List Action) := do
  let (dst, src) ← dstSrc instr
  let dstReg ← reg dst
  let srcRoa ← roa frame src
  some (emitSse first opcode dstReg srcRoa size)

/-- The other opcodes are not reachable. -/
def encodeInstr (instr : Instruction) : Option (List Action) :=
  match instr.opcode with
  | .MOV => encodeMov frame instr
  | .MOVSX => encodeMovsx frame instr
  | .MOVZX => encodeMovzx frame instr
  | .ADD => encodeAdd frame instr
  | .SUB => encodeSub frame instr
  | .AND => encodeAnd frame instr
  | .OR => encodeOr frame instr
  | .XOR => encodeXor frame instr
  | .SHL => encodeShl frame instr
  | .SHR => encodeShr frame instr
  | .SAR => encodeSar frame instr
  | .CWD => some encodeCwd
  | .CDQ => some encodeCdq
  | .CQO => some encodeCqo
  | .IMUL => encodeImul frame instr
  | .DIV => encodeDiv frame instr
  | .IDIV => encodeIdiv frame instr
  | .JMP => encodeJmp instr
  | .CMP => encodeCmp frame instr
  | .JE => encodeJcc .E instr
  | .JNE => encodeJcc .NE instr
  | .JA => encodeJcc .A instr
  | .JAE => encodeJcc .AE instr
  | .JB => encodeJcc .B instr
  | .JBE => encodeJcc .BE instr
  | .JG => encodeJcc .G instr
  | .JGE => encodeJcc .GE instr
  | .JL => encodeJcc .L instr
  | .JLE => encodeJcc .LE instr
  | .CMOVE => encodeCmovcc frame 0x44 instr
  | .CMOVNE => encodeCmovcc frame 0x45 instr
  | .CMOVA => encodeCmovcc frame 0x47 instr
  | .CMOVAE => encodeCmovcc frame 0x43 instr
  | .CMOVB => encodeCmovcc frame 0x42 instr
  | .CMOVBE => encodeCmovcc frame 0x46 instr
  | .CMOVG => encodeCmovcc frame 0x4F instr
  | .CMOVGE => encodeCmovcc frame 0x4D instr
  | .CMOVL => encodeCmovcc frame 0x4C instr
  | .CMOVLE => encodeCmovcc frame 0x4E instr
  | .LEA => encodeLea frame instr
  | .CALL => encodeCall frame instr
  | .RET => some encodeRet
  | .PUSH => encodePush instr
  | .POP => encodePop instr
  | .MOVSS => encodeMovss frame instr
  | .MOVSD => encodeMovsd frame instr
  | .MOVAPS => encodeMovaps frame instr
  | .MOVUPS => encodeMovups frame instr
  | .MOVQ => encodeMovq instr
  | .ADDSS => encodeSseOp frame 0xF3 0x58 instr
  | .ADDSD => encodeSseOp frame 0xF2 0x58 instr
  | .SUBSS => encodeSseOp frame 0xF3 0x5C instr
  | .SUBSD => encodeSseOp frame 0xF2 0x5C instr
  | .MULSS => encodeSseOp frame 0xF3 0x59 instr
  | .MULSD => encodeSseOp frame 0xF2 0x59 instr
  | .DIVSS => encodeSseOp frame 0xF3 0x5E instr
  | .DIVSD => encodeSseOp frame 0xF2 0x5E instr
  | .XORPS => encodeXorps frame instr
  | .XORPD => encodeXorpd frame instr
  | .MINSS => encodeSseOp frame 0xF3 0x5D instr
  | .MAXSS => encodeSseOp frame 0xF3 0x5F instr
  | .SQRTSS => encodeSseOp frame 0xF3 0x51 instr
  | .UCOMISS => encodeUcomiss frame instr
  | .UCOMISD => encodeUcomisd frame instr
  | .CVTSS2SD => encodeSseCvt frame 0xF3 0x5A 0 instr
  | .CVTSD2SS => encodeSseCvt frame 0xF2 0x5A 0 instr
  | .CVTSI2SS => encodeSseCvt frame 0xF3 0x2A 0 instr
  | .CVTSI2SD => encodeSseCvt frame 0xF2 0x2A 8 instr
  | .CVTSS2SI => encodeSseCvt frame 0xF3 0x2D 0 instr
  | .CVTSD2SI => encodeSseCvt frame 0xF2 0x2D 8 instr
  | .MOVD | .MINSD | .MAXSD | .SQRTSD => none

end Instructions

end Banjo.Target.X8664.Encoder
