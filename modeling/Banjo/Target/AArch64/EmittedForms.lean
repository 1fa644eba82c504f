import Banjo.Target.AArch64.Constants

/-!
# Stack addresses that do not fit

`AArch64StackAddrFixupPass`: the instructions that come out of an instruction with a stack address,
once the offsets of the slots are known. What the encoder is said to hold, `AArch64EncodingInfo`
says; other offsets are added to the stack pointer in the scratch register.
-/

open BitVec

namespace Banjo.Target.AArch64.Encoder

open Codegen (PhysicalReg)

/-! ## Encodable offsets -/

namespace AArch64EncodingInfo

def isAddr8OffsetEncodable (offset : ℤ) : Bool := -256 ≤ offset ∧ offset ≤ 4095

def isAddr16OffsetEncodable (offset : ℤ) : Bool :=
  if -256 ≤ offset ∧ offset ≤ 255 then true
  else 0 ≤ offset ∧ offset ≤ 8190 ∧ offset % 2 = 0

def isAddr32OffsetEncodable (offset : ℤ) : Bool :=
  if -4096 ≤ offset ∧ offset ≤ 4095 then true
  else 0 ≤ offset ∧ offset ≤ 16380 ∧ offset % 4 = 0

def isAddr64OffsetEncodable (offset : ℤ) : Bool :=
  if -256 ≤ offset ∧ offset ≤ 255 then true
  else 0 ≤ offset ∧ offset ≤ 32760 ∧ offset % 8 = 0

/-- `is_addr_offset_encodable`; other sizes are not reached. -/
def isAddrOffsetEncodable (offset : ℤ) : ℕ → Option Bool
  | 1 => some (isAddr8OffsetEncodable offset)
  | 2 => some (isAddr16OffsetEncodable offset)
  | 4 => some (isAddr32OffsetEncodable offset)
  | 8 => some (isAddr64OffsetEncodable offset)
  | _ => none

end AArch64EncodingInfo

/-! ## The pass -/

namespace StackAddrFixupPass

open AArch64EncodingInfo AArch64Immediate

/-- `R28`. -/
def SCRATCH_REGISTER : PhysicalReg := AArch64Register.R0 + 28

def tmp : Operand := ⟨.register SCRATCH_REGISTER, 8⟩

def sp : Operand := ⟨.register AArch64Register.SP, 8⟩

def imm (bits : BitVec 64) : Operand := ⟨.intImmediate ⟨bits, false⟩, 8⟩

/-- `emit_imm_mov`: the instructions that are inserted, for what is in `tmp` afterwards. -/
def emitImmMov (immediate : BitVec 32) : List Instruction :=
  if immediate ≤ 0xFFFF then [⟨.MOVZ, [tmp, imm (immediate.setWidth 64)]⟩]
  else
    let elements := decomposeU32U16 immediate
    [⟨.MOVZ, [tmp, imm ((elements.getD 0 0).setWidth 64)]⟩,
      ⟨.MOVK, [tmp, imm ((elements.getD 1 0).setWidth 64), ⟨.leftShift 16, 8⟩]⟩]

/-- `emit_compute_stack_addr`: the address is in `tmp`. -/
def emitComputeStackAddr (offset : BitVec 32) : List Instruction × Operand :=
  ((if offset < 4096 then [⟨.ADD, [tmp, sp, imm (offset.setWidth 64)]⟩]
    else emitImmMov offset ++ [⟨.ADD, [tmp, sp, tmp]⟩]), ⟨.addr (.BASE SCRATCH_REGISTER), 0⟩)

def processAddSub (frame : Frame) (instr : Instruction) : List Instruction :=
  match instr.operands with
  | [dst, lhs, ⟨.stackOffset slot offset, _⟩] =>
    let totalOffset := frame slot + offset
    if 4096 ≤ totalOffset then
      emitImmMov totalOffset ++ [⟨instr.opcode, [dst, lhs, tmp]⟩]
    else [instr]
  | _ => [instr]

/-- The instruction with an encodable address. -/
def fixAddr (instr : Instruction) (reg : Operand) (rest : List Operand) (offset : BitVec 32)
    (size : ℕ) : Option (List Instruction) := do
  if ← isAddrOffsetEncodable offset.toInt size then return [instr]
  let (instrs, addr) := emitComputeStackAddr offset
  return instrs ++ [⟨instr.opcode, reg :: addr :: rest⟩]

def processLdrStr (frame : Frame) (instr : Instruction) (size : ℕ) : Option (List Instruction) :=
  match instr.operands with
  | reg :: ⟨.stackSlot slot, _⟩ :: rest => fixAddr instr reg rest (frame slot) size
  | reg :: ⟨.addr (.BASE_OFFSET_STACK_ADDR _ slot offset), _⟩ :: rest =>
    fixAddr instr reg rest (frame slot + offset) size
  | _ => some [instr]

/-- One instruction of `run`. -/
def process (frame : Frame) (instr : Instruction) : Option (List Instruction) :=
  match instr.opcode with
  | .ADD | .SUB => some (processAddSub frame instr)
  | .LDR | .STR | .LDP | .STP => do
    processLdrStr frame instr (← instr.operands.head?).size
  | .LDRB | .STRB => processLdrStr frame instr 1
  | .LDRH | .STRH => processLdrStr frame instr 2
  | _ => some [instr]

end StackAddrFixupPass

end Banjo.Target.AArch64.Encoder

/-!
## Words with addresses and immediates

What a processor reads from loads, stores, additions of immediates and branches, as the architecture
has it, and where they go: the address of an access, what its base is afterwards, and where a branch
continues.
-/

namespace Banjo.Target.AArch64

open Encoder (field flag extract_field_self extract_field_apart extract_flag_self
  extract_flag_apart)

/-- What an access does with the sum of its base and offset. -/
inductive Indexing where
  | offset | post | pre
  deriving DecidableEq, Repr

/-- The instructions that are read. -/
inductive AddressInstr where
  | moveWide (instr : Instr)
  | addSubImm (sub sf shifted : Bool) (imm : BitVec 12) (rn rd : BitVec 5)
  | addSubExtended (sub sf : Bool) (rm rn rd : BitVec 5)
  | transfer (load fp : Bool) (size : BitVec 2) (indexing : Indexing) (offset : ℤ)
      (rn rt : BitVec 5)
  | pair (load sf : Bool) (indexing : Indexing) (offset : ℤ) (rt2 rn rt : BitVec 5)
  | branch (link : Bool) (offset : ℤ)
  | branchCond (cond : BitVec 4) (offset : ℤ)
  deriving DecidableEq, Repr

namespace AddressInstr

/-- A bit of a word. -/
def bit (word : BitVec 32) (position : ℕ) : Bool := word.extractLsb' position 1 = 1

/-- Loads and stores of a register, with an offset of twelve or of nine bits. -/
def decodeTransfer (word : BitVec 32) : Option AddressInstr :=
  let size := word.extractLsb' 30 2
  let rn := word.extractLsb' 5 5
  let rt := word.extractLsb' 0 5
  let offset9 := (word.extractLsb' 12 9).toInt
  let transfer indexing (offset : ℤ) :=
    some (.transfer (bit word 22) (bit word 26) size indexing offset rn rt)
  if bit word 23 then none
  else if word.extractLsb' 24 2 = 0b01 then
    transfer .offset ((word.extractLsb' 10 12).toNat * 2 ^ size.toNat)
  else if word.extractLsb' 24 2 = 0b00 ∧ ¬bit word 21 then
    if word.extractLsb' 10 2 = 0b00 then transfer .offset offset9
    else if word.extractLsb' 10 2 = 0b01 then transfer .post offset9
    else if word.extractLsb' 10 2 = 0b11 then transfer .pre offset9
    else none
  else none

/-- Loads and stores of two general registers. -/
def decodePair (word : BitVec 32) : Option AddressInstr :=
  let sf := bit word 31
  let offset := (word.extractLsb' 15 7).toInt * if sf then 8 else 4
  let pair indexing :=
    some (.pair (bit word 22) sf indexing offset (word.extractLsb' 10 5) (word.extractLsb' 5 5)
      (word.extractLsb' 0 5))
  if bit word 30 ∨ bit word 26 then none
  else if word.extractLsb' 23 3 = 0b001 then pair .post
  else if word.extractLsb' 23 3 = 0b011 then pair .pre
  else none

/-- Additions and subtractions of registers that may be the stack pointer. -/
def decodeExtended (word : BitVec 32) : Option AddressInstr :=
  if word.extractLsb' 21 8 = 0b01011001 ∧ ¬bit word 29 ∧ word.extractLsb' 10 6 = 0b011000 then
    some (.addSubExtended (bit word 30) (bit word 31) (word.extractLsb' 16 5)
      (word.extractLsb' 5 5) (word.extractLsb' 0 5))
  else none

def decodeImmediate (word : BitVec 32) : Option AddressInstr :=
  if word.extractLsb' 23 3 = 0b101 then (Instr.decodeMoveWide word).map .moveWide
  else if word.extractLsb' 23 3 = 0b010 ∧ ¬bit word 29 then
    some (.addSubImm (bit word 30) (bit word 31) (bit word 22) (word.extractLsb' 10 12)
      (word.extractLsb' 5 5) (word.extractLsb' 0 5))
  else none

def decodeBranch (word : BitVec 32) : Option AddressInstr :=
  if word.extractLsb' 29 2 = 0b00 then
    some (.branch (bit word 31) ((word.extractLsb' 0 26).toInt * 4))
  else if word.extractLsb' 24 8 = 0x54 ∧ ¬bit word 4 then
    some (.branchCond (word.extractLsb' 0 4) ((word.extractLsb' 5 19).toInt * 4))
  else none

/-- The groups of instructions are told apart by four bits. -/
def decode (word : BitVec 32) : Option AddressInstr :=
  if bit word 27 then
    if bit word 25 then decodeExtended word
    else if word.extractLsb' 28 2 = 0b11 then decodeTransfer word
    else if word.extractLsb' 28 2 = 0b10 then decodePair word
    else none
  else if word.extractLsb' 26 3 = 0b100 then decodeImmediate word
  else if word.extractLsb' 26 3 = 0b101 then decodeBranch word
  else none

/-! ## Reading what is encoded -/

/-- The part of a load or store that says what is loaded or stored. -/
def transferTemplate (load fp : Bool) (size : BitVec 2) : BitVec 32 :=
  0x38000000 ||| flag load 22 ||| flag fp 26 ||| field size 30

section Decode

@[simp] theorem ofBool_eq_one (b : Bool) : decide (BitVec.ofBool b = 1#1) = b := by
  cases b <;> rfl

variable (load fp : Bool) (size : BitVec 2) (rn rt : BitVec 5)

theorem decode_unsigned (imm : BitVec 12) :
    decode (transferTemplate load fp size ||| (0x01000000 ||| field imm 10 ||| field rn 5)
        ||| field rt 0)
      = some (.transfer load fp size .offset (imm.toNat * 2 ^ size.toNat) rn rt) := by
  rw [decode, decodeTransfer, transferTemplate]
  simp (disch := omega) [bit, extractLsb'_or, extract_field_self, extract_field_apart,
    extract_flag_self, extract_flag_apart]

/-- The bits of the modes with an offset of nine bits. -/
def indexingBits : Indexing → BitVec 32
  | .offset => 0
  | .post => 0x00000400
  | .pre => 0x00000C00

theorem decode_unscaled (indexing : Indexing) (imm : BitVec 9) :
    decode (transferTemplate load fp size
        ||| (indexingBits indexing ||| field imm 12 ||| field rn 5) ||| field rt 0)
      = some (.transfer load fp size indexing imm.toInt rn rt) := by
  rw [decode, decodeTransfer, transferTemplate]
  cases indexing <;>
    simp (disch := omega) [bit, indexingBits, extractLsb'_or, extract_field_self,
      extract_field_apart, extract_flag_self, extract_flag_apart]

/-- The indexing that a pair has. -/
def pairBits : Indexing → BitVec 32
  | .offset => 0x29000000
  | .post => 0x28800000
  | .pre => 0x29800000

theorem decode_pair {indexing : Indexing} (h : indexing ≠ .offset) (sf : Bool) (imm : BitVec 7)
    (rt2 : BitVec 5) :
    decode (pairBits indexing ||| flag load 22 ||| flag sf 31 ||| field imm 15 ||| field rt2 10
        ||| field rn 5 ||| field rt 0)
      = some (.pair load sf indexing (imm.toInt * if sf then 8 else 4) rt2 rn rt) := by
  rw [decode, decodePair]
  cases indexing with
  | offset => exact absurd rfl h
  | post =>
    simp (disch := omega) [bit, pairBits, extractLsb'_or, extract_field_self,
      extract_field_apart, extract_flag_self, extract_flag_apart]
  | pre =>
    simp (disch := omega) [bit, pairBits, extractLsb'_or, extract_field_self,
      extract_field_apart, extract_flag_self, extract_flag_apart]

variable (sub sf : Bool) (rd : BitVec 5)

theorem decode_addSubImm (shifted : Bool) (imm : BitVec 12) :
    decode (0x11000000 ||| flag sub 30 ||| flag sf 31 ||| flag shifted 22 ||| field imm 10
        ||| field rn 5 ||| field rd 0) = some (.addSubImm sub sf shifted imm rn rd) := by
  rw [decode, decodeImmediate]
  simp (disch := omega) [bit, extractLsb'_or, extract_field_self, extract_field_apart,
    extract_flag_self, extract_flag_apart]

theorem decode_addSubExtended (rm : BitVec 5) :
    decode (0x0B200000 ||| flag sub 30 ||| flag sf 31 ||| field rm 16 ||| field 0b011#3 13
        ||| field rn 5 ||| field rd 0) = some (.addSubExtended sub sf rm rn rd) := by
  have hoption : field 0b011#3 13 = 0x6000 := rfl
  rw [decode, decodeExtended, hoption]
  simp (disch := omega) [bit, extractLsb'_or, extract_field_self, extract_field_apart,
    extract_flag_self, extract_flag_apart]

theorem decode_branch (link : Bool) (imm : BitVec 26) :
    decode (0x14000000 ||| flag link 31 ||| field imm 0) = some (.branch link (imm.toInt * 4)) := by
  rw [decode, decodeBranch]
  simp (disch := omega) [bit, extractLsb'_or, extract_field_self, extract_field_apart,
    extract_flag_self, extract_flag_apart]

theorem decode_branchCond (cond : BitVec 4) (imm : BitVec 19) :
    decode (0x54000000 ||| field cond 0 ||| field imm 5)
      = some (.branchCond cond (imm.toInt * 4)) := by
  rw [decode, decodeBranch]
  simp (disch := omega) [bit, extractLsb'_or, extract_field_self, extract_field_apart]

theorem decode_moveWide (move : WideMove) {template : BitVec 32} (hw : BitVec 2)
    (htemplate : (move, template) ∈
      [(.MOVN, (0x12800000 : BitVec 32)), (.MOVZ, 0x52800000), (.MOVK, 0x72800000)])
    (imm : BitVec 16) :
    decode (template ||| flag true 31 ||| field hw 21 ||| field imm 5 ||| field rd 0)
      = some (.moveWide (.moveWide move true hw imm rd)) := by
  rw [decode, decodeImmediate, Instr.decodeMoveWide]
  simp only [List.mem_cons, Prod.mk.injEq, List.not_mem_nil, or_false] at htemplate
  obtain ⟨rfl, rfl⟩ | ⟨rfl, rfl⟩ | ⟨rfl, rfl⟩ := htemplate <;>
    simp (disch := omega) [bit, extractLsb'_or, extract_field_self, extract_field_apart,
      extract_flag_self, extract_flag_apart]

end Decode

end AddressInstr

/-! ## Where they go -/

/-- What an instruction asks for: of an access the address, and the base afterwards. -/
inductive Effect where
  | transfer (load fp : Bool) (size : BitVec 2) (rt : BitVec 5) (address : BitVec 64)
      (base : Option (BitVec 5 × BitVec 64))
  | pair (load sf : Bool) (rt rt2 : BitVec 5) (address : BitVec 64)
      (base : Option (BitVec 5 × BitVec 64))
  deriving DecidableEq

namespace Machine

/-- The address of an access, and the base afterwards. -/
def index (m : Machine) (rn : BitVec 5) (offset : BitVec 64) :
    Indexing → BitVec 64 × Option (BitVec 5 × BitVec 64)
  | .offset => (m.readSp rn + offset, none)
  | .post => (m.readSp rn, some (rn, m.readSp rn + offset))
  | .pre => (m.readSp rn + offset, some (rn, m.readSp rn + offset))

/-- Addition or subtraction, of words or of the low halves of them. -/
def addSub (sub sf : Bool) (x y : BitVec 64) : BitVec 64 :=
  let sum := if sub then x - y else x + y
  if sf then sum else (sum.setWidth 32).setWidth 64

def shiftedImm (shifted : Bool) (imm : BitVec 12) : BitVec 64 :=
  imm.setWidth 64 <<< if shifted then 12 else 0

/-- The instructions that compute. -/
def compute (m : Machine) : AddressInstr → Option Machine
  | .moveWide instr => some (m.step instr)
  | .addSubImm sub sf shifted imm rn rd =>
    some { m.writeSp rd (addSub sub sf (m.readSp rn) (shiftedImm shifted imm)) with pc := m.pc + 4 }
  | .addSubExtended sub sf rm rn rd =>
    some { m.writeSp rd (addSub sub sf (m.readSp rn) (if rm = 31 then 0 else m.gp rm)) with
      pc := m.pc + 4 }
  | _ => none

/-- What the instructions that access memory ask for. -/
def effect (m : Machine) : AddressInstr → Option Effect
  | .transfer load fp size indexing offset rn rt =>
    let (address, base) := m.index rn (BitVec.ofInt 64 offset) indexing
    some (.transfer load fp size rt address base)
  | .pair load sf indexing offset rt2 rn rt =>
    let (address, base) := m.index rn (BitVec.ofInt 64 offset) indexing
    some (.pair load sf rt rt2 address base)
  | _ => none

/-- The state after words that compute. -/
def computeAll (m : Machine) : List (BitVec 32) → Option Machine
  | [] => some m
  | word :: words => do (← m.compute (← AddressInstr.decode word)).computeAll words

/-- The state before the last word, which accesses memory, and what it asks for. -/
def accessAfter (m : Machine) : List (BitVec 32) → Option (Machine × Effect)
  | [] => none
  | [word] => do return (m, ← m.effect (← AddressInstr.decode word))
  | word :: words => do (← m.compute (← AddressInstr.decode word)).accessAfter words

end Machine

end Banjo.Target.AArch64

/-!
## Offsets and immediates in AArch64 instructions

The loads, stores, additions and branches that are emitted, what a processor is to do on them, and
when the words they are encoded as make it do so.
-/

namespace Banjo.Target.AArch64.Encoder

open Codegen (PhysicalReg StackSlotID)
open AArch64EncodingInfo StackAddrFixupPass

/-! ## What is emitted -/

abbrev GpReg := {reg : PhysicalReg // reg ≤ AArch64Register.R30}

abbrev FpReg := {reg : PhysicalReg // isFpReg reg = true}

/-- A register that may be the stack pointer. -/
abbrev BaseReg := {reg : PhysicalReg // isGpReg reg = true}

/-- The size of an operand. -/
inductive Size where
  | one | two | four | eight
  deriving DecidableEq, Repr

def Size.bytes : Size → ℕ
  | one => 1
  | two => 2
  | four => 4
  | eight => 8

/-- What an access adds to its base, before it or after it. -/
inductive Update where
  | pre (offset : BitVec 32)
  | post (offset : LargeInt)
  deriving DecidableEq, Repr

inductive Place where
  | stackSlot (slot : StackSlotID)
  | stackAddr (slot : StackSlotID) (imm : BitVec 32)
  | base (reg : BaseReg)
  | offset (reg : BaseReg) (imm : BitVec 32)
  | update (reg : BaseReg) (u : Update)

/-- The register that is loaded or stored, or the low part of it. -/
inductive Access where
  | word (reg : GpReg ⊕ FpReg) (size : Size)
  | half (reg : GpReg) (size : Size)
  | byte (reg : GpReg) (size : Size)

inductive AArch64Condition where
  | EQ | NE | HS | LO | HI | LS | GE | LT | GT | LE
  deriving DecidableEq, Repr

inductive Branch where
  | B
  | B_COND (condition : AArch64Condition)
  | BL (darwin : Bool)
  deriving DecidableEq, Repr

inductive Form where
  | transfer (load : Bool) (access : Access) (place : Place)
  | pair (load : Bool) (reg1 reg2 : GpReg) (size : Size) (base : BaseReg) (u : Update)
  | immediate (sub : Bool) (dst lhs : BaseReg) (size : Size) (value : LargeInt) (shifted : Bool)
  | stackOffset (sub : Bool) (dst : GpReg) (slot : StackSlotID) (offset : BitVec 32)
  | modifySp (sub : Bool) (value : BitVec 32)
  | branch (b : Branch) (place target : BitVec 32)

/-! ## Instructions -/

def Update.addr (base : PhysicalReg) : Update → Value
  | pre offset => .addr (.BASE_OFFSET_IMM_WRITE base offset)
  | post _ => .addr (.BASE base)

/-- The operand behind the address. -/
def Update.rest : Update → List Operand
  | pre _ => []
  | post offset => [⟨.intImmediate offset, 0⟩]

def Place.addr : Place → Value
  | stackSlot slot => .stackSlot slot
  | stackAddr slot imm => .addr (.BASE_OFFSET_STACK_ADDR AArch64Register.SP slot imm)
  | base reg => .addr (.BASE reg)
  | offset reg imm => .addr (.BASE_OFFSET_IMM reg imm)
  | update reg u => u.addr reg

def Place.rest : Place → List Operand
  | update _ u => u.rest
  | _ => []

def Access.operand : Access → Operand
  | word (.inl reg) size => ⟨.register reg, size.bytes⟩
  | word (.inr reg) size => ⟨.register reg, size.bytes⟩
  | half reg size => ⟨.register reg, size.bytes⟩
  | byte reg size => ⟨.register reg, size.bytes⟩

def Access.opcode : Access → Bool → Opcode
  | word _ _, load => if load then .LDR else .STR
  | half _ _, load => if load then .LDRH else .STRH
  | byte _ _, load => if load then .LDRB else .STRB

def addSubOpcode (sub : Bool) : Opcode := if sub then .SUB else .ADD

/-- `modify_sp`. -/
def modifySp (sub : Bool) (value : BitVec 32) : Option (List Instruction) :=
  let immediate (bits : BitVec 32) : Operand := ⟨.intImmediate (ofUnsigned bits), 0⟩
  if value < 4096 then some [⟨addSubOpcode sub, [sp, sp, immediate value]⟩]
  else if value < 4096 * 4096 then
    some [⟨addSubOpcode sub, [sp, sp, immediate (value >>> 12), ⟨.leftShift 12, 0⟩]⟩,
      ⟨addSubOpcode sub, [sp, sp, immediate (value &&& 0xFFF)]⟩]
  else none

/-- What is emitted, but for branches. -/
def Form.instrs : Form → Option (List Instruction)
  | transfer load access place =>
    some [⟨access.opcode load, access.operand :: ⟨place.addr, 0⟩ :: place.rest⟩]
  | pair load reg1 reg2 size base u =>
    some [⟨if load then .LDP else .STP, ⟨.register reg1, size.bytes⟩ :: ⟨.register reg2, size.bytes⟩
      :: ⟨u.addr base, 0⟩ :: u.rest⟩]
  | immediate sub dst lhs size value shifted =>
    some [⟨addSubOpcode sub, [⟨.register dst, size.bytes⟩, ⟨.register lhs, size.bytes⟩,
      ⟨.intImmediate value, size.bytes⟩] ++ if shifted then [⟨.leftShift 12, 0⟩] else []⟩]
  | stackOffset sub dst slot offset =>
    some [⟨addSubOpcode sub, [⟨.register dst, 8⟩, sp, ⟨.stackOffset slot offset, 0⟩]⟩]
  | modifySp sub value => Encoder.modifySp sub value
  | branch _ _ _ => none

/-! ## Words -/

def encodeAll (frame : Frame) (instrs : List Instruction) : Option (List (BitVec 32)) :=
  instrs.mapM fun instr ↦ (encodeInstr frame instr).map Encoded.word

def encodeCond : AArch64Condition → BitVec 4
  | .EQ => 0x0
  | .NE => 0x1
  | .HS => 0x2
  | .LO => 0x3
  | .HI => 0x8
  | .LS => 0x9
  | .GE => 0xA
  | .LT => 0xB
  | .GT => 0xC
  | .LE => 0xD

inductive BranchUse where
  | LABEL_BRANCH | CALL26 | BRANCH26
  deriving DecidableEq, Repr

/-- The word of a branch before it is resolved, and what it is a use of. -/
def Branch.encode : Branch → BitVec 32 × BranchUse
  | B => (0x14000000, .LABEL_BRANCH)
  | B_COND condition => (0x54000000 ||| field (encodeCond condition) 0, .LABEL_BRANCH)
  | BL darwin => (0x94000000, if darwin then .BRANCH26 else .CALL26)

/-- `resolve_symbol`, of a label or a function of the text. -/
def resolveSymbol (template displacement : BitVec 32) (kind : BranchUse) : Option (BitVec 32) :=
  match kind with
  | .LABEL_BRANCH => do
    let firstByte := template.extractLsb' 24 8
    if firstByte = 0x14 then
      return template ||| field (← encodeImm (ofUnsigned displacement) 26 2) 0
    else if firstByte = 0x54 then
      return template ||| field (← encodeImm (ofUnsigned displacement) 19 2) 5
    else none
  | .CALL26 | .BRANCH26 => do
    return template ||| field (← encodeImm (ofUnsigned displacement) 26 2) 0

/-- The words of what comes out of the pass. -/
def Form.code (frame : Frame) : Form → Option (List (BitVec 32))
  | branch b place target => do
    let (template, kind) := b.encode
    return [← resolveSymbol template (target - place) kind]
  | form => do
    let fixed ← (← form.instrs).mapM (process frame)
    encodeAll frame fixed.flatten

/-! ## What is intended -/

/-- The register as words name it; the stack pointer has the last number. -/
def BaseReg.number (reg : BaseReg) : BitVec 5 :=
  if reg.1 = AArch64Register.SP then 31 else BitVec.ofNat 5 reg.1

def GpReg.number (reg : GpReg) : BitVec 5 := BitVec.ofNat 5 reg.1

def scratch : BitVec 5 := BitVec.ofNat 5 SCRATCH_REGISTER

def Update.indexing : Update → Indexing
  | pre _ => .pre
  | post _ => .post

def Update.offset : Update → BitVec 64
  | pre offset => offset.signExtend 64
  | post offset => offset.toBits

/-- The offset of a place in the stack. -/
def displacement (frame : Frame) (slot : StackSlotID) (offset : BitVec 32) : ℤ :=
  (frame slot).toInt + offset.toInt

/-- The address of a place, and the base afterwards. -/
def Place.index (frame : Frame) (m : Machine) :
    Place → BitVec 64 × Option (BitVec 5 × BitVec 64)
  | stackSlot slot => (m.sp + BitVec.ofInt 64 (frame slot).toInt, none)
  | stackAddr slot imm => (m.sp + BitVec.ofInt 64 (displacement frame slot imm), none)
  | base reg => (m.readSp reg.number, none)
  | offset reg imm => (m.readSp reg.number + imm.signExtend 64, none)
  | update reg u => m.index reg.number u.offset u.indexing

def Access.fp : Access → Bool
  | word (.inr _) _ => true
  | _ => false

def Access.rt : Access → BitVec 5
  | word (.inl reg) _ => reg.number
  | word (.inr reg) _ => BitVec.ofNat 5 (reg.1 - AArch64Register.V0)
  | half reg _ => reg.number
  | byte reg _ => reg.number

/-- The logarithm of the size of an access. -/
def Access.log : Access → ℕ
  | word _ size => if size.bytes = 8 then 3 else 2
  | half _ _ => 1
  | byte _ _ => 0

/-- Only the scratch register has changed. -/
structure Keeps (m m' : Machine) : Prop where
  sp : m'.sp = m.sp
  fp : m'.fp = m.fp
  memory : m'.memory = m.memory
  gp : ∀ reg ≠ scratch, m'.gp reg = m.gp reg

/-- The words make a processor do what is intended: accesses go to their place, immediates are the
given numbers, sums are those of the offsets, and branches continue at their target. -/
def Form.Decodes (frame : Frame) : Form → Prop
  | transfer load access place => ∀ m : Machine, ∃ words m',
    (transfer load access place).code frame = some words ∧
      m.accessAfter words = some (m', .transfer load access.fp (BitVec.ofNat 2 access.log) access.rt
        (place.index frame m).1 (place.index frame m).2) ∧ Keeps m m'
  | pair load reg1 reg2 size base u => ∀ m : Machine, ∃ words,
    (pair load reg1 reg2 size base u).code frame = some words ∧
      m.accessAfter words = some (m, .pair load (size = .eight) reg1.number reg2.number
        (m.index base.number u.offset u.indexing).1 (m.index base.number u.offset u.indexing).2)
  | immediate sub dst lhs size value shifted => ∃ word imm,
    (immediate sub dst lhs size value shifted).code frame = some [word] ∧
      AddressInstr.decode word
        = some (.addSubImm sub (size = .eight) shifted imm lhs.number dst.number) ∧
      (imm.toNat : ℤ) = value.value
  | stackOffset sub dst slot offset => ∀ m : Machine, ∃ words m',
    (stackOffset sub dst slot offset).code frame = some words ∧ m.computeAll words = some m' ∧
      m'.gp dst.number
        = Machine.addSub sub true m.sp (BitVec.ofInt 64 (displacement frame slot offset)) ∧
      m'.sp = m.sp ∧ ∀ reg ≠ dst.number, reg ≠ scratch → m'.gp reg = m.gp reg
  | modifySp sub value => ∀ m : Machine, ∃ words m',
    (modifySp sub value).code frame = some words ∧ m.computeAll words = some m' ∧
      m'.sp = Machine.addSub sub true m.sp (value.setWidth 64) ∧ m'.gp = m.gp
  | branch b place target => ∃ word offset,
    (branch b place target).code frame = some [word] ∧
      AddressInstr.decode word = some (match b with
        | .B => .branch false offset
        | .B_COND condition => .branchCond (encodeCond condition) offset
        | .BL _ => .branch true offset) ∧ offset = (target.toNat : ℤ) - place.toNat

/-! ## When it fits -/

/-- A load or store holds the offset: scaled in twelve bits, or signed in nine. -/
def Encodable (log : ℕ) (offset : ℤ) : Prop :=
  (0 ≤ offset ∧ 2 ^ log ∣ offset ∧ offset < 4096 * 2 ^ log) ∨ (-256 ≤ offset ∧ offset ≤ 255)

/-- The size the pass looks offsets up with. -/
def Access.passSize : Access → ℕ
  | word _ size => size.bytes
  | half _ _ => 2
  | byte _ _ => 1

/-- What is not said to be encodable is added as a number without sign. -/
def Place.Fits (frame : Frame) (log size : ℕ) : Place → Prop
  | stackSlot slot =>
    if isAddrOffsetEncodable (frame slot).toInt size = some true then
      Encodable log (frame slot).toInt
    else 0 ≤ (frame slot).toInt
  | stackAddr slot imm =>
    if isAddrOffsetEncodable (frame slot + imm).toInt size = some true then
      Encodable log (displacement frame slot imm) ∧
        (displacement frame slot imm < 0 → ¬2 ^ log ∣ displacement frame slot imm)
    else 0 ≤ displacement frame slot imm
  | base _ => True
  | offset _ imm => Encodable log imm.toInt
  | update _ u => -256 ≤ u.offset.toInt ∧ u.offset.toInt ≤ 255

/-- How far a branch reaches. -/
def Branch.bits : Branch → ℕ
  | B => 26
  | B_COND _ => 19
  | BL _ => 26

def Form.Fits (frame : Frame) : Form → Prop
  | transfer _ access place => place.Fits frame access.log access.passSize
  | pair _ _ _ size _ u =>
    let scale : ℤ := if size = .eight then 8 else 4
    scale ∣ u.offset.toInt ∧ -64 * scale ≤ u.offset.toInt ∧ u.offset.toInt < 64 * scale
  | immediate _ _ _ _ value _ => 0 ≤ value.value ∧ value.value < 4096
  | stackOffset _ _ slot imm => 0 ≤ displacement frame slot imm
  | modifySp _ value => value < 4096 * 4096
  | branch b place target =>
    let offset : ℤ := (target.toNat : ℤ) - place.toNat
    4 ∣ offset ∧ -2 ^ (b.bits + 1) ≤ offset ∧ offset < 2 ^ (b.bits + 1)

end Banjo.Target.AArch64.Encoder
