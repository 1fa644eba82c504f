import Banjo.Lib.Binary64
import Banjo.Target.AArch64.AAPCSCallingConv
import Banjo.Target.AArch64.RegAnalyzer

/-!
# Encoding AArch64 instructions

`AArch64Encoder`: the word an instruction is encoded as, and the symbol the word uses. Modelled are
the instructions that move constants, and those with addresses and immediates. What an assertion of
the source stops is `none`.
-/

namespace Banjo.Target.AArch64.Encoder

open Codegen (PhysicalReg StackSlotID)

/-! ## Operands -/

/-- The relocations the lowerer names. -/
inductive Relocation where
  | ADR_PREL_PG_HI21 | ADD_ABS_LO12_NC | PAGE21 | PAGEOFF12
  | ADR_GOT_PAGE | LD64_GOT_LO12_NC | GOT_LOAD_PAGE21 | GOT_LOAD_PAGEOFF12
  deriving DecidableEq, Repr

/-- A symbol is its number. -/
structure Symbol where
  index : ℕ
  reloc : Relocation
  deriving DecidableEq, Repr

/-- `AArch64Address`, after the registers are allocated. -/
inductive MachineAddress where
  | BASE (base : PhysicalReg)
  | BASE_OFFSET_IMM (base : PhysicalReg) (offset : BitVec 32)
  | BASE_OFFSET_IMM_WRITE (base : PhysicalReg) (offset : BitVec 32)
  | BASE_OFFSET_STACK_ADDR (base : PhysicalReg) (slot : StackSlotID) (offset : BitVec 32)
  | BASE_OFFSET_REG (base : PhysicalReg) (reg : PhysicalReg) (shift : ℕ)
  | BASE_OFFSET_SYMBOL (base : PhysicalReg) (symbol : Symbol)
  deriving DecidableEq, Repr

inductive Value where
  | register (reg : PhysicalReg)
  | intImmediate (value : LargeInt)
  /-- The bits of a `double`. -/
  | fpImmediate (value : BitVec 64)
  | leftShift (amount : ℕ)
  | symbol (symbol : Symbol)
  | addr (addr : MachineAddress)
  | stackSlot (slot : StackSlotID)
  | stackOffset (slot : StackSlotID) (offset : BitVec 32)
  deriving DecidableEq, Repr

structure Operand where
  value : Value
  size : ℕ := 0
  deriving DecidableEq, Repr

structure Instruction where
  opcode : Opcode
  operands : List Operand
  deriving DecidableEq, Repr

def Operand.getPhysicalReg (operand : Operand) : Option PhysicalReg :=
  match operand.value with
  | .register reg => some reg
  | _ => none

def Operand.getIntImmediate (operand : Operand) : Option LargeInt :=
  match operand.value with
  | .intImmediate value => some value
  | _ => none

def Operand.getLeftShift (operand : Operand) : Option ℕ :=
  match operand.value with
  | .leftShift amount => some amount
  | _ => none

/-- The offsets of the stack slots. -/
abbrev Frame := StackSlotID → BitVec 32

/-! ## Fields -/

/-- What an instruction adds to the text section. -/
structure Encoded where
  word : BitVec 32
  use : Option Symbol := none
  deriving DecidableEq, Repr

/-- A field of a word. -/
def field {n : ℕ} (value : BitVec n) (position : ℕ) : BitVec 32 := value.setWidth 32 <<< position

def flag (value : Bool) (position : ℕ) : BitVec 32 := field (BitVec.ofBool value) position

def isGpReg (reg : PhysicalReg) : Bool := reg ≤ AArch64Register.R30 ∨ reg = AArch64Register.SP

def isFpReg (reg : PhysicalReg) : Bool := AArch64Register.V0 ≤ reg ∧ reg < AArch64Register.SP

def encodeGpReg (reg : PhysicalReg) : Option (BitVec 5) :=
  if reg ≤ AArch64Register.R30 then some (BitVec.ofNat 5 reg)
  else if reg = AArch64Register.SP then some 31
  else none

def encodeFpReg (reg : PhysicalReg) : Option (BitVec 5) :=
  if isFpReg reg then some (BitVec.ofNat 5 (reg - AArch64Register.V0)) else none

/-- `encode_imm`: the mask keeps `numBits` bits. -/
def encodeImm (imm : LargeInt) (numBits shift : ℕ) : Option (BitVec numBits) :=
  if imm.toBits.setWidth shift = 0 then some ((imm.toBits >>> shift).setWidth numBits) else none

/-- `encode_f32_imm`, of the bits of a `float`. -/
def encodeF32Imm (bits : BitVec 32) : Option (BitVec 8) :=
  let b := bits.extractLsb' 25 6
  if bits.setWidth 19 = 0 ∧ (b = 0b100000 ∨ b = 0b011111) then
    some (bits.extractLsb' 31 1 ++ bits.extractLsb' 19 7)
  else none

/-- `encode_f64_imm`, of the bits of a `double`. -/
def encodeF64Imm (bits : BitVec 64) : Option (BitVec 8) :=
  let b := bits.extractLsb' 54 9
  if bits.setWidth 48 = 0 ∧ (b = 0b100000000 ∨ b = 0b011111111) then
    some (bits.extractLsb' 63 1 ++ bits.extractLsb' 48 7)
  else none

/-! ## Addresses -/

/-- An address with its addressing mode. -/
inductive Address where
  | OFFSET_CONST (base : PhysicalReg) (offset : LargeInt)
  | OFFSET_REG (base : PhysicalReg) (reg : PhysicalReg) (shift : ℕ)
  | OFFSET_SYMBOL (base : PhysicalReg) (symbol : Symbol)
  | POST_INDEX (base : PhysicalReg) (offset : LargeInt)
  | PRE_INDEX (base : PhysicalReg) (offset : LargeInt)
  deriving DecidableEq, Repr

/-- The number an `int` is. -/
def ofInt (value : BitVec 32) : LargeInt := .ofSigned (value.signExtend 64)

/-- The number an `unsigned` is. -/
def ofUnsigned (value : BitVec 32) : LargeInt := ⟨value.setWidth 64, false⟩

/-- `lower_addr`; `postOperand` is what is added to the base afterwards. -/
def lowerAddr (frame : Frame) (operand : Operand) (postOperand : Option Operand) :
    Option Address :=
  match operand.value, postOperand with
  | .stackSlot slot, _ => some (.OFFSET_CONST AArch64Register.SP (ofInt (frame slot)))
  | .addr (.BASE base), some post => post.getIntImmediate.map (.POST_INDEX base)
  | .addr (.BASE base), none => some (.OFFSET_CONST base 0)
  | .addr (.BASE_OFFSET_IMM base offset), none => some (.OFFSET_CONST base (ofInt offset))
  | .addr (.BASE_OFFSET_IMM_WRITE base offset), none => some (.PRE_INDEX base (ofInt offset))
  | .addr (.BASE_OFFSET_STACK_ADDR base slot offset), none =>
    some (.OFFSET_CONST base (ofUnsigned (frame slot + offset)))
  | .addr (.BASE_OFFSET_REG base reg shift), _ => some (.OFFSET_REG base reg shift)
  | .addr (.BASE_OFFSET_SYMBOL base symbol), _ => some (.OFFSET_SYMBOL base symbol)
  | _, _ => none

/-- The offset is not negative and a multiple of the accessed size. -/
def isScaled (offset : LargeInt) (immShift : ℕ) : Bool :=
  !offset.lt 0 ∧ (offset.and ⟨(1 <<< immShift) - 1, false⟩).toBits = 0

def encodeAddr (addr : Address) (immShift : ℕ) : Option Encoded :=
  match addr with
  | .OFFSET_CONST base offset => do
    let rBase ← encodeGpReg base
    if isScaled offset immShift then
      let imm ← encodeImm offset 12 immShift
      return ⟨0x01000000 ||| field imm 10 ||| field rBase 5, none⟩
    else
      let imm ← encodeImm offset 9 0
      return ⟨field imm 12 ||| field rBase 5, none⟩
  | .OFFSET_REG base reg shift => do
    let rBase ← encodeGpReg base
    let rOff ← encodeGpReg reg
    return ⟨0x206800 ||| field rOff 16 ||| flag (shift ≠ 0) 12 ||| field rBase 5, none⟩
  | .OFFSET_SYMBOL base symbol => do
    let rBase ← encodeGpReg base
    return ⟨0x01000000 ||| field rBase 5, some symbol⟩
  | .POST_INDEX base offset => do
    let rBase ← encodeGpReg base
    let imm ← encodeImm offset 9 0
    return ⟨0x00000400 ||| field imm 12 ||| field rBase 5, none⟩
  | .PRE_INDEX base offset => do
    let rBase ← encodeGpReg base
    let imm ← encodeImm offset 9 0
    return ⟨0x00000C00 ||| field imm 12 ||| field rBase 5, none⟩

/-! ## Instructions -/

/-- The shift `encode_mov` takes for a number. -/
def movShift (bits : BitVec 64) : ℕ :=
  if 1 <<< 48 ≤ bits then 48
  else if 1 <<< 32 ≤ bits then 32
  else if 1 <<< 16 ≤ bits then 16
  else 0

def encodeMov : List Operand → Option Encoded
  | dst :: src :: _ => do
    let sf := decide (dst.size = 8)
    let rDst ← dst.getPhysicalReg.bind encodeGpReg
    match src.value with
    | .register reg =>
      let rSrc ← encodeGpReg reg
      return ⟨0x2A0003E0 ||| flag sf 31 ||| field rSrc 16 ||| field rDst 0, none⟩
    | .intImmediate value =>
      let bits := value.toBits
      let useMovn := bits.setWidth (movShift bits) ≠ 0
      let template : BitVec 32 := if useMovn then 0x12800000 else 0x52800000
      let shift := if useMovn then 0 else movShift bits
      let imm ← encodeImm ⟨if useMovn then ~~~bits else bits, false⟩ 16 shift
      let hw ← encodeImm ⟨BitVec.ofNat 64 shift, false⟩ 2 4
      return ⟨template ||| flag sf 31 ||| field hw 21 ||| field imm 5 ||| field rDst 0, none⟩
    | _ => none
  | _ => none

def encodeMovzFamily (template : BitVec 32) : List Operand → Option Encoded
  | dst :: src :: rest => do
    let sf := decide (dst.size = 8)
    let rDst ← dst.getPhysicalReg.bind encodeGpReg
    let shift ← (rest.head?.map Operand.getLeftShift).getD (some 0)
    let imm ← encodeImm (← src.getIntImmediate) 16 0
    let hw ← encodeImm ⟨BitVec.ofNat 64 shift, false⟩ 2 4
    return ⟨template ||| flag sf 31 ||| field hw 21 ||| field imm 5 ||| field rDst 0, none⟩
  | _ => none

def encodeLdrFamily (frame : Frame) (gpTemplate fpTemplate : BitVec 32) :
    List Operand → Option Encoded
  | reg :: addr :: rest => do
    let address ← lowerAddr frame addr rest.head?
    let wide := decide (reg.size = 8)
    let encoded ← encodeAddr address (if wide then 3 else 2)
    let physical ← reg.getPhysicalReg
    if isGpReg physical then
      let rReg ← encodeGpReg physical
      return ⟨gpTemplate ||| flag wide 30 ||| encoded.word ||| field rReg 0, encoded.use⟩
    else
      let rReg ← encodeFpReg physical
      return ⟨fpTemplate ||| flag wide 30 ||| encoded.word ||| field rReg 0, encoded.use⟩
  | _ => none

def encodeLdrbFamily (frame : Frame) (immShift : ℕ) (template : BitVec 32) :
    List Operand → Option Encoded
  | reg :: addr :: rest => do
    let rReg ← reg.getPhysicalReg.bind encodeGpReg
    let address ← lowerAddr frame addr rest.head?
    let encoded ← encodeAddr address immShift
    return ⟨template ||| encoded.word ||| field rReg 0, encoded.use⟩
  | _ => none

def encodeLdpFamily (frame : Frame) (postTemplate preTemplate : BitVec 32) :
    List Operand → Option Encoded
  | reg1 :: reg2 :: dst :: rest => do
    let sf := decide (reg1.size = 8)
    let immShift := if sf then 3 else 2
    let rReg1 ← reg1.getPhysicalReg.bind encodeGpReg
    let rReg2 ← reg2.getPhysicalReg.bind encodeGpReg
    match ← lowerAddr frame dst rest.head? with
    | .POST_INDEX base offset =>
      let rBase ← encodeGpReg base
      let imm ← encodeImm offset 7 immShift
      return ⟨postTemplate ||| flag sf 31 ||| field imm 15 ||| field rReg2 10 ||| field rBase 5
        ||| field rReg1 0, none⟩
    | .PRE_INDEX base offset =>
      let rBase ← encodeGpReg base
      let imm ← encodeImm offset 7 immShift
      return ⟨preTemplate ||| flag sf 31 ||| field imm 15 ||| field rReg2 10 ||| field rBase 5
        ||| field rReg1 0, none⟩
    | _ => none
  | _ => none

def encodeAddFamily (frame : Frame) (extendedTemplate shiftedTemplate immTemplate : BitVec 32) :
    List Operand → Option Encoded
  | dst :: lhs :: rhs :: rest => do
    let sf := decide (dst.size = 8)
    let dstReg ← dst.getPhysicalReg
    let lhsReg ← lhs.getPhysicalReg
    let rDst ← encodeGpReg dstReg
    let rLhs ← encodeGpReg lhsReg
    match rhs.value with
    | .register reg =>
      let rRhs ← encodeGpReg reg
      if dstReg = AArch64Register.SP ∨ lhsReg = AArch64Register.SP then
        return ⟨extendedTemplate ||| flag sf 31 ||| field rRhs 16 ||| field 0b011#3 13
          ||| field rLhs 5 ||| field rDst 0, none⟩
      else
        let amount ← (rest.head?.map Operand.getLeftShift).getD (some 0)
        let shift ← encodeImm ⟨BitVec.ofNat 64 amount, false⟩ 6 0
        return ⟨shiftedTemplate ||| flag sf 31 ||| field rRhs 16 ||| field shift 10
          ||| field rLhs 5 ||| field rDst 0, none⟩
    | .intImmediate value =>
      let amount ← (rest.head?.map Operand.getLeftShift).getD (some 0)
      if amount = 0 ∨ amount = 12 then
        let imm ← encodeImm value 12 0
        return ⟨immTemplate ||| flag sf 31 ||| flag (amount = 12) 22 ||| field imm 10
          ||| field rLhs 5 ||| field rDst 0, none⟩
      else none
    | .symbol symbol =>
      if sf then
        return ⟨immTemplate ||| flag true 31 ||| field rLhs 5 ||| field rDst 0, some symbol⟩
      else none
    | .stackOffset slot offset =>
      let imm ← encodeImm (ofUnsigned (frame slot + offset)) 12 0
      return ⟨immTemplate ||| flag sf 31 ||| field imm 10 ||| field rLhs 5 ||| field rDst 0, none⟩
    | _ => none
  | _ => none

/-- `encode_fmov`; the argument of `encode_f32_imm` is converted to a `float`. -/
def encodeFmov : List Operand → Option Encoded
  | [dst, src] => do
    let dstReg ← dst.getPhysicalReg
    match src.value with
    | .register srcReg =>
      if isFpReg srcReg ∧ isFpReg dstReg then
        let rDst ← encodeFpReg dstReg
        let rSrc ← encodeFpReg srcReg
        return ⟨0x1E204000 ||| flag (dst.size = 8) 22 ||| field rSrc 5 ||| field rDst 0, none⟩
      else if isFpReg srcReg then
        let rDst ← encodeGpReg dstReg
        let rSrc ← encodeFpReg srcReg
        return ⟨0x1E260000 ||| flag (dst.size = 8) 31 ||| flag (src.size = 8) 22 ||| field rSrc 5
          ||| field rDst 0, none⟩
      else if isFpReg dstReg then
        let rDst ← encodeFpReg dstReg
        let rSrc ← encodeGpReg srcReg
        return ⟨0x1E260000 ||| flag (src.size = 8) 31 ||| flag (src.size = 8) 22 ||| flag true 16
          ||| field rSrc 5 ||| field rDst 0, none⟩
      else none
    | .fpImmediate value =>
      let rDst ← encodeFpReg dstReg
      let imm ← if dst.size = 8 then encodeF64Imm value else encodeF32Imm (Binary64.narrow value)
      return ⟨0x1E201000 ||| flag (dst.size = 8) 22 ||| field imm 13 ||| field rDst 0, none⟩
    | _ => none
  | _ => none

def encodeAdrp : List Operand → Option Encoded
  | dst :: src :: _ => do
    let rDst ← dst.getPhysicalReg.bind encodeGpReg
    match src.value with
    | .symbol symbol => return ⟨0x90000000 ||| field rDst 0, some symbol⟩
    | _ => none
  | _ => none

/-- `encode_instr`, of the modelled instructions. -/
def encodeInstr (frame : Frame) (instr : Instruction) : Option Encoded :=
  match instr.opcode with
  | .MOV => encodeMov instr.operands
  | .MOVZ => encodeMovzFamily 0x52800000 instr.operands
  | .MOVK => encodeMovzFamily 0x72800000 instr.operands
  | .LDR => encodeLdrFamily frame 0xB8400000 0xBC400000 instr.operands
  | .LDRB => encodeLdrbFamily frame 0 0x38400000 instr.operands
  | .LDRH => encodeLdrbFamily frame 1 0x78400000 instr.operands
  | .STR => encodeLdrFamily frame 0xB8000000 0xBC000000 instr.operands
  | .STRB => encodeLdrbFamily frame 0 0x38000000 instr.operands
  | .STRH => encodeLdrbFamily frame 1 0x78000000 instr.operands
  | .LDP => encodeLdpFamily frame 0x28C00000 0x29C00000 instr.operands
  | .STP => encodeLdpFamily frame 0x28800000 0x29800000 instr.operands
  | .ADD => encodeAddFamily frame 0x0B200000 0x0B000000 0x11000000 instr.operands
  | .SUB => encodeAddFamily frame 0x4B200000 0x4B000000 0x51000000 instr.operands
  | .FMOV => encodeFmov instr.operands
  | .ADRP => encodeAdrp instr.operands
  | _ => none

end Banjo.Target.AArch64.Encoder
