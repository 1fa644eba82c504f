import Banjo.Lib.NarrowBits
import Banjo.Lib.Memory
import Banjo.Target.AArch64.Encoder

/-!
# Words as instructions of an AArch64 processor

What a processor reads from the words that constants are moved with, and what it does on reading
them, as the architecture has it. A register is one of thirty-one; the number after the last one is
the zero register or the stack pointer.
-/

open BitVec

namespace Banjo.Target.AArch64

open Encoder (field flag)

namespace Encoder

variable {n : ℕ}

variable {position : ℕ}

theorem extract_field_self (h : position + n ≤ 32) (value : BitVec n) :
    (field value position).extractLsb' position n = value := by
  apply eq_of_getLsbD_eq
  intro i hi
  rw [getLsbD_extractLsb', field, getLsbD_shiftLeft, getLsbD_setWidth]
  simp [hi, show position + i < 32 by omega, show i < 32 by omega]

variable {m other : ℕ}

/-- A field is zero at other places. -/
theorem extract_field_apart (h : position + n ≤ other ∨ other + m ≤ position) (value : BitVec n) :
    (field value position).extractLsb' other m = 0 := by
  apply eq_of_getLsbD_eq
  intro i hi
  rw [getLsbD_extractLsb', field, getLsbD_shiftLeft, getLsbD_setWidth]
  rcases h with h | h
  · simp [getLsbD_of_ge value (other + i - position) (by omega)]
  · simp [show other + i < position by omega]

theorem extract_flag_self (h : position < 32) (value : Bool) :
    (flag value position).extractLsb' position 1 = ofBool value :=
  extract_field_self h _

theorem extract_flag_apart (h : position + 1 ≤ other ∨ other + m ≤ position) (value : Bool) :
    (flag value position).extractLsb' other m = 0 :=
  extract_field_apart h _

theorem flag_true (position : ℕ) : flag true position = 1#32 <<< position := rfl

theorem flag_false (position : ℕ) : flag false position = 0#32 := zero_shiftLeft _

end Encoder

/-- The ways a halfword is moved to a register. -/
inductive WideMove where
  | MOVN | MOVZ | MOVK
  deriving DecidableEq, Repr

/-- The instructions that are read. -/
inductive Instr where
  | moveWide (move : WideMove) (sf : Bool) (hw : BitVec 2) (imm : BitVec 16) (rd : BitVec 5)
  | fmovImm (ftype : Bool) (imm : BitVec 8) (rd : BitVec 5)
  | fmovGp (sf : Bool) (rn rd : BitVec 5)
  | adrp (imm : BitVec 21) (rd : BitVec 5)
  | addImm (imm : BitVec 12) (rn rd : BitVec 5)
  | ldrFp (imm : BitVec 12) (rn rt : BitVec 5)
  deriving DecidableEq, Repr

namespace Instr

/-- The move of a halfword; a word register has two of them. -/
def decodeMoveWide (word : BitVec 32) : Option Instr :=
  let sf := word.extractLsb' 31 1 = 1
  let hw := word.extractLsb' 21 2
  let imm := word.extractLsb' 5 16
  let rd := word.extractLsb' 0 5
  if ¬sf ∧ 2 ≤ hw then none
  else if word.extractLsb' 29 2 = 0b00 then some (.moveWide .MOVN sf hw imm rd)
  else if word.extractLsb' 29 2 = 0b10 then some (.moveWide .MOVZ sf hw imm rd)
  else if word.extractLsb' 29 2 = 0b11 then some (.moveWide .MOVK sf hw imm rd)
  else none

/-- The floating-point moves of an immediate and of a general register. -/
def decodeFmov (word : BitVec 32) : Option Instr :=
  let ftype := word.extractLsb' 22 2
  let rn := word.extractLsb' 5 5
  let rd := word.extractLsb' 0 5
  if word.extractLsb' 21 1 = 0 then none
  else if word.extractLsb' 10 3 = 0b100 ∧ word.extractLsb' 29 3 = 0b000 ∧ rn = 0 then
    if ftype = 0b00 then some (.fmovImm false (word.extractLsb' 13 8) rd)
    else if ftype = 0b01 then some (.fmovImm true (word.extractLsb' 13 8) rd)
    else none
  else if word.extractLsb' 10 6 = 0b000000 ∧ word.extractLsb' 16 5 = 0b00111 then
    if word.extractLsb' 29 3 = 0b000 ∧ ftype = 0b00 then some (.fmovGp false rn rd)
    else if word.extractLsb' 29 3 = 0b100 ∧ ftype = 0b01 then some (.fmovGp true rn rd)
    else none
  else none

def decode (word : BitVec 32) : Option Instr :=
  let op := word.extractLsb' 24 5
  let rn := word.extractLsb' 5 5
  let rd := word.extractLsb' 0 5
  if op = 0b10010 ∧ word.extractLsb' 23 1 = 1 then decodeMoveWide word
  else if op = 0b11110 then decodeFmov word
  else if op = 0b10000 ∧ word.extractLsb' 31 1 = 1 then
    some (.adrp (word.extractLsb' 5 19 ++ word.extractLsb' 29 2) rd)
  else if op = 0b10001 ∧ word.extractLsb' 29 3 = 0b100 ∧ word.extractLsb' 22 2 = 0b00 then
    some (.addImm (word.extractLsb' 10 12) rn rd)
  else if op = 0b11101 ∧ word.extractLsb' 29 3 = 0b111 ∧ word.extractLsb' 22 2 = 0b01 then
    some (.ldrFp (word.extractLsb' 10 12) rn rd)
  else none

/-! ## Reading what is encoded -/

open Encoder

/-- What is encoded as the move of a halfword is read as such. -/
theorem decode_moveWide (move : WideMove) {template : BitVec 32} {sf : Bool} {hw : BitVec 2}
    (htemplate : (move, template) ∈
      [(.MOVN, (0x12800000 : BitVec 32)), (.MOVZ, 0x52800000), (.MOVK, 0x72800000)])
    (hhw : sf = false → hw < 2) (imm : BitVec 16) (rd : BitVec 5) :
    decode (template ||| flag sf 31 ||| field hw 21 ||| field imm 5 ||| field rd 0)
      = some (.moveWide move sf hw imm rd) := by
  have hfields (template : BitVec 32) :
      let word := template ||| flag sf 31 ||| field hw 21 ||| field imm 5 ||| field rd 0
      word.extractLsb' 24 5 = template.extractLsb' 24 5 ∧
      word.extractLsb' 23 1 = template.extractLsb' 23 1 ∧
      word.extractLsb' 29 2 = template.extractLsb' 29 2 ∧
      word.extractLsb' 31 1 = template.extractLsb' 31 1 ||| ofBool sf ∧
      word.extractLsb' 21 2 = template.extractLsb' 21 2 ||| hw ∧
      word.extractLsb' 5 16 = template.extractLsb' 5 16 ||| imm ∧
      word.extractLsb' 0 5 = template.extractLsb' 0 5 ||| rd := by
    simp (disch := omega) [extractLsb'_or, extract_field_self, extract_field_apart,
      extract_flag_self, extract_flag_apart]
  obtain ⟨hop, hbit, hopc, hsf, hhwf, himm, hrd⟩ := hfields template
  have hofBool : (ofBool sf = 1#1) = (sf = true) := by
    cases sf <;> simp
  rw [decode, decodeMoveWide]
  simp only [List.mem_cons, Prod.mk.injEq, List.not_mem_nil, or_false] at htemplate
  obtain ⟨rfl, rfl⟩ | ⟨rfl, rfl⟩ | ⟨rfl, rfl⟩ := htemplate <;>
    (simp only [hop, hbit, hopc, hsf, hhwf, himm, hrd]
     simpa [hofBool] using hhw)

theorem decode_fmovImm (ftype : Bool) (imm : BitVec 8) (rd : BitVec 5) :
    decode (0x1E201000 ||| flag ftype 22 ||| field imm 13 ||| field rd 0)
      = some (.fmovImm ftype imm rd) := by
  rw [decode, decodeFmov]
  cases ftype <;>
    simp (disch := omega) [extractLsb'_or, extract_field_self, extract_field_apart, flag_true,
      flag_false]

theorem decode_fmovGp (sf : Bool) (rn rd : BitVec 5) :
    decode (0x1E260000 ||| flag sf 31 ||| flag sf 22 ||| flag true 16 ||| field rn 5
      ||| field rd 0) = some (.fmovGp sf rn rd) := by
  rw [decode, decodeFmov]
  cases sf <;>
    simp (disch := omega) [extractLsb'_or, extract_field_self, extract_field_apart, flag_true,
      flag_false]

theorem decode_adrp (immhi : BitVec 19) (immlo : BitVec 2) (rd : BitVec 5) :
    decode (0x90000000 ||| field rd 0 ||| field immhi 5 ||| field immlo 29)
      = some (.adrp (immhi ++ immlo) rd) := by
  rw [decode]
  simp (disch := omega) [extractLsb'_or, extract_field_self, extract_field_apart]

variable (imm : BitVec 12)

theorem decode_addImm (rn rd : BitVec 5) :
    decode (0x11000000 ||| flag true 31 ||| field rn 5 ||| field rd 0 ||| field imm 10)
      = some (.addImm imm rn rd) := by
  rw [decode]
  simp (disch := omega) [extractLsb'_or, extract_field_self, extract_field_apart, flag_true]

theorem decode_ldrFp (rn rd : BitVec 5) :
    decode (0xBC400000 ||| flag true 30
      ||| (0x01000000 ||| field imm 10 ||| field rn 5) ||| field rd 0)
      = some (.ldrFp imm rn rd) := by
  rw [decode]
  simp (disch := omega) [extractLsb'_or, extract_field_self, extract_field_apart, flag_true]

end Instr

/-- The immediate of eight bits that a floating-point move has, in binary32. -/
def expandImm32 (imm : BitVec 8) : BitVec 32 :=
  imm.extractLsb' 7 1 ++ (~~~imm.extractLsb' 6 1 ++ (imm.extractLsb' 6 1).replicate 5
    ++ imm.extractLsb' 4 2 : BitVec 8) ++ (imm.extractLsb' 0 4 ++ 0#19 : BitVec 23)

/-- And in binary64. -/
def expandImm64 (imm : BitVec 8) : BitVec 64 :=
  imm.extractLsb' 7 1 ++ (~~~imm.extractLsb' 6 1 ++ (imm.extractLsb' 6 1).replicate 8
    ++ imm.extractLsb' 4 2 : BitVec 11) ++ (imm.extractLsb' 0 4 ++ 0#48 : BitVec 52)

/-- The registers, of the floating-point ones the low halves, and the memory. -/
structure Machine where
  pc : BitVec 64
  sp : BitVec 64
  gp : BitVec 5 → BitVec 64
  fp : BitVec 5 → BitVec 64
  memory : Memory

namespace Machine

/-- The width a general register is used with. -/
def width (sf : Bool) : ℕ := if sf then 64 else 32

/-- A write to a part of a register clears the rest. -/
def writeGp (m : Machine) (rd : BitVec 5) {w : ℕ} (value : BitVec w) : Machine :=
  if rd = 31 then m else { m with gp := Function.update m.gp rd (value.setWidth 64) }

def writeFp (m : Machine) (rd : BitVec 5) {w : ℕ} (value : BitVec w) : Machine :=
  { m with fp := Function.update m.fp rd (value.setWidth 64) }

def readSp (m : Machine) (rn : BitVec 5) : BitVec 64 := if rn = 31 then m.sp else m.gp rn

def writeSp (m : Machine) (rd : BitVec 5) (value : BitVec 64) : Machine :=
  if rd = 31 then { m with sp := value } else m.writeGp rd value

/-- The start of the page of an address. -/
def page (address : BitVec 64) : BitVec 64 := address - (address.setWidth 12).setWidth 64

def exec (m : Machine) : Instr → Machine
  | .moveWide .MOVN sf hw imm rd => m.writeGp rd (~~~Halfwords.place (width sf) hw.toNat imm)
  | .moveWide .MOVZ sf hw imm rd => m.writeGp rd (Halfwords.place (width sf) hw.toNat imm)
  | .moveWide .MOVK sf hw imm rd =>
    m.writeGp rd (Halfwords.insert ((m.gp rd).setWidth (width sf)) hw.toNat imm)
  | .fmovImm false imm rd => m.writeFp rd (expandImm32 imm)
  | .fmovImm true imm rd => m.writeFp rd (expandImm64 imm)
  | .fmovGp sf rn rd => m.writeFp rd ((m.gp rn).setWidth (width sf))
  | .adrp imm rd => m.writeGp rd (page m.pc + imm.signExtend 64 <<< 12)
  | .addImm imm rn rd => m.writeSp rd (m.readSp rn + imm.setWidth 64)
  | .ldrFp imm rn rt =>
    m.writeFp rt (Memory.ofBytes (m.memory.read (m.readSp rn + (imm.setWidth 64) <<< 3) 8))

def step (m : Machine) (instr : Instr) : Machine := { m.exec instr with pc := m.pc + 4 }

/-- One word after the other; a word that is no instruction stops the processor. -/
def run (m : Machine) : List (BitVec 32) → Option Machine
  | [] => some m
  | word :: words => (Instr.decode word).bind fun instr ↦ run (m.step instr) words

variable (m : Machine)

variable (instr : Instr)

@[simp] theorem step_pc : (m.step instr).pc = m.pc + 4 := rfl

@[simp] theorem step_gp : (m.step instr).gp = (m.exec instr).gp := rfl

@[simp] theorem step_fp : (m.step instr).fp = (m.exec instr).fp := rfl

@[simp] theorem step_memory :
    (m.step instr).memory = (m.exec instr).memory := rfl

variable {w : ℕ}

variable {rd : BitVec 5}

theorem writeGp_gp (h : rd ≠ 31) (m : Machine) (value : BitVec w) :
    (m.writeGp rd value).gp = Function.update m.gp rd (value.setWidth 64) := by
  rw [writeGp, if_neg h]

@[simp] theorem writeGp_memory (rd : BitVec 5) (value : BitVec w) :
    (m.writeGp rd value).memory = m.memory := by
  rw [writeGp]
  split_ifs <;> rfl

@[simp] theorem writeFp_fp (rd : BitVec 5) (value : BitVec w) :
    (m.writeFp rd value).fp = Function.update m.fp rd (value.setWidth 64) := rfl

theorem readSp_of_ne {rn : BitVec 5} (h : rn ≠ 31) (m : Machine) : m.readSp rn = m.gp rn :=
  if_neg h

theorem writeSp_of_ne (h : rd ≠ 31) (m : Machine) (value : BitVec 64) :
    m.writeSp rd value = m.writeGp rd value :=
  if_neg h

end Machine

end Banjo.Target.AArch64
