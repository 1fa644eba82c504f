import Banjo.Target.AArch64.EmittedForms

/-!
# What the offsets and immediates of encoded instructions are

The encoder keeps the low bits of what it is given. A word holds what was intended if these bits are
all there is to it.
-/

open List Option BitVec Function

namespace Banjo.Target.AArch64.Encoder

open Codegen (PhysicalReg StackSlotID)
open AArch64EncodingInfo StackAddrFixupPass

/-! ## Numbers -/

theorem lt_zero (a : LargeInt) : a.lt 0 = a.negative := by
  obtain ⟨magnitude, negative⟩ := a
  cases negative
  · exact decide_eq_false (not_lt_zero (x := magnitude))
  · rfl

theorem value_ofSigned (x : BitVec 64) : (LargeInt.ofSigned x).value = x.toInt := by
  rw [LargeInt.ofSigned, toInt_eq_msb_cond]
  cases hmsb : x.msb with
  | false => rw [LargeInt.value_mk_false]; rfl
  | true =>
    have hpos : x.toNat ≠ 0 := by
      intro hzero
      rw [msb_eq_decide, hzero] at hmsb
      cases hmsb
    have hlt := x.isLt
    rw [LargeInt.value_mk_true, if_pos rfl, if_pos rfl, toNat_neg, Nat.mod_eq_of_lt (by omega)]
    omega

variable (x : BitVec 32)

theorem value_ofInt : (ofInt x).value = x.toInt := by
  rw [ofInt, value_ofSigned, toInt_signExtend_of_le (by decide)]

theorem value_ofUnsigned : (ofUnsigned x).value = x.toNat := by
  rw [ofUnsigned, LargeInt.value_mk_false, toNat_setWidth_of_le (by decide)]

theorem toBits_ofInt : (ofInt x).toBits = x.signExtend 64 := by
  rw [LargeInt.toBits_eq_ofInt, value_ofInt]
  rfl

theorem toBits_ofUnsigned : (ofUnsigned x).toBits = x.setWidth 64 := rfl

/-- A number with its sign, but zero has none. -/
def Proper (a : LargeInt) : Prop := a.negative = true ↔ a.value < 0

theorem proper_ofInt : Proper (ofInt x) := by
  rw [Proper, value_ofInt, ofInt, LargeInt.ofSigned]
  dsimp only
  rw [msb_eq_toInt, toInt_signExtend_of_le (by decide), decide_eq_true_iff]

theorem proper_ofUnsigned : Proper (ofUnsigned x) := by
  rw [Proper, value_ofUnsigned]
  exact ⟨fun h ↦ (Bool.false_ne_true h).elim, fun h ↦ by omega⟩

theorem proper_zero : Proper 0 := ⟨fun h ↦ (Bool.false_ne_true h).elim, fun h ↦ by cases h⟩

variable {a : LargeInt}

theorem toNat_toBits (ha : Proper a) (h : 0 ≤ a.value) : (a.toBits.toNat : ℤ) = a.value := by
  have hnegative : a.negative = false := by
    rw [← Bool.not_eq_true]
    exact fun hneg ↦ absurd (ha.mp hneg) (by omega)
  rw [LargeInt.toBits_of_not_negative hnegative, LargeInt.value_of_not_negative hnegative]

variable {log : ℕ}

theorem toNat_lowMask (hlog : log ≤ 3) : ((1 <<< log : BitVec 64) - 1).toNat = 2 ^ log - 1 := by
  obtain rfl | rfl | rfl | rfl : log = 0 ∨ log = 1 ∨ log = 2 ∨ log = 3 := by omega
  all_goals rfl

/-- An offset that is not negative and a multiple of the size is scaled. -/
theorem isScaled_iff (ha : Proper a) (hlog : log ≤ 3) :
    isScaled a log = true ↔ 0 ≤ a.value ∧ (2 ^ log : ℤ) ∣ a.value := by
  rw [isScaled, decide_eq_true_iff, lt_zero, Bool.not_eq_true']
  obtain ⟨magnitude, negative⟩ := a
  cases negative with
  | true =>
    have hneg := ha.mp rfl
    exact ⟨fun h ↦ (Bool.false_ne_true h.1.symm).elim, fun h ↦ absurd h.1 (by omega)⟩
  | false =>
    rw [LargeInt.value_mk_false, LargeInt.and, LargeInt.toBits_mk_false, LargeInt.toBits_mk_false,
      LargeInt.toBits_mk_false, ← toNat_inj, toNat_and]
    have hdvd : (2 ^ log : ℤ) ∣ (magnitude.toNat : ℤ) ↔ magnitude.toNat % 2 ^ log = 0 := by
      rw [← Nat.dvd_iff_mod_eq_zero]
      exact_mod_cast Iff.rfl
    rw [toNat_lowMask hlog, Nat.and_two_pow_sub_one_eq_mod, hdvd]
    simp

/-! ## The offset of a load or store -/

/-- The offset that a load or store holds for one that it is given. -/
def held (log : ℕ) (a : LargeInt) : ℤ :=
  if isScaled a log then (((a.toBits >>> log).setWidth 12).toNat : ℤ) * 2 ^ log
  else (a.toBits.setWidth 9).toInt

theorem held_of_scaled (ha : Proper a) (hlog : log ≤ 3) (h0 : 0 ≤ a.value)
    (h : (2 ^ log : ℤ) ∣ a.value) : held log a = a.value / 2 ^ log % 4096 * 2 ^ log := by
  rw [held, if_pos ((isScaled_iff ha hlog).mpr ⟨h0, h⟩), ← toNat_toBits ha h0,
    toNat_setWidth, toNat_ushiftRight, Nat.shiftRight_eq_div_pow]
  push_cast
  rfl

theorem held_of_not_scaled (ha : Proper a) (hlog : log ≤ 3)
    (h : ¬(0 ≤ a.value ∧ (2 ^ log : ℤ) ∣ a.value)) : held log a = a.value.bmod 512 := by
  rw [held, if_neg fun hscaled ↦ h ((isScaled_iff ha hlog).mp hscaled), LargeInt.toBits_eq_ofInt,
    LargeInt.setWidth_ofInt (by decide), toInt_ofInt]

theorem bmod_eq_iff {x d : ℤ} {n : ℕ} (hpos : 0 < n) (h : x.bmod n = d.bmod n) :
    x.bmod n = d ↔ -(n / 2 : ℤ) ≤ d ∧ d < ((n : ℤ) + 1) / 2 := by
  constructor
  · rintro rfl
    exact ⟨Int.le_bmod hpos, Int.bmod_lt hpos⟩
  · rintro ⟨hle, hlt⟩
    rw [h]
    exact Int.bmod_eq_of_le hle hlt

theorem held_eq_iff (ha : Proper a) (hlog : log ≤ 3) :
    held log a = a.value ↔ Encodable log a.value := by
  have hcases : log = 0 ∨ log = 1 ∨ log = 2 ∨ log = 3 := by omega
  by_cases h : 0 ≤ a.value ∧ (2 ^ log : ℤ) ∣ a.value
  · rw [held_of_scaled ha hlog h.1 h.2, Encodable]
    obtain rfl | rfl | rfl | rfl := hcases <;> omega
  · rw [held_of_not_scaled ha hlog h, bmod_eq_iff (by decide) rfl, Encodable]
    obtain rfl | rfl | rfl | rfl := hcases <;> omega

/-- The offset of the pass is one without sign. -/
theorem held_ofUnsigned_eq_iff {u : BitVec 32} {d : ℤ} (hu : (u.toNat : ℤ) = d % 2 ^ 32)
    (hd : d < 2 ^ 32) (hlog : log ≤ 3) : held log (ofUnsigned u) = d ↔
      Encodable log d ∧ (d < 0 → ¬(2 ^ log : ℤ) ∣ d) := by
  have hcases : log = 0 ∨ log = 1 ∨ log = 2 ∨ log = 3 := by omega
  have hvalue := value_ofUnsigned u
  by_cases h : 0 ≤ (ofUnsigned u).value ∧ (2 ^ log : ℤ) ∣ (ofUnsigned u).value
  · rw [held_of_scaled (proper_ofUnsigned u) hlog h.1 h.2, Encodable]
    rw [hvalue] at h ⊢
    obtain rfl | rfl | rfl | rfl := hcases <;> omega
  · have hbmod : ((u.toNat : ℤ)).bmod 512 = d.bmod 512 := by
      rw [hu, ← Int.emod_bmod (x := d % 2 ^ 32), Int.emod_emod_of_dvd _ (by decide), Int.emod_bmod]
    rw [held_of_not_scaled (proper_ofUnsigned u) hlog h, hvalue, bmod_eq_iff (by decide) hbmod,
      Encodable]
    rw [hvalue] at h
    obtain rfl | rfl | rfl | rfl := hcases <;> omega

theorem held_mem (ha : Proper a) (hlog : log ≤ 3) : -256 ≤ held log a ∧ held log a ≤ 32760 := by
  have hcases : log = 0 ∨ log = 1 ∨ log = 2 ∨ log = 3 := by omega
  by_cases h : 0 ≤ a.value ∧ (2 ^ log : ℤ) ∣ a.value
  · rw [held_of_scaled ha hlog h.1 h.2]
    obtain rfl | rfl | rfl | rfl := hcases <;> omega
  · rw [held_of_not_scaled ha hlog h]
    have hle := @Int.le_bmod a.value 512 (by decide)
    have hlt := @Int.bmod_lt a.value 512 (by decide)
    omega

/-- Small numbers are different offsets. -/
theorem ofInt_inj {a b : ℤ} (ha : -2 ^ 63 ≤ a ∧ a < 2 ^ 63) (hb : -2 ^ 63 ≤ b ∧ b < 2 ^ 63) :
    BitVec.ofInt 64 a = BitVec.ofInt 64 b ↔ a = b := by
  refine ⟨fun h ↦ ?_, fun h ↦ h ▸ rfl⟩
  have hint := congrArg BitVec.toInt h
  rwa [toInt_ofInt, toInt_ofInt, Int.bmod_eq_of_le (by omega) (by omega),
    Int.bmod_eq_of_le (by omega) (by omega)] at hint

/-! ## Registers -/

variable (reg : GpReg)

theorem encodeGpReg_gp : encodeGpReg reg = some reg.number := if_pos reg.2

theorem isGpReg_gp : isGpReg reg = true := decide_eq_true (.inl reg.2)

theorem encodeGpReg_base (reg : BaseReg) : encodeGpReg reg = some reg.number := by
  obtain ⟨reg, hreg⟩ := reg
  rw [isGpReg, decide_eq_true_iff] at hreg
  rw [encodeGpReg, BaseReg.number]
  obtain hle | rfl := hreg
  · have hne : reg ≠ AArch64Register.SP := by
      rintro rfl
      exact absurd hle (by decide)
    rw [if_pos hle, if_neg hne]
  · rfl

theorem encodeFpReg_fp (reg : FpReg) :
    encodeFpReg reg = some (BitVec.ofNat 5 (reg - AArch64Register.V0)) := if_pos reg.2

theorem isGpReg_fp (reg : FpReg) : isGpReg reg = false := by
  obtain ⟨reg, hreg⟩ := reg
  rw [isFpReg, decide_eq_true_iff] at hreg
  refine decide_eq_false ?_
  rintro (hle | rfl)
  · exact absurd (Nat.le_trans hreg.1 hle) (by decide)
  · exact absurd hreg.2 (by decide)

theorem number_ne_sp : reg.number ≠ 31 := ofNat_ne_zr reg.2

theorem scratch_ne_sp : scratch ≠ 31 := by decide

/-! ## Addresses -/

/-- The address is encoded, and read in every load and store with the same offset. -/
def Reads (address : Address) (log : ℕ) (indexing : Indexing) (offset : ℤ) (rn : BitVec 5) : Prop :=
  ∃ word, encodeAddr address log = some ⟨word, none⟩ ∧ ∀ load fp rt, AddressInstr.decode
      (AddressInstr.transferTemplate load fp (BitVec.ofNat 2 log) ||| word ||| field rt 0)
    = some (.transfer load fp (BitVec.ofNat 2 log) indexing offset rn rt)

theorem encodeImm_zero (a : LargeInt) (n : ℕ) : encodeImm a n 0 = some (a.toBits.setWidth n) := by
  rw [encodeImm, if_pos (Subsingleton.elim _ _), ushiftRight_zero]

theorem encodeImm_of_dvd {shift : ℕ} (h : 2 ^ shift ∣ a.toBits.toNat) (n : ℕ) :
    encodeImm a n shift = some ((a.toBits >>> shift).setWidth n) := by
  refine if_pos (eq_of_toNat_eq ?_)
  rw [toNat_setWidth, Nat.mod_eq_zero_of_dvd h]
  rfl

theorem reads_offset (base : BaseReg) (ha : Proper a) (hlog : log ≤ 3) :
    Reads (.OFFSET_CONST base a) log .offset (held log a) base.number := by
  have hsize : (BitVec.ofNat 2 log).toNat = log := by
    rw [toNat_ofNat]
    omega
  by_cases hscaled : isScaled a log = true
  · obtain ⟨h0, hdvd⟩ := (isScaled_iff ha hlog).mp hscaled
    rw [← toNat_toBits ha h0] at hdvd
    have himm := encodeImm_of_dvd (by exact_mod_cast hdvd) 12
    refine ⟨0x01000000 ||| field ((a.toBits >>> log).setWidth 12) 10 ||| field base.number 5, ?_,
      fun load fp rt ↦ ?_⟩
    · rw [encodeAddr, encodeGpReg_base, bind_eq_bind, bind_some, if_pos hscaled, himm]
      rfl
    · rw [AddressInstr.decode_unsigned, hsize, held, if_pos hscaled]
  · refine ⟨AddressInstr.indexingBits .offset ||| field (a.toBits.setWidth 9) 12
      ||| field base.number 5, ?_, fun load fp rt ↦ ?_⟩
    · have hzero : AddressInstr.indexingBits .offset ||| field (a.toBits.setWidth 9) 12
          = field (a.toBits.setWidth 9) 12 := zero_or
      rw [encodeAddr, encodeGpReg_base, bind_eq_bind, bind_some, if_neg hscaled,
        encodeImm_zero, hzero]
      rfl
    · rw [AddressInstr.decode_unscaled, held, if_neg hscaled]

/-- The address of an access that changes its base. -/
def Update.address (base : PhysicalReg) : Update → Address
  | pre offset => .PRE_INDEX base (ofInt offset)
  | post offset => .POST_INDEX base offset

theorem reads_update (base : BaseReg) (u : Update) (log : ℕ) :
    Reads (u.address base) log u.indexing (u.offset.setWidth 9).toInt base.number := by
  cases u with
  | pre offset =>
    refine ⟨AddressInstr.indexingBits .pre ||| field ((offset.signExtend 64).setWidth 9) 12
      ||| field base.number 5, ?_,
      fun load fp rt ↦ AddressInstr.decode_unscaled load fp _ _ rt .pre _⟩
    rw [Update.address, encodeAddr, encodeGpReg_base, bind_eq_bind, bind_some,
      encodeImm_zero, toBits_ofInt]
    rfl
  | post offset =>
    refine ⟨AddressInstr.indexingBits .post ||| field (offset.toBits.setWidth 9) 12
      ||| field base.number 5, ?_,
      fun load fp rt ↦ AddressInstr.decode_unscaled load fp _ _ rt .post _⟩
    rw [Update.address, encodeAddr, encodeGpReg_base, bind_eq_bind, bind_some, encodeImm_zero]
    rfl

/-! ## Loads and stores -/

section Transfer

open AddressInstr (transferTemplate)

variable {frame : Frame} {addr : Operand} {rest : List Operand} {address : Address} {log : ℕ}
  {word : BitVec 32}

theorem encodeLdrFamily_gp (hlower : lowerAddr frame addr rest.head? = some address) {size : ℕ}
    (hencode : encodeAddr address (if size = 8 then 3 else 2) = some ⟨word, none⟩) (reg : GpReg)
    (gpTemplate fpTemplate : BitVec 32) :
    encodeLdrFamily frame gpTemplate fpTemplate (⟨.register reg, size⟩ :: addr :: rest)
      = some ⟨gpTemplate ||| flag (size = 8) 30 ||| word ||| field reg.number 0, none⟩ := by
  simp [encodeLdrFamily, hlower, hencode, Operand.getPhysicalReg, isGpReg_gp, encodeGpReg_gp]

theorem encodeLdrFamily_fp (hlower : lowerAddr frame addr rest.head? = some address) {size : ℕ}
    (hencode : encodeAddr address (if size = 8 then 3 else 2) = some ⟨word, none⟩) (reg : FpReg)
    (gpTemplate fpTemplate : BitVec 32) :
    encodeLdrFamily frame gpTemplate fpTemplate (⟨.register reg, size⟩ :: addr :: rest)
      = some ⟨fpTemplate ||| flag (size = 8) 30 ||| word
        ||| field (BitVec.ofNat 5 (reg - AArch64Register.V0)) 0, none⟩ := by
  simp [encodeLdrFamily, hlower, hencode, Operand.getPhysicalReg, isGpReg_fp, encodeFpReg_fp]

theorem encodeLdrbFamily_gp (hlower : lowerAddr frame addr rest.head? = some address)
    (hencode : encodeAddr address log = some ⟨word, none⟩) (reg : GpReg) (size : ℕ)
    (template : BitVec 32) :
    encodeLdrbFamily frame log template (⟨.register reg, size⟩ :: addr :: rest)
      = some ⟨template ||| word ||| field reg.number 0, none⟩ := by
  simp [encodeLdrbFamily, hlower, hencode, Operand.getPhysicalReg, encodeGpReg_gp]

variable (load : Bool)

/-- The size of a word is a flag of its own. -/
theorem template_word (fp : Bool) (size : ℕ) :
    0xB8000000 ||| flag load 22 ||| flag fp 26 ||| flag (size = 8) 30
      = transferTemplate load fp (BitVec.ofNat 2 (if size = 8 then 3 else 2)) := by
  by_cases h : size = 8 <;> cases load <;> cases fp <;> simp [h] <;> rfl

variable (operands : List Operand)

/-- The template of a load or store in the encoder. -/
theorem encodeInstr_word :
    encodeInstr frame ⟨if load then .LDR else .STR, operands⟩
      = encodeLdrFamily frame (0xB8000000 ||| flag load 22 ||| flag false 26)
        (0xB8000000 ||| flag load 22 ||| flag true 26) operands := by
  cases load <;> rfl

theorem encodeInstr_half :
    encodeInstr frame ⟨if load then .LDRH else .STRH, operands⟩
      = encodeLdrbFamily frame 1 (transferTemplate load false 1) operands := by
  cases load <;> rfl

theorem encodeInstr_byte :
    encodeInstr frame ⟨if load then .LDRB else .STRB, operands⟩
      = encodeLdrbFamily frame 0 (transferTemplate load false 0) operands := by
  cases load <;> rfl

theorem encodeInstr_transfer (hlower : lowerAddr frame addr rest.head? = some address) (load : Bool)
    (access : Access) {indexing : Indexing} {offset : ℤ} {rn : BitVec 5}
    (hreads : Reads address access.log indexing offset rn) : ∃ word,
    encodeInstr frame ⟨access.opcode load, access.operand :: addr :: rest⟩ = some ⟨word, none⟩ ∧
      AddressInstr.decode word = some (.transfer load access.fp (BitVec.ofNat 2 access.log)
        indexing offset rn access.rt) := by
  obtain ⟨word, hencode, hread⟩ := hreads
  refine ⟨_, ?_, hread load access.fp access.rt⟩
  cases access with
  | word reg size =>
    cases reg with
    | inl reg =>
      rw [Access.opcode, Access.operand, encodeInstr_word, encodeLdrFamily_gp hlower hencode,
        template_word]
      rfl
    | inr reg =>
      rw [Access.opcode, Access.operand, encodeInstr_word, encodeLdrFamily_fp hlower hencode,
        template_word]
      rfl
  | half reg size =>
    rw [Access.opcode, Access.operand, encodeInstr_half]
    exact encodeLdrbFamily_gp hlower hencode reg size.bytes _
  | byte reg size =>
    rw [Access.opcode, Access.operand, encodeInstr_byte]
    exact encodeLdrbFamily_gp hlower hencode reg size.bytes _

end Transfer

/-! ## Additions and subtractions -/

section AddSub

variable {frame : Frame}

variable (sub : Bool)

theorem encodeInstr_addSub (operands : List Operand) :
    encodeInstr frame ⟨addSubOpcode sub, operands⟩
      = encodeAddFamily frame (0x0B200000 ||| flag sub 30) (0x0B000000 ||| flag sub 30)
        (0x11000000 ||| flag sub 30) operands := by
  cases sub <;> rfl

theorem encodeInstr_addSubImm (dst lhs : BaseReg) (size size' size'' : ℕ)
    (value : LargeInt) (shifted : Bool) :
    encodeInstr frame ⟨addSubOpcode sub, [⟨.register dst, size⟩, ⟨.register lhs, size'⟩,
        ⟨.intImmediate value, size''⟩] ++ if shifted then [⟨.leftShift 12, 0⟩] else []⟩
      = some ⟨0x11000000 ||| flag sub 30 ||| flag (size = 8) 31 ||| flag shifted 22
        ||| field (value.toBits.setWidth 12) 10 ||| field lhs.number 5 ||| field dst.number 0,
        none⟩ := by
  rw [encodeInstr_addSub]
  cases shifted <;>
    simp [encodeAddFamily, Operand.getPhysicalReg, Operand.getLeftShift, encodeGpReg_base,
      encodeImm_zero]

theorem flag_false_or (word : BitVec 32) (position : ℕ) : word ||| flag false position = word := by
  rw [flag_false, or_zero]

theorem encodeInstr_stackOffset (dst : GpReg) (slot : StackSlotID) (offset : BitVec 32) :
    encodeInstr frame ⟨addSubOpcode sub, [⟨.register dst, 8⟩, sp, ⟨.stackOffset slot offset, 0⟩]⟩
      = some ⟨0x11000000 ||| flag sub 30 ||| flag true 31 ||| flag false 22
        ||| field ((frame slot + offset).setWidth 12) 10 ||| field (31 : BitVec 5) 5
        ||| field dst.number 0, none⟩ := by
  have himm : (ofUnsigned (frame slot + offset)).toBits.setWidth 12
      = (frame slot + offset).setWidth 12 := by
    rw [toBits_ofUnsigned, setWidth_setWidth_of_le _ (by decide)]
  have hsp : encodeGpReg AArch64Register.SP = some 31 := rfl
  rw [encodeInstr_addSub, flag_false_or]
  simp [encodeAddFamily, sp, Operand.getPhysicalReg, encodeGpReg_gp, hsp, encodeImm_zero, himm]

/-- The scratch register is added to the stack pointer. -/
theorem encodeInstr_addSubTmp (dst : GpReg) :
    encodeInstr frame ⟨addSubOpcode sub, [⟨.register dst, 8⟩, sp, tmp]⟩
      = some ⟨0x0B200000 ||| flag sub 30 ||| flag true 31 ||| field scratch 16
        ||| field 0b011#3 13 ||| field (31 : BitVec 5) 5 ||| field dst.number 0, none⟩ := by
  have hsp : encodeGpReg AArch64Register.SP = some 31 := rfl
  have htmp : encodeGpReg SCRATCH_REGISTER = some scratch := rfl
  rw [encodeInstr_addSub]
  simp [encodeAddFamily, sp, tmp, Operand.getPhysicalReg, encodeGpReg_gp, hsp, htmp]

end AddSub

/-!
## Addresses that come out of the pass

The sequences of the pass add what they are given as a number without sign to the stack pointer, so
an access that is not said to be encodable goes to its place if the offset has no sign.
-/

/-! ## Sequences -/

section Computes

variable {frame : Frame} {m m' m'' : Machine} {instr : Instruction} {instrs : List Instruction}
  {word : BitVec 32} {read : AddressInstr}

/-- The words of instructions take a processor from one state to another. -/
def Computes (frame : Frame) (m : Machine) (instrs : List Instruction) (m' : Machine) : Prop :=
  ∃ words, encodeAll frame instrs = some words ∧ m.computeAll words = some m'

theorem computes_nil (m : Machine) : Computes frame m [] m := ⟨[], rfl, rfl⟩

theorem encodeAll_cons {words : List (BitVec 32)}
    (hencode : encodeInstr frame instr = some ⟨word, none⟩)
    (h : encodeAll frame instrs = some words) :
    encodeAll frame (instr :: instrs) = some (word :: words) := by
  rw [encodeAll] at h
  simp [encodeAll, hencode, h]

theorem Computes.cons (hencode : encodeInstr frame instr = some ⟨word, none⟩)
    (hdecode : AddressInstr.decode word = some read) (hcompute : m.compute read = some m')
    (h : Computes frame m' instrs m'') : Computes frame m (instr :: instrs) m'' := by
  obtain ⟨words, hwords, hrun⟩ := h
  exact ⟨word :: words, encodeAll_cons hencode hwords,
    by simp [Machine.computeAll, hdecode, hcompute, hrun]⟩

theorem Computes.append {instrs' : List Instruction} (h : Computes frame m instrs m')
    (h' : Computes frame m' instrs' m'') : Computes frame m (instrs ++ instrs') m'' := by
  obtain ⟨words, hwords, hrun⟩ := h
  obtain ⟨words', hwords', hrun'⟩ := h'
  refine ⟨words ++ words', by simp_all [encodeAll], ?_⟩
  clear hwords
  induction words generalizing m with
  | nil =>
    obtain rfl := some.inj hrun
    exact hrun'
  | cons word words ih =>
    simp only [Machine.computeAll, bind_eq_bind, bind_eq_some_iff] at hrun
    obtain ⟨read, hread, next, hnext, hrun⟩ := hrun
    simp [Machine.computeAll, hread, hnext, ih hrun]

/-- The last word accesses memory. -/
theorem Computes.access (h : Computes frame m instrs m')
    (hencode : encodeInstr frame instr = some ⟨word, none⟩)
    (hdecode : AddressInstr.decode word = some read) {effect : Effect}
    (heffect : m'.effect read = some effect) : ∃ words,
    encodeAll frame (instrs ++ [instr]) = some words ∧ m.accessAfter words = some (m', effect) := by
  obtain ⟨words, hwords, hrun⟩ := h
  refine ⟨words ++ [word], by simp_all [encodeAll], ?_⟩
  clear hwords
  induction words generalizing m with
  | nil =>
    obtain rfl := some.inj hrun
    simp [Machine.accessAfter, hdecode, heffect]
  | cons first words ih =>
    simp only [Machine.computeAll, bind_eq_bind, bind_eq_some_iff] at hrun
    obtain ⟨read', hread, next, hnext, hrun⟩ := hrun
    have hne : words ++ [word] ≠ [] := by simp
    obtain ⟨second, rest, heq⟩ := exists_cons_of_ne_nil hne
    rw [List.cons_append, heq, Machine.accessAfter, ← heq]
    · simp [hread, hnext, ih hrun]
    · exact cons_ne_nil _ _

end Computes

/-! ## The instructions of the pass -/

section Fixup

variable {frame : Frame}

theorem half_setWidth (u : BitVec 32) (index : ℕ) :
    Halfwords.half (u.setWidth 64) index = Halfwords.half u index := by
  refine eq_of_getLsbD_eq fun i hi ↦ ?_
  rw [Halfwords.half, Halfwords.half, getLsbD_extractLsb', getLsbD_extractLsb', getLsbD_setWidth]
  by_cases hlt : 16 * index + i < 64
  · simp [hlt]
  · simp [hlt, getLsbD_of_ge u (16 * index + i) (by omega)]

/-- Two halfwords are a number without sign. -/
theorem insert_place (u : BitVec 32) :
    Halfwords.insert (Halfwords.place 64 0 (Halfwords.half u 0)) 1 (Halfwords.half u 1)
      = u.setWidth 64 := by
  refine @Halfwords.eq_of_half_eq 64 4 (by decide) _ _ fun index hindex ↦ ?_
  rw [half_setWidth]
  obtain rfl | rfl | hge : index = 0 ∨ index = 1 ∨ 2 ≤ index := by omega
  · rw [Halfwords.half_insert_of_ne (by decide), Halfwords.half_place_self (by decide)]
  · rw [Halfwords.half_insert_self (by decide)]
  · rw [Halfwords.half_insert_of_ne (by omega), Halfwords.half_place_of_ne (by omega)]
    refine (eq_of_getLsbD_eq fun i hi ↦ ?_).symm
    rw [Halfwords.half, getLsbD_extractLsb', getLsbD_of_ge u _ (by omega)]
    simp

variable (m : Machine)

theorem Keeps.refl : Keeps m m := ⟨rfl, rfl, rfl, fun _ _ ↦ rfl⟩

theorem Keeps.trans {m m' m'' : Machine} (h : Keeps m m') (h' : Keeps m' m'') : Keeps m m'' where
  sp := h'.sp.trans h.sp
  fp := h'.fp.trans h.fp
  memory := h'.memory.trans h.memory
  gp reg hne := (h'.gp reg hne).trans (h.gp reg hne)

theorem keeps_writeGp (value : BitVec 64) (pc : BitVec 64) :
    Keeps m { m.writeGp scratch value with pc } where
  sp := rfl
  fp := rfl
  memory := rfl
  gp _ hne := update_of_ne hne _ _

/-- What is moved into the scratch register. -/
structure Holds (frame : Frame) (m : Machine) (instrs : List Instruction) (value : BitVec 64)
    (m' : Machine) : Prop where
  computes : Computes frame m instrs m'
  scratch : m'.gp scratch = value
  keeps : Keeps m m'

theorem encodeGpReg_scratch : encodeGpReg SCRATCH_REGISTER = some scratch := rfl

/-- A halfword is moved to the lower or the upper half of a word. -/
theorem encodeMovzFamily_tmp (template : BitVec 32) (bits : BitVec 64) (upper : Bool) :
    encodeMovzFamily template ([tmp, imm bits] ++ if upper then [⟨.leftShift 16, 8⟩] else [])
      = some ⟨template ||| flag true 31 ||| field (if upper then 1#2 else 0#2) 21
        ||| field (bits.setWidth 16) 5 ||| field scratch 0, none⟩ := by
  have hlow : encodeImm ⟨0#64, false⟩ 2 4 = some 0#2 := by decide
  have hhigh : encodeImm ⟨16#64, false⟩ 2 4 = some 1#2 := by decide
  cases upper <;>
    simp [encodeMovzFamily, tmp, imm, Operand.getPhysicalReg, Operand.getIntImmediate,
      Operand.getLeftShift, encodeGpReg_scratch, encodeImm_zero, hlow, hhigh]

/-- One instruction that writes the scratch register. -/
theorem holds_single {m : Machine} {instr : Instruction} {word : BitVec 32} {read : AddressInstr}
    {value : BitVec 64} (hencode : encodeInstr frame instr = some ⟨word, none⟩)
    (hdecode : AddressInstr.decode word = some read)
    (hcompute : m.compute read = some { m.writeGp scratch value with pc := m.pc + 4 }) :
    Holds frame m [instr] value { m.writeGp scratch value with pc := m.pc + 4 } where
  computes := .cons hencode hdecode hcompute (computes_nil _)
  scratch := by
    change (m.writeGp Encoder.scratch value).gp Encoder.scratch = value
    rw [Machine.writeGp_gp scratch_ne_sp, update_self, setWidth_eq]
  keeps := keeps_writeGp m value _

/-- A move to the scratch register. -/
theorem holds_move {move : WideMove} {opcode : Opcode} {template : BitVec 32}
    (hopcode : ∀ operands,
      encodeInstr frame ⟨opcode, operands⟩ = encodeMovzFamily template operands)
    (htemplate : (move, template) ∈
      [(.MOVN, (0x12800000 : BitVec 32)), (.MOVZ, 0x52800000), (.MOVK, 0x72800000)])
    (m : Machine) (bits : BitVec 64) (upper : Bool) {value : BitVec 64}
    (hexec : m.exec (.moveWide move true (if upper then 1#2 else 0#2) (bits.setWidth 16) scratch)
      = m.writeGp scratch value) :
    ∃ m', Holds frame m
      [⟨opcode, [tmp, imm bits] ++ if upper then [⟨.leftShift 16, 8⟩] else []⟩] value m' := by
  refine ⟨_, holds_single ((hopcode _).trans (encodeMovzFamily_tmp template bits upper))
    (AddressInstr.decode_moveWide scratch move _ htemplate _) ?_⟩
  rw [Machine.compute, Machine.step, hexec]

theorem Holds.append {m m' m'' : Machine} {instrs instrs' : List Instruction}
    {value value' : BitVec 64} (h : Holds frame m instrs value m')
    (h' : Holds frame m' instrs' value' m'') : Holds frame m (instrs ++ instrs') value' m'' :=
  ⟨h.computes.append h'.computes, h'.scratch, h.keeps.trans h'.keeps⟩

theorem exists_holds_emitImmMov (m : Machine) (u : BitVec 32) :
    ∃ m', Holds frame m (emitImmMov u) (u.setWidth 64) m' := by
  have hpiece (piece : BitVec 16) : (piece.setWidth 64).setWidth 16 = piece := by
    rw [setWidth_setWidth_of_le _ (by decide), setWidth_eq]
  by_cases h : u ≤ 0xFFFF
  · rw [emitImmMov, if_pos h]
    have hlt : (u.setWidth 64).toNat < 2 ^ 16 := by
      have hle : u.toNat ≤ 65535 := h
      rw [toNat_setWidth_of_le (by decide)]
      omega
    have hexec : m.exec (.moveWide .MOVZ true 0#2 ((u.setWidth 64).setWidth 16) scratch)
        = m.writeGp scratch (u.setWidth 64) := by
      have hplace := @place_low _ 64 hlt
      rw [setWidth_eq] at hplace
      exact congrArg (m.writeGp scratch) hplace
    exact holds_move (fun _ ↦ rfl) (by decide) m (u.setWidth 64) false hexec
  · rw [emitImmMov, if_neg h]
    have hlow : m.exec (.moveWide .MOVZ true 0#2
        (((Halfwords.half u 0).setWidth 64).setWidth 16) scratch)
        = m.writeGp scratch (Halfwords.place 64 0 (Halfwords.half u 0)) := by
      rw [hpiece]
      rfl
    obtain ⟨m', hm'⟩ := @holds_move frame .MOVZ .MOVZ _ (fun _ ↦ rfl) (by decide) m
      ((Halfwords.half u 0).setWidth 64) false _ hlow
    have hhigh : m'.exec (.moveWide .MOVK true 1#2
        (((Halfwords.half u 1).setWidth 64).setWidth 16) scratch)
        = m'.writeGp scratch (u.setWidth 64) := by
      have hvalue := insert_place u
      rw [← hm'.scratch] at hvalue
      have hwidth := congrArg (Halfwords.insert · 1 (Halfwords.half u 1))
        (setWidth_eq (m'.gp scratch))
      rw [hpiece]
      exact congrArg (m'.writeGp scratch) (hwidth.trans hvalue)
    obtain ⟨m'', hm''⟩ := @holds_move frame .MOVK .MOVK _ (fun _ ↦ rfl) (by decide) m'
      ((Halfwords.half u 1).setWidth 64) true _ hhigh
    exact ⟨m'', hm'.append hm''⟩

theorem readSp_sp : m.readSp 31 = m.sp := if_pos rfl

theorem setWidth_small {u : BitVec 32} (h : u < 4096) :
    ((u.setWidth 64).setWidth 12).setWidth 64 = u.setWidth 64 := by
  have hlt : u.toNat < 4096 := h
  apply eq_of_toNat_eq
  rw [toNat_setWidth_of_le (by decide), toNat_setWidth,
    toNat_setWidth_of_le (by decide), Nat.mod_eq_of_lt hlt]

def tmpReg : GpReg := ⟨SCRATCH_REGISTER, by decide⟩

def tmpBase : BaseReg := ⟨SCRATCH_REGISTER, by decide⟩

def spBase : BaseReg := ⟨AArch64Register.SP, by decide⟩

/-- The address of the pass is in the scratch register. -/
theorem exists_holds_emitComputeStackAddr (u : BitVec 32) :
    ∃ m', Holds frame m (emitComputeStackAddr u).1 (m.sp + u.setWidth 64) m' := by
  by_cases h : u < 4096
  · rw [emitComputeStackAddr, if_pos h]
    have hencode := @encodeInstr_addSubImm frame false tmpBase spBase 8 8 8
      ⟨u.setWidth 64, false⟩ false
    refine ⟨_, holds_single hencode (AddressInstr.decode_addSubImm _ _ _ _ _ _) ?_⟩
    have himm : Machine.shiftedImm false ((u.setWidth 64).setWidth 12) = u.setWidth 64 := by
      rw [Machine.shiftedImm, if_neg Bool.false_ne_true, shiftLeft_zero, setWidth_small h]
    change some { m.writeSp scratch (Machine.addSub false true (m.readSp 31)
      (Machine.shiftedImm false ((u.setWidth 64).setWidth 12))) with pc := m.pc + 4 } = _
    rw [readSp_sp, himm, Machine.writeSp_of_ne scratch_ne_sp]
    rfl
  · rw [emitComputeStackAddr, if_neg h]
    obtain ⟨m', hm'⟩ := @exists_holds_emitImmMov frame m u
    refine ⟨_, hm'.append (holds_single (encodeInstr_addSubTmp false tmpReg)
      (AddressInstr.decode_addSubExtended _ _ _ _ _) ?_)⟩
    change some { m'.writeSp scratch (Machine.addSub false true (m'.readSp 31)
      (if scratch = 31 then 0 else m'.gp scratch)) with pc := m'.pc + 4 } = _
    rw [readSp_sp, if_neg scratch_ne_sp, hm'.scratch, hm'.keeps.sp,
      Machine.writeSp_of_ne scratch_ne_sp]
    rfl

end Fixup

/-! ## Places -/

section Places

variable {frame : Frame} {m : Machine} {load : Bool} {access : Access}

theorem process_transfer (load : Bool) (access : Access) (operands : List Operand) :
    process frame ⟨access.opcode load, access.operand :: operands⟩
      = processLdrStr frame ⟨access.opcode load, access.operand :: operands⟩ access.passSize := by
  cases access with
  | word reg size => cases reg <;> cases load <;> rfl
  | half reg size => cases load <;> rfl
  | byte reg size => cases load <;> rfl

theorem code_transfer (load : Bool) (access : Access) (place : Place) {instrs : List Instruction}
    (h : processLdrStr frame ⟨access.opcode load, access.operand :: ⟨place.addr, 0⟩ :: place.rest⟩
      access.passSize = some instrs) :
    (Form.transfer load access place).code frame = encodeAll frame instrs := by
  simp [Form.code, Form.instrs, process_transfer, h]

/-- What a load or store asks for. -/
def accessEffect (load : Bool) (access : Access)
    (index : BitVec 64 × Option (BitVec 5 × BitVec 64)) : Effect :=
  .transfer load access.fp (BitVec.ofNat 2 access.log) access.rt index.1 index.2

theorem accessEffect_inj {index index' : BitVec 64 × Option (BitVec 5 × BitVec 64)} :
    accessEffect load access index = accessEffect load access index' ↔ index = index' := by
  refine ⟨fun h ↦ ?_, fun h ↦ h ▸ rfl⟩
  obtain ⟨address, base⟩ := index
  obtain ⟨address', base'⟩ := index'
  cases h
  rfl

/-- There is only one thing that words ask for. -/
theorem accesses_iff {code : Option (List (BitVec 32))} {m₀ : Machine} {effect effect₀ : Effect}
    (h : ∃ words, code = some words ∧ m.accessAfter words = some (m₀, effect₀))
    (hkeeps : Keeps m m₀) : (∃ words m', code = some words ∧
      m.accessAfter words = some (m', effect) ∧ Keeps m m') ↔ effect₀ = effect := by
  obtain ⟨words, rfl, haccess⟩ := h
  constructor
  · rintro ⟨_, m', heq, haccess', -⟩
    obtain rfl := some.inj heq
    exact congrArg Prod.snd (some.inj (haccess.symm.trans haccess'))
  · rintro rfl
    exact ⟨words, m₀, rfl, haccess, hkeeps⟩

/-- The instruction is left as it is. -/
theorem transfer_iff_of_reads (place : Place) {address : Address} {indexing : Indexing}
    {offset : ℤ} {rn : BitVec 5}
    (hprocess : processLdrStr frame
      ⟨access.opcode load, access.operand :: ⟨place.addr, 0⟩ :: place.rest⟩ access.passSize
      = some [⟨access.opcode load, access.operand :: ⟨place.addr, 0⟩ :: place.rest⟩])
    (hlower : lowerAddr frame ⟨place.addr, 0⟩ place.rest.head? = some address)
    (hreads : Reads address access.log indexing offset rn) : (∃ words m',
      (Form.transfer load access place).code frame = some words ∧
      m.accessAfter words = some (m', accessEffect load access (place.index frame m)) ∧
      Keeps m m') ↔ m.index rn (BitVec.ofInt 64 offset) indexing = place.index frame m := by
  obtain ⟨word, hencode, hdecode⟩ := encodeInstr_transfer hlower load access hreads
  have hnil : Computes frame m [] m := computes_nil m
  have heffect : m.effect (.transfer load access.fp (BitVec.ofNat 2 access.log) indexing offset rn
      access.rt)
      = some (accessEffect load access (m.index rn (BitVec.ofInt 64 offset) indexing)) := rfl
  have haccess := hnil.access hencode hdecode heffect
  rw [nil_append, ← code_transfer load access place hprocess] at haccess
  rw [accesses_iff haccess (Keeps.refl m), accessEffect_inj]

theorem log_le (access : Access) : access.log ≤ 3 := by
  cases access with
  | word reg size =>
    rw [Access.log]
    split_ifs <;> decide
  | half reg size => exact Nat.le_add_left 1 2
  | byte reg size => exact Nat.zero_le 3

theorem held_zero {log : ℕ} (hlog : log ≤ 3) : held log 0 = 0 :=
  (held_eq_iff proper_zero hlog).mpr (.inr ⟨by decide, by decide⟩)

variable {u : BitVec 32}

/-- The address is computed in front of the instruction. -/
theorem transfer_iff_of_fixed (place : Place)
    (hprocess : processLdrStr frame
      ⟨access.opcode load, access.operand :: ⟨place.addr, 0⟩ :: place.rest⟩ access.passSize
      = some ((emitComputeStackAddr u).1
        ++ [⟨access.opcode load, [access.operand, (emitComputeStackAddr u).2]⟩])) : (∃ words m',
      (Form.transfer load access place).code frame = some words ∧
      m.accessAfter words = some (m', accessEffect load access (place.index frame m)) ∧
      Keeps m m') ↔ (m.sp + u.setWidth 64, none) = place.index frame m := by
  obtain ⟨m₀, hm₀⟩ := @exists_holds_emitComputeStackAddr frame m u
  have hlower : lowerAddr frame (emitComputeStackAddr u).2 ([] : List Operand).head?
      = some (.OFFSET_CONST tmpBase 0) := rfl
  obtain ⟨word, hencode, hdecode⟩ := encodeInstr_transfer hlower load access
    (reads_offset tmpBase proper_zero (log_le access))
  have heffect : m₀.effect (.transfer load access.fp (BitVec.ofNat 2 access.log) .offset
      (held access.log 0) tmpBase.number access.rt)
      = some (accessEffect load access (m.sp + u.setWidth 64, none)) := by
    have haddress : m₀.readSp scratch + BitVec.ofInt 64 0 = m.sp + u.setWidth 64 := by
      rw [Machine.readSp_of_ne scratch_ne_sp, hm₀.scratch]
      exact add_zero _
    rw [held_zero (log_le access), ← haddress]
    rfl
  have haccess := hm₀.computes.access hencode hdecode heffect
  rw [← code_transfer load access place hprocess] at haccess
  rw [accesses_iff haccess hm₀.keeps, accessEffect_inj]

variable {d : ℤ}

/-- An offset that is added to the same base. -/
theorem index_offset_iff (rn : BitVec 5) {x : ℤ} (hx : -2 ^ 63 ≤ x ∧ x < 2 ^ 63)
    (hd : -2 ^ 63 ≤ d ∧ d < 2 ^ 63) : m.index rn (BitVec.ofInt 64 x) .offset
      = (m.readSp rn + BitVec.ofInt 64 d, none) ↔ x = d := by
  rw [Machine.index, Prod.mk.injEq, add_right_inj, ofInt_inj hx hd]
  exact ⟨And.left, fun h ↦ ⟨h, rfl⟩⟩

theorem held_bounds {a : LargeInt} (ha : Proper a) {log : ℕ} (hlog : log ≤ 3) :
    -2 ^ 63 ≤ held log a ∧ held log a < 2 ^ 63 := by
  obtain ⟨hle, hge⟩ := held_mem ha hlog
  omega

theorem toInt_bounds (x : BitVec 32) : -2 ^ 31 ≤ x.toInt ∧ x.toInt < 2 ^ 31 :=
  ⟨le_toInt x, toInt_lt⟩

theorem toNat_eq_emod (x : BitVec 32) : (x.toNat : ℤ) = x.toInt % 2 ^ 32 := by
  have hlt := x.isLt
  rw [toInt_eq_toNat_cond]
  split_ifs <;> omega

theorem toNat_displacement (frame : Frame) (slot : StackSlotID) (offset : BitVec 32) :
    ((frame slot + offset).toNat : ℤ) = displacement frame slot offset % 2 ^ 32 := by
  have hslot := toNat_eq_emod (frame slot)
  have hoffset := toNat_eq_emod offset
  rw [toNat_add, displacement]
  omega

theorem displacement_bounds (frame : Frame) (slot : StackSlotID) (offset : BitVec 32) :
    -2 ^ 32 ≤ displacement frame slot offset ∧ displacement frame slot offset < 2 ^ 32 := by
  have hslot := toInt_bounds (frame slot)
  have hoffset := toInt_bounds offset
  rw [displacement]
  omega

/-- What is added without sign is the offset if the offset has none. -/
theorem setWidth_eq_ofInt_iff (hu : (u.toNat : ℤ) = d % 2 ^ 32)
    (hd : -2 ^ 32 ≤ d ∧ d < 2 ^ 32) : u.setWidth 64 = BitVec.ofInt 64 d ↔ 0 ≤ d := by
  have hlt := u.isLt
  have hofInt : u.setWidth 64 = BitVec.ofInt 64 u.toNat := by
    rw [ofInt_natCast, ofNat_toNat]
  rw [hofInt, ofInt_inj (by omega) (by omega)]
  omega

theorem index_update_iff (rn : BitVec 5) (u : Update) (x : BitVec 64) :
    m.index rn x u.indexing = m.index rn u.offset u.indexing ↔ x = u.offset := by
  refine ⟨fun h ↦ ?_, fun h ↦ h ▸ rfl⟩
  cases u with
  | pre offset => exact (add_right_inj _).mp (congrArg Prod.fst h)
  | post offset =>
    have hbase := congrArg Prod.snd h
    exact (add_right_inj _).mp (congrArg Prod.snd (some.inj hbase))

/-- Nine bits with their sign. -/
theorem setWidth_nine_iff (x : BitVec 64) :
    BitVec.ofInt 64 (x.setWidth 9).toInt = x ↔ -256 ≤ x.toInt ∧ x.toInt ≤ 255 := by
  have hx : x = BitVec.ofInt 64 x.toInt := (ofInt_toInt ..).symm
  have hlow := @le_toInt 64 x
  have hhigh := @toInt_lt 64 x
  have hnine : (x.setWidth 9).toInt = x.toInt.bmod 512 := by
    conv_lhs => rw [hx]
    rw [LargeInt.setWidth_ofInt (by decide), toInt_ofInt]
  have hle := @Int.le_bmod x.toInt 512 (by decide)
  have hlt := @Int.bmod_lt x.toInt 512 (by decide)
  conv_lhs => rhs; rw [hx]
  rw [hnine, ofInt_inj (by omega) (by omega), bmod_eq_iff (by decide) rfl]
  omega

theorem exists_encodable (access : Access) (offset : ℤ) :
    ∃ b, isAddrOffsetEncodable offset access.passSize = some b := by
  cases access with
  | word reg size => cases size <;> exact ⟨_, rfl⟩
  | half reg size => exact ⟨_, rfl⟩
  | byte reg size => exact ⟨_, rfl⟩

theorem index_fixed_iff (hu : (u.toNat : ℤ) = d % 2 ^ 32) (hd : -2 ^ 32 ≤ d ∧ d < 2 ^ 32) :
    ((m.sp + u.setWidth 64, none) : BitVec 64 × Option (BitVec 5 × BitVec 64))
      = (m.sp + BitVec.ofInt 64 d, none) ↔ 0 ≤ d := by
  rw [Prod.mk.injEq, add_right_inj, setWidth_eq_ofInt_iff hu hd]
  exact and_iff_left rfl

/-- A place in the stack, which the pass looks up. -/
theorem fixAddr_eq (instr : Instruction) (reg : Operand) {size : ℕ}
    {encodable : Bool} (henc : isAddrOffsetEncodable u.toInt size = some encodable) :
    fixAddr instr reg [] u size = some (if encodable then [instr]
      else (emitComputeStackAddr u).1 ++ [⟨instr.opcode, [reg, (emitComputeStackAddr u).2]⟩]) := by
  rw [fixAddr, henc]
  cases encodable <;> rfl

/-- A place is what the words go to exactly when its offset fits. -/
theorem transfer_iff (frame : Frame) (m : Machine) (load : Bool) (access : Access) (place : Place) :
    (∃ words m', (Form.transfer load access place).code frame = some words ∧
      m.accessAfter words = some (m', accessEffect load access (place.index frame m)) ∧
      Keeps m m') ↔ place.Fits frame access.log access.passSize := by
  have hlog := log_le access
  cases place with
  | base reg =>
    rw [transfer_iff_of_reads (.base reg) rfl rfl (reads_offset reg proper_zero hlog),
      held_zero hlog]
    have hzero : m.readSp reg.number + BitVec.ofInt 64 0 = m.readSp reg.number := add_zero _
    exact iff_of_true (Prod.ext hzero rfl) trivial
  | offset reg imm =>
    have hbounds := toInt_bounds imm
    have hheld := held_eq_iff (proper_ofInt imm) hlog
    rw [value_ofInt] at hheld
    rw [transfer_iff_of_reads (.offset reg imm) rfl rfl (reads_offset reg (proper_ofInt imm) hlog)]
    exact (index_offset_iff reg.number (held_bounds (proper_ofInt imm) hlog)
      (by omega)).trans hheld
  | update reg u =>
    have hprocess : processLdrStr frame
        ⟨access.opcode load, access.operand :: ⟨(Place.update reg u).addr, 0⟩
          :: (Place.update reg u).rest⟩ access.passSize
        = some [⟨access.opcode load, access.operand :: ⟨(Place.update reg u).addr, 0⟩
          :: (Place.update reg u).rest⟩] := by
      cases u <;> rfl
    have hlower : lowerAddr frame ⟨(Place.update reg u).addr, 0⟩ (Place.update reg u).rest.head?
        = some (u.address reg) := by
      cases u <;> rfl
    rw [transfer_iff_of_reads _ hprocess hlower (reads_update reg u access.log)]
    exact (index_update_iff reg.number u _).trans (setWidth_nine_iff u.offset)
  | stackSlot slot =>
    have hbounds := toInt_bounds (frame slot)
    obtain ⟨encodable, henc⟩ := exists_encodable access (frame slot).toInt
    have hprocess := fixAddr_eq ⟨access.opcode load, [access.operand, ⟨.stackSlot slot, 0⟩]⟩
      access.operand henc
    rw [Place.Fits, henc]
    cases encodable with
    | true =>
      have hheld := held_eq_iff (proper_ofInt (frame slot)) hlog
      rw [value_ofInt] at hheld
      rw [if_pos rfl, transfer_iff_of_reads (.stackSlot slot) hprocess rfl
        (reads_offset spBase (proper_ofInt (frame slot)) hlog)]
      exact (index_offset_iff spBase.number (held_bounds (proper_ofInt _) hlog)
        (by omega)).trans hheld
    | false =>
      rw [if_neg (by decide), transfer_iff_of_fixed (.stackSlot slot) hprocess]
      exact index_fixed_iff (toNat_eq_emod _) (by omega)
  | stackAddr slot imm =>
    have hbounds := displacement_bounds frame slot imm
    obtain ⟨encodable, henc⟩ := exists_encodable access (frame slot + imm).toInt
    have hprocess := fixAddr_eq ⟨access.opcode load, [access.operand,
      ⟨.addr (.BASE_OFFSET_STACK_ADDR AArch64Register.SP slot imm), 0⟩]⟩ access.operand henc
    rw [Place.Fits, henc]
    cases encodable with
    | true =>
      have hheld := held_ofUnsigned_eq_iff (toNat_displacement frame slot imm) hbounds.2 hlog
      rw [if_pos rfl, transfer_iff_of_reads (.stackAddr slot imm) hprocess rfl
        (reads_offset spBase (proper_ofUnsigned (frame slot + imm)) hlog)]
      exact (index_offset_iff spBase.number (held_bounds (proper_ofUnsigned _) hlog)
        (by omega)).trans hheld
    | false =>
      rw [if_neg (by decide), transfer_iff_of_fixed (.stackAddr slot imm) hprocess]
      exact index_fixed_iff (toNat_displacement frame slot imm) hbounds

end Places

end Banjo.Target.AArch64.Encoder
