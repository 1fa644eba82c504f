import Banjo.Target.AArch64.FixedAddresses

/-!
# When encoded offsets, immediates and displacements are what was intended

Pairs, sums and branches, and with the accesses all that is emitted.
-/

open List Option BitVec Function

namespace Banjo.Target.AArch64.Encoder

open Codegen (PhysicalReg StackSlotID)
open AArch64EncodingInfo StackAddrFixupPass

/-! ## Pairs -/

/-- A field of the bits behind a shift, with its sign. -/
theorem toInt_field (x : BitVec 64) (shift n : ℕ) : ((x >>> shift).setWidth n).toInt % (2 ^ n : ℕ)
    = (x.toNat / 2 ^ shift : ℕ) % (2 ^ n : ℕ) := by
  rw [toInt_setWidth, Int.bmod_emod, toNat_ushiftRight, Nat.shiftRight_eq_div_pow]

section Pairs

variable {frame : Frame}

variable {log : ℕ} (x : BitVec 64)

theorem setWidth_seven_iff (hlog : log = 2 ∨ log = 3) (hdvd : 2 ^ log ∣ x.toNat) :
    BitVec.ofInt 64 (((x >>> log).setWidth 7).toInt * 2 ^ log) = x ↔
      -64 * 2 ^ log ≤ x.toInt ∧ x.toInt < 64 * 2 ^ log := by
  have hx : x = BitVec.ofInt 64 x.toInt := (ofInt_toInt ..).symm
  have hlow := @le_toInt 64 x
  have hhigh := @toInt_lt 64 x
  have hmod := toInt_field x log 7
  have hle := @le_toInt 7 ((x >>> log).setWidth 7)
  have hlt := @toInt_lt 7 ((x >>> log).setWidth 7)
  have hnat := @toInt_eq_toNat_cond 64 x
  conv_lhs => rhs; rw [hx]
  generalize ((x >>> log).setWidth 7).toInt = r at *
  obtain rfl | rfl := hlog
  · rw [ofInt_inj (by omega) (by omega)]
    split_ifs at hnat <;> omega
  · rw [ofInt_inj (by omega) (by omega)]
    split_ifs at hnat <;> omega

theorem encodeImm_of_not_dvd {a : LargeInt} {shift : ℕ} (h : ¬2 ^ shift ∣ a.toBits.toNat)
    (n : ℕ) : encodeImm a n shift = none := by
  refine if_neg fun hzero ↦ h (Nat.dvd_of_mod_eq_zero ?_)
  rw [← toNat_setWidth, hzero]
  rfl

/-- The number that is added to the base. -/
def Update.number : Update → LargeInt
  | pre offset => ofInt offset
  | post offset => offset

variable (u : Update)

theorem toBits_number : u.number.toBits = u.offset := by
  cases u with
  | pre offset => exact toBits_ofInt offset
  | post offset => rfl

variable (load : Bool) (reg1 reg2 : GpReg) (size : Size)

theorem code_pair (base : BaseReg) (u : Update) :
    (Form.pair load reg1 reg2 size base u).code frame
      = encodeAll frame [⟨if load then .LDP else .STP, ⟨.register reg1, size.bytes⟩
        :: ⟨.register reg2, size.bytes⟩ :: ⟨u.addr base, 0⟩ :: u.rest⟩] := by
  cases load <;> rfl

/-- The bits of a pair. -/
theorem encodeInstr_pair (base : BaseReg)
    (u : Update) : encodeInstr frame ⟨if load then .LDP else .STP, ⟨.register reg1, size.bytes⟩
        :: ⟨.register reg2, size.bytes⟩ :: ⟨u.addr base, 0⟩ :: u.rest⟩
      = (encodeImm u.number 7 (if size.bytes = 8 then 3 else 2)).map fun imm ↦
        ⟨AddressInstr.pairBits u.indexing ||| flag load 22 ||| flag (size.bytes = 8) 31
          ||| field imm 15 ||| field reg2.number 10 ||| field base.number 5
          ||| field reg1.number 0, none⟩ := by
  have hlower : lowerAddr frame ⟨u.addr base, 0⟩ u.rest.head? = some (u.address base) := by
    cases u <;> rfl
  have hfamily : encodeInstr frame ⟨if load then .LDP else .STP, ⟨.register reg1, size.bytes⟩
      :: ⟨.register reg2, size.bytes⟩ :: ⟨u.addr base, 0⟩ :: u.rest⟩
      = encodeLdpFamily frame (AddressInstr.pairBits .post ||| flag load 22)
        (AddressInstr.pairBits .pre ||| flag load 22) (⟨.register reg1, size.bytes⟩
          :: ⟨.register reg2, size.bytes⟩ :: ⟨u.addr base, 0⟩ :: u.rest) := by
    cases load <;> rfl
  rw [hfamily]
  cases u with
  | pre offset =>
    simp only [encodeLdpFamily, hlower, Update.address, Update.number, Update.indexing,
      Operand.getPhysicalReg, encodeGpReg_gp, encodeGpReg_base, decide_eq_true_eq,
      bind_eq_bind, bind_some]
    cases encodeImm (ofInt offset) 7 (if size.bytes = 8 then 3 else 2) <;> rfl
  | post offset =>
    simp only [encodeLdpFamily, hlower, Update.address, Update.number, Update.indexing,
      Operand.getPhysicalReg, encodeGpReg_gp, encodeGpReg_base, decide_eq_true_eq,
      bind_eq_bind, bind_some]
    cases encodeImm offset 7 (if size.bytes = 8 then 3 else 2) <;> rfl

theorem dvd_toInt_iff (hlog : log = 2 ∨ log = 3) : (2 ^ log : ℤ) ∣ x.toInt ↔ 2 ^ log ∣ x.toNat := by
  have hnat := @toInt_eq_toNat_cond 64 x
  have hlt := x.isLt
  obtain rfl | rfl := hlog
  · split_ifs at hnat <;> omega
  · split_ifs at hnat <;> omega

theorem indexing_ne : u.indexing ≠ .offset := by
  cases u <;> exact Indexing.noConfusion

theorem pair_iff (frame : Frame) (m : Machine) (load : Bool) (reg1 reg2 : GpReg) (size : Size)
    (base : BaseReg) (u : Update) : (∃ words,
      (Form.pair load reg1 reg2 size base u).code frame = some words ∧
      m.accessAfter words = some (m, .pair load (size = .eight) reg1.number reg2.number
        (m.index base.number u.offset u.indexing).1 (m.index base.number u.offset u.indexing).2)) ↔
      (Form.pair load reg1 reg2 size base u).Fits frame := by
  have hsize : (size.bytes = 8) = (size = .eight) := by
    cases size <;> simp [Size.bytes]
  have hscale : (if size = .eight then 8 else 4 : ℤ) = 2 ^ (if size = .eight then 3 else 2) := by
    split_ifs <;> rfl
  have hlog : (if size = .eight then 3 else 2) = 2 ∨ (if size = .eight then 3 else 2) = 3 := by
    split_ifs <;> simp
  have hdecode (imm : BitVec 7) := AddressInstr.decode_pair load base.number reg1.number
    (indexing_ne u) (size = .eight) imm reg2.number
  rw [Form.Fits, code_pair, encodeAll, mapM_cons, encodeInstr_pair]
  simp only [hsize, hscale, decide_eq_true_eq] at hdecode ⊢
  generalize (if size = .eight then 3 else 2) = log at *
  by_cases hdvd : 2 ^ log ∣ u.offset.toNat
  · have himm : encodeImm u.number 7 log = some ((u.offset >>> log).setWidth 7) := by
      rw [encodeImm_of_dvd (by rwa [toBits_number]), toBits_number]
    have hinj := @index_update_iff m base.number u
      (BitVec.ofInt 64 (((u.offset >>> log).setWidth 7).toInt * 2 ^ log))
    rw [setWidth_seven_iff _ hlog hdvd] at hinj
    rw [himm, dvd_toInt_iff _ hlog, ← hinj]
    simp [Machine.accessAfter, hdecode, Machine.effect, hdvd, Prod.ext_iff]
  · rw [encodeImm_of_not_dvd (by rwa [toBits_number]), dvd_toInt_iff _ hlog]
    simp [hdvd]

end Pairs

/-! ## Sums -/

section Sums

variable {frame : Frame}

theorem bytes_eq_eight (size : Size) : decide (size.bytes = 8) = decide (size = .eight) := by
  cases size <;> rfl

/-- Twelve bits without sign. -/
theorem setWidth_twelve_iff (a : LargeInt) :
    ((a.toBits.setWidth 12).toNat : ℤ) = a.value ↔ 0 ≤ a.value ∧ a.value < 4096 := by
  rw [LargeInt.toBits_eq_ofInt, LargeInt.setWidth_ofInt (by decide), toNat_ofInt]
  omega

theorem immediate_iff (frame : Frame) (sub : Bool) (dst lhs : BaseReg) (size : Size)
    (value : LargeInt) (shifted : Bool) :
    (Form.immediate sub dst lhs size value shifted).Decodes frame ↔
      (Form.immediate sub dst lhs size value shifted).Fits frame := by
  have hcode : (Form.immediate sub dst lhs size value shifted).code frame
      = some [0x11000000 ||| flag sub 30 ||| flag (size = .eight) 31 ||| flag shifted 22
        ||| field (value.toBits.setWidth 12) 10 ||| field lhs.number 5 ||| field dst.number 0] := by
    have hencode := @encodeInstr_addSubImm frame sub dst lhs size.bytes size.bytes size.bytes value
      shifted
    have hall := encodeAll_cons hencode (show encodeAll frame [] = some [] from rfl)
    rw [bytes_eq_eight] at hall
    rw [← hall]
    cases sub <;> cases shifted <;> rfl
  rw [Form.Decodes, Form.Fits, ← setWidth_twelve_iff, hcode]
  constructor
  · rintro ⟨word, imm, heq, hdecode, himm⟩
    obtain rfl := (cons.inj (some.inj heq)).1
    rw [AddressInstr.decode_addSubImm] at hdecode
    cases hdecode
    exact himm
  · exact fun himm ↦ ⟨_, _, rfl, AddressInstr.decode_addSubImm _ _ _ _ _ _, himm⟩

variable {instrs : List Instruction}

/-- What is computed is all there is to words that compute. -/
theorem computes_iff {m m₀ : Machine} (h : Computes frame m instrs m₀)
    {p : Machine → Prop} : (∃ words m', encodeAll frame instrs = some words ∧
      m.computeAll words = some m' ∧ p m') ↔ p m₀ := by
  obtain ⟨words, hwords, hrun⟩ := h
  constructor
  · rintro ⟨words', m', heq, hrun', hp⟩
    obtain rfl := some.inj (hwords.symm.trans heq)
    obtain rfl := some.inj (hrun.symm.trans hrun')
    exact hp
  · exact fun hp ↦ ⟨words, m₀, hwords, hrun, hp⟩

theorem addSub_inj (sub : Bool) {x y z : BitVec 64} :
    Machine.addSub sub true x y = Machine.addSub sub true x z ↔ y = z := by
  cases sub with
  | false => exact add_right_inj x
  | true => exact BitVec.sub_right_inj x

variable (m : Machine)

theorem writeSp_gp (dst : GpReg) (value pc : BitVec 64) :
    ({ m.writeSp dst.number value with pc } : Machine).gp
      = Function.update m.gp dst.number value := by
  change (m.writeSp dst.number value).gp = _
  rw [Machine.writeSp_of_ne (number_ne_sp dst), Machine.writeGp_gp (number_ne_sp dst), setWidth_eq]

theorem writeSp_sp (dst : GpReg) (value pc : BitVec 64) :
    ({ m.writeSp dst.number value with pc } : Machine).sp = m.sp := by
  change (m.writeSp dst.number value).sp = _
  rw [Machine.writeSp_of_ne (number_ne_sp dst), Machine.writeGp, if_neg (number_ne_sp dst)]

theorem shiftedImm_small {u : BitVec 32} (h : u < 4096) :
    Machine.shiftedImm false (u.setWidth 12) = u.setWidth 64 := by
  have htwelve : (u.setWidth 64).setWidth 12 = u.setWidth 12 :=
    setWidth_setWidth_of_le _ (by decide)
  rw [Machine.shiftedImm, if_neg Bool.false_ne_true, shiftLeft_zero, ← htwelve, setWidth_small h]

/-- The sum of the stack pointer and an offset without sign, in a register. -/
theorem exists_computes_stackOffset (m : Machine) (sub : Bool) (dst : GpReg) (slot : StackSlotID)
    (offset : BitVec 32) : ∃ m₀, Computes frame m (processAddSub frame
        ⟨addSubOpcode sub, [⟨.register dst, 8⟩, sp, ⟨.stackOffset slot offset, 0⟩]⟩) m₀ ∧
      m₀.gp dst.number = Machine.addSub sub true m.sp ((frame slot + offset).setWidth 64) ∧
      m₀.sp = m.sp ∧ ∀ reg ≠ dst.number, reg ≠ scratch → m₀.gp reg = m.gp reg := by
  rw [processAddSub]
  dsimp only
  split_ifs with h
  · obtain ⟨m', hm'⟩ := @exists_holds_emitImmMov frame m (frame slot + offset)
    have hcompute : m'.compute (.addSubExtended sub true scratch 31 dst.number)
        = some { m'.writeSp dst.number (Machine.addSub sub true m.sp
          ((frame slot + offset).setWidth 64)) with pc := m'.pc + 4 } := by
      rw [Machine.compute, readSp_sp, if_neg scratch_ne_sp, hm'.scratch, hm'.keeps.sp]
    refine ⟨_, hm'.computes.append (.cons (encodeInstr_addSubTmp sub dst)
      (AddressInstr.decode_addSubExtended _ _ _ _ _) hcompute (computes_nil _)), ?_, ?_, ?_⟩
    · rw [writeSp_gp, update_self]
    · rw [writeSp_sp, hm'.keeps.sp]
    · intro reg hne hscratch
      rw [writeSp_gp, update_of_ne hne, hm'.keeps.gp reg hscratch]
  · have hcompute : m.compute (.addSubImm sub true false ((frame slot + offset).setWidth 12) 31
        dst.number) = some { m.writeSp dst.number (Machine.addSub sub true m.sp
          ((frame slot + offset).setWidth 64)) with pc := m.pc + 4 } := by
      rw [Machine.compute, readSp_sp, shiftedImm_small (BitVec.not_le.mp h)]
    refine ⟨_, .cons (encodeInstr_stackOffset sub dst slot offset)
      (AddressInstr.decode_addSubImm _ _ _ _ _ _) hcompute (computes_nil _), ?_, ?_, ?_⟩
    · rw [writeSp_gp, update_self]
    · exact writeSp_sp ..
    · intro reg hne _
      rw [writeSp_gp, update_of_ne hne]

theorem stackOffset_iff (frame : Frame) (sub : Bool) (dst : GpReg) (slot : StackSlotID)
    (offset : BitVec 32) (m : Machine) : (∃ words m',
      (Form.stackOffset sub dst slot offset).code frame = some words ∧
        m.computeAll words = some m' ∧ m'.gp dst.number
          = Machine.addSub sub true m.sp (BitVec.ofInt 64 (displacement frame slot offset)) ∧
        m'.sp = m.sp ∧ ∀ reg ≠ dst.number, reg ≠ scratch → m'.gp reg = m.gp reg) ↔
      (Form.stackOffset sub dst slot offset).Fits frame := by
  obtain ⟨m₀, hm₀, hgp, hsp, hkeeps⟩ := @exists_computes_stackOffset frame m sub dst slot offset
  have hcode : (Form.stackOffset sub dst slot offset).code frame
      = encodeAll frame (processAddSub frame
        ⟨addSubOpcode sub, [⟨.register dst, 8⟩, sp, ⟨.stackOffset slot offset, 0⟩]⟩) := by
    cases sub <;> simp [Form.code, Form.instrs, process, addSubOpcode]
  rw [hcode, computes_iff hm₀, hgp, addSub_inj, setWidth_eq_ofInt_iff
    (toNat_displacement frame slot offset) (displacement_bounds frame slot offset)]
  exact and_iff_left ⟨hsp, hkeeps⟩

theorem addSub_addSub (sub : Bool) (x y z : BitVec 64) :
    Machine.addSub sub true (Machine.addSub sub true x y) z
      = Machine.addSub sub true x (y + z) := by
  cases sub with
  | false => exact add_assoc x y z
  | true =>
    change x - y - z = x - (y + z)
    rw [BitVec.sub_eq_add_neg, BitVec.sub_eq_add_neg, BitVec.sub_eq_add_neg x, BitVec.neg_add,
      BitVec.sub_eq_add_neg, add_assoc]

/-- An immediate is added to the stack pointer, or subtracted from it. -/
theorem computes_sp (frame : Frame) (m : Machine) (sub shifted : Bool) (bits : BitVec 32) :
    Computes frame m [⟨addSubOpcode sub, [sp, sp, ⟨.intImmediate (ofUnsigned bits), 0⟩]
        ++ if shifted then [⟨.leftShift 12, 0⟩] else []⟩]
      { m with
        sp := Machine.addSub sub true m.sp (Machine.shiftedImm shifted (bits.setWidth 12))
        pc := m.pc + 4 } := by
  have htwelve : (ofUnsigned bits).toBits.setWidth 12 = bits.setWidth 12 := by
    rw [toBits_ofUnsigned, setWidth_setWidth_of_le _ (by decide)]
  have hencode := @encodeInstr_addSubImm frame sub spBase spBase 8 8 0 (ofUnsigned bits) shifted
  refine .cons hencode (AddressInstr.decode_addSubImm _ _ _ _ _ _) ?_ (computes_nil _)
  rw [htwelve]
  rfl

/-- A number of twenty-four bits in two parts. -/
theorem shiftedImm_add {value : BitVec 32} (h : value < 4096 * 4096) :
    Machine.shiftedImm true ((value >>> 12).setWidth 12)
      + Machine.shiftedImm false ((value &&& 0xFFF).setWidth 12) = value.setWidth 64 := by
  have hlt : value.toNat < 16777216 := h
  have hlow : (value &&& 0xFFF).toNat = value.toNat % 4096 := by
    rw [toNat_and]
    exact Nat.and_two_pow_sub_one_eq_mod _ 12
  apply eq_of_toNat_eq
  rw [Machine.shiftedImm, Machine.shiftedImm, if_pos rfl, if_neg Bool.false_ne_true,
    toNat_add, toNat_shiftLeft, toNat_shiftLeft, toNat_setWidth,
    toNat_setWidth, toNat_setWidth, toNat_setWidth, toNat_setWidth,
    toNat_ushiftRight, hlow, Nat.shiftLeft_eq, Nat.shiftLeft_eq, Nat.shiftRight_eq_div_pow]
  omega

theorem exists_computes_modifySp (frame : Frame) (m : Machine) (sub : Bool) {value : BitVec 32}
    (h : modifySp sub value = some instrs) : ∃ m₀,
    Computes frame m instrs m₀ ∧ m₀.sp = Machine.addSub sub true m.sp (value.setWidth 64) ∧
      m₀.gp = m.gp := by
  rw [modifySp] at h
  dsimp only at h
  split_ifs at h with hsmall hlarge
  · obtain rfl := some.inj h
    refine ⟨_, computes_sp frame m sub false value, ?_, rfl⟩
    rw [shiftedImm_small hsmall]
  · obtain rfl := some.inj h
    refine ⟨_, .append (computes_sp frame m sub true (value >>> 12))
      (computes_sp frame _ sub false (value &&& 0xFFF)), ?_, rfl⟩
    rw [addSub_addSub, shiftedImm_add hlarge]

variable (sub : Bool) (value : BitVec 32)

theorem code_modifySp :
    (Form.modifySp sub value).code frame = (modifySp sub value).bind (encodeAll frame) := by
  rw [Form.code, Form.instrs, modifySp]
  · dsimp only
    split_ifs
    · cases sub <;> rfl
    · cases sub <;> rfl
    · rfl
  · intro _ _ _ h
    cases h

theorem modifySp_eq_none_iff : modifySp sub value = none ↔ ¬value < 4096 * 4096 := by
  rw [modifySp]
  dsimp only
  split_ifs with hsmall hlarge
  · have hlt : value < 4096 * 4096 := by
      have hle : value.toNat < 4096 := hsmall
      exact Nat.lt_trans hle (by decide)
    exact ⟨nofun, fun h ↦ absurd hlt h⟩
  · exact ⟨nofun, fun h ↦ absurd hlarge h⟩
  · exact ⟨fun _ ↦ hlarge, fun _ ↦ rfl⟩

theorem modifySp_iff (frame : Frame) (sub : Bool) (value : BitVec 32) (m : Machine) :
    (∃ words m', (Form.modifySp sub value).code frame = some words ∧
      m.computeAll words = some m' ∧ m'.sp = Machine.addSub sub true m.sp (value.setWidth 64) ∧
      m'.gp = m.gp) ↔ (Form.modifySp sub value).Fits frame := by
  rw [code_modifySp, Form.Fits, ← not_iff_not, ← modifySp_eq_none_iff sub]
  cases hinstrs : modifySp sub value with
  | none => simp
  | some instrs =>
    obtain ⟨m₀, hm₀, hsp, hgp⟩ := exists_computes_modifySp frame m sub hinstrs
    rw [bind_some, computes_iff hm₀]
    exact ⟨fun h ↦ absurd ⟨hsp, hgp⟩ h, nofun⟩

end Sums

/-! ## Branches -/

section Branches

variable {n : ℕ} {place target : BitVec 32}

theorem toNat_sub_place (place target : BitVec 32) :
    ((target - place).toNat : ℤ) = ((target.toNat : ℤ) - place.toNat) % 2 ^ 32 := by
  have hplace := place.isLt
  have htarget := target.isLt
  rw [toNat_sub]
  omega

/-- The bits of a displacement with their sign. -/
theorem toInt_displacement_iff (hn : n = 26 ∨ n = 19) (hdvd : 2 ^ 2 ∣ (target - place).toNat) :
    (((ofUnsigned (target - place)).toBits >>> 2).setWidth n).toInt * 4
        = (target.toNat : ℤ) - place.toNat ↔
      -2 ^ (n + 1) ≤ (target.toNat : ℤ) - place.toNat ∧
        (target.toNat : ℤ) - place.toNat < 2 ^ (n + 1) := by
  have hplace := place.isLt
  have htarget := target.isLt
  have hsub := toNat_sub_place place target
  have hmod := toInt_field (ofUnsigned (target - place)).toBits 2 n
  have hle := @le_toInt n (((ofUnsigned (target - place)).toBits >>> 2).setWidth n)
  have hlt := @toInt_lt n (((ofUnsigned (target - place)).toBits >>> 2).setWidth n)
  rw [toBits_ofUnsigned, toNat_setWidth_of_le (by decide)] at hmod
  rw [toBits_ofUnsigned] at hle hlt ⊢
  generalize (((target - place).setWidth 64 >>> 2).setWidth n).toInt = r at *
  obtain rfl | rfl := hn <;> omega

/-- A branch whose bits are put into its word. -/
theorem branch_iff_of_resolved {resolved : Option (BitVec 32)} {word : BitVec n → BitVec 32}
    {instr : ℤ → AddressInstr} (hn : n = 26 ∨ n = 19)
    (hresolved : resolved = (encodeImm (ofUnsigned (target - place)) n 2).map word)
    (hdecode : ∀ imm, AddressInstr.decode (word imm) = some (instr (imm.toInt * 4)))
    (hinj : ∀ x y, instr x = instr y → x = y) : (∃ word offset,
      resolved.map (fun word ↦ [word]) = some [word] ∧
      AddressInstr.decode word = some (instr offset) ∧
      offset = (target.toNat : ℤ) - place.toNat) ↔
      4 ∣ (target.toNat : ℤ) - place.toNat ∧ -2 ^ (n + 1) ≤ (target.toNat : ℤ) - place.toNat ∧
        (target.toNat : ℤ) - place.toNat < 2 ^ (n + 1) := by
  have hsub := toNat_sub_place place target
  have htoNat : (ofUnsigned (target - place)).toBits.toNat = (target - place).toNat := by
    rw [toBits_ofUnsigned, toNat_setWidth_of_le (by decide)]
  by_cases hdvd : 2 ^ 2 ∣ (target - place).toNat
  · have hfour : 4 ∣ (target.toNat : ℤ) - place.toNat := by omega
    rw [← toInt_displacement_iff hn hdvd, hresolved, encodeImm_of_dvd (by rwa [htoNat])]
    constructor
    · rintro ⟨_, offset, heq, hread, rfl⟩
      obtain rfl := (cons.inj (some.inj heq)).1
      rw [hdecode] at hread
      exact ⟨hfour, hinj _ _ (some.inj hread)⟩
    · exact fun h ↦ ⟨_, _, rfl, hdecode _, h.2⟩
  · have hfour : ¬4 ∣ (target.toNat : ℤ) - place.toNat := by omega
    rw [hresolved, encodeImm_of_not_dvd (by rwa [htoNat])]
    exact iff_of_false (fun ⟨_, _, h, _⟩ ↦ nomatch h) fun h ↦ hfour h.1

theorem branch_iff (frame : Frame) (b : Branch) (place target : BitVec 32) :
    (Form.branch b place target).Decodes frame ↔ (Form.branch b place target).Fits frame := by
  have hcode : (Form.branch b place target).code frame
      = (resolveSymbol b.encode.1 (target - place) b.encode.2).map fun word ↦ [word] := by
    cases hword : resolveSymbol b.encode.1 (target - place) b.encode.2 <;>
      simp [Form.code, hword]
  rw [Form.Decodes, hcode]
  cases b with
  | B =>
    refine branch_iff_of_resolved (n := 26) (.inl rfl) ?_
      (fun imm ↦ AddressInstr.decode_branch false imm) fun x y h ↦ (AddressInstr.branch.inj h).2
    rw [Branch.encode, resolveSymbol, flag_false_or]
    cases encodeImm (ofUnsigned (target - place)) 26 2 <;> rfl
  | B_COND condition =>
    refine branch_iff_of_resolved (n := 19) (.inr rfl) ?_
      (fun imm ↦ AddressInstr.decode_branchCond (encodeCond condition) imm)
      fun x y h ↦ (AddressInstr.branchCond.inj h).2
    have hfirst : (0x54000000 ||| field (encodeCond condition) 0).extractLsb' 24 8 = 0x54 := by
      rw [extractLsb'_or, extract_field_apart (by omega)]
      rfl
    have hne : (0x54 : BitVec 8) ≠ 0x14 := by decide
    simp only [Branch.encode, resolveSymbol, hfirst, if_neg hne, if_true]
    cases encodeImm (ofUnsigned (target - place)) 19 2 <;> rfl
  | BL darwin =>
    refine branch_iff_of_resolved (n := 26) (.inl rfl) ?_
      (fun imm ↦ AddressInstr.decode_branch true imm) fun x y h ↦ (AddressInstr.branch.inj h).2
    rw [Branch.encode]
    cases darwin <;> cases h : encodeImm (ofUnsigned (target - place)) 26 2 <;>
      simp [resolveSymbol, h] <;> rfl

end Branches

/-! ## All that is emitted -/

instance : Inhabited Machine := ⟨⟨0, 0, fun _ ↦ 0, fun _ ↦ 0, fun _ ↦ 0⟩⟩

/-- **A word holds what was intended exactly when it fits**: for every frame, every access, pair,
addition and branch. -/
theorem decodes_iff_fits (frame : Frame) (form : Form) : form.Decodes frame ↔ form.Fits frame := by
  cases form with
  | transfer load access place =>
    rw [Form.Decodes, Form.Fits]
    exact (forall_congr' fun m ↦ transfer_iff frame m load access place).trans (forall_const _)
  | pair load reg1 reg2 size base u =>
    rw [Form.Decodes]
    exact (forall_congr' fun m ↦ pair_iff frame m load reg1 reg2 size base u).trans (forall_const _)
  | immediate sub dst lhs size value shifted =>
    exact immediate_iff frame sub dst lhs size value shifted
  | stackOffset sub dst slot offset =>
    rw [Form.Decodes]
    exact (forall_congr' fun m ↦ stackOffset_iff frame sub dst slot offset m).trans (forall_const _)
  | modifySp sub value =>
    rw [Form.Decodes]
    exact (forall_congr' fun m ↦ modifySp_iff frame sub value m).trans (forall_const _)
  | branch b place target => exact branch_iff frame b place target

/-- `ldr x0, [x1, #32768]` loads what is at `x1`. -/
theorem not_decodes_far : ¬∀ (frame : Frame) (form : Form), form.Decodes frame := by
  intro h
  have hfar := h (fun _ ↦ 0) (.transfer true (.word (.inl ⟨0, by decide⟩) .eight)
    (.offset ⟨1, by decide⟩ 32768)) default
  rw [← accessEffect, transfer_iff] at hfar
  rcases hfar with ⟨-, -, hlt⟩ | ⟨-, hle⟩
  · revert hlt
    decide
  · revert hle
    decide

end Banjo.Target.AArch64.Encoder
