import Banjo.Passes.Precomputing
import Banjo.SSA.IntSemantics

/-!
# Folded arithmetic

The immediates of an instruction are numbers of any size, and they are folded without the width of
the type. For sums, products and the operations on bits this is what the machine computes; a
division depends on the sign and the range its operands are read with.
-/

open BitVec (getLsbD_setWidth setWidth_eq)

namespace Banjo.Passes.Precomputing

open SSA

variable {fp : FloatArithmetic} {w : ℕ}

/-- An instruction on two immediates. -/
def onImmediates (opcode : Opcode) (dest : VirtualRegister) (type : SSAType) (lhs rhs : LargeInt) :
    Instruction where
  opcode := opcode
  dest := some dest
  operands := [⟨.intImmediate lhs, type⟩, ⟨.intImmediate rhs, type⟩]

/-- The opcodes that `precompute_result` folds by the operators of `LargeInt`. -/
def isArithmetic (opcode : Opcode) : Bool :=
  opcode ∈ [.ADD, .SUB, .MUL, .AND, .OR, .XOR, .SDIV, .SREM, .UDIV, .UREM]

/-- The instruction is folded, to an immediate that is congruent to what the machine computes. -/
def Agrees (fp : FloatArithmetic) (w : ℕ) (instr : Instruction) (lhs rhs : LargeInt) : Prop :=
  ∃ result, precomputeResult fp instr
      = some (some ⟨.intImmediate result, (instr.getOperand 0).type⟩) ∧
    instr.opcode.evalInt (lhs.ofWidth w) (rhs.ofWidth w) = some (result.ofWidth w)

/-- The numbers a division reads are those of its immediates. -/
def Readable (opcode : Opcode) (w : ℕ) (a : LargeInt) : Prop :=
  opcode.isDivision = true → a.InRange opcode.isSigned w

/-- A remainder has the sign the machine gives it. -/
def KeepsSign (opcode : Opcode) (lhs rhs : LargeInt) : Prop :=
  opcode = .SREM → rhs.value < 0 → rhs.value ∣ lhs.value

/-! ## Divisions -/

section Division

variable {lhs rhs : LargeInt}

theorem magnitude_ne_zero (hzero : rhs.ofWidth w ≠ 0) : rhs.magnitude ≠ 0 := by
  rintro h
  obtain ⟨m, s⟩ := rhs
  obtain rfl : m = 0 := h
  refine hzero ?_
  cases s <;> simp [LargeInt.ofWidth, LargeInt.toBits]

/-- Quotients of numbers with a sign. -/
theorem ofWidth_sdiv (hpos : 0 < w) (hw : w ≤ 64) (hlhs : lhs.InRange true w)
    (hrhs : rhs.InRange true w) {q : LargeInt} (hq : q.value = lhs.value.tdiv rhs.value) :
    (lhs.ofWidth w).sdiv (rhs.ofWidth w) = q.ofWidth w := by
  rw [← BitVec.toInt_inj, BitVec.toInt_sdiv, LargeInt.toInt_ofWidth hpos hw hlhs,
    LargeInt.toInt_ofWidth hpos hw hrhs, LargeInt.ofWidth_eq_ofInt hw, BitVec.toInt_ofInt, hq]

/-- Remainders of numbers with a sign: the one of `LargeInt` is right if the divisor has none, or
if it is zero. -/
theorem ofWidth_srem_iff (hpos : 0 < w) (hw : w ≤ 64) (hlhs : lhs.InRange true w)
    (hrhs : rhs.InRange true w) (hne : rhs.value ≠ 0) {r : LargeInt}
    (hr : r.value = if rhs.negative then -lhs.value.tmod rhs.value else lhs.value.tmod rhs.value) :
    (lhs.ofWidth w).srem (rhs.ofWidth w) = r.ofWidth w ↔
    (rhs.value < 0 → rhs.value ∣ lhs.value) := by
  rw [← BitVec.toInt_inj, BitVec.toInt_srem, LargeInt.toInt_ofWidth hpos hw hlhs,
    LargeInt.toInt_ofWidth hpos hw hrhs, LargeInt.ofWidth_eq_ofInt hw, BitVec.toInt_ofInt]
  have hbound : (lhs.value.tmod rhs.value).natAbs < rhs.value.natAbs := by
    rw [Int.natAbs_tmod]
    exact Nat.mod_lt _ (Int.natAbs_pos.mpr hne)
  have hrange : (rhs.value.natAbs : ℤ) ≤ 2 ^ (w - 1) := by
    have hlow := hrhs.1
    have hhigh := hrhs.2
    omega
  have hsplit : (2 : ℤ) ^ w = 2 * 2 ^ (w - 1) := by
    rw [← pow_succ', Nat.sub_add_cancel hpos]
  have hcast : ((2 ^ w : ℕ) : ℤ) = 2 * 2 ^ (w - 1) := by rw [Nat.cast_pow, ← hsplit]; rfl
  have hsmall : ((lhs.value.tmod rhs.value).natAbs : ℤ) < 2 ^ (w - 1) := by omega
  have hself : ∀ n : ℤ, (n.natAbs : ℤ) < 2 ^ (w - 1) → n.bmod (2 ^ w) = n := by
    intro n hn
    refine Int.bmod_eq_of_le ?_ ?_ <;> rw [hcast] <;> omega
  have hneg : rhs.negative = true ↔ rhs.value < 0 := by
    constructor
    · intro h
      rw [LargeInt.value_of_negative h] at hne ⊢
      omega
    · intro h
      by_contra hnot
      rw [LargeInt.value_of_not_negative (Bool.not_eq_true _ ▸ hnot)] at h
      omega
  by_cases hsign : rhs.value < 0
  · rw [hr, if_pos (hneg.mpr hsign), hself _ (by rwa [Int.natAbs_neg])]
    rw [imp_iff_right hsign, Int.dvd_iff_tmod_eq_zero]
    omega
  · rw [hr, if_neg (hneg.not.mpr hsign), hself _ hsmall]
    exact iff_of_true rfl fun h ↦ absurd h hsign

/-- Quotients of numbers without a sign. -/
theorem ofWidth_udiv (hw : w ≤ 64) (hlhs : lhs.InRange false w) (hrhs : rhs.InRange false w)
    {q : LargeInt} (hq : q.value = lhs.value.tdiv rhs.value) :
    lhs.ofWidth w / rhs.ofWidth w = q.ofWidth w := by
  rw [LargeInt.ofWidth_eq_ofInt hw q, hq, ← LargeInt.toNat_ofWidth hw hlhs,
    ← LargeInt.toNat_ofWidth hw hrhs, ← BitVec.toNat_inj, ← Int.ofNat_tdiv, BitVec.ofInt_natCast,
    BitVec.toNat_ofNat, BitVec.toNat_udiv, Nat.mod_eq_of_lt]
  exact (Nat.div_le_self _ _).trans_lt (BitVec.isLt _)

theorem ofWidth_umod (hw : w ≤ 64) (hlhs : lhs.InRange false w) (hrhs : rhs.InRange false w)
    (hne : rhs.value ≠ 0) {r : LargeInt}
    (hr : r.value = if rhs.negative then -lhs.value.tmod rhs.value else lhs.value.tmod rhs.value) :
    lhs.ofWidth w % rhs.ofWidth w = r.ofWidth w := by
  have hpositive : ¬rhs.negative = true := by
    intro hnegative
    have hnonneg := hrhs.1
    rw [LargeInt.value_of_negative hnegative] at hnonneg hne
    omega
  have hvalue : r.value = ((lhs.ofWidth w).toNat % (rhs.ofWidth w).toNat : ℕ) := by
    rw [Int.natCast_mod, LargeInt.toNat_ofWidth hw hlhs, LargeInt.toNat_ofWidth hw hrhs, hr,
      if_neg hpositive, Int.tmod_eq_emod_of_nonneg hlhs.1]
  rw [LargeInt.ofWidth_eq_ofInt hw r, hvalue, BitVec.ofInt_natCast, ← BitVec.toNat_inj,
    BitVec.toNat_ofNat, BitVec.toNat_umod]
  exact (Nat.mod_eq_of_lt ((Nat.mod_le _ _).trans_lt (BitVec.isLt _))).symm

end Division

/-! ## Folds -/

section Fold

variable {opcode : Opcode} {dest : VirtualRegister} {type : SSAType} {lhs rhs : LargeInt}
  {compute : LargeInt → LargeInt → Option LargeInt}

theorem agrees_iff_compute
    (hcompute : precomputeResult fp (onImmediates opcode dest type lhs rhs)
      = precomputeBinaryIntOperation (onImmediates opcode dest type lhs rhs) compute) :
    Agrees fp w (onImmediates opcode dest type lhs rhs) lhs rhs ↔
      ∃ result, compute lhs rhs = some result ∧
        opcode.evalInt (lhs.ofWidth w) (rhs.ofWidth w) = some (result.ofWidth w) := by
  have hfold : precomputeResult fp (onImmediates opcode dest type lhs rhs)
      = (compute lhs rhs).map fun result ↦ some ⟨.intImmediate result, type⟩ := hcompute
  rw [Agrees, hfold]
  refine exists_congr fun result ↦ and_congr_left fun _ ↦ ?_
  cases hresult : compute lhs rhs with
  | none => simp
  | some computed =>
    have htype : ((onImmediates opcode dest type lhs rhs).getOperand 0).type = type := rfl
    simp [htype]

/-- Where the operator cannot fail, it agrees if it computes with the bits. -/
theorem agrees_of_total {operator : LargeInt → LargeInt → LargeInt}
    (hcompute : precomputeResult fp (onImmediates opcode dest type lhs rhs)
      = precomputeBinaryIntOperation (onImmediates opcode dest type lhs rhs)
          fun a b ↦ some (operator a b))
    (heval : opcode.evalInt (lhs.ofWidth w) (rhs.ofWidth w)
      = some ((operator lhs rhs).ofWidth w)) :
    Agrees fp w (onImmediates opcode dest type lhs rhs) lhs rhs :=
  (agrees_iff_compute hcompute).mpr ⟨_, rfl, heval⟩

theorem agrees_iff_of_eq {result : LargeInt} {machine : BitVec w}
    (heval : opcode.evalInt (lhs.ofWidth w) (rhs.ofWidth w) = some machine)
    (hresult : compute lhs rhs = some result)
    (hcompute : precomputeResult fp (onImmediates opcode dest type lhs rhs)
      = precomputeBinaryIntOperation (onImmediates opcode dest type lhs rhs) compute) :
    Agrees fp w (onImmediates opcode dest type lhs rhs) lhs rhs ↔ machine = result.ofWidth w := by
  rw [agrees_iff_compute hcompute, hresult, heval]
  simp

/-- **Folded arithmetic is what the machine computes**, for sums, products and the operations on
bits of any immediates, and for a division whose immediates are in the range it reads them in. The
one exception is the remainder by a negative number. -/
theorem agrees_iff_keepsSign (fp : FloatArithmetic) {w : ℕ} (hpos : 0 < w) (hw : w ≤ 64)
    {opcode : Opcode} (hopcode : isArithmetic opcode = true) (dest : VirtualRegister)
    (type : SSAType) (lhs rhs : LargeInt) (hzero : opcode.isDivision = true → rhs.ofWidth w ≠ 0)
    (hlhs : Readable opcode w lhs) (hrhs : Readable opcode w rhs) :
    Agrees fp w (onImmediates opcode dest type lhs rhs) lhs rhs ↔ KeepsSign opcode lhs rhs := by
  have hne : opcode.isDivision = true → rhs.magnitude ≠ 0 := fun h ↦ magnitude_ne_zero (hzero h)
  have hother : opcode ≠ .SREM → KeepsSign opcode lhs rhs := fun h heq ↦ absurd heq h
  have hcases : opcode ∈ [Opcode.ADD, .SUB, .MUL, .AND, .OR, .XOR, .SDIV, .SREM, .UDIV, .UREM] :=
    of_decide_eq_true hopcode
  simp only [List.mem_cons, List.not_mem_nil, or_false] at hcases
  rcases hcases with rfl | rfl | rfl | rfl | rfl | rfl | rfl | rfl | rfl | rfl
  · exact iff_of_true (agrees_of_total rfl (congrArg some (LargeInt.ofWidth_add hw lhs rhs).symm))
      (hother (by decide))
  · exact iff_of_true (agrees_of_total rfl (congrArg some (LargeInt.ofWidth_sub hw lhs rhs).symm))
      (hother (by decide))
  · exact iff_of_true (agrees_of_total rfl (congrArg some (LargeInt.ofWidth_mul hw lhs rhs).symm))
      (hother (by decide))
  · exact iff_of_true (agrees_of_total rfl (congrArg some (LargeInt.ofWidth_and lhs rhs).symm))
      (hother (by decide))
  · exact iff_of_true (agrees_of_total rfl (congrArg some (LargeInt.ofWidth_or lhs rhs).symm))
      (hother (by decide))
  · exact iff_of_true (agrees_of_total rfl (congrArg some (LargeInt.ofWidth_xor lhs rhs).symm))
      (hother (by decide))
  · obtain ⟨q, hdiv, hq⟩ := LargeInt.div_spec (a := lhs) (hne rfl)
    rw [agrees_iff_of_eq (Opcode.evalInt_sdiv (hzero rfl)) hdiv rfl]
    exact iff_of_true (ofWidth_sdiv hpos hw (hlhs rfl) (hrhs rfl) hq) (hother (by decide))
  · obtain ⟨r, hmod, hr⟩ := LargeInt.mod_spec (a := lhs) (hne rfl)
    rw [agrees_iff_of_eq (Opcode.evalInt_srem (hzero rfl)) hmod rfl, KeepsSign, imp_iff_right rfl]
    exact ofWidth_srem_iff hpos hw (hlhs rfl) (hrhs rfl)
      (LargeInt.value_eq_zero_iff.not.mpr (hne rfl)) hr
  · obtain ⟨q, hdiv, hq⟩ := LargeInt.div_spec (a := lhs) (hne rfl)
    rw [agrees_iff_of_eq (Opcode.evalInt_udiv (hzero rfl)) hdiv rfl]
    exact iff_of_true (ofWidth_udiv hw (hlhs rfl) (hrhs rfl) hq) (hother (by decide))
  · obtain ⟨r, hmod, hr⟩ := LargeInt.mod_spec (a := lhs) (hne rfl)
    rw [agrees_iff_of_eq (Opcode.evalInt_urem (hzero rfl)) hmod rfl]
    exact iff_of_true (ofWidth_umod hw (hlhs rfl) (hrhs rfl)
      (LargeInt.value_eq_zero_iff.not.mpr (hne rfl)) hr)
      (hother (by decide))

end Fold

/-- Doubles are left as they are. -/
def noFloats : FloatArithmetic where
  add a _ := a
  sub a _ := a
  mul a _ := a
  div a _ := a
  sqrt a := a
  lt _ _ := false
  ofSigned := Double.mk

/-- `-7 % 2` is `-1` in a byte. -/
theorem agrees_iff_keepsSign_srem :
    Agrees noFloats 8 (onImmediates .SREM 0 Primitive.I8 ⟨7, true⟩ ⟨2, false⟩)
      ⟨7, true⟩ ⟨2, false⟩ :=
  (agrees_iff_keepsSign noFloats (by decide) (by decide) (by decide) 0 Primitive.I8 ⟨7, true⟩
    ⟨2, false⟩ (fun _ ↦ by decide) (fun _ ↦ by decide) (fun _ ↦ by decide)).mpr
    fun _ h ↦ absurd h (by decide)

/-- `7 % -2` is folded to `-1`, and the machine computes `1`. -/
theorem not_agrees_remainder : ¬∀ (fp : FloatArithmetic) (w : ℕ) (opcode : Opcode)
    (dest : VirtualRegister) (type : SSAType) (lhs rhs : LargeInt), w ∈ [8, 16, 32, 64] →
    isArithmetic opcode = true → (opcode.isDivision = true → rhs.ofWidth w ≠ 0) →
    Agrees fp w (onImmediates opcode dest type lhs rhs) lhs rhs := by
  intro h
  obtain ⟨result, hfold, heval⟩ := h noFloats 8 .SREM 0 Primitive.I8 ⟨7, false⟩ ⟨2, true⟩
    (by decide) (by decide) fun _ ↦ by decide
  have hresult : precomputeResult noFloats (onImmediates .SREM 0 Primitive.I8 ⟨7, false⟩ ⟨2, true⟩)
      = some (some ⟨.intImmediate ⟨1, true⟩, Primitive.I8⟩) := by decide
  rw [hresult] at hfold
  obtain ⟨rfl, -⟩ : LargeInt.mk 1 true = result ∧ _ := by simpa using hfold
  exact absurd heval (by decide)

/-!
## Folded shifts

A shift is folded in 64 bits with a sign, and the result of `LSHL` and `LSHR` is cut to an `int`.
So what is shifted in comes from above the width of the type, and a result of 64 bits is kept only
if it fits an `int`. The fold of an `ASHR` asserts that its operands are not negative.
-/

variable {fp : FloatArithmetic} {w s : ℕ}

/-- The widths of the integer types. -/
def intWidths : List ℕ := [8, 16, 32, 64]

/-- The assertions of `to_u64`. -/
def assertionsHold (opcode : Opcode) (lhs rhs : LargeInt) : Bool :=
  match opcode with
  | .ASHR => !lhs.negative && !rhs.negative
  | _ => true

/-- The shift is folded without a failing assertion, to what the machine computes. -/
def ShiftAgrees (fp : FloatArithmetic) (w : ℕ) (instr : Instruction) (lhs rhs : LargeInt) : Prop :=
  assertionsHold instr.opcode lhs rhs = true ∧ Agrees fp w instr lhs rhs

/-- The number is that of an `int`. -/
def FitsInt (x : BitVec w) : Prop := -2 ^ 31 ≤ x.toInt ∧ x.toInt < 2 ^ 31

/-- The bits from the width on are all the same; what is above 64 bits is a copy of the sign. -/
def BitsAbove (w s : ℕ) (x : BitVec 64) (b : Bool) : Prop :=
  ∀ i < s, x.getLsbD (min (w + i) 63) = b

/-- When a shift by `s` is folded rightly. -/
def ShiftSafe (opcode : Opcode) (w s : ℕ) (lhs rhs : LargeInt) : Prop :=
  match opcode with
  | .LSHL => FitsInt (lhs.ofWidth w <<< s)
  | .LSHR => FitsInt (lhs.ofWidth w >>> s) ∧ BitsAbove w s lhs.toBits false
  | .ASHR => lhs.negative = false ∧ rhs.negative = false ∧
      BitsAbove w s lhs.toBits (lhs.ofWidth w).msb
  | _ => False

/-! ## What is shifted in -/

variable (x : BitVec 64)

theorem getLsbD_sshiftRight_64 {i : ℕ} (hi : i < 64) :
    (x.sshiftRight s).getLsbD i = x.getLsbD (min (s + i) 63) := by
  rw [BitVec.getLsbD_sshiftRight, BitVec.msb_eq_getLsbD_last]
  by_cases h : s + i < 64
  · rw [if_pos h, min_eq_left (by omega)]
    simp [hi]
  · rw [if_neg h, min_eq_right (by omega)]
    simp [hi]

theorem ushiftRight_eq_iff (hw : w ≤ 64) (hs : s < w) (x : BitVec 64) :
    x.setWidth w >>> s = (x.sshiftRight s).setWidth w ↔ BitsAbove w s x false := by
  constructor
  · intro h i hi
    have hbit := congrArg (fun y ↦ y.getLsbD (w + i - s)) h
    simp only [BitVec.getLsbD_ushiftRight, getLsbD_setWidth] at hbit
    rw [getLsbD_sshiftRight_64 x (by omega), show s + (w + i - s) = w + i by omega] at hbit
    simpa [show w + i - s < w by omega] using hbit.symm
  · intro h
    refine BitVec.eq_of_getLsbD_eq fun j hj ↦ ?_
    rw [BitVec.getLsbD_ushiftRight, getLsbD_setWidth, getLsbD_setWidth,
      getLsbD_sshiftRight_64 x (by omega)]
    by_cases hin : s + j < w
    · rw [min_eq_left (by omega)]
      simp [hin, hj]
    · have hbit := h (s + j - w) (by omega)
      rw [show w + (s + j - w) = s + j by omega] at hbit
      rw [hbit]
      simp [hin]

theorem sshiftRight_eq_iff (hw : w ≤ 64) (hs : s < w) (x : BitVec 64) :
    (x.setWidth w).sshiftRight s = (x.sshiftRight s).setWidth w ↔
      BitsAbove w s x (x.setWidth w).msb := by
  constructor
  · intro h i hi
    have hbit := congrArg (fun y ↦ y.getLsbD (w + i - s)) h
    simp only [BitVec.getLsbD_sshiftRight (x.setWidth w), getLsbD_setWidth] at hbit
    rw [getLsbD_sshiftRight_64 x (by omega), show s + (w + i - s) = w + i by omega,
      if_neg (by omega)] at hbit
    simpa [show w + i - s < w by omega, show ¬w ≤ w + i - s by omega] using hbit.symm
  · intro h
    refine BitVec.eq_of_getLsbD_eq fun j hj ↦ ?_
    rw [BitVec.getLsbD_sshiftRight, getLsbD_setWidth, getLsbD_setWidth,
      getLsbD_sshiftRight_64 x (by omega)]
    by_cases hin : s + j < w
    · rw [if_pos hin, min_eq_left (by omega)]
      simp [hin, hj]
    · have hbit := h (s + j - w) (by omega)
      rw [show w + (s + j - w) = s + j by omega] at hbit
      rw [if_neg hin, hbit]
      simp [hj]

/-! ## What is cut -/

/-- The lowest 32 bits, with their sign. -/
def cut (x : BitVec 64) : BitVec 64 := (x.setWidth 32).signExtend 64

theorem toBits_ofSigned : (LargeInt.ofSigned x).toBits = x := by
  rw [LargeInt.ofSigned]
  cases hmsb : x.msb
  · exact LargeInt.toBits_of_not_negative rfl
  · exact (LargeInt.toBits_of_negative rfl).trans BitVec.neg_neg

theorem setWidth_cut (hw : w ≤ 32) (x : BitVec 64) : (cut x).setWidth w = x.setWidth w := by
  refine BitVec.eq_of_getLsbD_eq fun i hi ↦ ?_
  rw [getLsbD_setWidth, getLsbD_setWidth, cut, BitVec.getLsbD_signExtend,
    if_pos (by omega), getLsbD_setWidth]
  simp [show i < 64 by omega, show i < 32 by omega]

theorem fitsInt_of_le (hw : w ≤ 32) (x : BitVec w) : FitsInt x := by
  have hpow : (2 : ℤ) ^ (w - 1) ≤ 2 ^ 31 := by
    exact_mod_cast Nat.pow_le_pow_right (by decide) (show w - 1 ≤ 31 by omega)
  have hle := BitVec.le_toInt x
  have hlt := BitVec.toInt_lt (x := x)
  constructor <;> omega

theorem cut_eq_iff : cut x = x ↔ FitsInt x := by
  rw [← BitVec.toInt_inj, cut, BitVec.toInt_signExtend_of_le (by decide)]
  constructor
  · intro h
    rw [FitsInt, ← h]
    exact ⟨BitVec.le_toInt _, BitVec.toInt_lt⟩
  · rintro ⟨hlow, hhigh⟩
    have hbmod : (x.setWidth 32).toInt = x.toInt.bmod (2 ^ 32) := by
      rw [BitVec.toInt_setWidth, BitVec.toInt_eq_toNat_bmod, Int.bmod_bmod_of_dvd (by decide)]
    rw [hbmod]
    exact Int.bmod_eq_of_le (by omega) (by omega)

/-- What is shifted out of a negative number with zeros does not end as a small number with a
sign. -/
theorem bitsAbove_of_cut_eq {x : BitVec 64} (hs : s < 64)
    (h : x >>> s = cut (x.sshiftRight s)) : BitsAbove 64 s x false := by
  have hbit : ∀ i < 64, (x >>> s).getLsbD i
      = if i < 32 then x.getLsbD (min (s + i) 63) else x.getLsbD (min (s + 31) 63) := by
    intro i hi
    rw [h, cut, BitVec.getLsbD_signExtend]
    by_cases hlow : i < 32
    · rw [if_pos hlow, if_pos hlow, getLsbD_setWidth, getLsbD_sshiftRight_64 x hi]
      simp [hi, hlow]
    · rw [if_neg hlow, if_neg hlow, BitVec.msb_eq_getLsbD_last, getLsbD_setWidth,
        getLsbD_sshiftRight_64 x (by decide)]
      simp [hi]
  intro i hi
  rw [min_eq_right (by omega)]
  -- the sign is shifted to bit `63 - s`, and the bits above it are zeros
  have hsign := hbit (63 - s) (by omega)
  have hlast := hbit 63 (by decide)
  rw [BitVec.getLsbD_ushiftRight] at hsign hlast
  rw [show s + (63 - s) = 63 by omega] at hsign
  rw [if_neg (by decide), BitVec.getLsbD_of_ge _ _ (by omega)] at hlast
  by_cases hlow : 63 - s < 32
  · rw [show min (s + 31) 63 = 63 by omega] at hlast
    exact hlast.symm
  · rw [hsign, if_neg hlow]
    exact hlast.symm

/-! ## Folds -/

section Fold

variable {lhs rhs : LargeInt}

theorem toNat_toBits_of_value (hs : s < 64) (hrhs : rhs.value = s) : rhs.toBits.toNat = s := by
  rw [LargeInt.toBits_eq_ofInt, hrhs, BitVec.ofInt_natCast, BitVec.toNat_ofNat]
  exact Nat.mod_eq_of_lt (hs.trans (by decide))

theorem toNat_ofWidth_of_value (hw : w ≤ 64) (hs : s < w) (hrhs : rhs.value = s) :
    (rhs.ofWidth w).toNat = s := by
  rw [LargeInt.ofWidth_eq_ofInt hw, hrhs, BitVec.ofInt_natCast, BitVec.toNat_ofNat]
  exact Nat.mod_eq_of_lt (hs.trans Nat.lt_two_pow_self)

theorem shift_of_value {f : BitVec 64 → ℕ → BitVec 64} {x count : BitVec 64}
    (hcount : count.toNat = s) (hs : s < 64) : shift f x count = some (f x s) := by
  rw [shift, hcount, if_pos hs]

theorem precomputeLshl_of_value (hs : s < 64) (hrhs : rhs.value = s) :
    precomputeLshl lhs rhs = some (LargeInt.ofSigned32 (lhs.toBits <<< s)) := by
  rw [precomputeLshl, shift_of_value (toNat_toBits_of_value hs hrhs) hs, Option.map_some]

theorem precomputeLshr_of_value (hs : s < 64) (hrhs : rhs.value = s) :
    precomputeLshr lhs rhs = some (LargeInt.ofSigned32 (lhs.toBits.sshiftRight s)) := by
  rw [precomputeLshr, shift_of_value (toNat_toBits_of_value hs hrhs) hs, Option.map_some]

theorem precomputeAshr_of_value (hs : s < 64) (hrhs : rhs.value = s) :
    precomputeAshr lhs rhs = some (LargeInt.ofSigned (lhs.magnitude.sshiftRight s)) := by
  have hcount : rhs.magnitude.toNat = s := by
    rw [← LargeInt.natAbs_value, hrhs, Int.natAbs_natCast]
  rw [precomputeAshr, shift_of_value hcount hs, Option.map_some]

theorem ofWidth_ofSigned32 : (LargeInt.ofSigned32 x).ofWidth w = (cut x).setWidth w := by
  rw [LargeInt.ofWidth, LargeInt.ofSigned32, toBits_ofSigned, cut]

theorem ofWidth_ofSigned : (LargeInt.ofSigned x).ofWidth w = x.setWidth w := by
  rw [LargeInt.ofWidth, toBits_ofSigned]

theorem shl_eq_iff (hwidth : w ≤ 32 ∨ w = 64) (x : BitVec 64) :
    x.setWidth w <<< s = (cut (x <<< s)).setWidth w ↔ FitsInt (x.setWidth w <<< s) := by
  rcases hwidth with hw | rfl
  · rw [setWidth_cut hw, BitVec.setWidth_shiftLeft_of_le (by omega)]
    exact iff_of_true rfl (fitsInt_of_le hw _)
  · rw [setWidth_eq, setWidth_eq, ← cut_eq_iff, eq_comm]

theorem shr_eq_iff (hwidth : w ≤ 32 ∨ w = 64) (hs : s < w) (x : BitVec 64) :
    x.setWidth w >>> s = (cut (x.sshiftRight s)).setWidth w ↔
      FitsInt (x.setWidth w >>> s) ∧ BitsAbove w s x false := by
  rcases hwidth with hw | rfl
  · rw [setWidth_cut hw, ushiftRight_eq_iff (by omega) hs]
    exact (and_iff_right (fitsInt_of_le hw _)).symm
  · have hshift := ushiftRight_eq_iff le_rfl hs x
    rw [setWidth_eq, setWidth_eq] at hshift
    rw [setWidth_eq, setWidth_eq, ← cut_eq_iff]
    constructor
    · intro h
      have hbits := bitsAbove_of_cut_eq hs h
      refine ⟨?_, hbits⟩
      rw [hshift.mpr hbits] at h ⊢
      exact h.symm
    · rintro ⟨hfits, hbits⟩
      rw [hshift.mpr hbits] at hfits ⊢
      exact hfits.symm

/-- **When a folded shift is right**: for every width and every amount below it, a folded shift is
what the machine computes, without a failing assertion, exactly when the result fits an `int`, the
bits above the width are those the machine shifts in and an `ASHR` has no negative operand. -/
theorem shiftAgrees_iff_shiftSafe (fp : FloatArithmetic) {w : ℕ} (hw : w ∈ intWidths)
    {opcode : Opcode} (hopcode : opcode ∈ [Opcode.LSHL, .LSHR, .ASHR]) (dest : VirtualRegister)
    (type : SSAType) (lhs rhs : LargeInt) {s : ℕ} (hs : s < w) (hrhs : rhs.value = s) :
    ShiftAgrees fp w (onImmediates opcode dest type lhs rhs) lhs rhs ↔
      ShiftSafe opcode w s lhs rhs := by
  have hwidth : w ≤ 32 ∨ w = 64 := by
    simp only [intWidths, List.mem_cons, List.not_mem_nil, or_false] at hw
    omega
  have hle : w ≤ 64 := by omega
  have hcount := toNat_ofWidth_of_value hle hs hrhs
  have hlt : (rhs.ofWidth w).toNat < w := hcount.trans_lt hs
  have h64 : s < 64 := by omega
  simp only [List.mem_cons, List.not_mem_nil, or_false] at hopcode
  rcases hopcode with rfl | rfl | rfl
  · have heval := Opcode.evalInt_lshl (x := lhs.ofWidth w) hlt
    rw [ShiftAgrees, agrees_iff_of_eq heval (precomputeLshl_of_value h64 hrhs) rfl, hcount,
      ofWidth_ofSigned32, LargeInt.ofWidth, shl_eq_iff hwidth]
    exact and_iff_right rfl
  · have heval := Opcode.evalInt_lshr (x := lhs.ofWidth w) hlt
    rw [ShiftAgrees, agrees_iff_of_eq heval (precomputeLshr_of_value h64 hrhs) rfl, hcount,
      ofWidth_ofSigned32, LargeInt.ofWidth, shr_eq_iff hwidth hs]
    exact and_iff_right rfl
  · have heval := Opcode.evalInt_ashr (x := lhs.ofWidth w) hlt
    rw [ShiftAgrees, agrees_iff_of_eq heval (precomputeAshr_of_value h64 hrhs) rfl, hcount,
      ofWidth_ofSigned, ShiftSafe, ← and_assoc]
    have hassert : assertionsHold (onImmediates .ASHR dest type lhs rhs).opcode lhs rhs = true ↔
        lhs.negative = false ∧ rhs.negative = false := by
      simp [assertionsHold, onImmediates]
    rw [hassert]
    refine and_congr_right fun hnegative ↦ ?_
    rw [LargeInt.ofWidth, LargeInt.toBits_of_not_negative hnegative.1]
    exact sshiftRight_eq_iff hle hs lhs.magnitude

end Fold

/-- A byte shifted left. -/
theorem shiftAgrees_iff_shiftSafe_byte :
    ShiftAgrees noFloats 8 (onImmediates .LSHL 0 Primitive.U8 ⟨5, false⟩ ⟨3, false⟩) ⟨5, false⟩
      ⟨3, false⟩ :=
  (shiftAgrees_iff_shiftSafe noFloats (by decide) (by decide) 0 Primitive.U8 ⟨5, false⟩ ⟨3, false⟩
    (s := 3) (by decide) (by decide)).mpr ⟨by decide, by decide⟩

/-- `1 << 40` in 64 bits is folded to `0`. -/
theorem not_shiftAgrees_long : ¬∀ (fp : FloatArithmetic) (w : ℕ) (opcode : Opcode)
    (dest : VirtualRegister) (type : SSAType) (lhs rhs : LargeInt) (s : ℕ), w ∈ intWidths →
    opcode ∈ [Opcode.LSHL, .LSHR, .ASHR] → s < w → rhs.value = s →
    ShiftAgrees fp w (onImmediates opcode dest type lhs rhs) lhs rhs := by
  intro h
  obtain ⟨-, result, hfold, heval⟩ := h noFloats 64 .LSHL 0 Primitive.U64 ⟨1, false⟩ ⟨40, false⟩ 40
    (by decide) (by decide) (by decide) (by decide)
  have hresult : precomputeResult noFloats (onImmediates .LSHL 0 Primitive.U64
    ⟨1, false⟩ ⟨40, false⟩)
      = some (some ⟨.intImmediate ⟨0, false⟩, Primitive.U64⟩) := by decide
  rw [hresult] at hfold
  obtain ⟨rfl, -⟩ : LargeInt.mk 0 false = result ∧ _ := by simpa using hfold
  exact absurd heval (by decide)

/-!
## Decided comparisons

A `CJMP` and a `SELECT` on two immediates are decided by the order of `LargeInt`, signed and
unsigned predicates alike, where a negative zero is below zero and not equal to it. Earlier folds
leave immediates outside of the range of the type and negative zeros behind.
-/

variable {w : ℕ}

/-- `precompute_instrs`, of a `CJMP`: the `JMP` that takes its place. -/
def precomputeJmp (fp : FloatArithmetic) (instr : Instruction) : Option (Option Instruction) :=
  match instr.opcode, (instr.getOperand 1).value, instr.targets with
  | .CJMP, .comparison comparison, [trueTarget, falseTarget] =>
    if isImmediate (instr.getOperand 0) && isImmediate (instr.getOperand 2) then
      (precomputeCmp fp (instr.getOperand 0) (instr.getOperand 2) comparison).map fun result ↦
        some { opcode := .JMP, targets := [if result then trueTarget else falseTarget] }
    else some none
  | .CJMP, _, _ => none
  | _, _, _ => some none

/-- A comparison of two immediates. -/
def comparing (comparison : Comparison) (type : SSAType) (lhs rhs : LargeInt) : List Operand :=
  [⟨.intImmediate lhs, type⟩, ⟨.comparison comparison, Primitive.VOID⟩, ⟨.intImmediate rhs, type⟩]

/-- A `CJMP` and a `SELECT` that compare immediates go the way of a decision. -/
structure FollowsDecision (fp : FloatArithmetic) (operands : List Operand)
    (decision : Bool) : Prop where
  jump : ∀ trueTarget falseTarget,
    precomputeJmp fp { opcode := .CJMP, operands, targets := [trueTarget, falseTarget] }
      = some (some { opcode := .JMP, targets := [if decision then trueTarget else falseTarget] })
  select : ∀ dest trueVal falseVal,
    precomputeResult fp { opcode := .SELECT, dest := some dest, operands := operands ++
      [trueVal, falseVal] }
      = some (some (if decision then trueVal else falseVal))

/-- An order compares the immediates as they are read. -/
def Comparable (comparison : Comparison) (w : ℕ) (a : LargeInt) : Prop :=
  match comparison with
  | .UGT | .UGE | .ULT | .ULE => a.InRange false w
  | .SGT | .SGE | .SLT | .SLE => a.InRange true w
  | _ => True

/-- A negative zero and a zero. -/
def ZeroBelow (a b : LargeInt) : Prop :=
  a.value = 0 ∧ b.value = 0 ∧ a.negative = true ∧ b.negative = false

/-- When the decision is right. -/
def DecisionSafe (comparison : Comparison) (w : ℕ) (lhs rhs : LargeInt) : Prop :=
  match comparison with
  | .EQ | .NE => lhs = rhs ∨ lhs.ofWidth w ≠ rhs.ofWidth w
  | .ULT | .SLT | .UGE | .SGE => ¬ZeroBelow lhs rhs
  | .UGT | .SGT | .ULE | .SLE => ¬ZeroBelow rhs lhs
  | _ => False

/-! ## Orders -/

section Order

variable {a b : LargeInt}

theorem lt_eq_decide_iff {p : Prop} [Decidable p] (hp : p ↔ a.value < b.value) :
    a.lt b = decide p ↔ ¬ZeroBelow a b := by
  rw [Bool.eq_iff_iff, LargeInt.lt_iff, decide_eq_true_iff, hp, ZeroBelow]
  constructor
  · intro h hzero
    have hlt := h.mp (Or.inr hzero)
    omega
  · intro h
    exact ⟨fun hlt ↦ hlt.resolve_right h, Or.inl⟩

theorem ult_eq_decide (hw : w ≤ 64) (ha : a.InRange false w) (hb : b.InRange false w) :
    (a.ofWidth w).ult (b.ofWidth w) = decide (a.value < b.value) := by
  rw [BitVec.ult, ← LargeInt.toNat_ofWidth hw ha, ← LargeInt.toNat_ofWidth hw hb]
  simp only [Nat.cast_lt]

theorem slt_eq_decide (hpos : 0 < w) (hw : w ≤ 64) (ha : a.InRange true w) (hb : b.InRange true w) :
    (a.ofWidth w).slt (b.ofWidth w) = decide (a.value < b.value) := by
  rw [BitVec.slt, LargeInt.toInt_ofWidth hpos hw ha, LargeInt.toInt_ofWidth hpos hw hb]

theorem lt_eq_ult_iff (hw : w ≤ 64) (ha : a.InRange false w) (hb : b.InRange false w) :
    a.lt b = (a.ofWidth w).ult (b.ofWidth w) ↔ ¬ZeroBelow a b := by
  rw [ult_eq_decide hw ha hb, lt_eq_decide_iff Iff.rfl]

theorem lt_eq_slt_iff (hpos : 0 < w) (hw : w ≤ 64) (ha : a.InRange true w) (hb : b.InRange true w) :
    a.lt b = (a.ofWidth w).slt (b.ofWidth w) ↔ ¬ZeroBelow a b := by
  rw [slt_eq_decide hpos hw ha hb, lt_eq_decide_iff Iff.rfl]

theorem ofWidth_ne_iff : decide (a = b) = decide (a.ofWidth w = b.ofWidth w) ↔
    a = b ∨ a.ofWidth w ≠ b.ofWidth w := by
  by_cases h : a = b
  · subst h
    simp
  · simp [h]

end Order

/-! ## Decisions -/

theorem followsDecision {fp : FloatArithmetic} {comparison : Comparison} {type : SSAType}
    {lhs rhs : LargeInt} (hint : isInt comparison = true) :
    FollowsDecision fp (comparing comparison type lhs rhs) (compareInts comparison lhs rhs) := by
  have hcmp : precomputeCmp fp ⟨.intImmediate lhs, type⟩ ⟨.intImmediate rhs, type⟩ comparison
      = some (compareInts comparison lhs rhs) := if_pos hint
  constructor
  · intro trueTarget falseTarget
    exact congrArg (Option.map _) hcmp
  · intro dest trueVal falseVal
    exact congrArg (Option.map _) hcmp

/-- **When a decided comparison is right**: equality exactly when the immediates are the same or
differ modulo `2 ^ w`; an order on immediates that are in the range it reads them in, unless it has
to tell a negative zero from a zero. -/
theorem decision_eq_iff (fp : FloatArithmetic) {w : ℕ} (hpos : 0 < w) (hw : w ≤ 64)
    {comparison : Comparison} (hint : isInt comparison = true) (type : SSAType) (lhs rhs : LargeInt)
    (hlhs : Comparable comparison w lhs) (hrhs : Comparable comparison w rhs) :
    ∃ decision, FollowsDecision fp (comparing comparison type lhs rhs) decision ∧
      (decision = comparison.holdsInt (lhs.ofWidth w) (rhs.ofWidth w) ↔
        DecisionSafe comparison w lhs rhs) := by
  refine ⟨_, followsDecision hint, ?_⟩
  cases comparison with
  | EQ => exact ofWidth_ne_iff
  | NE =>
    have hne : ∀ p q : Prop, [Decidable p] → [Decidable q] →
        (decide (¬p) = decide (¬q) ↔ decide p = decide q) := by
      intro p q _ _
      rw [decide_not, decide_not, Bool.not_inj_iff]
    exact (hne _ _).trans ofWidth_ne_iff
  | ULT => exact lt_eq_ult_iff hw hlhs hrhs
  | UGT => exact lt_eq_ult_iff hw hrhs hlhs
  | UGE =>
    rw [compareInts, Comparison.holdsInt, BitVec.ule_eq_not_ult, Bool.not_inj_iff]
    exact lt_eq_ult_iff hw hlhs hrhs
  | ULE =>
    rw [compareInts, Comparison.holdsInt, BitVec.ule_eq_not_ult, Bool.not_inj_iff]
    exact lt_eq_ult_iff hw hrhs hlhs
  | SLT => exact lt_eq_slt_iff hpos hw hlhs hrhs
  | SGT => exact lt_eq_slt_iff hpos hw hrhs hlhs
  | SGE =>
    rw [compareInts, Comparison.holdsInt, BitVec.sle_eq_not_slt, Bool.not_inj_iff]
    exact lt_eq_slt_iff hpos hw hlhs hrhs
  | SLE =>
    rw [compareInts, Comparison.holdsInt, BitVec.sle_eq_not_slt, Bool.not_inj_iff]
    exact lt_eq_slt_iff hpos hw hrhs hlhs
  | _ => cases hint

/-- `-1 < 1` with a sign. -/
theorem decision_eq_iff_signed : ∃ decision,
    FollowsDecision noFloats (comparing .SLT Primitive.I32 ⟨1, true⟩ ⟨1, false⟩) decision ∧
      (decision = Comparison.SLT.holdsInt (LargeInt.ofWidth ⟨1, true⟩ 32)
        (LargeInt.ofWidth ⟨1, false⟩ 32) ↔
        DecisionSafe .SLT 32 ⟨1, true⟩ ⟨1, false⟩) :=
  decision_eq_iff noFloats (by decide) (by decide) rfl Primitive.I32 ⟨1, true⟩ ⟨1, false⟩
    (by decide : LargeInt.InRange true 32 _) (by decide : LargeInt.InRange true 32 _)

/-- `0 * -1` is folded to a negative zero, which is then decided to differ from `0`. -/
theorem not_decision_eq_zero : ¬∀ (fp : FloatArithmetic) (w : ℕ) (comparison : Comparison)
    (type : SSAType) (lhs factor rhs : LargeInt), w ∈ intWidths → isInt comparison = true →
    ∃ product, precomputeResult fp (onImmediates .MUL 0 type lhs factor)
        = some (some ⟨.intImmediate product, type⟩) ∧
      FollowsDecision fp (comparing comparison type product rhs)
        (comparison.holdsInt (product.ofWidth w) (rhs.ofWidth w)) := by
  intro h
  obtain ⟨product, hproduct, hfollows⟩ := h noFloats 32 .EQ Primitive.I32 ⟨0, false⟩ ⟨1, true⟩
    ⟨0, false⟩ (by decide) rfl
  have hresult : precomputeResult noFloats (onImmediates .MUL 0 Primitive.I32 ⟨0, false⟩ ⟨1, true⟩)
      = some (some ⟨.intImmediate ⟨0, true⟩, Primitive.I32⟩) := by decide
  rw [hresult] at hproduct
  obtain rfl : LargeInt.mk 0 true = product := by simpa using hproduct
  have hjump := hfollows.jump ⟨1, []⟩ ⟨2, []⟩
  exact absurd hjump (by decide)

end Banjo.Passes.Precomputing
