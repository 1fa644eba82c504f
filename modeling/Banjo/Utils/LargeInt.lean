import Mathlib.Data.BitVec
import Mathlib.Tactic.Ring

/-!
# Large integers

A `LargeInt` is a sign and a magnitude. Its operations wrap around at 64 bits, so they compute with
the bits of two's complement.
-/

open BitVec

namespace Banjo

/-- A sign and a magnitude of 64 bits. -/
structure LargeInt where
  magnitude : BitVec 64
  negative : Bool
  deriving DecidableEq, Repr

namespace LargeInt

/-- `to_bits`. -/
def toBits (a : LargeInt) : BitVec 64 := if a.negative then ~~~a.magnitude + 1 else a.magnitude

def add (lhs rhs : LargeInt) : LargeInt :=
  if lhs.negative = rhs.negative then ⟨lhs.magnitude + rhs.magnitude, lhs.negative⟩
  else if rhs.magnitude ≤ lhs.magnitude then ⟨lhs.magnitude - rhs.magnitude, lhs.negative⟩
  else ⟨rhs.magnitude - lhs.magnitude, !lhs.negative⟩

def mul (lhs rhs : LargeInt) : LargeInt :=
  ⟨lhs.magnitude * rhs.magnitude, lhs.negative != rhs.negative⟩

def neg (a : LargeInt) : LargeInt := ⟨a.magnitude, !a.negative⟩

def sub (lhs rhs : LargeInt) : LargeInt := add lhs (neg rhs)

/-- A division by zero is not survived. -/
def div (lhs rhs : LargeInt) : Option LargeInt :=
  if rhs.magnitude = 0 then none
  else some ⟨lhs.magnitude / rhs.magnitude, lhs.negative != rhs.negative⟩

def mod (lhs rhs : LargeInt) : Option LargeInt :=
  if rhs.magnitude = 0 then none
  else some ⟨lhs.magnitude % rhs.magnitude, lhs.negative != rhs.negative⟩

def and (lhs rhs : LargeInt) : LargeInt := ⟨lhs.toBits &&& rhs.toBits, false⟩

def or (lhs rhs : LargeInt) : LargeInt := ⟨lhs.toBits ||| rhs.toBits, false⟩

def xor (lhs rhs : LargeInt) : LargeInt := ⟨lhs.toBits ^^^ rhs.toBits, false⟩

/-- `<`, by the signs and then by the magnitudes; a negative zero is below zero. -/
def lt (lhs rhs : LargeInt) : Bool :=
  if lhs.negative = rhs.negative then
    if lhs.negative then rhs.magnitude < lhs.magnitude else lhs.magnitude < rhs.magnitude
  else lhs.negative

/-- `set_from`, of a signed number of 64 bits. -/
def ofSigned (value : BitVec 64) : LargeInt := ⟨if value.msb then -value else value, value.msb⟩

/-- `set_from`, of a signed number of which the lowest 32 bits are kept. -/
def ofSigned32 (value : BitVec 64) : LargeInt := ofSigned ((value.setWidth 32).signExtend 64)

instance : Add LargeInt := ⟨add⟩

instance : Mul LargeInt := ⟨mul⟩

instance : Zero LargeInt := ⟨⟨0, false⟩⟩

theorem toBits_of_negative {a : LargeInt} (h : a.negative = true) : a.toBits = -a.magnitude := by
  rw [toBits, if_pos h, neg_eq_not_add]
  rfl

theorem toBits_of_not_negative {a : LargeInt} (h : a.negative = false) :
    a.toBits = a.magnitude := by
  rw [toBits, h]
  rfl

@[simp] theorem toBits_zero : (0 : LargeInt).toBits = 0 := rfl

@[simp] theorem toBits_mk_false (magnitude : BitVec 64) :
    (LargeInt.mk magnitude false).toBits = magnitude := rfl

@[simp] theorem toBits_add (a b : LargeInt) : (a + b).toBits = a.toBits + b.toBits := by
  change (add a b).toBits = _
  obtain ⟨m, s⟩ := a
  obtain ⟨n, t⟩ := b
  cases s <;> cases t
  · rfl
  · rw [add, if_neg Bool.false_ne_true]
    dsimp only
    split_ifs
    · rw [toBits_of_not_negative rfl, toBits_of_not_negative rfl, toBits_of_negative rfl]
      exact BitVec.sub_eq_add_neg ..
    · rw [toBits_of_negative rfl, toBits_of_not_negative rfl, toBits_of_negative rfl]
      rw [neg_sub, add_comm]
  · rw [add, if_neg Bool.false_ne_true.symm]
    dsimp only
    split_ifs
    · rw [toBits_of_negative rfl, toBits_of_negative rfl, toBits_of_not_negative rfl]
      rw [neg_sub]
    · rw [toBits_of_not_negative rfl, toBits_of_negative rfl, toBits_of_not_negative rfl]
      rw [BitVec.sub_eq_add_neg, add_comm]
  · rw [add, if_pos rfl]
    rw [toBits_of_negative rfl, toBits_of_negative rfl, toBits_of_negative rfl]
    rw [BitVec.neg_add, BitVec.sub_eq_add_neg]

@[simp] theorem toBits_mul (a b : LargeInt) : (a * b).toBits = a.toBits * b.toBits := by
  change (mul a b).toBits = _
  obtain ⟨m, s⟩ := a
  obtain ⟨n, t⟩ := b
  cases s <;> cases t
  · rfl
  · rw [toBits_of_negative rfl, toBits_of_not_negative rfl, toBits_of_negative rfl]
    exact (mul_neg m n).symm
  · rw [toBits_of_negative rfl, toBits_of_negative rfl, toBits_of_not_negative rfl]
    exact (neg_mul m n).symm
  · rw [toBits_of_not_negative rfl, toBits_of_negative rfl, toBits_of_negative rfl]
    exact (neg_mul_neg m n).symm

end LargeInt

end Banjo

/-!
## The numbers large integers stand for

A large integer stands for the number with its sign and magnitude, and an instruction of `w` bits
reads this number modulo `2 ^ w`. Zero can have either sign.
-/

namespace Banjo.LargeInt

/-- The number. -/
def value (a : LargeInt) : ℤ := if a.negative then -a.magnitude.toNat else a.magnitude.toNat

/-- What an instruction of `w` bits reads. -/
def ofWidth (a : LargeInt) (w : ℕ) : BitVec w := a.toBits.setWidth w

@[simp] theorem value_mk_false (magnitude : BitVec 64) :
    (LargeInt.mk magnitude false).value = magnitude.toNat := rfl

@[simp] theorem value_mk_true (magnitude : BitVec 64) :
    (LargeInt.mk magnitude true).value = -magnitude.toNat := rfl

variable (a : LargeInt)

theorem natAbs_value : a.value.natAbs = a.magnitude.toNat := by
  obtain ⟨m, s⟩ := a
  cases s
  · rw [value_mk_false, Int.natAbs_natCast]
  · rw [value_mk_true, Int.natAbs_neg, Int.natAbs_natCast]

theorem value_of_negative {a : LargeInt} (h : a.negative = true) :
    a.value = -a.magnitude.toNat := if_pos h

theorem value_of_not_negative {a : LargeInt} (h : a.negative = false) :
    a.value = a.magnitude.toNat := if_neg (by rw [h]; exact Bool.false_ne_true)

theorem value_eq_zero_iff {a : LargeInt} : a.value = 0 ↔ a.magnitude = 0 := by
  rw [← Int.natAbs_eq_zero, natAbs_value, toNat_eq]
  rfl

/-- The bits are those of the number. -/
theorem toBits_eq_ofInt : a.toBits = BitVec.ofInt 64 a.value := by
  obtain ⟨m, s⟩ := a
  cases s
  · rw [toBits_of_not_negative rfl, value_mk_false, ofInt_natCast, ofNat_toNat, setWidth_eq]
  · rw [toBits_of_negative rfl, value_mk_true, ofInt_neg, ofInt_natCast, ofNat_toNat, setWidth_eq]

theorem setWidth_ofInt {w : ℕ} (hw : w ≤ 64) (n : ℤ) :
    (BitVec.ofInt 64 n).setWidth w = BitVec.ofInt w n := by
  rw [← toInt_inj, toInt_setWidth, toInt_ofInt, toNat_ofInt]
  have hdvd : ((2 ^ w : ℕ) : ℤ) ∣ ((2 ^ 64 : ℕ) : ℤ) :=
    Int.natCast_dvd_natCast.mpr (pow_dvd_pow 2 hw)
  rw [Int.toNat_of_nonneg (Int.emod_nonneg _ (by decide)), ← Int.emod_bmod,
    Int.emod_emod_of_dvd _ hdvd, Int.emod_bmod]

theorem ofWidth_eq_ofInt {w : ℕ} (hw : w ≤ 64) (a : LargeInt) :
    a.ofWidth w = BitVec.ofInt w a.value := by
  rw [ofWidth, toBits_eq_ofInt, setWidth_ofInt hw]

/-! ### Ranges -/

/-- The numbers of `w` bits, with a sign or without. -/
def InRange (signed : Bool) (w : ℕ) (a : LargeInt) : Prop :=
  if signed then -2 ^ (w - 1) ≤ a.value ∧ a.value < 2 ^ (w - 1) else 0 ≤ a.value ∧ a.value < 2 ^ w

instance (signed : Bool) (w : ℕ) (a : LargeInt) : Decidable (a.InRange signed w) :=
  inferInstanceAs (Decidable (ite _ _ _))

theorem toInt_ofWidth {w : ℕ} (hpos : 0 < w) (hw : w ≤ 64) {a : LargeInt} (h : a.InRange true w) :
    (a.ofWidth w).toInt = a.value := by
  rw [ofWidth_eq_ofInt hw]
  exact toInt_ofInt_eq_self hpos h.1 h.2

theorem toNat_ofWidth {w : ℕ} (hw : w ≤ 64) {a : LargeInt} (h : a.InRange false w) :
    ((a.ofWidth w).toNat : ℤ) = a.value := by
  have hlt : a.value < ((2 ^ w : ℕ) : ℤ) := by
    rw [Nat.cast_pow]
    exact h.2
  rw [ofWidth_eq_ofInt hw, toNat_ofInt, Int.toNat_of_nonneg (Int.emod_nonneg _ ?_),
    Int.emod_eq_of_lt h.1 hlt]
  exact_mod_cast (Nat.two_pow_pos w).ne'

/-! ### Arithmetic -/

@[simp] theorem value_neg : a.neg.value = -a.value := by
  obtain ⟨m, s⟩ := a
  cases s
  · rfl
  · exact (neg_neg _).symm

theorem toBits_neg : a.neg.toBits = -a.toBits := by
  rw [toBits_eq_ofInt, value_neg, ofInt_neg, toBits_eq_ofInt]

variable {w : ℕ}

theorem ofWidth_add (hw : w ≤ 64) (a b : LargeInt) :
    (a.add b).ofWidth w = a.ofWidth w + b.ofWidth w := by
  rw [ofWidth, show a.add b = a + b from rfl, toBits_add, setWidth_add _ _ hw]
  rfl

theorem ofWidth_sub (hw : w ≤ 64) (a b : LargeInt) :
    (a.sub b).ofWidth w = a.ofWidth w - b.ofWidth w := by
  rw [sub, ofWidth_add hw, sub_eq_add_neg, ofWidth, ofWidth, toBits_neg, setWidth_neg_of_le hw]
  rfl

theorem ofWidth_mul (hw : w ≤ 64) (a b : LargeInt) :
    (a.mul b).ofWidth w = a.ofWidth w * b.ofWidth w := by
  rw [ofWidth, show a.mul b = a * b from rfl, toBits_mul, setWidth_mul _ _ hw]
  rfl

variable (b : LargeInt)

theorem ofWidth_and : (a.and b).ofWidth w = a.ofWidth w &&& b.ofWidth w :=
  setWidth_and

theorem ofWidth_or : (a.or b).ofWidth w = a.ofWidth w ||| b.ofWidth w :=
  setWidth_or

theorem ofWidth_xor : (a.xor b).ofWidth w = a.ofWidth w ^^^ b.ofWidth w :=
  setWidth_xor

/-- The quotient is truncated toward zero. -/
theorem div_spec {a b : LargeInt} (h : b.magnitude ≠ 0) :
    ∃ q, a.div b = some q ∧ q.value = a.value.tdiv b.value := by
  refine ⟨_, if_neg h, ?_⟩
  obtain ⟨m, s⟩ := a
  obtain ⟨n, t⟩ := b
  cases s <;> cases t <;> simp [toNat_udiv]

/-- The remainder has the sign of the quotient. -/
theorem mod_spec {a b : LargeInt} (h : b.magnitude ≠ 0) :
    ∃ r, a.mod b = some r ∧
      r.value = if b.negative then -a.value.tmod b.value else a.value.tmod b.value := by
  refine ⟨_, if_neg h, ?_⟩
  obtain ⟨m, s⟩ := a
  obtain ⟨n, t⟩ := b
  cases s <;> cases t <;> simp [toNat_umod, Int.tmod_eq_emod_of_nonneg]

/-- `<` compares the numbers, and zeros by their signs. -/
theorem lt_iff : a.lt b = true ↔
    a.value < b.value ∨ a.value = 0 ∧ b.value = 0 ∧ a.negative = true ∧ b.negative = false := by
  obtain ⟨m, s⟩ := a
  obtain ⟨n, t⟩ := b
  cases s <;> cases t <;> simp [lt, lt_def]
  omega

/-- Large integers are the same when they are the same numbers, with the same sign if zero. -/
theorem eq_iff : a = b ↔ a.value = b.value ∧ a.negative = b.negative := by
  obtain ⟨m, s⟩ := a
  obtain ⟨n, t⟩ := b
  cases s <;> cases t <;> simp [← toNat_inj]

end Banjo.LargeInt
