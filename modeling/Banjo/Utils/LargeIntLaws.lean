import Banjo.Utils.LargeInt

/-!
# The laws of large integers

Sums, differences and products are those of the numbers as long as these fit, and so are quotients.
Two things are not as for numbers. The constructor from a magnitude and a sign resets the sign of a
zero in its parameter, after the member has been set from it: zero has two representations, and
`==` and `<=>` tell them apart. A remainder has the sign of the quotient.
-/

namespace Banjo.LargeInt

/-! ## Comparisons -/

/-- `operator==`. -/
def eq (lhs rhs : LargeInt) : Bool :=
  lhs.magnitude == rhs.magnitude && lhs.negative == rhs.negative

/-- `operator<=>`. -/
def cmp (lhs rhs : LargeInt) : Ordering :=
  if lhs.negative = rhs.negative then
    if lhs.magnitude = rhs.magnitude then .eq
    else if lhs.magnitude > rhs.magnitude then if lhs.negative then .lt else .gt
    else if lhs.negative then .gt else .lt
  else if lhs.negative then .lt
  else .gt

theorem eq_eq_true_iff (a b : LargeInt) : a.eq b = true ↔ a = b := by
  obtain ⟨m, s⟩ := a
  obtain ⟨n, t⟩ := b
  simp [eq]

theorem lt_irrefl (a : LargeInt) : a.lt a = false := by
  rw [lt, if_pos rfl]
  split <;> simp

/-- The order is that of `<`. -/
theorem cmp_eq (a b : LargeInt) : a.cmp b = if a.lt b then .lt else if a = b then .eq else .gt := by
  obtain ⟨m, s⟩ := a
  obtain ⟨n, t⟩ := b
  by_cases hsign : s = t
  · subst hsign
    by_cases hmn : m = n
    · subst hmn
      rw [lt_irrefl]
      simp [cmp]
    · cases s
      · simp only [cmp, lt, hmn]
        grind
      · simp only [cmp, lt, hmn]
        grind
  · cases s <;> cases t <;> simp [cmp, lt] at hsign ⊢

/-! ## Sums and products -/

theorem value_add {a b : LargeInt} (h : (a.value + b.value).natAbs < 2 ^ 64) :
    (a.add b).value = a.value + b.value := by
  obtain ⟨m, s⟩ := a
  obtain ⟨n, t⟩ := b
  cases s <;> cases t
  · rw [value_mk_false, value_mk_false] at h ⊢
    rw [add, if_pos rfl, value_mk_false]
    dsimp only
    rw [BitVec.toNat_add_of_lt (by omega), Nat.cast_add]
  · rw [add, if_neg Bool.false_ne_true]
    dsimp only
    split_ifs with hle
    · rw [value_mk_false, value_mk_false, value_mk_true, BitVec.toNat_sub_of_le hle]
      have : n.toNat ≤ m.toNat := hle
      omega
    · rw [Bool.not_false, value_mk_true, value_mk_false, value_mk_true,
        BitVec.toNat_sub_of_le (BitVec.le_of_lt (BitVec.not_le.mp hle))]
      have : m.toNat < n.toNat := BitVec.not_le.mp hle
      omega
  · rw [add, if_neg Bool.false_ne_true.symm]
    dsimp only
    split_ifs with hle
    · rw [value_mk_true, value_mk_true, value_mk_false, BitVec.toNat_sub_of_le hle]
      have : n.toNat ≤ m.toNat := hle
      omega
    · rw [Bool.not_true, value_mk_false, value_mk_true, value_mk_false,
        BitVec.toNat_sub_of_le (BitVec.le_of_lt (BitVec.not_le.mp hle))]
      have : m.toNat < n.toNat := BitVec.not_le.mp hle
      omega
  · rw [value_mk_true, value_mk_true] at h ⊢
    rw [add, if_pos rfl, value_mk_true]
    dsimp only
    rw [BitVec.toNat_add_of_lt (by omega), Nat.cast_add]
    omega

variable {a b : LargeInt}

theorem value_sub (h : (a.value - b.value).natAbs < 2 ^ 64) :
    (a.sub b).value = a.value - b.value := by
  rw [sub, value_add, value_neg, Int.sub_eq_add_neg]
  rwa [value_neg, ← Int.sub_eq_add_neg]

theorem value_mul (h : (a.value * b.value).natAbs < 2 ^ 64) :
    (a.mul b).value = a.value * b.value := by
  rw [Int.natAbs_mul, natAbs_value, natAbs_value] at h
  obtain ⟨m, s⟩ := a
  obtain ⟨n, t⟩ := b
  have hmul : ((m * n).toNat : ℤ) = m.toNat * n.toNat := by
    rw [BitVec.toNat_mul_of_lt h, Nat.cast_mul]
  cases s <;> cases t
  · exact hmul
  · change -((m * n).toNat : ℤ) = m.toNat * -n.toNat
    rw [hmul, Int.mul_neg]
  · change -((m * n).toNat : ℤ) = -m.toNat * n.toNat
    rw [hmul, Int.neg_mul]
  · change ((m * n).toNat : ℤ) = -m.toNat * -n.toNat
    rw [hmul, Int.neg_mul_neg]

/-! ## Two zeros -/

/-- The operators and the comparisons on `a` and `b` are those of the numbers. -/
structure Exact (a b : LargeInt) : Prop where
  add : (a.value + b.value).natAbs < 2 ^ 64 → (a.add b).value = a.value + b.value
  sub : (a.value - b.value).natAbs < 2 ^ 64 → (a.sub b).value = a.value - b.value
  mul : (a.value * b.value).natAbs < 2 ^ 64 → (a.mul b).value = a.value * b.value
  neg : a.neg.value = -a.value
  eq : a.eq b = decide (a.value = b.value)
  cmp : a.cmp b = compare a.value b.value

/-- Both are zero, with different signs. -/
def OppositeZeros (a b : LargeInt) : Prop :=
  a.magnitude = 0 ∧ b.magnitude = 0 ∧ a.negative ≠ b.negative

/-- Numbers have one representation, but zero has two. -/
theorem eq_iff_value (h : ¬OppositeZeros a b) : a = b ↔ a.value = b.value := by
  rw [eq_iff, and_iff_left_iff_imp]
  intro hvalue
  by_contra hsign
  have ha : ¬a.value = 0 := fun hzero ↦
    h ⟨value_eq_zero_iff.mp hzero, value_eq_zero_iff.mp (hvalue ▸ hzero), hsign⟩
  obtain ⟨m, s⟩ := a
  obtain ⟨n, t⟩ := b
  cases s <;> cases t
  · exact hsign rfl
  · rw [value_mk_false, value_mk_true] at hvalue
    rw [value_mk_false] at ha
    omega
  · rw [value_mk_false, value_mk_true] at hvalue
    rw [value_mk_true] at ha
    omega
  · exact hsign rfl

theorem lt_iff_value (h : ¬OppositeZeros a b) : a.lt b = true ↔ a.value < b.value := by
  rw [lt_iff, or_iff_left]
  rintro ⟨ha, hb, hneg, hpos⟩
  refine h ⟨value_eq_zero_iff.mp ha, value_eq_zero_iff.mp hb, ?_⟩
  rw [hneg, hpos]
  exact Bool.false_ne_true.symm

theorem exact_iff (a b : LargeInt) : Exact a b ↔ ¬OppositeZeros a b := by
  constructor
  · rintro ⟨-, -, -, -, heq, -⟩ ⟨ha, hb, hsign⟩
    have hvalue : a.value = b.value := by
      rw [value_eq_zero_iff.mpr ha, value_eq_zero_iff.mpr hb]
    have hab := (eq_eq_true_iff a b).mp (heq.trans (decide_eq_true hvalue))
    exact hsign (hab ▸ rfl)
  · intro h
    refine ⟨value_add, value_sub, value_mul, value_neg a, ?_, ?_⟩
    · rw [Bool.eq_iff_iff, eq_eq_true_iff, eq_iff_value h, decide_eq_true_iff]
    · rw [cmp_eq]
      change _ = if a.value < b.value then Ordering.lt
        else if a.value = b.value then Ordering.eq else Ordering.gt
      simp only [lt_iff_value h, eq_iff_value h]

/-- A zero that is negated is not the zero it was. -/
theorem not_exact_neg_zero : ¬Exact (neg 0) 0 := by
  intro h
  have heq := h.eq
  revert heq
  decide

/-! ## Quotients and remainders -/

/-- The quotient is truncated toward zero, and the remainder has the sign of the dividend: what the
instructions for a division compute. -/
structure Divides (a b q r : LargeInt) : Prop where
  quotient : q.value = a.value.tdiv b.value
  law : a.value = q.value * b.value + r.value
  bound : r.value.natAbs < b.value.natAbs
  sign : r.value ≠ 0 → r.value.sign = a.value.sign

def DivisionLaw (a b : LargeInt) : Prop :=
  ∃ q r, a.div b = some q ∧ a.mod b = some r ∧ Divides a b q r

/-- A remainder that obeys the law is the one of truncated division. -/
theorem Divides.remainder {q r : LargeInt} (h : Divides a b q r) :
    r.value = a.value.tmod b.value := by
  have hlaw := h.law
  rw [h.quotient, Int.tdiv_mul_self] at hlaw
  omega

theorem divides_of_remainder {q r : LargeInt} (hb : b.value ≠ 0)
    (hq : q.value = a.value.tdiv b.value) (hr : r.value = a.value.tmod b.value) :
    Divides a b q r where
  quotient := hq
  law := by rw [hq, hr, Int.tdiv_mul_add_tmod]
  bound := by
    rw [hr, Int.natAbs_tmod]
    exact Nat.mod_lt _ (Int.natAbs_pos.mpr hb)
  sign hne := by
    rw [hr] at hne ⊢
    rw [Int.sign_tmod, if_neg fun hdvd ↦ hne (Int.tmod_eq_zero_of_dvd hdvd)]

theorem divisionLaw_iff {a b : LargeInt} (hb : b.value ≠ 0) :
    DivisionLaw a b ↔ 0 < b.value ∨ b.value ∣ a.value := by
  have hmag : b.magnitude ≠ 0 := fun hzero ↦ hb (value_eq_zero_iff.mpr hzero)
  obtain ⟨q, hdiv, hq⟩ := div_spec (a := a) hmag
  obtain ⟨r, hmod, hr⟩ := mod_spec (a := a) hmag
  constructor
  · rintro ⟨q', r', hdiv', hmod', h⟩
    obtain rfl := Option.some.inj (hmod.symm.trans hmod')
    have hrem := h.remainder
    cases hneg : b.negative with
    | false =>
      have hvalue := value_of_not_negative hneg
      exact Or.inl (by omega)
    | true =>
      -- the remainder is its own negation
      rw [hr, hneg, if_pos rfl] at hrem
      exact Or.inr (Int.dvd_of_tmod_eq_zero (by omega))
  · intro h
    refine ⟨q, r, hdiv, hmod, divides_of_remainder hb hq ?_⟩
    cases hneg : b.negative with
    | false => rw [hr, hneg, if_neg Bool.false_ne_true]
    | true =>
      have hvalue := value_of_negative hneg
      have hdvd : b.value ∣ a.value := h.resolve_left (by omega)
      rw [hr, Int.tmod_eq_zero_of_dvd hdvd, Int.neg_zero, ite_self]

theorem divisionLaw_iff_seven : (2 : ℤ) ≠ 0 ∧
    (DivisionLaw ⟨7, true⟩ ⟨2, false⟩ ↔ 0 < (2 : ℤ) ∨ (2 : ℤ) ∣ -7) :=
  ⟨by decide, divisionLaw_iff (a := ⟨7, true⟩) (b := ⟨2, false⟩) (by decide)⟩

/-- Seven modulo minus two is minus one. -/
theorem not_divisionLaw : ¬DivisionLaw ⟨7, false⟩ ⟨2, true⟩ := by
  rintro ⟨q, r, -, hmod, h⟩
  obtain rfl : r = ⟨1, true⟩ := by
    have hr : mod ⟨7, false⟩ ⟨2, true⟩ = some ⟨1, true⟩ := by decide
    exact Option.some.inj (hmod.symm.trans hr)
  have hsign := h.sign (by decide)
  revert hsign
  decide

end Banjo.LargeInt
