import Banjo.Utils.LargeIntLaws
import Mathlib.Data.Nat.Digits.Lemmas

/-!
# Large integers as text

The constructor from a string reads the digits from the last one on, with a multiplier that grows
and wraps around like the magnitude does. So the magnitude is the numeral modulo `2 ^ 64`. Unlike
the other constructor it leaves no zero with a sign, and a zero is written without one.
-/

open List BitVec

namespace Banjo.LargeInt

/-! ## Reading -/

def digit (c : Char) : ℕ :=
  if '0' ≤ c ∧ c ≤ '9' then c.toNat - '0'.toNat
  else if 'a' ≤ c ∧ c ≤ 'f' then 10 + c.toNat - 'a'.toNat
  else if 'A' ≤ c ∧ c ≤ 'F' then 10 + c.toNat - 'A'.toNat
  else 0

/-- One round of the loop over the digits: the multiplier and the magnitude. -/
def readDigit (base : ℕ) (c : Char) (state : BitVec 64 × BitVec 64) : BitVec 64 × BitVec 64 :=
  (state.1 * BitVec.ofNat 64 base, state.2 + state.1 * BitVec.ofNat 64 (digit c))

/-- The loop, from the last digit to the first. -/
def readDigits (base : ℕ) (digits : List Char) : BitVec 64 × BitVec 64 :=
  digits.foldr (readDigit base) (1, 0)

/-- The base and the digits behind the prefix. -/
def textBase : List Char → ℕ × List Char
  | '0' :: c :: digits =>
    if c = 'x' ∨ c = 'X' then (16, digits)
    else if c = 'b' ∨ c = 'B' then (2, digits)
    else if c = 'o' ∨ c = 'O' then (8, digits)
    else (10, '0' :: c :: digits)
  | digits => (10, digits)

/-- What is read behind the sign. -/
def magnitudeOf (text : List Char) : BitVec 64 :=
  (readDigits (textBase text).1 (textBase text).2).2

def ofText (text : List Char) : LargeInt :=
  let negative := text.head? == some '-'
  let magnitude := magnitudeOf (if negative then text.tail else text)
  ⟨magnitude, if magnitude = 0 ∧ negative then false else negative⟩

/-! ## Writing -/

/-- The loop over the digits, the lowest first. -/
def lowDigits (value : ℕ) : List Char :=
  if value = 0 then []
  else Char.ofNat (value % 10 + '0'.toNat) :: lowDigits (value / 10)

def toText (a : LargeInt) : List Char :=
  if a.magnitude = 0 then ['0']
  else (lowDigits a.magnitude.toNat ++ if a.negative then ['-'] else []).reverse

/-! ## Numerals -/

/-- The number that digits stand for in a base. -/
def numeral (base : ℕ) (digits : List Char) : ℕ := Nat.ofDigits base (digits.reverse.map digit)

variable (base : ℕ)

@[simp] theorem numeral_nil : numeral base [] = 0 := rfl

theorem numeral_cons (c : Char) (digits : List Char) :
    numeral base (c :: digits) = numeral base digits + base ^ digits.length * digit c := by
  rw [numeral, reverse_cons, map_append, Nat.ofDigits_append, length_map, length_reverse]
  simp [numeral]

theorem readDigits_eq (digits : List Char) : readDigits base digits
    = (BitVec.ofNat 64 (base ^ digits.length), BitVec.ofNat 64 (numeral base digits)) := by
  induction digits with
  | nil => rfl
  | cons c digits ih =>
    change readDigit base c (readDigits base digits) = _
    rw [ih, readDigit, numeral_cons, length_cons, pow_succ]
    simp only [ofNat_mul, ofNat_add]

variable {digits : List Char}

theorem toNat_readDigits {base : ℕ} (h : numeral base digits < 2 ^ 64) :
    (readDigits base digits).2.toNat = numeral base digits := by
  rw [readDigits_eq, toNat_ofNat, Nat.mod_eq_of_lt h]

/-! ## Writing and reading -/

theorem digit_ofNat {d : ℕ} (h : d < 10) : digit (Char.ofNat (d + '0'.toNat)) = d := by
  revert d
  decide

variable (value : ℕ)

theorem lowDigits_spec : (lowDigits value).map digit = Nat.digits 10 value ∧
    ∀ c ∈ lowDigits value, '0' ≤ c ∧ c ≤ '9' := by
  induction value using Nat.strongRecOn with
  | ind value ih =>
    rw [lowDigits]
    by_cases hzero : value = 0
    · subst hzero
      simp
    · obtain ⟨hdigits, hrange⟩ := ih (value / 10) (by omega)
      have hlt : value % 10 < 10 := Nat.mod_lt _ (by decide)
      rw [if_neg hzero]
      constructor
      · rw [map_cons, digit_ofNat hlt, hdigits, ← Nat.digits_def' (by decide) (by omega)]
      · intro c hc
        obtain rfl | hc := mem_cons.mp hc
        · generalize value % 10 = d at hlt
          revert d
          decide
        · exact hrange c hc

theorem numeral_reverse_lowDigits : numeral 10 (lowDigits value).reverse = value := by
  rw [numeral, reverse_reverse, (lowDigits_spec value).1, Nat.ofDigits_digits]

/-- Decimal digits are no prefix. -/
theorem textBase_of_digits (h : ∀ c ∈ digits, '0' ≤ c ∧ c ≤ '9') :
    textBase digits = (10, digits) := by
  unfold textBase
  split
  · rename_i c digits
    have hle : c ≤ '9' := (h c (by simp)).2
    have hne : ∀ d : Char, ¬d ≤ '9' → c ≠ d := fun d hd heq ↦ hd (heq ▸ hle)
    rw [if_neg, if_neg, if_neg]
    · exact not_or.mpr ⟨hne _ (by decide), hne _ (by decide)⟩
    · exact not_or.mpr ⟨hne _ (by decide), hne _ (by decide)⟩
    · exact not_or.mpr ⟨hne _ (by decide), hne _ (by decide)⟩
  · rfl

variable {text : List Char}

theorem ofText_of_head_ne (h : text.head? ≠ some '-') :
    ofText text = ⟨magnitudeOf text, false⟩ := by
  have hnegative : (text.head? == some '-') = false := beq_eq_false_iff_ne.mpr h
  simp [ofText, hnegative]

theorem ofText_cons_minus (h : magnitudeOf text ≠ 0) :
    ofText ('-' :: text) = ⟨magnitudeOf text, true⟩ := by
  simpa [ofText] using h

theorem magnitudeOf_lowDigits (m : BitVec 64) : magnitudeOf (lowDigits m.toNat).reverse = m := by
  have hdigits : ∀ c ∈ (lowDigits m.toNat).reverse, '0' ≤ c ∧ c ≤ '9' := fun c hc ↦
    (lowDigits_spec m.toNat).2 c (mem_reverse.mp hc)
  rw [magnitudeOf, textBase_of_digits hdigits, ← toNat_inj, toNat_readDigits]
  · exact numeral_reverse_lowDigits _
  · rw [numeral_reverse_lowDigits]
    exact m.isLt

theorem ofText_toText {a : LargeInt} (h : a.magnitude ≠ 0) : ofText (toText a) = a := by
  obtain ⟨m, s⟩ := a
  have hread := magnitudeOf_lowDigits m
  rw [toText, if_neg h]
  cases s
  · have hhead : (lowDigits m.toNat).reverse.head? ≠ some '-' := by
      intro hhead
      have hc := (lowDigits_spec m.toNat).2 '-' (mem_reverse.mp (mem_of_mem_head? hhead))
      revert hc
      decide
    rw [if_neg Bool.false_ne_true, append_nil, ofText_of_head_ne hhead, hread]
  · rw [if_pos rfl, List.reverse_append, List.reverse_singleton, List.singleton_append,
      ofText_cons_minus (by rwa [hread]), hread]

/-- A zero is read without a sign. -/
theorem ofText_toText_iff (a : LargeInt) :
    (ofText (toText a)).eq a = true ↔ ¬(a.magnitude = 0 ∧ a.negative = true) := by
  rw [eq_eq_true_iff]
  by_cases h : a.magnitude = 0
  · obtain ⟨m, s⟩ := a
    obtain rfl : m = 0 := h
    cases s <;> decide
  · exact iff_of_true (ofText_toText h) fun hzero ↦ h hzero.1

end Banjo.LargeInt
