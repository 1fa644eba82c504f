import Mathlib.Data.BitVec
import Mathlib.Tactic.Ring

/-!
# Numbers in binary64 and binary32

Numbers are their bits: a sign, an exponent and a fraction. A number in binary64 is narrowed to the
nearest number in binary32, and to the even one of two that are equally near. A number that binary32
has is kept.
-/

open BitVec

namespace Banjo.Binary64

/-- The quotient by a power of two, rounded to the nearest number and ties to the even one. -/
def roundHalfEven (n drop : ℕ) : ℕ :=
  let quotient := n / 2 ^ drop
  let rest := n % 2 ^ drop
  if 2 ^ drop < 2 * rest ∨ 2 ^ drop = 2 * rest ∧ quotient % 2 = 1 then quotient + 1 else quotient

/-- The bits below the sign. Below the exponents of binary32 more bits of the significand are
dropped; above them is infinity, and what is not a number stays so. -/
def narrowMagnitude (exponent fraction : ℕ) : ℕ :=
  if exponent = 2047 then
    if fraction = 0 then 0x7F800000 else 0x7FC00000 ||| fraction / 2 ^ 29
  else
    let significand := if exponent = 0 then fraction else 2 ^ 52 + fraction
    let drop := 29 + (897 - max exponent 1)
    min 0x7F800000 ((exponent - 897) * 2 ^ 23 + roundHalfEven significand drop)

/-- The nearest number in binary32. -/
def narrow (x : BitVec 64) : BitVec 32 :=
  x.extractLsb' 63 1
    ++ BitVec.ofNat 31 (narrowMagnitude (x.extractLsb' 52 11).toNat (x.extractLsb' 0 52).toNat)

theorem roundHalfEven_mul (n drop : ℕ) : roundHalfEven (n * 2 ^ drop) drop = n := by
  have hpos : 0 < 2 ^ drop := Nat.two_pow_pos drop
  rw [roundHalfEven, Nat.mul_mod_left, Nat.mul_div_cancel _ hpos, if_neg]
  omega

/-- A number of which binary32 has the exponent and all bits of the fraction. -/
theorem narrowMagnitude_exact {exponent fraction : ℕ} (hlow : 897 ≤ exponent)
    (hhigh : exponent ≤ 1150) (hfraction : fraction < 2 ^ 23) :
    narrowMagnitude exponent (fraction * 2 ^ 29) = (exponent - 896) * 2 ^ 23 + fraction := by
  have hdrop : 29 + (897 - max exponent 1) = 29 := by omega
  have hsignificand : 2 ^ 52 + fraction * 2 ^ 29 = (2 ^ 23 + fraction) * 2 ^ 29 := by ring
  rw [narrowMagnitude, if_neg (by omega), if_neg (by omega)]
  simp only [hdrop, hsignificand, roundHalfEven_mul]
  omega

theorem toNat_append {m n : ℕ} (x : BitVec m) (y : BitVec n) :
    (x ++ y).toNat = x.toNat * 2 ^ n + y.toNat := by
  rw [BitVec.toNat_append, ← Nat.shiftLeft_add_eq_or_of_lt y.isLt, Nat.shiftLeft_eq]

/-- The exponent moves from the bias of the one format to that of the other. -/
theorem narrow_exact {sign : BitVec 1} {wide : BitVec 11} {exponent : BitVec 8}
    {fraction : BitVec 23} (hexponent : wide.toNat = exponent.toNat + 896)
    (hlow : 0 < exponent.toNat) (hhigh : exponent.toNat < 255) :
    narrow (sign ++ wide ++ fraction ++ 0#29) = sign ++ exponent ++ fraction := by
  have hvalue : (sign ++ wide ++ fraction ++ 0#29).toNat
      = ((sign.toNat * 2 ^ 11 + wide.toNat) * 2 ^ 23 + fraction.toNat) * 2 ^ 29 := by
    rw [toNat_append, toNat_append, toNat_append]
    exact Nat.add_zero _
  have hsign := sign.isLt
  have hfraction := fraction.isLt
  have hwide := wide.isLt
  have hfields : ((sign ++ wide ++ fraction ++ 0#29).extractLsb' 52 11).toNat = wide.toNat
      ∧ ((sign ++ wide ++ fraction ++ 0#29).extractLsb' 0 52).toNat
        = fraction.toNat * 2 ^ 29
      ∧ ((sign ++ wide ++ fraction ++ 0#29).extractLsb' 63 1).toNat = sign.toNat := by
    simp only [extractLsb'_toNat, hvalue, Nat.shiftRight_eq_div_pow]
    omega
  obtain ⟨hwideField, hfractionField, hsignField⟩ := hfields
  apply eq_of_toNat_eq
  rw [narrow, toNat_append, toNat_append, toNat_append, hwideField, hfractionField, hsignField,
    narrowMagnitude_exact (by omega) (by omega) hfraction, toNat_ofNat, hexponent]
  omega

end Banjo.Binary64
