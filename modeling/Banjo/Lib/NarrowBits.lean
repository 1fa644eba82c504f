import Mathlib.Data.BitVec
import Mathlib.Data.Nat.Bitwise

/-!
# Words put together from halfwords

A word of `w` bits is read and written in pieces of sixteen bits. A word whose pieces are those of
another is that word, so it can be built by writing the pieces one by one; a piece that is there
already need not be written.
-/

open List BitVec

namespace Banjo.Halfwords

variable {w : ℕ}

/-- The piece of a word at an index. -/
def half (x : BitVec w) (index : ℕ) : BitVec 16 := x.extractLsb' (16 * index) 16

/-- The word that is a piece at an index and zero elsewhere. -/
def place (w : ℕ) (index : ℕ) (piece : BitVec 16) : BitVec w := piece.setWidth w <<< (16 * index)

/-- A word of which one piece is replaced. -/
def insert (x : BitVec w) (index : ℕ) (piece : BitVec 16) : BitVec w :=
  x &&& ~~~place w index (BitVec.allOnes 16) ||| place w index piece

theorem getLsbD_place (index : ℕ) (piece : BitVec 16) (i : ℕ) :
    (place w index piece).getLsbD i
      = (decide (i < w) && decide (16 * index ≤ i) && piece.getLsbD (i - 16 * index)) := by
  rw [place, getLsbD_shiftLeft, getLsbD_setWidth]
  by_cases hi : i < w
  · by_cases hle : 16 * index ≤ i
    · simp [hi, hle, show i - 16 * index < w by omega]
    · simp [hle]
  · simp [hi]

variable {index : ℕ}

theorem half_place_self (h : 16 * index + 16 ≤ w) (piece : BitVec 16) :
    half (place w index piece) index = piece := by
  apply eq_of_getLsbD_eq
  intro i hi
  rw [half, getLsbD_extractLsb', getLsbD_place]
  simp [hi, show 16 * index + i < w by omega]

theorem half_place_of_ne {other : ℕ} (h : other ≠ index) (piece : BitVec 16) :
    half (place w index piece) other = 0 := by
  apply eq_of_getLsbD_eq
  intro i hi
  rw [half, getLsbD_extractLsb', getLsbD_place]
  by_cases hle : 16 * index ≤ 16 * other + i
  · have hlong : 16 ≤ 16 * other + i - 16 * index := by omega
    simp [getLsbD_of_ge _ _ hlong]
  · simp [hle]

theorem half_insert_self (h : 16 * index + 16 ≤ w) (x : BitVec w)
    (piece : BitVec 16) : half (insert x index piece) index = piece := by
  apply eq_of_getLsbD_eq
  intro i hi
  rw [half, getLsbD_extractLsb', insert, getLsbD_or, getLsbD_and, getLsbD_not, getLsbD_place,
    getLsbD_place, Nat.add_sub_cancel_left, getLsbD_allOnes]
  simp [hi, show 16 * index + i < w by omega]

theorem half_insert_of_ne {other : ℕ} (h : other ≠ index) (x : BitVec w)
    (piece : BitVec 16) : half (insert x index piece) other = half x other := by
  apply eq_of_getLsbD_eq
  intro i hi
  rw [half, half, getLsbD_extractLsb', getLsbD_extractLsb', insert,
    getLsbD_or, getLsbD_and, getLsbD_not, getLsbD_place, getLsbD_place]
  by_cases hin : 16 * other + i < w
  · by_cases hle : 16 * index ≤ 16 * other + i
    · have hlong : 16 ≤ 16 * other + i - 16 * index := by omega
      simp [hin, getLsbD_of_ge _ _ hlong]
    · simp [hin, hle]
  · simp [hin, getLsbD_of_ge x _ (Nat.not_lt.mp hin)]

/-- A word is told by its pieces. -/
theorem eq_of_half_eq {pieces : ℕ} (hw : w ≤ 16 * pieces) {x y : BitVec w}
    (h : ∀ index < pieces, half x index = half y index) : x = y := by
  apply eq_of_getLsbD_eq
  intro i hi
  have hbit := congrArg (BitVec.getLsbD · (i % 16)) (h (i / 16) (by omega))
  simpa [half, Nat.mod_lt, Nat.div_add_mod] using hbit

/-- The pieces that are written one after the other. -/
def insertAll (pieces : List (BitVec 16 × ℕ)) (x : BitVec w) : BitVec w :=
  pieces.foldl (fun x piece ↦ insert x piece.2 piece.1) x

theorem half_insertAll {v : BitVec w} {pieces : List (BitVec 16 × ℕ)}
    (hv : ∀ piece ∈ pieces, half v piece.2 = piece.1 ∧ 16 * piece.2 + 16 ≤ w) (x : BitVec w)
    (h : half x index = half v index ∨ index ∈ pieces.map Prod.snd) :
    half (insertAll pieces x) index = half v index := by
  induction pieces generalizing x with
  | nil => exact h.resolve_right (not_mem_nil)
  | cons piece pieces ih =>
    obtain ⟨hpiece, hfits⟩ := hv piece mem_cons_self
    refine ih (fun later hlater ↦ hv later (mem_cons_of_mem _ hlater)) _ ?_
    by_cases heq : index = piece.2
    · left
      rw [heq, half_insert_self hfits, hpiece]
    · rw [half_insert_of_ne heq]
      rw [map_cons, mem_cons] at h
      tauto

end Banjo.Halfwords

/-!
## Narrow numbers in wide registers

A number of `w` bits held in the low bits of a wider register, whatever is above them. Sums,
products and bitwise operations may be computed in the wide register. Divisions and right shifts
may be when the register holds the zero extension of the number, or the sign extension, as the
operation is unsigned or signed.
-/

namespace Banjo.NarrowBits

variable {n w : ℕ} {x y : BitVec n}

/-- The register holds the zero extension of its low bits. -/
def ZeroExtended (w : ℕ) (x : BitVec n) : Prop := x.toNat < 2 ^ w

/-- The register holds the sign extension of its low bits. -/
def SignExtended (w : ℕ) (x : BitVec n) : Prop := x.toInt = (x.setWidth w).toInt

instance : Decidable (ZeroExtended w x) := inferInstanceAs (Decidable (_ < _))

instance : Decidable (SignExtended w x) := inferInstanceAs (Decidable (_ = _))

theorem ZeroExtended.toNat_setWidth (h : ZeroExtended w x) : (x.setWidth w).toNat = x.toNat := by
  rw [BitVec.toNat_setWidth, Nat.mod_eq_of_lt h]

theorem toInt_setWidth_of_le (hle : w ≤ n) (x : BitVec n) :
    (x.setWidth w).toInt = x.toInt.bmod (2 ^ w) := by
  rw [toInt_setWidth, toInt_eq_toNat_bmod, Int.bmod_bmod_of_dvd]
  exact Nat.pow_dvd_pow 2 hle

/-- A register that holds a number as a signed one has its bits. -/
theorem setWidth_eq_of_toInt_eq (hle : w ≤ n) {r : BitVec w} (h : x.toInt = r.toInt) :
    x.setWidth w = r := by
  apply eq_of_toInt_eq
  rw [toInt_setWidth_of_le hle, h, toInt_bmod_cancel]

theorem setWidth_sub (hle : w ≤ n) (x y : BitVec n) :
    (x - y).setWidth w = x.setWidth w - y.setWidth w := by
  rw [eq_sub_iff_add_eq, ← setWidth_add _ _ hle, sub_add_cancel]

theorem setWidth_ushiftRight (h : ZeroExtended w x) (c : ℕ) :
    (x >>> c).setWidth w = x.setWidth w >>> c := by
  apply eq_of_toNat_eq
  rw [toNat_setWidth, toNat_ushiftRight, toNat_ushiftRight, h.toNat_setWidth]
  exact Nat.mod_eq_of_lt ((Nat.shiftRight_le _ _).trans_lt h)

theorem setWidth_sshiftRight (hle : w ≤ n) (h : SignExtended w x) (c : ℕ) :
    (x.sshiftRight c).setWidth w = (x.setWidth w).sshiftRight c := by
  apply setWidth_eq_of_toInt_eq hle
  rw [toInt_sshiftRight, toInt_sshiftRight, h]

theorem setWidth_udiv (hx : ZeroExtended w x) (hy : ZeroExtended w y) :
    (x / y).setWidth w = x.setWidth w / y.setWidth w := by
  apply eq_of_toNat_eq
  rw [toNat_setWidth, toNat_udiv, toNat_udiv, hx.toNat_setWidth, hy.toNat_setWidth]
  exact Nat.mod_eq_of_lt ((Nat.div_le_self _ _).trans_lt hx)

theorem setWidth_umod (hx : ZeroExtended w x) (hy : ZeroExtended w y) :
    (x % y).setWidth w = x.setWidth w % y.setWidth w := by
  apply eq_of_toNat_eq
  rw [toNat_setWidth, toNat_umod, toNat_umod, hx.toNat_setWidth, hy.toNat_setWidth]
  exact Nat.mod_eq_of_lt ((Nat.mod_le _ _).trans_lt hx)

theorem setWidth_sdiv (hle : w ≤ n) (hx : SignExtended w x) (hy : SignExtended w y) :
    (x.sdiv y).setWidth w = (x.setWidth w).sdiv (y.setWidth w) := by
  apply eq_of_toInt_eq
  rw [toInt_setWidth_of_le hle, toInt_sdiv, toInt_sdiv, ← hx, ← hy, Int.bmod_bmod_of_dvd]
  exact Nat.pow_dvd_pow 2 hle

theorem setWidth_srem (hle : w ≤ n) (hx : SignExtended w x) (hy : SignExtended w y) :
    (x.srem y).setWidth w = (x.setWidth w).srem (y.setWidth w) := by
  apply setWidth_eq_of_toInt_eq hle
  rw [toInt_srem, toInt_srem, hx, hy]

/-- Registers that hold zero extensions are equal just when the numbers are. -/
theorem ZeroExtended.eq_iff (hx : ZeroExtended w x) (hy : ZeroExtended w y) :
    x.setWidth w = y.setWidth w ↔ x = y := by
  rw [← toNat_inj, ← toNat_inj, hx.toNat_setWidth, hy.toNat_setWidth]

theorem SignExtended.eq_iff (hx : SignExtended w x) (hy : SignExtended w y) :
    x.setWidth w = y.setWidth w ↔ x = y := by
  rw [← toInt_inj, ← toInt_inj, ← hx, ← hy]

/-- The unsigned number in a register that holds a sign extension. -/
theorem SignExtended.toNat_eq (hle : w ≤ n) (hx : SignExtended w x) :
    x.toNat = (x.setWidth w).toNat + if (x.setWidth w).msb then 2 ^ n - 2 ^ w else 0 := by
  have heq : x = (x.setWidth w).signExtend n := by
    apply eq_of_toInt_eq
    rw [toInt_signExtend_of_le hle, hx]
  have hnat := congrArg BitVec.toNat heq
  rw [toNat_signExtend] at hnat
  rw [hnat]
  congr 1
  rw [toNat_setWidth, Nat.mod_eq_of_lt]
  exact (x.setWidth w).isLt.trans_le (Nat.pow_le_pow_right (by decide) hle)

/-- Sign extensions are ordered as unsigned numbers as the numbers are. -/
theorem SignExtended.toNat_lt_iff (hle : w ≤ n) (hx : SignExtended w x) (hy : SignExtended w y) :
    (x.setWidth w).toNat < (y.setWidth w).toNat ↔ x.toNat < y.toNat := by
  have hx' := hx.toNat_eq hle
  have hy' := hy.toNat_eq hle
  have hpow : 2 ^ w ≤ 2 ^ n := Nat.pow_le_pow_right (by decide) hle
  have hmsb : ∀ z : BitVec w, z.msb = true ↔ 2 ^ (w - 1) ≤ z.toNat := fun z ↦ by
    rw [msb_eq_decide, decide_eq_true_eq]
  have hxlt := (x.setWidth w).isLt
  have hylt := (y.setWidth w).isLt
  have hxmsb := hmsb (x.setWidth w)
  have hymsb := hmsb (y.setWidth w)
  split_ifs at hx' hy' with h h'
  · omega
  · have := hxmsb.mp h
    have := mt hymsb.mpr h'
    omega
  · have := mt hxmsb.mpr h
    have := hymsb.mp ‹_›
    omega
  · omega

end Banjo.NarrowBits
