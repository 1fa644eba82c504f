import Mathlib.Data.BitVec
import Mathlib.Algebra.Order.Group.Int

/-!
# LEB128

A number as groups of seven bits, the lowest first; every group but the last has the bit above its
seven set. A signed number is floored at each group, and bit six of the last group is its sign.
-/

open Option BitVec

namespace Banjo.LEB128

abbrev Byte := BitVec 8

/-- The unsigned number in front and what is behind it. -/
def decodeUnsigned : List Byte → Option (ℕ × List Byte)
  | [] => none
  | byte :: rest =>
    if byte.toNat < 128 then some (byte.toNat, rest)
    else (decodeUnsigned rest).map fun (n, rest) ↦ (byte.toNat - 128 + 128 * n, rest)

/-- The signed number in front and what is behind it. -/
def decodeSigned : List Byte → Option (ℤ × List Byte)
  | [] => none
  | byte :: rest =>
    if byte.toNat < 64 then some (byte.toNat, rest)
    else if byte.toNat < 128 then some (byte.toNat - 128, rest)
    else (decodeSigned rest).map fun (n, rest) ↦ (byte.toNat - 128 + 128 * n, rest)

/-- The groups of an unsigned number, at most `room` of them. -/
def unsignedGroups : ℕ → ℕ → Option (List Byte)
  | 0, _ => none
  | room + 1, n =>
    if n / 128 = 0 then some [BitVec.ofNat 8 (n % 128)]
    else (unsignedGroups room (n / 128)).map (BitVec.ofNat 8 (n % 128 + 128) :: ·)

/-- Does a signed number fit into its lowest group? -/
def IsLastGroup (n : ℤ) : Prop := n / 128 = 0 ∧ n % 128 < 64 ∨ n / 128 = -1 ∧ 64 ≤ n % 128

instance (n : ℤ) : Decidable (IsLastGroup n) := inferInstanceAs (Decidable (_ ∨ _))

/-- The groups of a signed number, at most `room` of them. -/
def signedGroups : ℕ → ℤ → Option (List Byte)
  | 0, _ => none
  | room + 1, n =>
    if IsLastGroup n then some [BitVec.ofInt 8 (n % 128)]
    else (signedGroups room (n / 128)).map (BitVec.ofInt 8 (n % 128 + 128) :: ·)

theorem isLastGroup_iff (n : ℤ) : IsLastGroup n ↔ -64 ≤ n ∧ n < 64 := by
  unfold IsLastGroup
  omega

/-! ## Round trips -/

theorem decodeUnsigned_unsignedGroups {room n : ℕ} {bytes : List Byte}
    (h : unsignedGroups room n = some bytes) (rest : List Byte) :
    decodeUnsigned (bytes ++ rest) = some (n, rest) := by
  induction room generalizing n bytes with
  | zero => cases h
  | succ room ih =>
    rw [unsignedGroups] at h
    split_ifs at h with hlast
    · obtain rfl := some.inj h
      have hbyte : (BitVec.ofNat 8 (n % 128)).toNat = n := by
        rw [toNat_ofNat]
        omega
      rw [List.singleton_append, decodeUnsigned, hbyte, if_pos (by omega)]
    · obtain ⟨groups, hgroups, rfl⟩ := map_eq_some_iff.mp h
      have hbyte : (BitVec.ofNat 8 (n % 128 + 128)).toNat = n % 128 + 128 := by
        rw [toNat_ofNat]
        omega
      rw [List.cons_append, decodeUnsigned, hbyte, if_neg (by omega), ih hgroups]
      simp only [map_some, some.injEq, Prod.mk.injEq, and_true]
      omega

theorem decodeSigned_signedGroups {room : ℕ} {n : ℤ} {bytes : List Byte}
    (h : signedGroups room n = some bytes) (rest : List Byte) :
    decodeSigned (bytes ++ rest) = some (n, rest) := by
  induction room generalizing n bytes with
  | zero => cases h
  | succ room ih =>
    rw [signedGroups] at h
    split_ifs at h with hlast
    · obtain rfl := some.inj h
      have hbyte : ((BitVec.ofInt 8 (n % 128)).toNat : ℤ) = n % 128 := by
        rw [toNat_ofInt]
        omega
      rw [List.singleton_append, decodeSigned, hbyte]
      rw [isLastGroup_iff] at hlast
      split_ifs
      · congr
        omega
      · congr
        omega
      · omega
    · obtain ⟨groups, hgroups, rfl⟩ := map_eq_some_iff.mp h
      have hbyte : ((BitVec.ofInt 8 (n % 128 + 128)).toNat : ℤ) = n % 128 + 128 := by
        rw [toNat_ofInt]
        omega
      rw [List.cons_append, decodeSigned, hbyte, if_neg (by omega), if_neg (by omega), ih hgroups]
      simp only [map_some, some.injEq, Prod.mk.injEq, and_true]
      omega

/-! ## The number of groups -/

theorem exists_unsignedGroups {room n : ℕ} (h : n < 2 ^ (7 * (room + 1))) :
    ∃ bytes, unsignedGroups (room + 1) n = some bytes := by
  induction room generalizing n with
  | zero =>
    have hlast : n / 128 = 0 := by omega
    exact ⟨_, if_pos hlast⟩
  | succ room ih =>
    by_cases hlast : n / 128 = 0
    · exact ⟨_, if_pos hlast⟩
    · have hpow : 2 ^ (7 * (room + 1 + 1)) = 128 * 2 ^ (7 * (room + 1)) := by
        rw [Nat.mul_succ, pow_add, Nat.mul_comm]
        rfl
      obtain ⟨bytes, hbytes⟩ := ih (show n / 128 < 2 ^ (7 * (room + 1)) by omega)
      exact ⟨_, by rw [unsignedGroups, if_neg hlast, hbytes, map_some]⟩

theorem exists_signedGroups {room : ℕ} {n : ℤ} (hlow : -2 ^ (7 * room + 6) ≤ n)
    (hhigh : n < 2 ^ (7 * room + 6)) : ∃ bytes, signedGroups (room + 1) n = some bytes := by
  induction room generalizing n with
  | zero =>
    have hlast : IsLastGroup n := (isLastGroup_iff n).mpr (by omega)
    exact ⟨_, if_pos hlast⟩
  | succ room ih =>
    by_cases hlast : IsLastGroup n
    · exact ⟨_, if_pos hlast⟩
    · have hpow : (2 : ℤ) ^ (7 * (room + 1) + 6) = 128 * 2 ^ (7 * room + 6) := by
        rw [Nat.mul_succ, add_right_comm, pow_add, mul_comm]
        rfl
      obtain ⟨bytes, hbytes⟩ := ih (show -2 ^ (7 * room + 6) ≤ n / 128 by omega) (by omega)
      exact ⟨_, by rw [signedGroups, if_neg hlast, hbytes, map_some]⟩

end Banjo.LEB128
