import Banjo.Lib.Memory
import Mathlib.Tactic.Abel

/-!
# Moving bytes

The bytes of a word read from memory are the bytes that were read. Moving some number of bytes from
one address to another is the same in every memory for two numbers only if they are equal, or if the
addresses are.
-/

open List Option
open BitVec (ofNat)

namespace Banjo.Memory

/-! ## Words of bytes -/

theorem ofBytes_cons (byte : BitVec 8) (bytes : List (BitVec 8)) :
    ofBytes (byte :: bytes) = ofBytes bytes <<< 8 ||| byte.zeroExtend 64 := rfl

/-- Put behind a word with space for it, a byte is added. -/
theorem toNat_shiftLeft_or {word : BitVec 64} (byte : BitVec 8) (h : word.toNat < 2 ^ 56) :
    (word <<< 8 ||| byte.zeroExtend 64).toNat = word.toNat * 2 ^ 8 + byte.toNat := by
  have hbyte : byte.toNat < 2 ^ 8 := byte.isLt
  have hshift : (word <<< 8).toNat = word.toNat <<< 8 := by
    rw [BitVec.toNat_shiftLeft, Nat.shiftLeft_eq, Nat.mod_eq_of_lt (by omega)]
  have hzext : (byte.zeroExtend 64).toNat = byte.toNat := by
    simp only [BitVec.truncate_eq_setWidth, BitVec.toNat_setWidth]
    omega
  rw [BitVec.toNat_or, hshift, hzext, ← Nat.shiftLeft_add_eq_or_of_lt hbyte, Nat.shiftLeft_eq]

/-- A word of some bytes has no other bits. -/
theorem toNat_ofBytes_lt {bytes : List (BitVec 8)} (h : bytes.length ≤ 8) :
    (ofBytes bytes).toNat < 2 ^ (8 * bytes.length) := by
  induction bytes with
  | nil => decide
  | cons byte bytes ih =>
    have hlength : bytes.length + 1 ≤ 8 := h
    have hrest := ih (by omega)
    have hbyte : byte.toNat < 2 ^ 8 := byte.isLt
    have hpow : (2 : ℕ) ^ (8 * bytes.length) ≤ 2 ^ 56 :=
      Nat.pow_le_pow_right (by decide) (by omega)
    rw [ofBytes_cons, toNat_shiftLeft_or byte (by omega), length_cons, Nat.mul_succ, Nat.pow_add]
    omega

theorem toBytes_ofBytes {bytes : List (BitVec 8)} (h : bytes.length ≤ 8) :
    toBytes (ofBytes bytes) bytes.length = bytes := by
  induction bytes with
  | nil => rfl
  | cons byte bytes ih =>
    have hlength : bytes.length + 1 ≤ 8 := h
    have hrest := @toNat_ofBytes_lt bytes (by omega)
    have hpow : (2 : ℕ) ^ (8 * bytes.length) ≤ 2 ^ 56 :=
      Nat.pow_le_pow_right (by decide) (by omega)
    have hnat := @toNat_shiftLeft_or (ofBytes bytes) byte (by omega)
    have hbyte : byte.toNat < 2 ^ 8 := byte.isLt
    have hlow : (ofBytes (byte :: bytes)).truncate 8 = byte := by
      refine BitVec.eq_of_toNat_eq ?_
      rw [ofBytes_cons, BitVec.truncate_eq_setWidth, BitVec.toNat_setWidth, hnat]
      omega
    have hhigh : ofBytes (byte :: bytes) >>> 8 = ofBytes bytes := by
      refine BitVec.eq_of_toNat_eq ?_
      rw [ofBytes_cons, BitVec.toNat_ushiftRight, hnat, Nat.shiftRight_eq_div_pow]
      omega
    rw [length_cons, toBytes_succ, hlow, hhigh, ih (by omega)]

/-! ## Moves -/

/-- The memory after bytes were moved, all of them read before the first is written. -/
def moved (mem : Memory) (dst src : Address) (size : ℕ) : Memory :=
  mem.write dst (mem.read src size)

variable {mem : Memory} {dst src a : Address} {m n : ℕ}

theorem moved_of_within (h : Within dst n a) : mem.moved dst src n a = mem (src + (a - dst)) := by
  have hlt : (a - dst).toNat < n := h
  have hget : (mem.read src n)[(a - dst).toNat]? = some (mem (src + (a - dst))) := by
    rw [read, getElem?_map, getElem?_range hlt, map_some, BitVec.ofNat_toNat, BitVec.setWidth_eq]
  rw [moved, write, hget, getD_some]

theorem moved_of_not_within (h : ¬Within dst n a) : mem.moved dst src n a = mem a :=
  write_of_not_within (by rwa [length_read])

/-- Moved to where they are, bytes stay the same. -/
theorem moved_self (mem : Memory) (addr : Address) (n : ℕ) : mem.moved addr addr n = mem := by
  funext a
  by_cases h : Within addr n a
  · rw [moved_of_within h, add_sub_cancel]
  · exact moved_of_not_within h

/-- The memory with one byte that is not zero. -/
def oneByte (addr : Address) : Memory := fun a ↦ if a = addr then 1 else 0

theorem moved_oneByte (h : Within dst n a) : (oneByte (src + (a - dst))).moved dst src n a = 1 := by
  rw [moved_of_within h, oneByte, if_pos rfl]

theorem oneByte_of_ne (h : dst ≠ src) : oneByte (src + (a - dst)) a = 0 := by
  refine if_neg fun heq ↦ h ?_
  have hcancel : dst + (a - dst) = src + (a - dst) := (add_sub_cancel dst a).trans heq
  exact add_right_cancel hcancel

/-- A byte is left alone whatever is in memory exactly if it is not moved to. -/
theorem forall_moved_eq_iff :
    (∀ mem : Memory, mem.moved dst src n a = mem a) ↔ dst = src ∨ ¬Within dst n a := by
  constructor
  · intro hall
    by_contra! h
    have hone := hall (oneByte (src + (a - dst)))
    rw [moved_oneByte h.2, oneByte_of_ne h.1] at hone
    exact absurd hone (by decide)
  · rintro (rfl | h) mem
    · rw [moved_self]
    · exact moved_of_not_within h

theorem forall_moved_congr_iff (hmn : m ≤ n) (hn : n ≤ 2 ^ 64) :
    (∀ mem : Memory, mem.moved dst src m = mem.moved dst src n) ↔ dst = src ∨ m = n := by
  constructor
  · intro hall
    by_contra! h
    have hlt : m < n := lt_of_le_of_ne hmn h.2
    have hsub : (dst + ofNat 64 m - dst).toNat = m := by
      rw [add_sub_cancel_left, BitVec.toNat_ofNat, Nat.mod_eq_of_lt (by omega)]
    have hwithin : Within dst n (dst + ofNat 64 m) := hsub.trans_lt hlt
    have hnot : ¬Within dst m (dst + ofNat 64 m) := by
      rw [Within, hsub]
      exact lt_irrefl m
    have hone := congrFun (hall (oneByte (src + (dst + ofNat 64 m - dst))))
      (dst + ofNat 64 m)
    rw [moved_of_not_within hnot, moved_oneByte hwithin, oneByte_of_ne h.1] at hone
    exact absurd hone (by decide)
  · rintro (rfl | rfl) mem
    · rw [moved_self, moved_self]
    · rfl

/-!
## Moving bytes piece by piece

Bytes that are moved in pieces, one after the other, are moved as if all of them were read first,
unless the destination starts inside the source and there is more than one piece.
-/

/-- The pieces, each with its offset and its size, follow each other from one offset to another. -/
def Tiles : ℕ → ℕ → List (ℕ × ℕ) → Prop
  | start, stop, [] => start = stop
  | start, stop, (offset, size) :: pieces =>
    offset = start ∧ 0 < size ∧ Tiles (start + size) stop pieces

instance decidableTiles : ∀ start stop pieces, Decidable (Tiles start stop pieces)
  | start, stop, [] => inferInstanceAs (Decidable (start = stop))
  | start, stop, (offset, size) :: pieces =>
    have := decidableTiles (start + size) stop pieces
    inferInstanceAs (Decidable (offset = start ∧ 0 < size ∧ Tiles (start + size) stop pieces))

variable {pieces : List (ℕ × ℕ)} {stop : ℕ}

theorem Tiles.le : ∀ {start : ℕ}, Tiles start stop pieces → start ≤ stop := by
  induction pieces with
  | nil => exact fun h ↦ le_of_eq h
  | cons piece pieces ih => exact fun h ↦ (Nat.le_add_right _ _).trans (ih h.2.2)

/-- The memory after the pieces were moved. -/
def movedPieces (dst src : Address) (mem : Memory) (pieces : List (ℕ × ℕ)) : Memory :=
  pieces.foldl (fun mem piece ↦
    mem.moved (dst + ofNat 64 piece.1) (src + ofNat 64 piece.1) piece.2) mem

variable {mem : Memory} {dst src a : Address} {m n : ℕ}

theorem within_add_iff (h : m + n ≤ 2 ^ 64) :
    Within (dst + ofNat 64 m) n a ↔ m ≤ (a - dst).toNat ∧ (a - dst).toNat < m + n := by
  have hsub : a - (dst + ofNat 64 m) = a - dst - ofNat 64 m := (sub_sub _ _ _).symm
  have hlt := (a - dst).isLt
  rw [Within, hsub, BitVec.toNat_sub, BitVec.toNat_ofNat]
  rcases Nat.lt_or_ge m (2 ^ 64) with hm | hm
  · rw [Nat.mod_eq_of_lt hm]
    omega
  · obtain rfl : n = 0 := by omega
    omega

/-- Bytes that start inside the source would be moved over before they are read. -/
def Ahead (dst src : Address) (size : ℕ) : Prop := 0 < (dst - src).toNat ∧ (dst - src).toNat < size

instance (dst src : Address) (size : ℕ) : Decidable (Ahead dst src size) :=
  inferInstanceAs (Decidable (_ ∧ _))

/-- One more piece, of bytes that were not moved over. -/
theorem moved_moved (h : m + n ≤ 2 ^ 64) (hahead : ¬Ahead dst src (m + n)) :
    (mem.moved dst src m).moved (dst + ofNat 64 m) (src + ofNat 64 m) n
      = mem.moved dst src (m + n) := by
  funext a
  have hshift : src + ofNat 64 m + (a - (dst + ofNat 64 m)) = src + (a - dst) := by
    abel
  by_cases hpiece : Within (dst + ofNat 64 m) n a
  · have hrange := (within_add_iff h).mp hpiece
    have hall : Within dst (m + n) a := hrange.2
    rw [moved_of_within hpiece, moved_of_within hall, hshift]
    by_cases hback : Within dst m (src + (a - dst))
    · -- then the destination is inside the source
      have hlt : (src + (a - dst) - dst).toNat < m := hback
      have hsub : dst - src = (a - dst) - (src + (a - dst) - dst) := by abel
      have hdiff : (dst - src).toNat = (a - dst).toNat - (src + (a - dst) - dst).toNat := by
        rw [hsub]
        exact BitVec.toNat_sub_of_le (BitVec.le_def.mpr (by omega))
      exact absurd ⟨by omega, by omega⟩ hahead
    · rw [moved_of_not_within hback]
  · rw [moved_of_not_within hpiece]
    rw [within_add_iff h] at hpiece
    by_cases hfirst : Within dst m a
    · have hall : Within dst (m + n) a := lt_of_lt_of_le hfirst (Nat.le_add_right m n)
      rw [moved_of_within hfirst, moved_of_within hall]
    · have hall : ¬Within dst (m + n) a := fun hall ↦ hpiece ⟨not_lt.mp hfirst, hall⟩
      rw [moved_of_not_within hfirst, moved_of_not_within hall]

theorem movedPieces_of_not_ahead (hstop : stop ≤ 2 ^ 64) (hahead : ¬Ahead dst src stop) :
    ∀ {start : ℕ}, Tiles start stop pieces →
    movedPieces dst src (mem.moved dst src start) pieces = mem.moved dst src stop := by
  induction pieces with
  | nil =>
    intro start h
    obtain rfl : start = stop := h
    rfl
  | cons piece pieces ih =>
    obtain ⟨offset, size⟩ := piece
    rintro start ⟨rfl, -, hrest⟩
    have hle := hrest.le
    have hpiece : ¬Ahead dst src (offset + size) := fun h ↦ hahead ⟨h.1, h.2.trans_le hle⟩
    rw [movedPieces, foldl_cons, moved_moved (hle.trans hstop) hpiece]
    exact ih hrest

/-! ### Pieces that are moved over -/

theorem moved_zero (n : ℕ) : moved (fun _ ↦ 0) dst src n = fun _ ↦ 0 := by
  funext a
  by_cases h : Within dst n a
  · rw [moved_of_within h]
  · rw [moved_of_not_within h]

theorem movedPieces_zero (pieces : List (ℕ × ℕ)) :
    movedPieces dst src (fun _ ↦ 0) pieces = fun _ ↦ 0 := by
  induction pieces with
  | nil => rfl
  | cons piece pieces ih =>
    rw [movedPieces, foldl_cons, moved_zero]
    exact ih

/-- The only byte is moved over. -/
theorem moved_oneByte_zero {addr : Address} (hsrc : ¬Within src n addr) (hdst : Within dst n addr) :
    (oneByte addr).moved dst src n = fun _ ↦ 0 := by
  funext a
  by_cases h : Within dst n a
  · rw [moved_of_within h, oneByte, if_neg]
    rintro rfl
    refine hsrc ?_
    rwa [Within, add_sub_cancel_left]
  · rw [moved_of_not_within h, oneByte, if_neg]
    rintro rfl
    exact h hdst

theorem toNat_ofNat_of_lt {k : ℕ} (h : k < 2 ^ 64) : (ofNat 64 k).toNat = k := by
  rw [BitVec.toNat_ofNat, Nat.mod_eq_of_lt h]

/-- **Pieces are moved as if all were read first, in every memory, exactly if there is only one or
the destination does not start inside the source.** -/
theorem forall_movedPieces_iff {first : ℕ} (hstop : stop < 2 ^ 64)
    (h : Tiles 0 stop ((0, first) :: pieces)) :
    (∀ mem : Memory, movedPieces dst src mem ((0, first) :: pieces) = mem.moved dst src stop) ↔
      first = stop ∨ ¬Ahead dst src stop := by
  have hfirst : first ≤ stop := by
    have hle := Tiles.le h.2.2
    omega
  have hzero : ∀ addr : Address, addr + ofNat 64 0 = addr := fun addr ↦ by simp
  have hcons : ∀ mem : Memory, movedPieces dst src mem ((0, first) :: pieces)
      = movedPieces dst src (mem.moved dst src first) pieces := by
    intro mem
    rw [movedPieces, foldl_cons, hzero, hzero]
    rfl
  have hrest : Tiles first stop pieces := by simpa using h.2.2
  constructor
  · intro hall
    by_contra! hnot
    obtain ⟨hne, hpos, hlt⟩ := hnot
    -- the byte that is moved over by the first piece, and by no other byte than zero
    have hbyte : ∃ i j, i < first ∧ first ≤ j ∧ j < stop ∧ j = i + (dst - src).toNat := by
      rcases Nat.lt_or_ge (dst - src).toNat first with hnear | hfar
      · exact ⟨first - (dst - src).toNat, first, by omega, le_rfl, by omega, by omega⟩
      · exact ⟨0, (dst - src).toNat, h.2.1, hfar, hlt, (Nat.zero_add _).symm⟩
    obtain ⟨i, j, hi, hij, hj, hsum⟩ := hbyte
    have haddr : src + ofNat 64 j = dst + ofNat 64 i := by
      rw [hsum, BitVec.ofNat_add, BitVec.ofNat_toNat, BitVec.setWidth_eq]
      abel
    have hsrc : ¬Within src first (src + ofNat 64 j) := by
      rw [Within, add_sub_cancel_left, toNat_ofNat_of_lt (by omega)]
      omega
    have hdst : Within dst first (src + ofNat 64 j) := by
      rw [haddr, Within, add_sub_cancel_left, toNat_ofNat_of_lt (by omega)]
      exact hi
    have hwithin : Within dst stop (dst + ofNat 64 j) := by
      rw [Within, add_sub_cancel_left, toNat_ofNat_of_lt (by omega)]
      exact hj
    have hone := congrFun (hall (oneByte (src + ofNat 64 j))) (dst + ofNat 64 j)
    rw [hcons, moved_oneByte_zero hsrc hdst, movedPieces_zero, moved_of_within hwithin,
      add_sub_cancel_left, oneByte, if_pos rfl] at hone
    have hbyte : (0 : BitVec 8) = 1 := hone
    exact absurd hbyte (by decide)
  · rintro (rfl | hahead) mem
    · have hnil : pieces = [] := by
        cases pieces with
        | nil => rfl
        | cons piece pieces =>
          have hle := hrest.2.2.le
          have hpos := hrest.2.1
          omega
      rw [hcons, hnil]
      rfl
    · rw [hcons]
      exact movedPieces_of_not_ahead hstop.le hahead hrest

end Banjo.Memory
