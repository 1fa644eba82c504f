import Mathlib.Data.BitVec

/-!
# Byte memory

A memory maps addresses to bytes. Values of some number of bytes are read and written as lists,
the byte at the lowest address first.
-/

open List BitVec

namespace Banjo

abbrev Address := BitVec 64

abbrev Memory := Address → BitVec 8

namespace Memory

def read (mem : Memory) (addr : Address) (size : ℕ) : List (BitVec 8) :=
  (range size).map fun i ↦ mem (addr + BitVec.ofNat 64 i)

def write (mem : Memory) (addr : Address) (bytes : List (BitVec 8)) : Memory :=
  fun a ↦ (bytes[(a - addr).toNat]?).getD (mem a)

/-- The addresses of `size` bytes from an address on. -/
def Within (addr : Address) (size : ℕ) (a : Address) : Prop := (a - addr).toNat < size

instance (addr : Address) (size : ℕ) (a : Address) : Decidable (Within addr size a) :=
  inferInstanceAs (Decidable (_ < _))

/-- The bytes of a word, the lowest first. -/
def toBytes (word : BitVec 64) (size : ℕ) : List (BitVec 8) :=
  (range size).map fun i ↦ (word >>> (8 * i)).truncate 8

def ofBytes (bytes : List (BitVec 8)) : BitVec 64 :=
  bytes.foldr (fun byte word ↦ word <<< 8 ||| byte.zeroExtend 64) 0

@[simp] theorem length_read (mem : Memory) (addr : Address) (size : ℕ) :
    (mem.read addr size).length = size := by
  simp [read]

@[simp] theorem length_toBytes (word : BitVec 64) (size : ℕ) :
    (toBytes word size).length = size := by
  simp [toBytes]

variable (value : BitVec 64)

theorem toBytes_succ (n : ℕ) :
    toBytes value (n + 1) = value.truncate 8 :: toBytes (value >>> 8) n := by
  rw [toBytes, range_succ_eq_map, map_cons, map_map]
  refine congrArg₂ _ (by simp) (map_congr_left fun i _ ↦ ?_)
  rw [Function.comp_apply, ← shiftRight_add, Nat.mul_succ, Nat.add_comm]

theorem toNat_ofBytes_toBytes {n : ℕ} (h : n ≤ 8) :
    (ofBytes (toBytes value n)).toNat = value.toNat % 2 ^ (8 * n) := by
  induction n generalizing value with
  | zero => simp [toBytes, ofBytes, Nat.mod_one]
  | succ n ih =>
    have htail := ih (value >>> 8) (by omega)
    have hlt : (ofBytes (toBytes (value >>> 8) n)).toNat < 2 ^ 56 := by
      rw [htail]
      exact (Nat.mod_lt _ (Nat.two_pow_pos _)).trans_le
        (Nat.pow_le_pow_right (by decide) (by omega))
    have hcons : ofBytes (value.truncate 8 :: toBytes (value >>> 8) n)
        = ofBytes (toBytes (value >>> 8) n) <<< 8 |||
          (value.truncate 8).zeroExtend 64 := rfl
    have hbyte : ((value.truncate 8).zeroExtend 64).toNat = value.toNat % 256 := by
      simp only [truncate_eq_setWidth, toNat_setWidth]
      omega
    have hshift : (ofBytes (toBytes (value >>> 8) n) <<< 8).toNat
        = (ofBytes (toBytes (value >>> 8) n)).toNat <<< 8 := by
      rw [toNat_shiftLeft, Nat.shiftLeft_eq, Nat.mod_eq_of_lt (by omega)]
    rw [toBytes_succ, hcons, toNat_or, hshift, hbyte, ← Nat.shiftLeft_add_eq_or_of_lt (by omega),
      htail, toNat_ushiftRight, Nat.shiftRight_eq_div_pow, Nat.shiftLeft_eq,
      show 8 * (n + 1) = 8 + 8 * n by omega, Nat.pow_add, Nat.mod_mul]
    omega

theorem ofBytes_toBytes : ofBytes (toBytes value 8) = value :=
  eq_of_toNat_eq ((toNat_ofBytes_toBytes value le_rfl).trans (Nat.mod_eq_of_lt value.isLt))

theorem write_of_not_within {mem : Memory} {addr a : Address} {bytes : List (BitVec 8)}
    (h : ¬Within addr bytes.length a) : mem.write addr bytes a = mem a := by
  rw [write, List.getElem?_eq_none (not_lt.mp h), Option.getD_none]

/-- Two reads agree when the memories agree byte by byte. -/
theorem read_eq_iff {mem mem' : Memory} {addr addr' : Address} {size : ℕ} :
    mem.read addr size = mem'.read addr' size ↔
      ∀ i < size, mem (addr + BitVec.ofNat 64 i) = mem' (addr' + BitVec.ofNat 64 i) := by
  rw [read, read, map_inj_left]
  simp only [mem_range]

end Memory

end Banjo
