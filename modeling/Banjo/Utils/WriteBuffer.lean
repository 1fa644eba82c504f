import Banjo.Lib.Memory
import Banjo.Utils.LargeInt
import Banjo.Lib.LEB128

/-!
# Write buffers

What the functions of a write buffer append to it, as bytes.
-/

open Option BitVec

namespace Banjo.WriteBuffer

abbrev Byte := BitVec 8

def u16 (value : BitVec 64) : List Byte := Memory.toBytes value 2

def u32 (value : BitVec 64) : List Byte := Memory.toBytes value 4

def u64 (value : BitVec 64) : List Byte := Memory.toBytes value 8

/-- `encode_uleb128`; ten bytes are enough for 64 bits. -/
def uleb128From : ℕ → BitVec 64 → List Byte
  | 0, _ => []
  | fuel + 1, bits =>
    if bits >>> 7 = 0 then [bits.setWidth 8 &&& 0x7F]
    else (bits.setWidth 8 &&& 0x7F ||| 0x80) :: uleb128From fuel (bits >>> 7)

def uleb128 (value : BitVec 64) : List Byte := uleb128From 10 value

/-- `encode_sleb128`, with the sign shifted in from the left. -/
def sleb128From (negative : Bool) : ℕ → BitVec 64 → List Byte
  | 0, _ => []
  | fuel + 1, bits =>
    let byte := bits.setWidth 8 &&& 0x7F
    let signBit := byte &&& 0x40 ≠ 0
    let rest := bits >>> 7 ||| if negative then (0x7F : BitVec 64) <<< 57 else 0
    if (rest = 0 ∧ ¬signBit) ∨ (rest = BitVec.allOnes 64 ∧ signBit) then [byte]
    else (byte ||| 0x80) :: sleb128From negative fuel rest

def sleb128 (value : LargeInt) : List Byte := sleb128From value.negative 16 value.toBits

end Banjo.WriteBuffer

/-!
## LEB128 numbers

`encode_uleb128` and `encode_sleb128`. The buffer is a vector of fixed capacity that fails an
assertion when it is full, so the loops recurse on the room that is left in it. The signed one
fills up with ones from above if the number is negative: it computes the groups of the number that
the bits and the sign stand for together.
-/

namespace Banjo.Utils

open LEB128

/-- The capacity of an `LEB128Buffer`. -/
def leb128Capacity : ℕ := 16

/-- The loop of `encode_uleb128`. -/
def encodeUnsignedGroups : ℕ → BitVec 64 → Option (List Byte)
  | 0, _ => none
  | room + 1, bits =>
    let byte := bits.setWidth 8 &&& 0x7F
    let bits := bits >>> 7
    if bits = 0 then some [byte]
    else (encodeUnsignedGroups room bits).map ((byte ||| 0x80) :: ·)

def encodeUleb128 (value : BitVec 64) : Option (List Byte) :=
  encodeUnsignedGroups leb128Capacity value

/-- What is left of the bits after a group has been taken away. -/
def nextBits (negative : Bool) (bits : BitVec 64) : BitVec 64 :=
  let bits := bits >>> 7
  if negative then bits ||| (0x7F : BitVec 64) <<< 57 else bits

/-- The loop of `encode_sleb128`. -/
def encodeSignedGroups (negative : Bool) : ℕ → BitVec 64 → Option (List Byte)
  | 0, _ => none
  | room + 1, bits =>
    let byte := bits.setWidth 8 &&& 0x7F
    let signBit := byte &&& 0x40 ≠ 0
    let bits := nextBits negative bits
    if bits = 0 ∧ ¬signBit ∨ bits = ~~~0 ∧ signBit then some [byte]
    else (encodeSignedGroups negative room bits).map ((byte ||| 0x80) :: ·)

def encodeSleb128 (value : LargeInt) : Option (List Byte) :=
  encodeSignedGroups value.negative leb128Capacity value.toBits

/-! ### Groups of bits -/

variable (bits : BitVec 64)

theorem toNat_group : (bits.setWidth 8 &&& 0x7F : Byte).toNat = bits.toNat % 128 := by
  rw [toNat_and, toNat_setWidth]
  change bits.toNat % 256 &&& (2 ^ 7 - 1) = _
  rw [Nat.and_two_pow_sub_one_eq_mod]
  omega

theorem group_eq : (bits.setWidth 8 &&& 0x7F : Byte) = BitVec.ofNat 8 (bits.toNat % 128) := by
  rw [← toNat_group, ofNat_toNat, setWidth_eq]

theorem toNat_or_more {byte : Byte} (h : byte.toNat < 128) :
    (byte ||| 0x80).toNat = byte.toNat + 128 := by
  rw [toNat_or, Nat.or_comm]
  change 2 ^ 7 * 1 ||| byte.toNat = _
  rw [← Nat.two_pow_add_eq_or_of_lt h]
  omega

theorem group_or_eq :
    ((bits.setWidth 8 &&& 0x7F) ||| 0x80 : Byte) = BitVec.ofNat 8 (bits.toNat % 128 + 128) := by
  rw [← toNat_inj, toNat_or_more (by rw [toNat_group]; omega), toNat_group, toNat_ofNat]
  omega

theorem toNat_shift : (bits >>> 7).toNat = bits.toNat / 128 := by
  rw [toNat_ushiftRight, Nat.shiftRight_eq_div_pow]

theorem shift_eq_zero_iff : bits >>> 7 = 0 ↔ bits.toNat / 128 = 0 := by
  rw [← toNat_inj, toNat_shift]
  rfl

theorem signBit_iff (byte : Byte) (h : byte.toNat < 128) : byte &&& 0x40 ≠ 0 ↔ 64 ≤ byte.toNat := by
  revert byte
  decide

theorem toNat_fill :
    (bits >>> 7 ||| (0x7F : BitVec 64) <<< 57).toNat = bits.toNat / 128 + 127 * 2 ^ 57 := by
  have hlt : bits.toNat / 128 < 2 ^ 57 := by
    have := bits.isLt
    omega
  rw [toNat_or, toNat_shift, Nat.or_comm]
  change 2 ^ 57 * 127 ||| bits.toNat / 128 = _
  rw [← Nat.two_pow_add_eq_or_of_lt hlt]
  omega

theorem encodeUnsignedGroups_eq (room : ℕ) (bits : BitVec 64) :
    encodeUnsignedGroups room bits = unsignedGroups room bits.toNat := by
  induction room generalizing bits with
  | zero => rfl
  | succ room ih =>
    rw [encodeUnsignedGroups, unsignedGroups, ih, toNat_shift, group_or_eq, group_eq]
    simp only [shift_eq_zero_iff]

/-- The number that the bits and the sign stand for. -/
def bitsValue (negative : Bool) (bits : BitVec 64) : ℤ :=
  if negative then bits.toNat - 2 ^ 64 else bits.toNat

variable (negative : Bool)

theorem bitsValue_emod (bits : BitVec 64) :
    bitsValue negative bits % 128 = (bits.toNat % 128 : ℕ) := by
  cases negative
  · change (bits.toNat : ℤ) % 128 = _
    omega
  · change ((bits.toNat : ℤ) - 2 ^ 64) % 128 = _
    omega

theorem bitsValue_nextBits (bits : BitVec 64) :
    bitsValue negative (nextBits negative bits) = bitsValue negative bits / 128 := by
  cases negative
  · change ((bits >>> 7).toNat : ℤ) = (bits.toNat : ℤ) / 128
    rw [toNat_shift]
    rfl
  · change ((bits >>> 7 ||| (0x7F : BitVec 64) <<< 57).toNat : ℤ) - 2 ^ 64
      = ((bits.toNat : ℤ) - 2 ^ 64) / 128
    rw [toNat_fill]
    omega

theorem nextBits_eq_zero_iff (bits : BitVec 64) :
    nextBits negative bits = 0 ↔ bitsValue negative bits / 128 = 0 := by
  rw [← bitsValue_nextBits, ← toNat_inj]
  cases negative
  · exact Int.natCast_eq_zero.symm
  · have hfill := toNat_fill bits
    change (bits >>> 7 ||| (0x7F : BitVec 64) <<< 57).toNat = 0
      ↔ ((bits >>> 7 ||| (0x7F : BitVec 64) <<< 57).toNat : ℤ) - 2 ^ 64 = 0
    have := (bits >>> 7 ||| (0x7F : BitVec 64) <<< 57).isLt
    omega

theorem nextBits_eq_ones_iff (bits : BitVec 64) :
    nextBits negative bits = ~~~0 ↔ bitsValue negative bits / 128 = -1 := by
  rw [← bitsValue_nextBits, ← toNat_inj]
  cases negative
  · have hshift := toNat_shift bits
    change (bits >>> 7).toNat = 2 ^ 64 - 1 ↔ ((bits >>> 7).toNat : ℤ) = -1
    have := bits.isLt
    omega
  · change (bits >>> 7 ||| (0x7F : BitVec 64) <<< 57).toNat = 2 ^ 64 - 1
      ↔ ((bits >>> 7 ||| (0x7F : BitVec 64) <<< 57).toNat : ℤ) - 2 ^ 64 = -1
    omega

theorem encodeSignedGroups_eq (room : ℕ) (bits : BitVec 64) :
    encodeSignedGroups negative room bits = signedGroups room (bitsValue negative bits) := by
  induction room generalizing bits with
  | zero => rfl
  | succ room ih =>
    have hlast : (nextBits negative bits = 0 ∧ ¬(bits.setWidth 8 &&& 0x7F : Byte) &&& 0x40 ≠ 0 ∨
        nextBits negative bits = ~~~0 ∧ (bits.setWidth 8 &&& 0x7F : Byte) &&& 0x40 ≠ 0) ↔
        IsLastGroup (bitsValue negative bits) := by
      rw [signBit_iff _ (by rw [toNat_group]; omega), toNat_group, nextBits_eq_zero_iff,
        nextBits_eq_ones_iff, IsLastGroup, bitsValue_emod]
      omega
    rw [encodeSignedGroups, signedGroups, ih, bitsValue_nextBits, bitsValue_emod]
    simp only [hlast]
    rw [group_or_eq, group_eq]
    rfl

/-! ### Round trips -/

def EncodesUnsigned (value : BitVec 64) : Prop :=
  ∃ bytes, encodeUleb128 value = some bytes ∧
    ∀ rest, decodeUnsigned (bytes ++ rest) = some (value.toNat, rest)

def EncodesSigned (value : LargeInt) : Prop :=
  ∃ bytes, encodeSleb128 value = some bytes ∧
    ∀ rest, decodeSigned (bytes ++ rest) = some (value.value, rest)

theorem encodesUnsigned (value : BitVec 64) : EncodesUnsigned value := by
  obtain ⟨bytes, hbytes⟩ : ∃ bytes, unsignedGroups (15 + 1) value.toNat = some bytes :=
    exists_unsignedGroups (value.isLt.trans (by decide))
  exact ⟨bytes, (encodeUnsignedGroups_eq 16 value).trans hbytes,
    decodeUnsigned_unsignedGroups hbytes⟩

/-- The groups that are written, of whichever number. -/
theorem encodeSleb128_spec (value : LargeInt) : ∃ bytes, encodeSleb128 value = some bytes ∧
    ∀ rest, decodeSigned (bytes ++ rest)
      = some (bitsValue value.negative value.toBits, rest) := by
  have hbits := value.toBits.isLt
  obtain ⟨bytes, hbytes⟩ :
      ∃ bytes, signedGroups (15 + 1) (bitsValue value.negative value.toBits) = some bytes :=
    exists_signedGroups (by unfold bitsValue; split <;> omega)
      (by unfold bitsValue; split <;> omega)
  exact ⟨bytes, (encodeSignedGroups_eq _ 16 _).trans hbytes, decodeSigned_signedGroups hbytes⟩

/-- A negative zero has the bits of zero, but its sign is filled in. -/
theorem bitsValue_eq_value_iff (value : LargeInt) :
    bitsValue value.negative value.toBits = value.value
      ↔ ¬(value.magnitude = 0 ∧ value.negative = true) := by
  obtain ⟨m, s⟩ := value
  cases s
  · rw [LargeInt.toBits_of_not_negative rfl]
    simp [bitsValue]
  · rw [LargeInt.toBits_of_negative rfl, LargeInt.value_mk_true, ← toNat_inj]
    have hneg := toNat_neg m
    have hm := m.isLt
    have hzero : (0 : BitVec 64).toNat = 0 := rfl
    simp only [bitsValue, hneg, hzero, if_true, and_true]
    omega

theorem encodes_iff (unsigned : BitVec 64) (signed : LargeInt) :
    (EncodesUnsigned unsigned ∧ EncodesSigned signed)
      ↔ ¬(signed.magnitude = 0 ∧ signed.negative = true) := by
  rw [and_iff_right (encodesUnsigned unsigned), ← bitsValue_eq_value_iff]
  obtain ⟨bytes, hbytes, hdecode⟩ := encodeSleb128_spec signed
  constructor
  · rintro ⟨bytes', hbytes', hdecode'⟩
    obtain rfl := some.inj (hbytes.symm.trans hbytes')
    exact congrArg Prod.fst (some.inj ((hdecode []).symm.trans (hdecode' [])))
  · intro h
    exact ⟨bytes, hbytes, h ▸ hdecode⟩

/-- Zero after a change of its sign. -/
theorem not_encodesSigned_neg_zero : ¬EncodesSigned (LargeInt.neg 0) := by
  rintro ⟨bytes, hbytes, hdecode⟩
  obtain ⟨bytes', hbytes', hdecode'⟩ := encodeSleb128_spec (LargeInt.neg 0)
  obtain rfl := some.inj (hbytes.symm.trans hbytes')
  have h := congrArg Prod.fst (some.inj ((hdecode []).symm.trans (hdecode' [])))
  revert h
  decide

end Banjo.Utils
