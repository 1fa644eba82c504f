import Banjo.Target.X8664.Decoder
import Mathlib.Tactic.IntervalCases

/-!
# What encoded addresses decode to

The `ModRM` byte and what comes with it decode to the register and the location they were emitted
for, given the extension bits that the `REX` prefix has for them.
-/

open List

namespace Banjo.Target.X8664.Encoder

open Emit WriteBuffer Decoder

/-! ## Bytes -/

/-- The bytes of an action, with zeros for what is resolved later. -/
def actionBytes : Action → List Byte
  | .write bytes => bytes
  | .use _ _ _ wide => List.replicate (if wide then 8 else 4) 0
  | .jmp _ => [0xEB, 0]
  | .jcc condition _ => [condition.opcode, 0]
  | .allocaStart | .allocaEnd | .pushReg _ => []

def bytes (actions : List Action) : List Byte := actions.flatMap actionBytes

@[simp] theorem bytes_nil : bytes [] = [] := rfl

@[simp] theorem bytes_append (a b : List Action) : bytes (a ++ b) = bytes a ++ bytes b :=
  flatMap_append

@[simp] theorem bytes_write (l : List Byte) : bytes [.write l] = l := by
  simp [bytes, actionBytes]

@[simp] theorem bytes_emitOpcode (opcode : Byte) : bytes (emitOpcode opcode) = [opcode] :=
  bytes_write _

@[simp] theorem bytes_use (target : ℕ) (kind : BinSymbolUseKind) (addend : ℤ) :
    bytes [.use target kind addend false] = [0, 0, 0, 0] := rfl

def modrmByte (mod reg rm : RegCode) : Byte :=
  ((mod.setWidth 8 &&& 3) <<< 6) ||| (low reg <<< 3) ||| low rm

def sibByte (scale : Scale) (index base : RegCode) : Byte :=
  (scale.ss <<< 6) ||| (low index <<< 3) ||| low base

@[simp] theorem bytes_emitModrm (mod reg rm : RegCode) :
    bytes (emitModrm mod reg rm) = [modrmByte mod reg rm] := bytes_write _

variable (scale : Scale) (index base : RegCode)

@[simp] theorem bytes_emitSib :
    bytes (emitSib scale index base) = [sibByte scale index base] := bytes_write _

/-! ## Fields -/

/-- A byte of three fields. -/
def threeFields (high middle low : Byte) : Byte :=
  ((high &&& 3) <<< 6) ||| ((middle &&& 7) <<< 3) ||| (low &&& 7)

variable (high middle : Byte)

theorem threeFields_high (low : Byte) : threeFields high middle low >>> 6 = high &&& 3 := by
  apply BitVec.eq_of_getLsbD_eq
  intro i hi
  interval_cases i <;> simp [threeFields]

theorem threeFields_middle (low : Byte) :
    (threeFields high middle low >>> 3) &&& 7 = middle &&& 7 := by
  apply BitVec.eq_of_getLsbD_eq
  intro i hi
  interval_cases i <;> simp [threeFields]

theorem threeFields_low (low : Byte) : threeFields high middle low &&& 7 = low &&& 7 := by
  apply BitVec.eq_of_getLsbD_eq
  intro i hi
  interval_cases i <;> simp [threeFields]

theorem extended_of_low (reg : RegCode) (byte : Byte) (h : byte &&& 7 = low reg) :
    extended (decide (EDI < reg)) byte = reg := by
  rw [extended, h]
  clear h
  revert reg
  decide

theorem modrm_mod (mod reg rm : RegCode) : modrmByte mod reg rm >>> 6 = mod.setWidth 8 &&& 3 :=
  threeFields_high (mod.setWidth 8) (reg.setWidth 8) (rm.setWidth 8)

theorem modrm_low (mod reg rm : RegCode) : modrmByte mod reg rm &&& 7 = low rm :=
  threeFields_low (mod.setWidth 8) (reg.setWidth 8) (rm.setWidth 8)

theorem modrm_field (mod reg rm : RegCode) : (modrmByte mod reg rm >>> 3) &&& 7 = low reg :=
  threeFields_middle (mod.setWidth 8) (reg.setWidth 8) (rm.setWidth 8)

theorem sibByte_eq :
    sibByte scale index base = threeFields scale.ss (index.setWidth 8) (base.setWidth 8) := by
  cases scale <;> rfl

theorem sib_low : sibByte scale index base &&& 7 = low base := by
  rw [sibByte_eq]
  exact threeFields_low _ _ _

theorem sib_index : (sibByte scale index base >>> 3) &&& 7 = low index := by
  rw [sibByte_eq]
  exact threeFields_middle _ _ _

theorem sib_scale : decodeScale (sibByte scale index base >>> 6) = scale := by
  rw [sibByte_eq, threeFields_high]
  cases scale <;> rfl

theorem extended_modrm_field (mod reg rm : RegCode) :
    extended (decide (EDI < reg)) (modrmByte mod reg rm >>> 3) = reg :=
  extended_of_low reg _ (modrm_field mod reg rm)

/-! ## Displacements -/

theorem signExtend_setWidth_of_fits {displacement : BitVec 32}
    (h : fitsInI8 displacement.toInt = true) :
    ((displacement.signExtend 64).setWidth 8).signExtend 32 = displacement := by
  rw [fitsInI8, decide_eq_true_eq] at h
  apply BitVec.eq_of_toInt_eq
  rw [BitVec.toInt_signExtend_of_le (by omega), BitVec.toInt_setWidth]
  have hwide := BitVec.toInt_eq_toNat_bmod (displacement.signExtend 64)
  rw [BitVec.toInt_signExtend_of_le (by omega)] at hwide
  simp only [Int.bmod] at hwide ⊢
  omega

theorem read32_u32 (value : BitVec 64) : read32 (u32 value) = value.setWidth 32 := by
  rw [read32, u32, Memory.toBytes, Memory.ofBytes]
  simp only [List.range, List.range.loop, map_cons, map_nil, foldr_cons, foldr_nil]
  ext i hi
  simp only [BitVec.getElem_setWidth, BitVec.getLsbD_or, BitVec.getLsbD_shiftLeft,
    BitVec.getLsbD_setWidth, BitVec.getLsbD_ushiftRight]
  grind

theorem takeDisplacement_four (value : BitVec 64) (rest : List Byte) :
    takeDisplacement 2 (u32 value ++ rest) = some (value.setWidth 32, rest) :=
  congrArg (fun displacement ↦ some (displacement, rest)) (read32_u32 value)

theorem setWidth_signExtend (displacement : BitVec 32) :
    (displacement.signExtend 64).setWidth 32 = displacement := by
  ext i hi
  simp only [BitVec.getElem_setWidth, BitVec.getLsbD_signExtend]
  grind

/-! ## `REX` -/

def rexByte (rex : Rex) : Byte :=
  0x40 ||| (bit rex.w <<< 3) ||| (bit rex.r <<< 2) ||| (bit rex.x <<< 1) ||| bit rex.b

theorem rexByte_high (rex : Rex) : rexByte rex >>> 4 = 4 := by
  obtain ⟨w, r, x, b⟩ := rex
  cases w <;> cases r <;> cases x <;> cases b <;> rfl

theorem ofByte_rexByte (rex : Rex) : Rex.ofByte (rexByte rex) = rex := by
  obtain ⟨w, r, x, b⟩ := rex
  cases w <;> cases r <;> cases x <;> cases b <;> rfl

@[simp] theorem bytes_emitRex (w r x b : Bool) : bytes (emitRex w r x b) = [rexByte ⟨w, r, x, b⟩] :=
  bytes_write _

/-- The bytes of a prefix that may be missing. -/
def rexBytes (rex : Option Rex) : List Byte := (rex.map rexByte).toList

/-- The byte does not belong to the prefixes. -/
def IsOpcode (byte : Byte) : Prop :=
  byte ≠ 0x66 ∧ byte ≠ 0xF2 ∧ byte ≠ 0xF3 ∧ byte >>> 4 ≠ 4

instance (byte : Byte) : Decidable (IsOpcode byte) := inferInstanceAs (Decidable (_ ∧ _))

theorem decodePrefixes_opcode {opcode : Byte} (h : IsOpcode opcode) (found : Prefixes)
    (rest : List Byte) : decodePrefixes found (opcode :: rest) = (found, opcode :: rest) := by
  obtain ⟨hsize, hsd, hss, hrex⟩ := h
  rw [decodePrefixes, if_neg hsize, if_neg (not_or.mpr ⟨hsd, hss⟩), if_neg hrex]

theorem decodePrefixes_rexByte (found : Prefixes) (rex : Rex) (rest : List Byte) :
    decodePrefixes found (rexByte rex :: rest)
      = decodePrefixes { found with rex := some rex } rest := by
  have hhigh := rexByte_high rex
  rw [decodePrefixes, if_neg, if_neg, if_pos hhigh, ofByte_rexByte]
  · rintro (heq | heq) <;> rw [heq] at hhigh <;> exact absurd hhigh (by decide)
  · rintro heq
    rw [heq] at hhigh
    exact absurd hhigh (by decide)

theorem decodePrefixes_rex {opcode : Byte} (h : IsOpcode opcode) {found : Prefixes}
    (hfound : found.rex = none) (rex : Option Rex) (rest : List Byte) :
    decodePrefixes found (rexBytes rex ++ opcode :: rest)
      = ({ found with rex := rex }, opcode :: rest) := by
  cases rex with
  | none =>
    obtain ⟨operandSize, mandatory, rex⟩ := found
    obtain rfl : rex = none := hfound
    exact decodePrefixes_opcode h _ rest
  | some rex => exact (decodePrefixes_rexByte found rex _).trans (decodePrefixes_opcode h _ rest)

/-- The bit that extends the number of an index. -/
def RegOrAddr.indexBit : RegOrAddr → Bool
  | .addr (.reg a) => decide (EDI < a.index)
  | _ => false

/-- The bit that extends the number of a base. -/
def RegOrAddr.baseBit : RegOrAddr → Bool
  | .reg rm => decide (EDI < rm)
  | .addr (.reg a) => decide (EDI < a.base)
  | .addr (.symbol _) => true

def RegOrAddr.isLowByte : RegOrAddr → Bool
  | .reg rm => aboveEbx rm
  | .addr _ => false

/-- The prefix `emit_rex_rroa` emits. -/
def rexOf (size : ℕ) (reg : RegCode) (roa : RegOrAddr) : Option Rex :=
  let rex : Rex := ⟨decide (size = 8), decide (EDI < reg), roa.indexBit, roa.baseBit⟩
  if size = 1 ∧ (aboveEbx reg ∨ roa.isLowByte) ∨ rex.w ∨ rex.r ∨ rex.x ∨ rex.b then some rex
  else none

variable (size : ℕ)

@[simp] theorem bytes_emitRexRroa (reg : RegCode) (roa : RegOrAddr) :
    bytes (emitRexRroa size reg roa) = rexBytes (rexOf size reg roa) := by
  cases roa with
  | reg rm =>
    simp only [emitRexRroa, emitRexRR, rexOf, RegOrAddr.indexBit, RegOrAddr.baseBit,
      RegOrAddr.isLowByte, Bool.false_eq_true, false_or]
    split_ifs
    · exact bytes_emitRex _ _ _ _
    · rfl
  | addr a =>
    cases a with
    | reg a =>
      simp only [emitRexRroa, emitRexRM, rexOf, RegOrAddr.indexBit, RegOrAddr.baseBit,
        RegOrAddr.isLowByte, Bool.false_eq_true, or_false]
      split_ifs
      · exact bytes_emitRex _ _ _ _
      · rfl
    | symbol a =>
      simp only [emitRexRroa, emitRexRM, rexOf, RegOrAddr.indexBit, RegOrAddr.baseBit,
        RegOrAddr.isLowByte, or_true, if_true]
      exact bytes_emitRex _ _ _ _

@[simp] theorem bytes_emitRexRR (reg rm : RegCode) :
    bytes (emitRexRR size reg rm) = rexBytes (rexOf size reg (.reg rm)) :=
  bytes_emitRexRroa size reg (.reg rm)

@[simp] theorem bytes_emitRexRM (reg : RegCode) (addr : Address) :
    bytes (emitRexRM size reg addr) = rexBytes (rexOf size reg (.addr addr)) :=
  bytes_emitRexRroa size reg (.addr addr)

/-- Without a prefix all of its bits are zero. -/
theorem rexOf_getD (size : ℕ) (reg : RegCode) (roa : RegOrAddr) :
    (rexOf size reg roa).getD {}
      = ⟨decide (size = 8), decide (EDI < reg), roa.indexBit, roa.baseBit⟩ := by
  rw [rexOf]
  split_ifs with h
  · rfl
  · simp only [not_or, Bool.not_eq_true] at h
    obtain ⟨-, hw, hr, hx, hb⟩ := h
    rw [Option.getD_none, hw, hr, hx, hb]

/-! ## Locations -/

def RegAddress.location (addr : RegAddress) : Location :=
  .mem (some addr.base) (if addr.index = ADDR_NO_INDEX then none else some (addr.index, addr.scale))
    addr.displacement

def RegOrAddr.location : RegOrAddr → Location
  | .reg rm => .reg rm
  | .addr (.reg a) => a.location
  | .addr (.symbol _) => .ripRelative 0

/-- A field that is not that of a register. -/
theorem setWidth_and_three {mod : RegCode} (hmod : mod = 0 ∨ mod = 1 ∨ mod = 2) :
    mod.setWidth 8 &&& 3 = mod.setWidth 8 ∧ (mod.setWidth 8 : Byte) ≠ 3 ∧
      ((mod.setWidth 8 : Byte) = 0 ↔ mod = 0) := by
  rcases hmod with rfl | rfl | rfl <;> decide

section Modrm

variable {rex : Rex} {reg : RegCode} (hr : rex.r = decide (EDI < reg))
include hr

/-- A base with an index, or one that needs a `SIB` byte. -/
theorem decodeModrm_sib {addr : RegAddress} (hx : rex.x = decide (EDI < addr.index))
    (hb : rex.b = decide (EDI < addr.base)) {mod : RegCode} (hmod : mod = 0 ∨ mod = 1 ∨ mod = 2)
    (hbase : mod = 0 → low addr.base ≠ 5) (rest : List Byte) :
    decodeModrm rex (modrmByte mod reg 4 :: sibByte addr.scale addr.index addr.base :: rest)
      = (takeDisplacement (mod.setWidth 8) rest).map fun (displacement, rest) ↦
        (reg, .mem (some addr.base)
          (if addr.index = ADDR_NO_INDEX then none else some (addr.index, addr.scale)) displacement,
          rest) := by
  obtain ⟨hmask, hthree, hzero⟩ := setWidth_and_three hmod
  have hsib : modrmByte mod reg 4 &&& 7 = 4 := modrm_low mod reg 4
  have hno : ¬((mod.setWidth 8 : Byte) = 0 ∧ sibByte addr.scale addr.index
    addr.base &&& 7 = 5) := by
    rintro ⟨hmod, hlow⟩
    rw [sib_low] at hlow
    exact hbase (hzero.mp hmod) hlow
  rw [decodeModrm]
  simp only [modrm_mod, hmask, hr, extended_modrm_field, if_neg hthree, if_pos hsib, decodeSib, hx,
    hb, extended_of_low _ _ (sib_index addr.scale addr.index addr.base),
    extended_of_low _ _ (sib_low addr.scale addr.index addr.base), sib_scale, if_neg hno,
    Option.map_map]
  rfl

theorem decodeModrm_base {base : RegCode} (hb : rex.b = decide (EDI < base)) {rm mod : RegCode}
    (hrm : low rm = low base) (hmod : mod = 0 ∨ mod = 1 ∨ mod = 2) (hsib : low base ≠ 4)
    (hbase : mod = 0 → low base ≠ 5) (rest : List Byte) :
    decodeModrm rex (modrmByte mod reg rm :: rest)
      = (takeDisplacement (mod.setWidth 8) rest).map fun (displacement, rest) ↦
        (reg, .mem (some base) none displacement, rest) := by
  obtain ⟨hmask, hthree, hzero⟩ := setWidth_and_three hmod
  have hlow : modrmByte mod reg rm &&& 7 = low base := (modrm_low mod reg rm).trans hrm
  have hno : ¬((mod.setWidth 8 : Byte) = 0 ∧ low base = 5) :=
    fun h ↦ hbase (hzero.mp h.1) h.2
  rw [decodeModrm]
  simp only [modrm_mod, hmask, hr, extended_modrm_field, if_neg hthree, hlow, if_neg hsib,
    if_neg hno, hb, extended_of_low base _ hlow]

end Modrm

theorem low_eq_iff : ∀ base : RegCode, (low base = 4 ↔ base &&& 7 = ADDR_ESP) ∧
    (low base = 5 ↔ base &&& 7 = ADDR_EBP) := by decide

theorem takeDisplacement_one {displacement : BitVec 32} (h : fitsInI8 displacement.toInt = true)
    (rest : List Byte) : takeDisplacement 1 ((displacement.signExtend 64).setWidth 8 :: rest)
      = some (displacement, rest) :=
  congrArg (fun displacement ↦ some (displacement, rest)) (signExtend_setWidth_of_fits h)

/-- The bytes of an address relative to registers decode to it. -/
theorem decodeModrm_emitMemReg {rex : Rex} {reg : RegCode} {addr : RegAddress}
    (hr : rex.r = decide (EDI < reg)) (hx : rex.x = decide (EDI < addr.index))
    (hb : rex.b = decide (EDI < addr.base)) (rest : List Byte) :
    decodeModrm rex (bytes (emitMemReg addr reg) ++ rest) = some (reg, addr.location, rest) := by
  obtain ⟨hesp, hebp⟩ := low_eq_iff addr.base
  -- with an index, or a base that is read as the sign of one
  have hsib : ∀ {mod : RegCode} {tail : List Byte}, (mod = 0 ∨ mod = 1 ∨ mod = 2) →
      (mod = 0 → low addr.base ≠ 5) →
      takeDisplacement (mod.setWidth 8) (tail ++ rest) = some (addr.displacement, rest) →
      decodeModrm rex (modrmByte mod reg 4 :: sibByte addr.scale addr.index addr.base ::
        (tail ++ rest)) = some (reg, addr.location, rest) := by
    intro mod tail hmod hbase htake
    rw [decodeModrm_sib hr hx hb hmod hbase, htake]
    rfl
  have hbase : ∀ {mod rm : RegCode} {tail : List Byte}, (mod = 0 ∨ mod = 1 ∨ mod = 2) →
      low rm = low addr.base → ¬(addr.index ≠ ADDR_NO_INDEX ∨ addr.base &&& 7 = ADDR_ESP) →
      (mod = 0 → low addr.base ≠ 5) →
      takeDisplacement (mod.setWidth 8) (tail ++ rest) = some (addr.displacement, rest) →
      decodeModrm rex (modrmByte mod reg rm :: (tail ++ rest))
        = some (reg, addr.location, rest) := by
    intro mod rm tail hmod hrm hnone hbase htake
    rw [not_or, not_not] at hnone
    rw [decodeModrm_base hr hb hrm hmod (fun h ↦ hnone.2 (hesp.mp h)) hbase, htake,
      RegAddress.location, if_pos hnone.1]
    rfl
  rw [emitMemReg]
  by_cases hzero : addr.displacement = 0
  · rw [if_pos hzero]
    have hbyte : takeDisplacement 1 ([0] ++ rest) = some (addr.displacement, rest) := by
      rw [hzero]
      rfl
    have hnothing : takeDisplacement 0 ([] ++ rest) = some (addr.displacement, rest) := by
      rw [hzero]
      rfl
    by_cases hfive : addr.base &&& 7 = ADDR_EBP
    · rw [if_pos hfive]
      have hlow : low addr.base = 5 := hebp.mpr hfive
      by_cases hindex : addr.index ≠ ADDR_NO_INDEX
      · rw [if_pos hindex]
        exact hsib (Or.inr (Or.inl rfl)) (fun h ↦ absurd h (by decide)) hbyte
      · rw [if_neg hindex]
        refine hbase (Or.inr (Or.inl rfl)) hlow.symm (not_or.mpr ⟨hindex, ?_⟩)
          (fun h ↦ absurd h (by decide)) hbyte
        rw [hfive]
        decide
    · rw [if_neg hfive]
      have hlow : low addr.base ≠ 5 := fun h ↦ hfive (hebp.mp h)
      by_cases hindex : addr.index ≠ ADDR_NO_INDEX ∨ addr.base &&& 7 = ADDR_ESP
      · rw [if_pos hindex]
        exact hsib (Or.inl rfl) (fun _ ↦ hlow) hnothing
      · rw [if_neg hindex]
        exact hbase (Or.inl rfl) rfl hindex (fun _ ↦ hlow) hnothing
  · rw [if_neg hzero]
    by_cases hfits : fitsInI8 addr.displacement.toInt = true
    · rw [if_pos hfits]
      have hbyte := takeDisplacement_one hfits rest
      by_cases hindex : addr.index ≠ ADDR_NO_INDEX ∨ addr.base &&& 7 = ADDR_ESP
      · rw [if_pos hindex]
        exact hsib (Or.inr (Or.inl rfl)) (fun h ↦ absurd h (by decide)) hbyte
      · rw [if_neg hindex]
        exact hbase (Or.inr (Or.inl rfl)) rfl hindex (fun h ↦ absurd h (by decide)) hbyte
    · rw [if_neg hfits]
      have hword := takeDisplacement_four (addr.displacement.signExtend 64) rest
      rw [setWidth_signExtend] at hword
      by_cases hindex : addr.index ≠ ADDR_NO_INDEX ∨ addr.base &&& 7 = ADDR_ESP
      · rw [if_pos hindex]
        exact hsib (Or.inr (Or.inr rfl)) (fun h ↦ absurd h (by decide)) hword
      · rw [if_neg hindex]
        exact hbase (Or.inr (Or.inr rfl)) rfl hindex (fun h ↦ absurd h (by decide)) hword

/-- An address relative to a symbol has no register that needs extending. -/
theorem decodeModrm_symbol {rex : Rex} {reg : RegCode} (hr : rex.r = decide (EDI < reg))
    (addr : SymbolAddress) (rest : List Byte) :
    decodeModrm rex (bytes (emitModrmSib reg (.addr (.symbol addr))) ++ rest)
      = some (reg, .ripRelative 0, rest) := by
  have hmod : modrmByte 0 reg 5 >>> 6 = 0 := modrm_mod 0 reg 5
  have hlow : modrmByte 0 reg 5 &&& 7 = 5 := modrm_low 0 reg 5
  rw [emitModrmSib, emitMemDigit, bytes_append, bytes_emitModrm, bytes_use,
    List.singleton_append, List.cons_append, decodeModrm]
  simp only [hmod, hlow, hr, extended_modrm_field]
  rfl

/-- The bytes of a register or an address decode to it. -/
theorem decodeModrm_emitModrmSib {rex : Rex} {reg : RegCode} {roa : RegOrAddr}
    (hr : rex.r = decide (EDI < reg)) (hx : rex.x = roa.indexBit) (hb : rex.b = roa.baseBit)
    (rest : List Byte) : decodeModrm rex (bytes (emitModrmSib reg roa) ++ rest)
      = some (reg, roa.location, rest) := by
  cases roa with
  | reg rm =>
    have hmod : modrmByte 3 reg rm >>> 6 = 3 := modrm_mod 3 reg rm
    rw [emitModrmSib, emitModrmRR, bytes_emitModrm, singleton_append, decodeModrm]
    simp only [hmod, if_true, hr, hb, RegOrAddr.baseBit, extended_modrm_field,
      extended_of_low rm _ (modrm_low 3 reg rm)]
    rfl
  | addr a =>
    cases a with
    | reg a => exact decodeModrm_emitMemReg hr hx hb rest
    | symbol a => exact decodeModrm_symbol hr a rest

end Banjo.Target.X8664.Encoder
