import Banjo.Target.AArch64.Machine

/-!
# Moving constants into registers on AArch64

`AArch64SSALowerer::move_const_into_register`: the instructions a constant is moved into a register
with, after the registers are allocated. What is encoded for them is run on a processor. A number is
put together from halfwords, a floating-point number is an immediate, moved from a general register
or loaded from a global.
-/

open List Option
open Function (update_self)

namespace Banjo.Target.AArch64.Encoder

open Codegen (PhysicalReg)

/-! ## Immediates -/

namespace AArch64Immediate

def decomposeU64U16 (value : BitVec 64) : List (BitVec 16) :=
  [Halfwords.half value 0, Halfwords.half value 1, Halfwords.half value 2, Halfwords.half value 3]

def decomposeU32U16 (value : BitVec 32) : List (BitVec 16) :=
  [Halfwords.half value 0, Halfwords.half value 1]

def encodablePosFloat (encoding : BitVec 7) : BitVec 64 :=
  (if encoding &&& 0x40 ≠ 0 then 0x3FC0000000000000 else 0x4000000000000000)
    ||| ((encoding &&& 0x3F).setWidth 64 <<< 48)

/-- `get_encodable_pos_floats`. -/
def encodablePosFloats : List (BitVec 64) :=
  (range 128).map fun encoding ↦ encodablePosFloat (BitVec.ofNat 7 encoding)

def isFloatEncodable (value : BitVec 64) : Bool :=
  (value &&& 0x7FFFFFFFFFFFFFFF) ∈ encodablePosFloats

end AArch64Immediate

/-! ## Lowering -/

namespace SSALowerer

open AArch64Immediate

def intImmediate (bits : BitVec 64) : Operand := ⟨.intImmediate ⟨bits, false⟩, 0⟩

def movz (value : Operand) (element : BitVec 16) (index : ℕ) : Instruction :=
  ⟨.MOVZ, [value, intImmediate (element.setWidth 64), ⟨.leftShift (16 * index), 0⟩]⟩

def movk (value : Operand) (element : BitVec 16) (index : ℕ) : Instruction :=
  ⟨.MOVK, [value, intImmediate (element.setWidth 64), ⟨.leftShift (16 * index), 0⟩]⟩

/-- `move_elements_into_register`: zero elements are skipped, the first `MOVZ` has set them. -/
def moveElementsIntoRegister (value : Operand) (elements : List (BitVec 16)) : List Instruction :=
  match elements.zipIdx.filter fun element ↦ element.1 ≠ 0 with
  | [(element, index)] => [movz value element index]
  | nonZero =>
    ⟨.MOVZ, [value, intImmediate ((elements.headD 0).setWidth 64)]⟩
      :: nonZero.map fun element ↦ movk value element.1 element.2

def moveIntIntoRegister (dst : PhysicalReg) (value : LargeInt) (size : ℕ) :
    Option (List Instruction) :=
  let bits := value.toBits
  let result : Operand := ⟨.register dst, size⟩
  if bits = 0 then some [⟨.MOV, [result, intImmediate 0]⟩]
  else if size = 1 ∨ size = 2 then some [⟨.MOV, [result, intImmediate bits]⟩]
  else if size = 4 then
    some (moveElementsIntoRegister result (decomposeU32U16 (bits.setWidth 32)))
  else if size = 8 then some (moveElementsIntoRegister result (decomposeU64U16 bits))
  else none

/-- The relocations of the address of a symbol of the module. -/
def relocations (darwin : Bool) : Relocation × Relocation :=
  if darwin then (.PAGE21, .PAGEOFF12) else (.ADR_PREL_PG_HI21, .ADD_ABS_LO12_NC)

/-- `move_symbol_into_register`, of a symbol that is not external. -/
def moveSymbolIntoRegister (darwin : Bool) (dst : PhysicalReg) (symbol : ℕ) : List Instruction :=
  let result : Operand := ⟨.register dst, 8⟩
  [⟨.ADRP, [result, ⟨.symbol ⟨symbol, (relocations darwin).1⟩, 0⟩]⟩,
    ⟨.ADD, [result, result, ⟨.symbol ⟨symbol, (relocations darwin).2⟩, 0⟩]⟩]

/-- The instructions a constant is moved with, and the `double` a new global holds. -/
structure Moved where
  instrs : List Instruction
  global : Option (BitVec 64) := none
  deriving DecidableEq, Repr

/-- `move_float_into_register`; `tmp` is the general register of the bits or the address, and
`symbol` the name of the new global. -/
def moveFloatIntoRegister (darwin : Bool) (dst tmp : PhysicalReg) (symbol : ℕ)
    (value : BitVec 64) (size : ℕ) : Moved :=
  let result : Operand := ⟨.register dst, size⟩
  if isFloatEncodable value then ⟨[⟨.FMOV, [result, ⟨.fpImmediate value, 0⟩]⟩], none⟩
  else if size = 4 then
    let bitsValue : Operand := ⟨.register tmp, size⟩
    ⟨moveElementsIntoRegister bitsValue (decomposeU32U16 (Binary64.narrow value))
      ++ [⟨.FMOV, [result, bitsValue]⟩], none⟩
  else
    ⟨moveSymbolIntoRegister darwin tmp symbol
      ++ [⟨.LDR, [result, ⟨.addr (.BASE tmp), 0⟩]⟩], some value⟩

/-- A number, or the bits of a `double`. -/
inductive Constant where
  | int (value : LargeInt)
  | fp (value : BitVec 64)
  deriving DecidableEq, Repr

def moveConstIntoRegister (darwin : Bool) (dst tmp : PhysicalReg) (symbol : ℕ) (size : ℕ) :
    Constant → Option Moved
  | .int value => (moveIntIntoRegister dst value size).map fun instrs ↦ ⟨instrs, none⟩
  | .fp value => some (moveFloatIntoRegister darwin dst tmp symbol value size)

end SSALowerer

/-! ## Linking -/

/-- What a linker makes of a word at an address, as the relocations are documented. -/
def relocate (reloc : Relocation) (symbol place : BitVec 64) (word : BitVec 32) :
    Option (BitVec 32) :=
  match reloc with
  | .ADR_PREL_PG_HI21 | .PAGE21 =>
    let pages := ((Machine.page symbol - Machine.page place) >>> 12).setWidth 21
    some (word ||| field (pages.extractLsb' 2 19) 5 ||| field (pages.extractLsb' 0 2) 29)
  | .ADD_ABS_LO12_NC | .PAGEOFF12 => some (word ||| field (symbol.setWidth 12) 10)
  | _ => none

/-- A linker refuses a symbol that is more than 4 GiB away. -/
def Reaches (symbol place : BitVec 64) : Prop :=
  ((Machine.page symbol - Machine.page place).setWidth 33).signExtend 64
    = Machine.page symbol - Machine.page place

instance (symbol place : BitVec 64) : Decidable (Reaches symbol place) :=
  inferInstanceAs (Decidable (_ = _))

def link (addresses : ℕ → BitVec 64) (place : BitVec 64) (encoded : Encoded) :
    Option (BitVec 32) :=
  match encoded.use with
  | none => some encoded.word
  | some symbol => relocate symbol.reloc (addresses symbol.index) place encoded.word

/-- The words of instructions from an address on. -/
def assemble (frame : Frame) (addresses : ℕ → BitVec 64) (place : BitVec 64) :
    List Instruction → Option (List (BitVec 32))
  | [] => some []
  | instr :: instrs => do
    let encoded ← encodeInstr frame instr
    let word ← link addresses place encoded
    let words ← assemble frame addresses (place + 4) instrs
    return word :: words

section Runs

variable (frame : Frame) (addresses : ℕ → BitVec 64)

/-- The words of instructions take a processor from one state to another. -/
def Runs (m : Machine) (instrs : List Instruction) (m' : Machine) : Prop :=
  ∃ words, assemble frame addresses m.pc instrs = some words ∧ m.run words = some m'

variable {frame addresses}

theorem runs_nil (m : Machine) : Runs frame addresses m [] m := ⟨[], rfl, rfl⟩

/-- One instruction that is encoded, linked and read. -/
theorem Runs.cons {m m' : Machine} {instr : Instruction} {instrs : List Instruction}
    {encoded : Encoded} {word : BitVec 32} {read : Instr}
    (hencode : encodeInstr frame instr = some encoded)
    (hlink : link addresses m.pc encoded = some word) (hread : Instr.decode word = some read)
    (h : Runs frame addresses (m.step read) instrs m') :
    Runs frame addresses m (instr :: instrs) m' := by
  obtain ⟨words, hassemble, hrun⟩ := h
  refine ⟨word :: words, ?_, ?_⟩
  · rw [assemble, hencode, bind_eq_bind, bind_some, hlink, bind_eq_bind,
      bind_some, show m.pc + 4 = (m.step read).pc from rfl, hassemble]
    rfl
  · rw [Machine.run, hread, bind_some]
    exact hrun

variable {m : Machine}

theorem Runs.append {m' m'' : Machine} {instrs instrs' : List Instruction}
    (h : Runs frame addresses m instrs m') (h' : Runs frame addresses m' instrs' m'') :
    Runs frame addresses m (instrs ++ instrs') m'' := by
  obtain ⟨words, hassemble, hrun⟩ := h
  induction instrs generalizing m words with
  | nil =>
    obtain rfl := some.inj hassemble
    obtain rfl := some.inj hrun
    exact h'
  | cons instr instrs ih =>
    simp only [assemble, bind_eq_bind, bind_eq_some_iff] at hassemble
    obtain ⟨encoded, hencode, word, hlink, words', hwords, heq⟩ := hassemble
    obtain rfl := some.inj heq
    rw [Machine.run, bind_eq_some_iff] at hrun
    obtain ⟨read, hread, hrun⟩ := hrun
    exact .cons hencode hlink hread (ih (m := m.step read) words' hwords hrun)

theorem Runs.single {instr : Instruction} {encoded : Encoded} {read : Instr}
    (hencode : encodeInstr frame instr = some encoded) (huse : encoded.use = none)
    (hread : Instr.decode encoded.word = some read) :
    Runs frame addresses m [instr] (m.step read) :=
  .cons hencode (by rw [link, huse]) hread (runs_nil _)

/-! ## Moves of halfwords -/

theorem encodeGpReg_of_le {reg : PhysicalReg} (h : reg ≤ AArch64Register.R30) :
    encodeGpReg reg = some (BitVec.ofNat 5 reg) :=
  if_pos h

theorem ofNat_ne_zr {reg : ℕ} (h : reg ≤ AArch64Register.R30) : BitVec.ofNat 5 reg ≠ 31 := by
  intro heq
  have hle : reg ≤ 30 := h
  have hmod : reg % 32 = 31 := congrArg BitVec.toNat heq
  omega

theorem encodeImm_halfword (piece : BitVec 16) :
    encodeImm ⟨piece.setWidth 64, false⟩ 16 0 = some piece := by
  rw [encodeImm, LargeInt.toBits_mk_false, if_pos (Subsingleton.elim _ _), BitVec.ushiftRight_zero,
    BitVec.setWidth_setWidth_of_le _ (by decide), BitVec.setWidth_eq]

variable {index : ℕ}

theorem encodeImm_shift (h : index < 4) :
    encodeImm ⟨BitVec.ofNat 64 (16 * index), false⟩ 2 4 = some (BitVec.ofNat 2 index) := by
  obtain rfl | rfl | rfl | rfl : index = 0 ∨ index = 1 ∨ index = 2 ∨ index = 3 := by omega
  all_goals decide

variable {dst : PhysicalReg}

theorem encodeMovzFamily_shift (hdst : dst ≤ AArch64Register.R30)
    (hindex : index < 4) (template : BitVec 32) (size : ℕ) (element : BitVec 16) :
    encodeMovzFamily template [⟨.register dst, size⟩, SSALowerer.intImmediate (element.setWidth 64),
      ⟨.leftShift (16 * index), 0⟩]
      = some ⟨template ||| flag (size = 8) 31 ||| field (BitVec.ofNat 2 index) 21
        ||| field element 5 ||| field (BitVec.ofNat 5 dst) 0, none⟩ := by
  simp [encodeMovzFamily, SSALowerer.intImmediate, Operand.getPhysicalReg, Operand.getIntImmediate,
    Operand.getLeftShift, encodeGpReg_of_le hdst, encodeImm_halfword, encodeImm_shift hindex]

/-- Without a shift the halfword is the lowest one. -/
theorem encodeMovzFamily_plain (hdst : dst ≤ AArch64Register.R30)
    (template : BitVec 32) (size : ℕ) (element : BitVec 16) :
    encodeMovzFamily template [⟨.register dst, size⟩, SSALowerer.intImmediate (element.setWidth 64)]
      = some ⟨template ||| flag (size = 8) 31 ||| field (BitVec.ofNat 2 0) 21
        ||| field element 5 ||| field (BitVec.ofNat 5 dst) 0, none⟩ := by
  have hzero : encodeImm ⟨0#64, false⟩ 2 4 = some 0#2 := by decide
  simp [encodeMovzFamily, SSALowerer.intImmediate, Operand.getPhysicalReg, Operand.getIntImmediate,
    encodeGpReg_of_le hdst, encodeImm_halfword, hzero]

theorem toNat_ofNat_index (h : index < 4) : (BitVec.ofNat 2 index).toNat = index :=
  Nat.mod_eq_of_lt h

theorem lt_two_of_word {sf : Bool} (h : 16 * index + 16 ≤ Machine.width sf)
    (hsf : sf = false) : BitVec.ofNat 2 index < 2 := by
  rw [hsf] at h
  have hle : 16 * index + 16 ≤ 32 := h
  obtain rfl | rfl : index = 0 ∨ index = 1 := by omega
  all_goals decide

theorem width_le (sf : Bool) : Machine.width sf ≤ 64 := by
  cases sf <;> decide

section Elements

variable {dst : PhysicalReg} {size : ℕ} (frame : Frame) (addresses : ℕ → BitVec 64)

open SSALowerer Halfwords

/-- The register of a constant, as the words name it. -/
def number (reg : PhysicalReg) : BitVec 5 := BitVec.ofNat 5 reg

/-- The width of the general register of a constant. -/
abbrev regWidth (size : ℕ) : ℕ := Machine.width (size = 8)

theorem setWidth_setWidth_regWidth (size : ℕ) (x : BitVec (regWidth size)) :
    (x.setWidth 64).setWidth (regWidth size) = x := by
  rw [BitVec.setWidth_setWidth_of_le _ (width_le _), BitVec.setWidth_eq]

theorem runs_movz (hdst : dst ≤ AArch64Register.R30)
    (hindex : 16 * index + 16 ≤ regWidth size) (m : Machine) (element : BitVec 16) :
    ∃ m', Runs frame addresses m [movz ⟨.register dst, size⟩ element index] m' ∧
      m'.gp (number dst) = (place (regWidth size) index element).setWidth 64 := by
  have hlt : index < 4 := by
    have hle := width_le (size = 8)
    rw [regWidth] at hindex
    omega
  refine ⟨_, .single (encodeMovzFamily_shift hdst hlt 0x52800000 size element) rfl
    (Instr.decode_moveWide .MOVZ (by decide) (lt_two_of_word hindex) _ _), ?_⟩
  rw [Machine.step_gp, Machine.exec, Machine.writeGp_gp (ofNat_ne_zr hdst), number,
    update_self, toNat_ofNat_index hlt]

theorem runs_movks (hdst : dst ≤ AArch64Register.R30) {pieces : List (BitVec 16 × ℕ)}
    (hpieces : ∀ piece ∈ pieces, 16 * piece.2 + 16 ≤ regWidth size) {m : Machine}
    {x : BitVec (regWidth size)} (hx : m.gp (number dst) = x.setWidth 64) :
    ∃ m', Runs frame addresses m
        (pieces.map fun piece ↦ movk ⟨.register dst, size⟩ piece.1 piece.2) m' ∧
      m'.gp (number dst) = (insertAll pieces x).setWidth 64 := by
  induction pieces generalizing m x with
  | nil => exact ⟨m, runs_nil m, hx⟩
  | cons piece pieces ih =>
    have hindex := hpieces piece mem_cons_self
    have hlt : piece.2 < 4 := by
      have hle := width_le (size = 8)
      rw [regWidth] at hindex
      omega
    have hgp : (m.step (.moveWide .MOVK (size = 8) (BitVec.ofNat 2 piece.2) piece.1
        (BitVec.ofNat 5 dst))).gp (number dst) = (insert x piece.2 piece.1).setWidth 64 := by
      rw [Machine.step_gp, Machine.exec, Machine.writeGp_gp (ofNat_ne_zr hdst), number,
        update_self, toNat_ofNat_index hlt, ← number, hx]
      rw [setWidth_setWidth_regWidth]
    obtain ⟨m', hruns, hm'⟩ := ih (fun later h ↦ hpieces later (mem_cons_of_mem _ h)) hgp
    exact ⟨m', .cons (encodeMovzFamily_shift hdst hlt 0x72800000 size piece.1) rfl
      (Instr.decode_moveWide .MOVK (by decide) (lt_two_of_word hindex) _ _) hruns, hm'⟩

/-- The pieces of a word that are not zero, with their indices. -/
theorem mem_nonZero_iff {w : ℕ} (v : BitVec w) (pieces : ℕ) (piece : BitVec 16 × ℕ) :
    piece ∈ (((range pieces).map (half v)).zipIdx.filter fun element ↦ element.1 ≠ 0) ↔
      piece.2 < pieces ∧ piece.1 = half v piece.2 ∧ piece.1 ≠ 0 := by
  obtain ⟨element, index⟩ := piece
  rw [mem_filter, mem_zipIdx_iff_getElem?, getElem?_map, decide_eq_true_iff]
  by_cases hlt : index < pieces
  · rw [getElem?_range hlt, map_some, some_inj]
    tauto
  · rw [List.getElem?_eq_none (by simpa using hlt)]
    simp [hlt]

/-- The register holds the word of which the elements are the pieces. -/
theorem runs_moveElements (size : ℕ) (hdst : dst ≤ AArch64Register.R30) (pieces : ℕ)
    (hpos : 0 < pieces) (hwidth : 16 * pieces = regWidth size) (v : BitVec (regWidth size))
    (m : Machine) :
    ∃ m', Runs frame addresses m (moveElementsIntoRegister ⟨.register dst, size⟩
        ((range pieces).map (half v))) m' ∧
      m'.gp (number dst) = v.setWidth 64 := by
  have hmem := mem_nonZero_iff v pieces
  have hfits (index : ℕ) (h : index < pieces) : 16 * index + 16 ≤ regWidth size := by omega
  unfold moveElementsIntoRegister
  split
  · rename_i element index heq
    rw [heq] at hmem
    obtain ⟨hindex, helement, -⟩ := (hmem (element, index)).mp (mem_singleton.mpr rfl)
    obtain ⟨m', hruns, hm'⟩ := runs_movz frame addresses hdst (hfits index hindex) m element
    refine ⟨m', hruns, hm'.trans (congrArg _ (eq_of_half_eq hwidth.ge fun other hother ↦ ?_))⟩
    by_cases hne : other = index
    · rw [hne, half_place_self (hfits index hindex), ← helement]
    · rw [half_place_of_ne hne]
      by_contra hzero
      have hin := (hmem (half v other, other)).mpr ⟨hother, rfl, Ne.symm hzero⟩
      exact hne (congrArg Prod.snd (mem_singleton.mp hin))
  · have hhead : ((range pieces).map (half v)).headD 0 = half v 0 := by
      obtain ⟨rest, rfl⟩ := Nat.exists_eq_succ_of_ne_zero hpos.ne'
      rw [range_succ_eq_map]
      rfl
    rw [hhead]
    have hgp : (m.step (.moveWide .MOVZ (size = 8) (BitVec.ofNat 2 0) (half v 0)
        (BitVec.ofNat 5 dst))).gp (number dst)
          = (place (regWidth size) 0 (half v 0)).setWidth 64 := by
      rw [Machine.step_gp, Machine.exec, Machine.writeGp_gp (ofNat_ne_zr hdst), number, update_self]
      rfl
    obtain ⟨m', hruns, hm'⟩ := runs_movks frame addresses hdst
      (fun piece hpiece ↦ hfits _ ((hmem piece).mp hpiece).1) hgp
    refine ⟨m', .cons (encodeMovzFamily_plain hdst 0x52800000 size (half v 0)) rfl
      (Instr.decode_moveWide .MOVZ (by decide) (lt_two_of_word (hfits 0 hpos)) _ _) hruns,
      hm'.trans (congrArg _ (eq_of_half_eq hwidth.ge fun index hindex ↦ ?_))⟩
    -- A piece that is not written again is zero, or the lowest one.
    refine half_insertAll (fun piece hpiece ↦ ?_) _ ?_
    · obtain ⟨hlt, hpiece, -⟩ := (hmem piece).mp hpiece
      exact ⟨hpiece.symm, hfits _ hlt⟩
    · by_cases hzero : half v index = 0
      · left
        by_cases hne : index = 0
        · rw [hne, half_place_self (hfits 0 hpos)]
        · rw [half_place_of_ne hne, hzero]
      · right
        exact mem_map.mpr ⟨(half v index, index), (hmem _).mpr ⟨hindex, rfl, hzero⟩, rfl⟩

theorem encodeImm_unshifted (bits : BitVec 64) :
    encodeImm ⟨bits, false⟩ 16 0 = some (bits.setWidth 16) := by
  rw [encodeImm, LargeInt.toBits_mk_false, if_pos (Subsingleton.elim _ _), BitVec.ushiftRight_zero]

variable {bits : BitVec 64}

theorem encodeMov_of_lt (hdst : dst ≤ AArch64Register.R30)
    (h : bits.toNat < 2 ^ 16) : encodeMov [⟨.register dst, size⟩, intImmediate bits]
      = some ⟨0x52800000 ||| flag (size = 8) 31 ||| field (BitVec.ofNat 2 0) 21
        ||| field (bits.setWidth 16) 5 ||| field (BitVec.ofNat 5 dst) 0, none⟩ := by
  have hshift : movShift bits = 0 := by
    rw [movShift, if_neg, if_neg, if_neg] <;> simp [BitVec.le_def] <;> omega
  have hrest : bits.setWidth (movShift bits) = 0 := by
    rw [hshift]
    exact Subsingleton.elim _ _
  have hzero : encodeImm ⟨0#64, false⟩ 2 4 = some 0#2 := by decide
  simp [encodeMov, intImmediate, Operand.getPhysicalReg, encodeGpReg_of_le hdst, hrest, hshift,
    encodeImm_unshifted, hzero]

/-- The number is negative, and the complement of its bits is moved. -/
theorem encodeMov_of_ge (hdst : dst ≤ AArch64Register.R30)
    (h : 2 ^ 64 - 2 ^ 16 ≤ bits.toNat) : encodeMov [⟨.register dst, size⟩, intImmediate bits]
      = some ⟨0x12800000 ||| flag (size = 8) 31 ||| field (BitVec.ofNat 2 0) 21
        ||| field ((~~~bits).setWidth 16) 5 ||| field (BitVec.ofNat 5 dst) 0, none⟩ := by
  have hlt := bits.isLt
  have hshift : movShift bits = 48 := by
    rw [movShift, if_pos]
    simp [BitVec.le_def]
    omega
  have hrest : ¬bits.setWidth (movShift bits) = 0#(movShift bits) := by
    rw [hshift]
    intro heq
    have hnat : bits.toNat % 2 ^ 48 = 0 := by
      rw [← BitVec.toNat_setWidth, heq]
      rfl
    omega
  have hzero : encodeImm ⟨0#64, false⟩ 2 4 = some 0#2 := by decide
  simp [encodeMov, intImmediate, Operand.getPhysicalReg, encodeGpReg_of_le hdst, hrest,
    encodeImm_unshifted, hzero]

theorem place_low {w : ℕ} (h : bits.toNat < 2 ^ 16) :
    place w 0 (bits.setWidth 16) = bits.setWidth w := by
  rw [place, Nat.mul_zero, BitVec.shiftLeft_zero]
  apply BitVec.eq_of_toNat_eq
  rw [BitVec.toNat_setWidth, BitVec.toNat_setWidth, BitVec.toNat_setWidth, Nat.mod_eq_of_lt h]

/-- A number of sixteen bits, or one of which the upper bits are copies of the sign. -/
theorem runs_mov (hdst : dst ≤ AArch64Register.R30) (bits : BitVec 64)
    (h : bits.toNat < 2 ^ 16 ∨ 2 ^ 64 - 2 ^ 16 ≤ bits.toNat) (m : Machine) :
    ∃ m', Runs frame addresses m [⟨.MOV, [⟨.register dst, size⟩, intImmediate bits]⟩] m' ∧
      m'.gp (number dst) = (bits.setWidth (regWidth size)).setWidth 64 := by
  have hw : 16 * 0 + 16 ≤ regWidth size := by
    unfold regWidth Machine.width
    split <;> decide
  rcases h with h | h
  · refine ⟨_, .single (encodeMov_of_lt hdst h) rfl
      (Instr.decode_moveWide .MOVZ (by decide) (lt_two_of_word hw) _ _), ?_⟩
    rw [Machine.step_gp, Machine.exec, Machine.writeGp_gp (ofNat_ne_zr hdst), number,
      update_self, toNat_ofNat_index (by decide), place_low h]
  · refine ⟨_, .single (encodeMov_of_ge hdst h) rfl
      (Instr.decode_moveWide .MOVN (by decide) (lt_two_of_word hw) _ _), ?_⟩
    have hnot : (~~~bits).toNat < 2 ^ 16 := by
      rw [BitVec.toNat_not]
      omega
    rw [Machine.step_gp, Machine.exec, Machine.writeGp_gp (ofNat_ne_zr hdst), number,
      update_self, toNat_ofNat_index (by decide), place_low hnot,
      BitVec.setWidth_not (width_le _), BitVec.not_not]

/-- What the bits of a number are when it has a size of one or two bytes. -/
theorem toBits_short (value : LargeInt) (hlow : -2 ^ 15 ≤ value.value)
    (hhigh : value.value < 2 ^ 16) :
    value.toBits.toNat < 2 ^ 16 ∨ 2 ^ 64 - 2 ^ 16 ≤ value.toBits.toNat := by
  rw [LargeInt.toBits_eq_ofInt, BitVec.toNat_ofInt]
  omega

/-- A number of a size, with or without a sign. -/
structure FitsSize (size : ℕ) (value : ℤ) : Prop where
  isSize : size ∈ [1, 2, 4, 8]
  low : -2 ^ (8 * size - 1) ≤ value
  high : value < 2 ^ (8 * size)

theorem runs_moveInt (hdst : dst ≤ AArch64Register.R30) {value : LargeInt}
    (h : FitsSize size value.value) (m : Machine) :
    ∃ instrs m', moveIntIntoRegister dst value size = some instrs ∧
      Runs frame addresses m instrs m' ∧
      m'.gp (number dst) = (BitVec.ofInt (regWidth size) value.value).setWidth 64 := by
  obtain ⟨hsize, hlow, hhigh⟩ := h
  rw [← LargeInt.setWidth_ofInt (width_le _), ← LargeInt.toBits_eq_ofInt]
  unfold moveIntIntoRegister
  by_cases hzero : value.toBits = 0
  · rw [hzero]
    obtain ⟨m', hruns, hm'⟩ := runs_mov frame addresses hdst 0 (.inl (by decide)) m
    exact ⟨_, m', if_pos rfl, hruns, hm'⟩
  simp only [if_neg hzero]
  simp only [mem_cons, not_mem_nil, or_false] at hsize
  obtain rfl | rfl | rfl | rfl := hsize
  · obtain ⟨m', hruns, hm'⟩ := runs_mov frame addresses hdst value.toBits
      (toBits_short value (by omega) (by omega)) m
    exact ⟨_, m', rfl, hruns, hm'⟩
  · obtain ⟨m', hruns, hm'⟩ := runs_mov frame addresses hdst value.toBits
      (toBits_short value (by omega) (by omega)) m
    exact ⟨_, m', rfl, hruns, hm'⟩
  · obtain ⟨m', hruns, hm'⟩ := runs_moveElements frame addresses 4 hdst 2 (by decide) rfl
      (value.toBits.setWidth 32) m
    exact ⟨_, m', rfl, hruns, hm'⟩
  · obtain ⟨m', hruns, hm'⟩ := runs_moveElements frame addresses 8 hdst 4 (by decide) rfl
      value.toBits m
    rw [show value.toBits.setWidth (regWidth 8) = value.toBits from BitVec.setWidth_eq _]
    exact ⟨_, m', rfl, hruns, hm'⟩

end Elements

/-! ## Floating-point constants -/

section Floats

variable {dst tmp : PhysicalReg} {size : ℕ} (frame : Frame) (addresses : ℕ → BitVec 64)

open SSALowerer AArch64Immediate

/-- The number of a floating-point register. -/
def fpNumber (reg : PhysicalReg) : BitVec 5 := BitVec.ofNat 5 (reg - AArch64Register.V0)

/-- What an immediate of a floating-point move expands to has the same value in both formats. -/
theorem narrow_expandImm64 (imm : BitVec 8) :
    Binary64.narrow (expandImm64 imm) = expandImm32 imm := by
  have happend : expandImm64 imm = imm.extractLsb' 7 1 ++ (~~~imm.extractLsb' 6 1
      ++ (imm.extractLsb' 6 1).replicate 8 ++ imm.extractLsb' 4 2 : BitVec 11)
      ++ (imm.extractLsb' 0 4 ++ 0#19 : BitVec 23) ++ 0#29 := by
    apply BitVec.eq_of_toNat_eq
    simp only [expandImm64, Binary64.toNat_append, BitVec.toNat_ofNat]
    omega
  have hexponent : ∀ (b : BitVec 1) (low : BitVec 2),
      (~~~b ++ b.replicate 8 ++ low : BitVec 11).toNat
          = (~~~b ++ b.replicate 5 ++ low : BitVec 8).toNat + 896 ∧
        0 < (~~~b ++ b.replicate 5 ++ low : BitVec 8).toNat ∧
        (~~~b ++ b.replicate 5 ++ low : BitVec 8).toNat < 255 := by
    decide
  obtain ⟨hwide, hlow, hhigh⟩ := hexponent (imm.extractLsb' 6 1) (imm.extractLsb' 4 2)
  rw [happend, Binary64.narrow_exact hwide hlow hhigh, expandImm32]

theorem encodeF64Imm_expandImm64 : ∀ imm : BitVec 8, encodeF64Imm (expandImm64 imm) = some imm := by
  decide +kernel

theorem encodeF32Imm_expandImm32 : ∀ imm : BitVec 8, encodeF32Imm (expandImm32 imm) = some imm := by
  decide +kernel

/-- An encodable number is expanded from its sign and its encoding. -/
theorem expandImm64_append : ∀ (sign : BitVec 1) (encoding : BitVec 7),
    expandImm64 (sign ++ encoding) = sign.setWidth 64 <<< 63 ||| encodablePosFloat encoding := by
  decide +kernel

theorem exists_expandImm64 {value : BitVec 64} (h : isFloatEncodable value = true) :
    ∃ imm, value = expandImm64 imm := by
  rw [isFloatEncodable, decide_eq_true_iff, encodablePosFloats, List.mem_map] at h
  obtain ⟨encoding, -, h⟩ := h
  refine ⟨value.extractLsb' 63 1 ++ BitVec.ofNat 7 encoding, ?_⟩
  have hmask : (0x7FFFFFFFFFFFFFFF : BitVec 64) = (BitVec.allOnes 63).setWidth 64 := rfl
  rw [expandImm64_append, h, hmask]
  apply BitVec.eq_of_getLsbD_eq
  intro i hi
  rw [BitVec.getLsbD_or, BitVec.getLsbD_shiftLeft, BitVec.getLsbD_and, BitVec.getLsbD_setWidth,
    BitVec.getLsbD_setWidth, BitVec.getLsbD_allOnes, BitVec.getLsbD_extractLsb']
  by_cases hsign : i = 63
  · simp [hsign]
  · simp [hi, show i < 63 by omega]

/-- The bits a register holds a floating-point number with. -/
def fpBits (size : ℕ) (value : BitVec 64) : BitVec 64 :=
  if size = 8 then value else (Binary64.narrow value).setWidth 64

variable {reg : PhysicalReg}

theorem not_isFpReg (h : reg ≤ AArch64Register.R30) : isFpReg reg = false := by
  rw [isFpReg, decide_eq_false_iff_not]
  exact fun hfp ↦ absurd (hfp.1.trans h) (by decide)

theorem encodeFpReg_of_isFpReg (h : isFpReg reg = true) : encodeFpReg reg = some (fpNumber reg) :=
  if_pos h

theorem encodeFmov_immediate (hdst : isFpReg dst = true) (size : ℕ) (imm : BitVec 8) :
    encodeFmov [⟨.register dst, size⟩, ⟨.fpImmediate (expandImm64 imm), 0⟩]
      = some ⟨0x1E201000 ||| flag (size = 8) 22 ||| field imm 13 ||| field (fpNumber dst) 0,
        none⟩ := by
  simp [encodeFmov, Operand.getPhysicalReg, encodeFpReg_of_isFpReg hdst, narrow_expandImm64,
    encodeF64Imm_expandImm64, encodeF32Imm_expandImm32]

theorem runs_fmov_immediate (hdst : isFpReg dst = true) (imm : BitVec 8) (m : Machine) :
    ∃ m', Runs frame addresses m
        [⟨.FMOV, [⟨.register dst, size⟩, ⟨.fpImmediate (expandImm64 imm), 0⟩]⟩] m' ∧
      m'.fp (fpNumber dst) = fpBits size (expandImm64 imm) := by
  refine ⟨_, .single (encodeFmov_immediate hdst size imm) rfl (Instr.decode_fmovImm _ _ _), ?_⟩
  rw [fpBits, narrow_expandImm64]
  by_cases hsize : size = 8
  · simp [hsize, Machine.exec]
  · simp [hsize, Machine.exec]

variable {m : Machine}

/-- A `float` is moved from the word register that holds its bits. -/
theorem runs_fmov_register (hdst : isFpReg dst = true) (htmp : tmp ≤ AArch64Register.R30)
    {bits : BitVec 32} (hbits : m.gp (number tmp) = bits.setWidth 64) :
    ∃ m', Runs frame addresses m [⟨.FMOV, [⟨.register dst, 4⟩, ⟨.register tmp, 4⟩]⟩] m' ∧
      m'.fp (fpNumber dst) = bits.setWidth 64 := by
  have hencode : encodeFmov [⟨.register dst, 4⟩, ⟨.register tmp, 4⟩]
      = some ⟨0x1E260000 ||| flag false 31 ||| flag false 22 ||| flag true 16
        ||| field (number tmp) 5 ||| field (fpNumber dst) 0, none⟩ := by
    simp [encodeFmov, Operand.getPhysicalReg, encodeFpReg_of_isFpReg hdst, hdst,
      not_isFpReg htmp, encodeGpReg_of_le htmp, number]
  refine ⟨_, .single hencode rfl (Instr.decode_fmovGp _ _ _), ?_⟩
  have hword : (bits.setWidth 64).setWidth 32 = bits := setWidth_setWidth_regWidth 4 bits
  simp [Machine.exec, hbits, Machine.width, hword]

/-! ## Addresses of globals -/

theorem page_low (address : BitVec 64) : (Machine.page address).setWidth 12 = 0 := by
  rw [Machine.page, NarrowBits.setWidth_sub (by decide),
    BitVec.setWidth_setWidth_of_le _ (by decide), BitVec.setWidth_eq]
  exact BitVec.sub_self _

/-- A distance of pages is put together again from its twenty-one bits. -/
theorem signExtend_pages {d : BitVec 64} (hlow : d.setWidth 12 = 0)
    (hreaches : (d.setWidth 33).signExtend 64 = d) :
    ((d >>> 12).setWidth 21).signExtend 64 <<< 12 = d := by
  have hbit (i : ℕ) := congrArg (BitVec.getLsbD · i) hreaches
  have hzero (i : ℕ) := congrArg (BitVec.getLsbD · i) hlow
  simp only [BitVec.getLsbD_signExtend, BitVec.getLsbD_setWidth, BitVec.msb_eq_getLsbD_last] at hbit
  simp only [BitVec.getLsbD_setWidth] at hzero
  apply BitVec.eq_of_getLsbD_eq
  intro i hi
  rw [BitVec.getLsbD_shiftLeft, BitVec.getLsbD_signExtend, BitVec.getLsbD_setWidth,
    BitVec.getLsbD_ushiftRight, BitVec.msb_eq_getLsbD_last, BitVec.getLsbD_setWidth,
    BitVec.getLsbD_ushiftRight]
  by_cases hsmall : i < 12
  · have hbelow := hzero i
    simp [hsmall] at hbelow ⊢
    exact hbelow
  · by_cases hshort : i < 33
    · simp [hi, hsmall, show i - 12 < 21 by omega, show 12 + (i - 12) = i by omega,
        show i - 12 < 64 by omega]
    · have habove := hbit i
      simp [hi, hshort] at habove
      simp [hi, hsmall, show ¬i - 12 < 21 by omega, show i - 12 < 64 by omega, habove]

theorem pages_of_reaches {symbol place : BitVec 64} (h : Reaches symbol place) :
    (((Machine.page symbol - Machine.page place) >>> 12).setWidth 21).signExtend 64 <<< 12
      = Machine.page symbol - Machine.page place := by
  refine signExtend_pages ?_ h
  rw [NarrowBits.setWidth_sub (by decide), page_low, page_low]
  rfl

theorem append_extract (x : BitVec 21) : x.extractLsb' 2 19 ++ x.extractLsb' 0 2 = x := by
  apply BitVec.eq_of_toNat_eq
  rw [Binary64.toNat_append, BitVec.extractLsb'_toNat, BitVec.extractLsb'_toNat,
    Nat.shiftRight_eq_div_pow, Nat.shiftRight_eq_div_pow]
  have hx := x.isLt
  omega

theorem runs_moveSymbol (darwin : Bool) (htmp : tmp ≤ AArch64Register.R30) {symbol : ℕ}
    {m : Machine} (h : Reaches (addresses symbol) m.pc) :
    ∃ m', Runs frame addresses m (moveSymbolIntoRegister darwin tmp symbol) m' ∧
      m'.gp (number tmp) = addresses symbol ∧ m'.memory = m.memory := by
  have hzr : number tmp ≠ 31 := ofNat_ne_zr htmp
  have hadrp : encodeAdrp [⟨.register tmp, 8⟩, ⟨.symbol ⟨symbol, (relocations darwin).1⟩, 0⟩]
      = some ⟨0x90000000 ||| field (number tmp) 0, some ⟨symbol, (relocations darwin).1⟩⟩ := by
    simp [encodeAdrp, Operand.getPhysicalReg, encodeGpReg_of_le htmp, number]
  have hadd : encodeAddFamily frame 0x0B200000 0x0B000000 0x11000000 [⟨.register tmp, 8⟩,
      ⟨.register tmp, 8⟩, ⟨.symbol ⟨symbol, (relocations darwin).2⟩, 0⟩]
      = some ⟨0x11000000 ||| flag true 31 ||| field (number tmp) 5 ||| field (number tmp) 0,
        some ⟨symbol, (relocations darwin).2⟩⟩ := by
    simp [encodeAddFamily, Operand.getPhysicalReg, encodeGpReg_of_le htmp, number]
  refine ⟨_, .cons hadrp (by cases darwin <;> rfl) (Instr.decode_adrp _ _ _)
    (.cons hadd (by cases darwin <;> rfl) (Instr.decode_addImm _ _ _) (runs_nil _)), ?_, ?_⟩
  · rw [append_extract, Machine.step_gp, Machine.exec, Machine.writeSp_of_ne hzr,
      Machine.writeGp_gp hzr, update_self, Machine.readSp_of_ne hzr, Machine.step_gp,
      Machine.exec, Machine.writeGp_gp hzr, update_self, pages_of_reaches h,
      BitVec.setWidth_eq, BitVec.setWidth_eq, add_sub_cancel, Machine.page, sub_add_cancel]
  · rw [Machine.step_memory, Machine.exec, Machine.writeSp_of_ne hzr, Machine.writeGp_memory,
      Machine.step_memory, Machine.exec, Machine.writeGp_memory]

theorem runs_ldr (hdst : isFpReg dst = true) (htmp : tmp ≤ AArch64Register.R30) {value : BitVec 64}
    (hmemory : m.memory.read (m.gp (number tmp)) 8 = Memory.toBytes value 8) :
    ∃ m', Runs frame addresses m [⟨.LDR, [⟨.register dst, 8⟩, ⟨.addr (.BASE tmp), 0⟩]⟩] m' ∧
      m'.fp (fpNumber dst) = value := by
  have hgp : isGpReg dst = false := by
    obtain ⟨hlow, hhigh⟩ := of_decide_eq_true hdst
    rw [isGpReg, decide_eq_false_iff_not]
    rintro (hle | heq)
    · exact absurd (hlow.trans hle) (by decide)
    · exact hhigh.ne heq
  have hscaled : isScaled 0 3 = true := by decide
  have himm : encodeImm 0 12 3 = some 0#12 := by decide
  have hencode : encodeLdrFamily frame 0xB8400000 0xBC400000
      [⟨.register dst, 8⟩, ⟨.addr (.BASE tmp), 0⟩]
      = some ⟨0xBC400000 ||| flag true 30 |||
        (0x01000000 ||| field 0#12 10 ||| field (number tmp) 5)
        ||| field (fpNumber dst) 0, none⟩ := by
    simp [encodeLdrFamily, lowerAddr, encodeAddr, hscaled, himm, Operand.getPhysicalReg, hgp,
      encodeGpReg_of_le htmp, encodeFpReg_of_isFpReg hdst, number]
  refine ⟨_, .single hencode rfl (Instr.decode_ldrFp _ _ _), ?_⟩
  have haddress : m.readSp (number tmp) + (0#12).setWidth 64 <<< 3 = m.gp (number tmp) := by
    have hzr : number tmp ≠ 31 := ofNat_ne_zr htmp
    rw [Machine.readSp_of_ne hzr]
    exact BitVec.add_zero _
  rw [Machine.step_fp, Machine.exec, Machine.writeFp_fp, update_self, haddress, hmemory,
    Memory.ofBytes_toBytes, BitVec.setWidth_eq]

theorem runs_moveFloat (darwin : Bool) (hdst : isFpReg dst = true)
    (htmp : tmp ≤ AArch64Register.R30) (hsize : size = 4 ∨ size = 8) {symbol : ℕ}
    (value : BitVec 64)
    (hglobal : ∀ held ∈ (moveFloatIntoRegister darwin dst tmp symbol value size).global,
      Reaches (addresses symbol) m.pc ∧
        m.memory.read (addresses symbol) 8 = Memory.toBytes held 8) :
    ∃ m', Runs frame addresses m
        (moveFloatIntoRegister darwin dst tmp symbol value size).instrs m' ∧
      m'.fp (fpNumber dst) = fpBits size value := by
  unfold moveFloatIntoRegister at hglobal ⊢
  by_cases hencodable : isFloatEncodable value = true
  · obtain ⟨imm, rfl⟩ := exists_expandImm64 hencodable
    rw [if_pos hencodable]
    exact runs_fmov_immediate frame addresses hdst imm m
  · rw [if_neg hencodable] at hglobal ⊢
    obtain rfl | rfl := hsize
    · obtain ⟨m', hruns, hm'⟩ := runs_moveElements frame addresses 4 htmp 2 (by decide) rfl
        (Binary64.narrow value) m
      obtain ⟨m'', hmove, hm''⟩ := runs_fmov_register frame addresses hdst htmp hm'
      exact ⟨m'', hruns.append hmove, hm''⟩
    · obtain ⟨hreaches, hmemory⟩ := hglobal value rfl
      obtain ⟨m', hruns, hm', hkept⟩ := runs_moveSymbol frame addresses darwin htmp hreaches
      rw [← hm', ← hkept] at hmemory
      obtain ⟨m'', hload, hm''⟩ := runs_ldr frame addresses hdst htmp hmemory
      exact ⟨m'', hruns.append hload, hm''⟩

end Floats

end Runs

/-! ## Constants -/

namespace SSALowerer.Constant

/-- A number is of one of the sizes and has a value of it, a floating-point constant is a `float` or
a `double`. -/
def Fits (size : ℕ) : Constant → Prop
  | .int value => FitsSize size value.value
  | .fp _ => size = 4 ∨ size = 8

/-- The registers are of the kinds the constant needs. -/
def Allocated (dst tmp : PhysicalReg) : Constant → Prop
  | .int _ => dst ≤ AArch64Register.R30
  | .fp _ => isFpReg dst = true ∧ tmp ≤ AArch64Register.R30

/-- The bits of a constant: of a number those of the word or double word that has its value, of a
floating-point constant those of the `float` or `double`. -/
def bits (size : ℕ) : Constant → BitVec 64
  | .int value => (BitVec.ofInt (regWidth size) value.value).setWidth 64
  | .fp value => fpBits size value

/-- The register of a kind of constant. -/
def readFrom (m : Machine) (dst : PhysicalReg) : Constant → BitVec 64
  | .int _ => m.gp (number dst)
  | .fp _ => m.fp (fpNumber dst)

end SSALowerer.Constant

open SSALowerer in
/-- The instructions of a constant are encoded, and the processor that reads them is left with the
bits of the constant in the register. The global of a `double` is one that a linker reaches and that
the memory holds. -/
theorem materializes {constant : Constant} {size : ℕ} {dst tmp : PhysicalReg} {symbol : ℕ}
    {addresses : ℕ → BitVec 64} {m : Machine} (frame : Frame) (darwin : Bool)
    (hfits : constant.Fits size) (hallocated : constant.Allocated dst tmp)
    (hglobal : ∀ moved ∈ moveConstIntoRegister darwin dst tmp symbol size constant,
      ∀ value ∈ moved.global, Reaches (addresses symbol) m.pc ∧
        m.memory.read (addresses symbol) 8 = Memory.toBytes value 8) :
    ∃ moved words m', moveConstIntoRegister darwin dst tmp symbol size constant = some moved ∧
      assemble frame addresses m.pc moved.instrs = some words ∧ m.run words = some m' ∧
      constant.readFrom m' dst = constant.bits size := by
  cases constant with
  | int value =>
    obtain ⟨instrs, m', hmove, ⟨words, hwords, hrun⟩, hm'⟩ :=
      runs_moveInt frame addresses hallocated hfits m
    exact ⟨⟨instrs, none⟩, words, m', by rw [moveConstIntoRegister, hmove]; rfl, hwords, hrun, hm'⟩
  | fp value =>
    obtain ⟨m', ⟨words, hwords, hrun⟩, hm'⟩ :=
      runs_moveFloat frame addresses darwin hallocated.1 hallocated.2 hfits value
        (hglobal _ rfl)
    exact ⟨_, words, m', rfl, hwords, hrun, hm'⟩

/-- A `double` that is no immediate is loaded from its global. -/
theorem materializes_tenth :
    let tenth : BitVec 64 := 0x3FB999999999999A
    let memory : Memory := Memory.write (fun _ ↦ 0) 0x2008 (Memory.toBytes tenth 8)
    ∃ moved words m', SSALowerer.moveConstIntoRegister false AArch64Register.V0 0 0 8 (.fp tenth)
        = some moved ∧
      assemble (fun _ ↦ 0) (fun _ ↦ 0x2008) 0x1000 moved.instrs = some words ∧
      (⟨0x1000, 0, fun _ ↦ 0, fun _ ↦ 0, memory⟩ : Machine).run words = some m' ∧
      m'.fp 0 = tenth := by
  intro tenth memory
  have hread : memory.read 0x2008 8 = Memory.toBytes tenth 8 := by decide
  have hglobal : (SSALowerer.moveFloatIntoRegister false AArch64Register.V0 0 0 tenth 8).global
      = some tenth := by decide
  exact materializes (m := ⟨0x1000, 0, fun _ ↦ 0, fun _ ↦ 0, memory⟩) (fun _ ↦ 0) false
    (.inr rfl) ⟨by decide, by decide⟩ (by
      rintro moved ⟨rfl⟩ value hvalue
      rw [hglobal] at hvalue
      obtain rfl := some.inj hvalue
      exact ⟨by decide, hread⟩)

end Banjo.Target.AArch64.Encoder
