import Banjo.Target.X8664.RegisterIdentity

/-!
# Immediates from an SSA value to the bytes

The lowerer leaves an integer as an operand of the machine instruction, moves it to the destination
first, or gives it a register of its own, and the encoder then chooses between a short and a long
form. An immediate of four bytes is extended by its sign, so that of eight bytes only the values of
`int32_t` have one, but the lowerer compares with the values of `uint32_t`. Of one byte there is no
long form, and none of the bytes of its immediate is written.
-/

open List
open Option (bind_some)

namespace Banjo.Target.X8664.Encoder

open Emit WriteBuffer Decoder
open Codegen (PhysicalReg)
open Mcode (Opcode)
open X8664Register

/-! ## Lowering -/

/-- `lower_int_imm_as_operand`, with the register `create_reg` returns: what is emitted, and the
operand. -/
def lowerIntImmAsOperand (tmp : PhysicalReg) (value : LargeInt) (size : ℕ) :
    List Instruction × Operand :=
  if size = 8 ∧ 2 ^ 32 ≤ value.toBits.toNat then
    ([⟨.MOV, [⟨.register tmp, 8⟩, ⟨.intImmediate value, 8⟩]⟩], ⟨.register tmp, 8⟩)
  else ([], ⟨.intImmediate value, size⟩)

/-- `lower_int_imm_as_move`. -/
def lowerIntImmAsMove (dst : Operand) (value : LargeInt) : List Instruction :=
  if value = 0 ∧ (reg dst).isSome then
    let dst := { dst with size := min dst.size 4 }
    [⟨.XOR, [dst, dst]⟩]
  else [⟨.MOV, [dst, ⟨.intImmediate value, dst.size⟩]⟩]

/-- Where an SSA instruction has an immediate, and the value its other operand has become. -/
inductive ImmUse where
  /-- The left operand of `append_mov_and_operation`. -/
  | left (dst : Value)
  /-- The right operand of an operation, or of the `CMP` of a branch or a `SELECT`. -/
  | right (opcode : Opcode) (dst : Value)
  /-- The left operand of the `CMP` of a `SELECT`. -/
  | selected (src : Value)
  /-- The value of a `STORE`. -/
  | stored (dst : Value)
  deriving DecidableEq, Repr

/-- What an immediate of some size is lowered to, together with the instruction that uses it. -/
def ImmUse.lower (tmp : PhysicalReg) (size : ℕ) (value : LargeInt) : ImmUse → List Instruction
  | .left dst => lowerIntImmAsMove ⟨dst, size⟩ value
  | .right opcode dst =>
    let (first, src) := lowerIntImmAsOperand tmp value size
    first ++ [⟨opcode, [⟨dst, size⟩, src]⟩]
  | .selected src =>
    let (first, dst) := lowerIntImmAsOperand tmp value size
    first ++ [⟨.CMP, [dst, ⟨src, size⟩]⟩]
  | .stored dst =>
    let (first, src) := lowerIntImmAsOperand tmp value size
    first ++ [⟨.MOV, [⟨dst, size⟩, src]⟩]

/-- The other operands are those that are lowered to; only a `SELECT` compares an immediate. -/
def ImmUse.Lowered : ImmUse → Prop
  | .left dst => ∃ reg, dst = .register reg ∧ reg < 16
  | .right opcode dst => opcode ∈ [Opcode.ADD, .SUB, .AND, .OR, .XOR, .CMP] ∧
      ((⟨dst, 0⟩ : Operand).Is .general ∨ (⟨dst, 0⟩ : Operand).Is .memory ∨
        opcode = .CMP ∧ (⟨dst, 0⟩ : Operand).Is .immediate)
  | .selected src => (⟨src, 0⟩ : Operand).Is .general ∨ (⟨src, 0⟩ : Operand).Is .memory ∨
      (⟨src, 0⟩ : Operand).Is .immediate
  | .stored dst => (⟨dst, 0⟩ : Operand).Is .memory

/-! ## Immediates of instructions -/

/-- The value of the bytes of an immediate, whose highest bit is a sign. -/
def immValue (imm : List Byte) : ℤ := ((Memory.ofBytes imm).toNat : ℤ).bmod (2 ^ (8 * imm.length))

/-- The immediate that is decoded, extended by its sign, is the value at the size of the operands,
and the bytes are those of one instruction. -/
def ImmExact (frame : Frame) (size : ℕ) (value : LargeInt) (instr : Instruction) : Prop :=
  ∃ actions head imm, encodeInstr frame instr = some actions ∧
    Decoder.decode (bytes actions) = some (head, imm, []) ∧
    immValue imm % 2 ^ (8 * size) = value.toBits.toNat % 2 ^ (8 * size)

/-- One of the instructions has the immediate and reads it, or the register is cleared. -/
def Carries (frame : Frame) (size : ℕ) (value : LargeInt) (instrs : List Instruction) : Prop :=
  (∃ instr ∈ instrs, (∃ width, ⟨.intImmediate value, width⟩ ∈ instr.operands) ∧
    ImmExact frame size value instr) ∨
  value = 0 ∧ ∃ dst, instrs = [⟨.XOR, [dst, dst]⟩]

/-! ## Immediates that are read -/

/-- The values that `lower_int_imm_as_operand` moves to a register. -/
def needsRegister (size : ℕ) (value : LargeInt) : Bool := size = 8 ∧ 2 ^ 32 ≤ value.toBits.toNat

/-- The values of eight bytes that are zero in the upper half, and would be extended to ones. -/
def losesUpperHalf (size : ℕ) (value : LargeInt) : Bool :=
  size = 8 ∧ 2 ^ 31 ≤ value.toBits.toNat ∧ value.toBits.toNat < 2 ^ 32

/-- The values of one byte that are not those of `int8_t`, where the destination is not `RAX`. -/
def losesByte (size : ℕ) (value : LargeInt) (dst : Value) : Bool :=
  size = 1 ∧ fitsInI8 value.toBits.toInt = false ∧ dst ≠ .register RAX

def ImmUse.readable (size : ℕ) (value : LargeInt) : ImmUse → Bool
  | .left _ => true
  | .right _ dst => needsRegister size value ||
      !(⟨dst, size⟩ : Operand).isImmediate && !losesUpperHalf size value &&
        !losesByte size value dst
  | .selected _ => needsRegister size value
  | .stored _ => !losesUpperHalf size value

/-! ## Values of the bytes that are written -/

variable (value : BitVec 64)

theorem immValue_toBytes {n : ℕ} (h : n ≤ 8) :
    immValue (Memory.toBytes value n) = (value.toNat : ℤ).bmod (2 ^ (8 * n)) := by
  rw [immValue, Memory.length_toBytes, Memory.toNat_ofBytes_toBytes value h]
  have h := Int.emod_bmod (value.toNat : ℤ) (2 ^ (8 * n))
  push_cast at h ⊢
  exact h

theorem bytes_writeI8 : bytes (writeI8 value) = Memory.toBytes value 1 := by
  simp [writeI8, Memory.toBytes]

variable {size : ℕ}

theorem bytes_writeImm (h : size = 1 ∨ size = 2 ∨ size = 4) (value : BitVec 64) :
    bytes (writeImm size value) = Memory.toBytes value size := by
  rcases h with rfl | rfl | rfl
  · exact bytes_writeI8 value
  · exact bytes_write _
  · exact bytes_write _

/-- An immediate that is no shorter than the operands. -/
theorem emod_bmod_self (size : ℕ) :
    (value.toNat : ℤ).bmod (2 ^ (8 * size)) % 2 ^ (8 * size) = value.toNat % 2 ^ (8 * size) := by
  have h := Int.bmod_emod (x := (value.toNat : ℤ)) (m := 2 ^ (8 * size))
  push_cast at h
  exact h

theorem emod_short {value : BitVec 64} (h : fitsInI8 value.toInt = true)
    (hsize : size ∈ [1, 2, 4, 8]) :
    (value.toNat : ℤ).bmod (2 ^ (8 * 1)) % 2 ^ (8 * size) = value.toNat % 2 ^ (8 * size) := by
  rw [fitsInI8, decide_eq_true_eq, BitVec.toInt_eq_toNat_bmod] at h
  simp only [mem_cons, not_mem_nil, or_false] at hsize
  have hlt := value.isLt
  simp only [Int.bmod] at h ⊢
  rcases hsize with rfl | rfl | rfl | rfl <;> omega

theorem emod_four_iff {value : BitVec 64} (h : value.toNat < 2 ^ 32) :
    (value.toNat : ℤ).bmod (2 ^ (8 * 4)) % 2 ^ (8 * 8) = value.toNat % 2 ^ (8 * 8) ↔
      value.toNat < 2 ^ 31 := by
  simp only [Int.bmod]
  omega

/-! ## Decoding an instruction to its end -/

/-- The bytes an immediate has beside operands of some size. -/
def immBytes (size : ℕ) : ImmKind → ℕ
  | .none => 0
  | .imm8 | .rel8 => 1
  | .immZ => if size = 2 then 2 else 4
  | .immV => if size = 8 then 8 else if size = 2 then 2 else 4
  | .rel32 => 4

section Decode

variable {actions : List Action} {imm opcodeBytes : List Byte} {opcode : Byte} {layout : Layout}
  {size : ℕ} {reg digit : RegCode} {roa : RegOrAddr}

theorem immLength_eq {rex : Option Rex} (hrex : (rex.getD {}).w = decide (size = 8))
    (opcode : Byte) (field : RegCode) (operands : List Decoder.Operand) (kind : ImmKind) :
    Head.immLength ⟨{ legacyPrefixes (sizePrefix size) with rex }, opcode, field, operands, kind⟩
      = immBytes size kind := by
  have hprefix : (legacyPrefixes (sizePrefix size)).operandSize = decide (size = 2) := by
    rw [sizePrefix]
    by_cases h : size = 2
    · rw [if_pos h, decide_eq_true h]
      rfl
    · rw [if_neg h, decide_eq_false h]
      rfl
  by_cases hwide : size = 8
  · subst hwide
    cases kind <;> simp [Head.immLength, Head.wide, hrex, immBytes]
  · cases kind <;> simp [Head.immLength, Head.wide, hrex, immBytes, hprefix, hwide]

/-- All of the bytes are read exactly when the immediate has as many as the opcode asks for. -/
theorem decode_of_decodeHead {head : Head} (h : decodeHead (bytes actions) = some (head, imm))
    (hlength : head.immLength = immBytes size layout.imm) :
    (imm.length < immBytes size layout.imm → Decoder.decode (bytes actions) = none) ∧
    (imm.length = immBytes size layout.imm →
      Decoder.decode (bytes actions) = some (head, imm, [])) := by
  simp only [Decoder.decode, h, Option.bind_eq_bind, bind_some, hlength]
  constructor
  · intro hlt
    rw [if_pos hlt]
  · intro heq
    rw [if_neg heq.not_lt, ← heq, take_length, drop_length]

theorem Form.decode (h : Form actions (sizePrefix size) size reg opcodeBytes digit roa imm)
    (hopcode : ReadsOpcode opcodeBytes opcode layout) (hmodrm : layout.modrm = true)
    (hdigit : decide (EDI < reg) = decide (EDI < digit)) :
    (imm.length < immBytes size layout.imm → Decoder.decode (bytes actions) = none) ∧
    (imm.length = immBytes size layout.imm →
      ∃ head, Decoder.decode (bytes actions) = some (head, imm, [])) := by
  have hhead := h.decodeHead hopcode hmodrm hdigit []
  rw [append_nil, append_nil] at hhead
  have hdecode := decode_of_decodeHead hhead
    (immLength_eq (by rw [rexOf_getD]) opcode digit _ layout.imm)
  exact ⟨hdecode.1, fun heq ↦ ⟨_, hdecode.2 heq⟩⟩

/-- Without a `ModRM` byte. -/
theorem decode_opcode {rex : Option Rex} (hrex : (rex.getD {}).w = decide (size = 8))
    (hbytes : bytes actions = sizePrefix size ++ (rexBytes rex ++ (opcodeBytes ++ imm)))
    (hopcode : ReadsOpcode opcodeBytes opcode layout) (hmodrm : layout.modrm = false)
    (hlength : imm.length = immBytes size layout.imm) :
    ∃ head, Decoder.decode (bytes actions) = some (head, imm, []) := by
  obtain ⟨byte, tail, rfl, hbyte⟩ := hopcode.first
  have hprefixes : decodePrefixes {} (bytes actions)
      = ({ legacyPrefixes (sizePrefix size) with rex }, byte :: tail ++ imm) := by
    rw [hbytes, decodePrefixes_legacy (sizePrefix_mem size)]
    exact decodePrefixes_rex hbyte legacyPrefixes_rex _ _
  have hhead : decodeHead (bytes actions) = some (⟨{ legacyPrefixes (sizePrefix size) with rex },
      opcode, 0, layout.slots.map (slotOperand rex opcode 0 (.reg 0)), layout.imm⟩, imm) := by
    rw [Decoder.decodeHead, hprefixes]
    simp only [hopcode.reads, decodeFields, hmodrm, Option.bind_eq_bind, bind_some,
      Bool.false_eq_true, if_false]
  exact ⟨_, (decode_of_decodeHead hhead (immLength_eq hrex _ _ _ _)).2 hlength⟩

end Decode

/-! ## Exact immediates -/

section Exact

variable {frame : Frame} {size : ℕ} {value : LargeInt} {instr : Instruction}
  {actions : List Action} {imm : List Byte}

theorem immExact_iff (hencode : encodeInstr frame instr = some actions)
    (hdecode : ∃ head, Decoder.decode (bytes actions) = some (head, imm, [])) :
    ImmExact frame size value instr ↔
      immValue imm % 2 ^ (8 * size) = value.toBits.toNat % 2 ^ (8 * size) := by
  obtain ⟨head, hdecode⟩ := hdecode
  constructor
  · rintro ⟨actions', head', imm', hencode', hdecode', hvalue⟩
    obtain rfl : actions = actions' := Option.some.inj (hencode.symm.trans hencode')
    rw [hdecode, Option.some.injEq, Prod.mk.injEq, Prod.mk.injEq] at hdecode'
    obtain ⟨-, rfl, -⟩ := hdecode'
    exact hvalue
  · intro hvalue
    exact ⟨actions, head, imm, hencode, hdecode, hvalue⟩

theorem not_immExact (hencode : encodeInstr frame instr = some actions)
    (hdecode : Decoder.decode (bytes actions) = none) : ¬ImmExact frame size value instr := by
  rintro ⟨actions', head, imm, hencode', hdecode', -⟩
  obtain rfl : actions = actions' := Option.some.inj (hencode.symm.trans hencode')
  rw [hdecode] at hdecode'
  cases hdecode'

/-- An immediate as long as the operands, or of four bytes beside operands of eight. -/
theorem immExact_writeImm_iff (hsize : size ∈ [1, 2, 4, 8])
    (hsmall : needsRegister size value = false) (hencode : encodeInstr frame instr = some actions)
    (hdecode : ∃ head, Decoder.decode (bytes actions)
      = some (head, bytes (writeImm (if size = 8 then 4 else size) value.toBits), [])) :
    ImmExact frame size value instr ↔ losesUpperHalf size value = false := by
  rw [immExact_iff hencode hdecode]
  simp only [mem_cons, not_mem_nil, or_false] at hsize
  by_cases hwide : size = 8
  · subst hwide
    have hlt : value.toBits.toNat < 2 ^ 32 := by simpa [needsRegister] using hsmall
    rw [if_pos rfl, bytes_writeImm (by decide), immValue_toBytes _ (by decide), emod_four_iff hlt]
    simp only [losesUpperHalf, decide_eq_false_iff_not, true_and]
    omega
  · have hother : size = 1 ∨ size = 2 ∨ size = 4 := by omega
    rw [if_neg hwide, bytes_writeImm hother, immValue_toBytes _ (by omega)]
    exact iff_of_true (emod_bmod_self _ _) (by simp [losesUpperHalf, hwide])

theorem immExact_short (hsize : size ∈ [1, 2, 4, 8])
    (hencode : encodeInstr frame instr = some actions)
    (hdecode : ∃ head, Decoder.decode (bytes actions)
      = some (head, bytes (writeI8 value.toBits), []))
    (hshort : fitsInI8 value.toBits.toInt = true) : ImmExact frame size value instr := by
  rw [immExact_iff hencode hdecode, bytes_writeI8, immValue_toBytes _ (by decide)]
  exact emod_short hshort hsize

end Exact

theorem length_writeImm (hsize : size ∈ [1, 2, 4, 8]) (value : BitVec 64) :
    (bytes (writeImm (if size = 8 then 4 else size) value)).length
      = immBytes size (if size = 1 then .imm8 else .immZ) := by
  simp only [mem_cons, not_mem_nil, or_false] at hsize
  rcases hsize with rfl | rfl | rfl | rfl <;> rfl

theorem losesUpperHalf_of_fitsInI8 {value : LargeInt} (hshort : fitsInI8 value.toBits.toInt = true)
    (size : ℕ) : losesUpperHalf size value = false := by
  rw [losesUpperHalf, decide_eq_false_iff_not]
  rw [fitsInI8, decide_eq_true_eq, BitVec.toInt_eq_toNat_bmod] at hshort
  simp only [Int.bmod] at hshort
  omega

/-! ## Instructions with an immediate -/

section Instructions

variable {frame : Frame} {size : ℕ} {value : LargeInt} {dst : Value} {width : ℕ}

theorem basicInstrOpcodes_rax {digit : RegCode} {form : Byte} (h : (digit, form) ∈ basicInstrs)
    (size : ℕ) : ReadsOpcode
      [if size = 1 then (basicInstrOpcodes digit form).raxImm8
        else (basicInstrOpcodes digit form).raxImm16]
      (if size = 1 then (basicInstrOpcodes digit form).raxImm8
        else (basicInstrOpcodes digit form).raxImm16)
      { slots := [.accumulator], modrm := false, imm := if size = 1 then .imm8 else .immZ } := by
  simp only [basicInstrs, mem_cons, Prod.mk.injEq, not_mem_nil, or_false] at h
  by_cases hsize : size = 1
  · simp only [if_pos hsize]
    rcases h with ⟨rfl, rfl⟩ | ⟨rfl, rfl⟩ | ⟨rfl, rfl⟩ | ⟨rfl, rfl⟩ | ⟨rfl, rfl⟩ | ⟨rfl, rfl⟩ <;>
      exact .one _ (by decide) (by decide) rfl
  · simp only [if_neg hsize]
    rcases h with ⟨rfl, rfl⟩ | ⟨rfl, rfl⟩ | ⟨rfl, rfl⟩ | ⟨rfl, rfl⟩ | ⟨rfl, rfl⟩ | ⟨rfl, rfl⟩ <;>
      exact .one _ (by decide) (by decide) rfl

/-- The operations are encoded with the opcodes of their numbers. -/
theorem encodeInstr_basic (frame : Frame) {opcode : Opcode}
    (h : opcode ∈ [Opcode.ADD, .SUB, .AND, .OR, .XOR, .CMP]) :
    ∃ digit form, (digit, form) ∈ basicInstrs ∧ ∀ operands,
      encodeInstr frame ⟨opcode, operands⟩
        = encodeBasicInstr frame (basicInstrOpcodes digit form) ⟨opcode, operands⟩ := by
  simp only [mem_cons, not_mem_nil, or_false] at h
  rcases h with rfl | rfl | rfl | rfl | rfl | rfl
  · exact ⟨0, 0x00, by decide, fun _ ↦ rfl⟩
  · exact ⟨5, 0x28, by decide, fun _ ↦ rfl⟩
  · exact ⟨4, 0x20, by decide, fun _ ↦ rfl⟩
  · exact ⟨1, 0x08, by decide, fun _ ↦ rfl⟩
  · exact ⟨6, 0x30, by decide, fun _ ↦ rfl⟩
  · exact ⟨7, 0x38, by decide, fun _ ↦ rfl⟩

theorem immExact_operation_iff {opcode : Opcode}
    (hopcode : opcode ∈ [Opcode.ADD, .SUB, .AND, .OR, .XOR, .CMP])
    (hdst : (⟨dst, size⟩ : Operand).Is .general ∨ (⟨dst, size⟩ : Operand).Is .memory)
    (hsize : size ∈ [1, 2, 4, 8]) (hsmall : needsRegister size value = false) :
    ImmExact frame size value ⟨opcode, [⟨dst, size⟩, ⟨.intImmediate value, width⟩]⟩ ↔
      losesUpperHalf size value = false ∧ losesByte size value dst = false := by
  obtain ⟨digit, form, hmem, hencode⟩ := encodeInstr_basic frame hopcode
  have hreadable := basicInstrOpcodes_readable hmem
  have hdigit : decide (EDI < (0 : RegCode)) =
    decide (EDI < (basicInstrOpcodes digit form).digit) := by
    rw [decide_eq_false hreadable.digit]
    rfl
  obtain ⟨r, hroa, -⟩ := Operand.Is.roa_general frame hdst
  have hactions := hencode [⟨dst, size⟩, ⟨.intImmediate value, width⟩]
  have himm : imm ⟨.intImmediate value, width⟩ = some ⟨value.toBits, none⟩ := rfl
  simp only [encodeBasicInstr, dstSrc_pair, Option.bind_eq_bind, bind_some, hroa, himm] at hactions
  rw [fitsInImm8] at hactions
  by_cases hrax : (isRax ⟨dst, size⟩ = true ∧ ¬(fitsInI8 value.toBits.toInt = true ∧ 1 < size))
  · rw [if_pos hrax] at hactions
    have hvalue : dst = .register RAX := of_decide_eq_true hrax.1
    have hbyte : losesByte size value dst = false := by simp [losesByte, hvalue]
    rw [and_iff_left hbyte]
    exact immExact_writeImm_iff hsize hsmall hactions (decode_opcode (by rw [rexOf_getD])
      (bytes_sized_opcode size 0 0 _ _) (basicInstrOpcodes_rax hmem size) rfl
      (length_writeImm hsize value.toBits))
  · rw [if_neg hrax] at hactions
    by_cases hshort : fitsInI8 value.toBits.toInt = true
    · rw [if_pos hshort] at hactions
      have hdecode := ((form_sized size 0 _ r _ (writeI8 value.toBits)).decode
        (hreadable.short.reads size) rfl hdigit).2 (by rw [ite_self]; rfl)
      refine iff_of_true (immExact_short hsize hactions hdecode hshort)
        ⟨losesUpperHalf_of_fitsInI8 hshort size, ?_⟩
      simp [losesByte, hshort]
    · rw [if_neg hshort] at hactions
      have hform := form_sized size 0 (basicInstrOpcodes digit form).digit r
        (basicInstrOpcodes digit form).rm16Imm16
        (if size = 1 then [] else writeImm (if size = 8 then 4 else size) value.toBits)
      have hdecode := hform.decode hreadable.long rfl hdigit
      by_cases hbyte : size = 1
      · subst hbyte
        have hne : dst ≠ .register RAX := fun heq ↦
          hrax ⟨decide_eq_true heq, fun h ↦ absurd h.2 (by decide)⟩
        refine iff_of_false (not_immExact hactions (hdecode.1 (by rw [if_pos rfl]; decide)))
          fun h ↦ ?_
        have hloses : losesByte 1 value dst = true := by simp [losesByte, hshort, hne]
        exact absurd (hloses.symm.trans h.2) (by decide)
      · have hloses : losesByte size value dst = false := by simp [losesByte, hbyte]
        rw [and_iff_left hloses]
        refine immExact_writeImm_iff hsize hsmall hactions ?_
        have hlength := length_writeImm hsize value.toBits
        simp only [if_neg hbyte] at hlength hdecode ⊢
        exact hdecode.2 hlength

theorem rexOfOpcode_w (size : ℕ) (reg : RegCode) :
    ((rexOfOpcode size reg).getD {}).w = decide (size = 8) := by
  rw [rexOfOpcode]
  split_ifs with h
  · rfl
  · simp only [not_or, Bool.not_eq_true] at h
    exact h.2.1.symm

/-- A register has a form of each size, which is four for a zero of eight bytes. -/
theorem immExact_mov_register {r : PhysicalReg} (hsize : size ∈ [1, 2, 4, 8]) :
    ImmExact frame size value ⟨.MOV, [⟨.register r, size⟩, ⟨.intImmediate value, width⟩]⟩ := by
  have hencode : encodeInstr frame ⟨.MOV, [⟨.register r, size⟩, ⟨.intImmediate value, width⟩]⟩
      = emitMovRI (regCode r) ⟨value.toBits, none⟩ size := rfl
  obtain ⟨-, hB0, hB8⟩ := readsOpcode_combined (regCode r)
  have hdecode : ∀ (size : ℕ) (imm : List Action),
      (bytes imm).length = immBytes size (if size = 1 then .imm8 else .immV) →
      ∃ head, Decoder.decode (bytes (emit16BitPrefixIfRequired size ++ emitRexO size (regCode r) ++
        emitCombinedOpcode (if size = 1 then 0xB0 else 0xB8) (regCode r) ++ imm))
          = some (head, bytes imm, []) := by
    intro size imm hlength
    have hwide := rexOfOpcode_w size (regCode r)
    by_cases hbyte : size = 1
    · rw [if_pos hbyte] at hlength ⊢
      exact decode_opcode hwide (by simp) hB0 rfl hlength
    · rw [if_neg hbyte] at hlength ⊢
      exact decode_opcode hwide (by simp) hB8 rfl hlength
  rw [emitMovRI] at hencode
  by_cases hzero : size = 8 ∧ fitsIn32Bits ⟨value.toBits, none⟩ = true
  · have hbits : value.toBits = 0 := BitVec.le_zero_iff.mp (by simpa [fitsIn32Bits] using hzero.2)
    simp only [if_pos hzero] at hencode
    rw [immExact_iff hencode (hdecode 4 (writeImm 4 value.toBits) rfl), bytes_writeImm (by decide),
      immValue_toBytes _ (by decide), hbits]
    simp
  · simp only [if_neg hzero] at hencode
    simp only [mem_cons, not_mem_nil, or_false] at hsize
    by_cases hsmall : size = 1 ∨ size = 2 ∨ size = 4
    · simp only [if_pos hsmall] at hencode
      have hlength : (bytes (writeImm size value.toBits)).length
          = immBytes size (if size = 1 then .imm8 else .immV) := by
        rcases hsmall with rfl | rfl | rfl <;> rfl
      rw [immExact_iff hencode (hdecode size _ hlength), bytes_writeImm hsmall,
        immValue_toBytes _ (by omega)]
      exact emod_bmod_self _ _
    · obtain rfl : size = 8 := by omega
      rw [if_neg hsmall, if_pos rfl] at hencode
      have himm : bytes (writeI64 value.toBits) = Memory.toBytes value.toBits 8 := bytes_write _
      rw [immExact_iff hencode (hdecode 8 (writeI64 value.toBits) rfl), himm,
        immValue_toBytes _ (by decide)]
      exact emod_bmod_self _ _

theorem immExact_mov_memory_iff (hdst : (⟨dst, size⟩ : Operand).Is .memory)
    (hsize : size ∈ [1, 2, 4, 8]) (hsmall : needsRegister size value = false) :
    ImmExact frame size value ⟨.MOV, [⟨dst, size⟩, ⟨.intImmediate value, width⟩]⟩ ↔
      losesUpperHalf size value = false := by
  obtain ⟨a, hreg, -, haddr, -⟩ := hdst.spec_memory frame
  have himm : imm ⟨.intImmediate value, width⟩ = some ⟨value.toBits, none⟩ := rfl
  have hnone : reg ⟨.intImmediate value, width⟩ = none := rfl
  have hencode : encodeInstr frame ⟨.MOV, [⟨dst, size⟩, ⟨.intImmediate value, width⟩]⟩
      = emitMovMI a ⟨value.toBits, none⟩ size := by
    simp only [encodeInstr, encodeMov, dstSrc_pair, Option.bind_eq_bind, bind_some, hreg,
      haddr, hnone, himm]
  rw [emitMovMI, if_neg (by simp)] at hencode
  have hform : Form (emit16BitPrefixIfRequired size ++ emitRexRM size 0 a ++
      emitOpcode (if size = 1 then 0xC6 else 0xC7) ++
      emitMemDigit a 0 (if size = 8 then 4 else size) ++
      writeImm (if size = 8 then 4 else size) value.toBits) (sizePrefix size) size 0
      [if size = 1 then 0xC6 else 0xC7] 0 (.addr a)
      (bytes (writeImm (if size = 8 then 4 else size) value.toBits)) :=
    { bytes_eq := by simp
      legacy_mem := sizePrefix_mem size }
  exact immExact_writeImm_iff hsize hsmall hencode ((hform.decode (movOpcodes.2.2.reads size) rfl
    rfl).2 (length_writeImm hsize value.toBits))

/-- A comparison of an immediate with something is encoded as nothing but a prefix. -/
theorem not_immExact_compared {a b : Operand} (ha : a.Is .immediate) :
    ¬ImmExact frame size value ⟨.CMP, [a, b]⟩ := by
  obtain ⟨v, hreg, -, haddr, -⟩ := ha.spec_immediate frame
  have hroa : roa frame a = none := by rw [roa, hreg, haddr]; rfl
  have hencode : encodeInstr frame ⟨.CMP, [a, b]⟩ = some (emit16BitPrefixIfRequired a.size) := by
    simp only [encodeInstr, encodeCmp, encodeBasicInstr, dstSrc_pair, Option.bind_eq_bind,
      bind_some, hroa, hreg]
  refine not_immExact hencode ?_
  rw [bytes_emit16BitPrefixIfRequired]
  rcases sizePrefix_mem' a.size with h | h
  · rw [h]
    rfl
  · rw [h]
    rfl

end Instructions

/-! ## All uses of immediates -/

/-- An instruction that is used with the operand an immediate is lowered to. -/
theorem carries_operand_iff (frame : Frame) (tmp : PhysicalReg) {size : ℕ} (value : LargeInt)
    (hsize : size ∈ [1, 2, 4, 8]) (use : Operand → Instruction)
    (hmem : ∀ operand, operand ∈ (use operand).operands)
    (hxor : ∀ dst, use ⟨.intImmediate value, size⟩ ≠ ⟨.XOR, [dst, dst]⟩) :
    Carries frame size value ((lowerIntImmAsOperand tmp value size).1 ++
        [use (lowerIntImmAsOperand tmp value size).2]) ↔
      needsRegister size value = true ∨
        ImmExact frame size value (use ⟨.intImmediate value, size⟩) := by
  by_cases hregister : needsRegister size value = true
  · have hcond := of_decide_eq_true hregister
    refine iff_of_true (Or.inl ?_) (Or.inl hregister)
    rw [lowerIntImmAsOperand, if_pos hcond]
    refine ⟨_, mem_append_left _ (mem_singleton_self _), ⟨8, by simp⟩, ?_⟩
    obtain ⟨rfl, -⟩ := hcond
    exact immExact_mov_register hsize
  · rw [Bool.not_eq_true] at hregister
    have hcond := of_decide_eq_false hregister
    rw [lowerIntImmAsOperand, if_neg hcond, nil_append]
    constructor
    · rintro (⟨instr, hinstr, -, hexact⟩ | ⟨-, dst, heq⟩)
      · obtain rfl := mem_singleton.mp hinstr
        exact Or.inr hexact
      · exact absurd (singleton_inj.mp heq) (hxor dst)
    · rintro (h | hexact)
      · exact absurd (hregister.symm.trans h) (by decide)
      · exact Or.inl ⟨_, mem_singleton_self _, ⟨size, hmem _⟩, hexact⟩

theorem carries_stored_iff {frame : Frame} {tmp : PhysicalReg} {size : ℕ} {value : LargeInt}
    {dst : Value} (hdst : (⟨dst, size⟩ : Operand).Is .memory) (hsize : size ∈ [1, 2, 4, 8]) :
    Carries frame size value ((ImmUse.stored dst).lower tmp size value) ↔
      losesUpperHalf size value = false := by
  have hiff := carries_operand_iff frame tmp value hsize
    (fun src ↦ ⟨.MOV, [⟨dst, size⟩, src]⟩) (fun _ ↦ by simp) fun d heq ↦ by
      simp at heq
  refine hiff.trans ?_
  by_cases hregister : needsRegister size value = true
  · refine iff_of_true (Or.inl hregister) (decide_eq_false fun h ↦ ?_)
    have hcond := of_decide_eq_true hregister
    omega
  · rw [immExact_mov_memory_iff hdst hsize (Bool.not_eq_true _ ▸ hregister)]
    exact or_iff_right hregister

/-- An immediate is read as the value it was exactly when there is a form for it. -/
theorem carries_iff_readable (frame : Frame) {tmp : PhysicalReg} {size : ℕ} (value : LargeInt)
    {use : ImmUse} (hsize : size ∈ [1, 2, 4, 8]) (huse : use.Lowered) :
    Carries frame size value (use.lower tmp size value) ↔ use.readable size value = true := by
  cases use with
  | left dst =>
    obtain ⟨r, rfl, -⟩ := huse
    refine iff_of_true ?_ rfl
    rw [ImmUse.lower, lowerIntImmAsMove]
    by_cases hzero : value = 0
    · rw [if_pos ⟨hzero, rfl⟩]
      exact Or.inr ⟨hzero, _, rfl⟩
    · rw [if_neg (fun h ↦ hzero h.1)]
      exact Or.inl ⟨_, List.mem_singleton_self _, ⟨size, by simp⟩, immExact_mov_register hsize⟩
  | right opcode dst =>
    obtain ⟨hopcode, hdst⟩ := huse
    rw [← or_assoc] at hdst
    have hform : (⟨dst, size⟩ : Operand).isImmediate = true → opcode = .CMP := by
      rintro himm
      rcases hdst with hdst | ⟨rfl, -⟩
      · exact absurd (himm.symm.trans (isImmediate_eq_false hdst)) (by decide)
      · rfl
    have hiff := carries_operand_iff frame tmp value hsize
      (fun src ↦ ⟨opcode, [⟨dst, size⟩, src]⟩) (fun _ ↦ by simp) fun d heq ↦ by
        simp only [Instruction.mk.injEq, List.cons.injEq, and_true] at heq
        obtain ⟨rfl, rfl, hvalue⟩ := heq
        simp only [Operand.mk.injEq, and_true] at hvalue
        exact absurd (hform (by rw [← hvalue]; rfl)) (by decide)
    rw [ImmUse.lower, ImmUse.readable, Bool.or_eq_true]
    refine hiff.trans (or_congr_right' fun hnone ↦ ?_)
    rw [Bool.not_eq_true] at hnone
    rcases hdst with hdst | ⟨rfl, himm⟩
    · have hsized : (⟨dst, size⟩ : Operand).Is .general ∨ (⟨dst, size⟩ : Operand).Is .memory := hdst
      have hplain : (⟨dst, size⟩ : Operand).isImmediate = false := isImmediate_eq_false hdst
      rw [immExact_operation_iff hopcode hsized hsize hnone, hplain]
      simp
    · have himmediate : (⟨dst, size⟩ : Operand).isImmediate = true := isImmediate_eq_true himm
      refine iff_of_false (not_immExact_compared himm) ?_
      simp [himmediate]
  | selected src =>
    have hiff := carries_operand_iff frame tmp value hsize
      (fun dst ↦ ⟨.CMP, [dst, ⟨src, size⟩]⟩) (fun _ ↦ by simp) fun d heq ↦ by
        simp at heq
    refine hiff.trans (or_iff_left (not_immExact_compared ?_))
    exact Or.inl ⟨value, rfl⟩
  | stored dst =>
    have hdst : (⟨dst, size⟩ : Operand).Is .memory := huse
    rw [carries_stored_iff hdst hsize, ImmUse.readable, Bool.not_eq_true']

/-- `SUB RAX, -2` of eight bytes has the short form. -/
theorem carries_iff_readable_sub :
    Carries (fun _ ↦ 0) 8 ⟨2, true⟩ ((ImmUse.right .SUB (.register RAX)).lower RCX 8 ⟨2, true⟩) ↔
      (ImmUse.right .SUB (.register RAX)).readable 8 ⟨2, true⟩ = true :=
  carries_iff_readable _ _ (by decide) ⟨by decide, Or.inl ⟨RAX, rfl, by decide⟩⟩

/-- `MOV QWORD PTR [slot], 0x80000000` stores `0xFFFFFFFF80000000`. -/
theorem not_carries_stored : ¬∀ (frame : Frame) (tmp : PhysicalReg) (size : ℕ) (value : LargeInt)
    (use : ImmUse), size ∈ [1, 2, 4, 8] → use.Lowered →
      Carries frame size value (use.lower tmp size value) := by
  intro hall
  have hcarries := hall (fun _ ↦ 0) RCX 8 ⟨0x80000000, false⟩ (.stored (.stackSlot 0)) (by decide)
    (Or.inl ⟨0, rfl⟩)
  have hexact := (carries_stored_iff (Or.inl ⟨0, rfl⟩) (by decide)).mp hcarries
  exact absurd hexact (by decide)

end Banjo.Target.X8664.Encoder
