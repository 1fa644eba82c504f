import Banjo.Target.X8664.EncodedAddresses

/-!
# What encoded operands decode to

Almost every instruction decodes to the registers and addresses it was encoded from. Those that do
not are an indirect call of an extended register, which gets no `REX` prefix, an extension of one of
the four registers that need one for their lowest byte, and a `ucomisd` whose `REX` prefix is not
the last.
-/

open List Option

namespace Banjo.Target.X8664.Encoder

open Emit WriteBuffer Decoder
open Codegen (PhysicalReg)
open Mcode (Opcode)
open X8664Register

/-! ## What operands mean -/

/-- The numbers that the registers of the processor have. -/
def number (reg : PhysicalReg) : RegCode :=
  if reg < 16 then [0, 1, 2, 3, 6, 7, 4, 5, 8, 9, 10, 11, 12, 13, 14, 15].getD reg 0
  else BitVec.ofNat 4 (reg - 16)

/-- The operand an instruction should have; immediates and labels are none of these. -/
def operandOf (frame : Frame) : Value → Option Decoder.Operand
  | .register reg => some (.reg (if reg < 16 then .general (number reg) else .sse (number reg)))
  | .stackSlot slot => some (.mem (some (number RSP)) none (frame slot))
  | .symbolDeref _ => some (.ripRelative 0)
  | .addr addr =>
    match addr.base with
    | .register base => some (.mem (some (number base))
        (addr.offsetReg.map fun offset ↦ (number offset.1, offset.2))
        (offsetOf frame addr.offsetConst))
    | .symbol _ => some (.ripRelative 0)
  | _ => none

def shown (frame : Frame) (operands : List Operand) : List Decoder.Operand :=
  operands.filterMap fun operand ↦ operandOf frame operand.value

/-- The operands in the order of the instruction; a product with an immediate has three. -/
def operandsOf (frame : Frame) (instr : Instruction) : List Decoder.Operand :=
  match instr.opcode, instr.operands with
  | .IMUL, [dst, ⟨.intImmediate _, _⟩] => shown frame [dst, dst]
  | .IMUL, [dst, ⟨.symbol _, _⟩] => shown frame [dst, dst]
  | _, operands => shown frame operands

/-! ## The forms of instructions -/

inductive Kind where
  | general | sse | memory | immediate | count | symbol | label
  deriving DecidableEq, Repr

/-- What an address may be: a base and an index that is not `RSP`, or nothing but a symbol. -/
def MachineAddress.Valid (addr : MachineAddress) : Prop :=
  match addr.base with
  | .register base => base < 16 ∧ ∀ offset ∈ addr.offsetReg, offset.1 < 16 ∧ offset.1 ≠ RSP
  | .symbol _ => addr.offsetConst = .imm 0 ∧ addr.offsetReg = none

def Operand.Is (operand : Operand) : Kind → Prop
  | .general => ∃ reg, operand.value = .register reg ∧ reg < 16
  | .sse => ∃ reg, operand.value = .register reg ∧ 16 ≤ reg ∧ reg < 32
  | .memory => (∃ slot, operand.value = .stackSlot slot) ∨
      (∃ symbol, operand.value = .symbolDeref symbol) ∨
      ∃ addr, operand.value = .addr addr ∧ addr.Valid
  | .immediate => (∃ value, operand.value = .intImmediate value) ∨
      ∃ symbol, operand.value = .symbol symbol
  | .count => operand.value = .register RCX
  | .symbol => ∃ symbol, operand.value = .symbol symbol
  | .label => ∃ label, operand.value = .basicBlock label

open Kind in
def signatures : Opcode → List (List Kind)
  | .MOV => [[general, general], [general, immediate], [general, memory], [memory, general],
      [memory, immediate]]
  | .ADD | .SUB | .AND | .OR | .XOR | .CMP => [[general, immediate], [memory, immediate],
      [general, general], [memory, general], [general, memory]]
  | .SHL | .SHR | .SAR => [[general, count], [memory, count], [general, immediate],
      [memory, immediate]]
  | .IMUL => [[general, general], [general, memory], [general, immediate]]
  | .DIV | .IDIV => [[general], [memory]]
  | .MOVSX | .MOVZX | .CMOVE | .CMOVNE | .CMOVA | .CMOVAE | .CMOVB | .CMOVBE | .CMOVG | .CMOVGE
  | .CMOVL | .CMOVLE => [[general, general], [general, memory]]
  | .LEA => [[general, memory]]
  | .CALL => [[general], [memory], [symbol]]
  | .PUSH | .POP => [[general]]
  | .JMP | .JE | .JNE | .JA | .JAE | .JB | .JBE | .JG | .JGE | .JL | .JLE => [[label]]
  | .RET | .CWD | .CDQ | .CQO => [[]]
  | .MOVSS | .MOVSD | .MOVAPS | .MOVUPS => [[sse, sse], [sse, memory], [memory, sse]]
  | .MOVQ => [[general, sse]]
  | .ADDSS | .ADDSD | .SUBSS | .SUBSD | .MULSS | .MULSD | .DIVSS | .DIVSD | .XORPS | .XORPD
  | .MINSS | .MAXSS | .SQRTSS | .UCOMISS | .UCOMISD | .CVTSS2SD | .CVTSD2SS =>
    [[sse, sse], [sse, memory]]
  | .CVTSI2SS | .CVTSI2SD => [[sse, general], [sse, memory]]
  | .CVTSS2SI | .CVTSD2SI => [[general, sse], [general, memory]]
  | .MOVD | .MINSD | .MAXSD | .SQRTSD => []

/-- Operands of one of the forms. -/
def HasForm (forms : List (List Kind)) (operands : List Operand) : Prop :=
  ∃ kinds ∈ forms, List.Forall₂ Operand.Is operands kinds

/-- An instruction of one of the forms; an extension is one of a byte, two or four. -/
structure Instruction.Accepted (instr : Instruction) : Prop where
  form : HasForm (signatures instr.opcode) instr.operands
  extension : instr.opcode = .MOVSX → ∀ src, instr.operands[1]? = some src → src.size ∈ [1, 2, 4]

/-! ## Instructions that are misread -/

def isExtended (reg : PhysicalReg) : Bool := 8 ≤ reg % 16

/-- An operand with a register that takes a bit of a `REX` prefix. -/
def Operand.extended (operand : Operand) : Bool :=
  match operand.value with
  | .register reg => isExtended reg
  | .addr addr =>
    (match addr.base with
      | .register base => isExtended base
      | .symbol _ => false) || addr.offsetReg.any fun offset ↦ isExtended offset.1
  | _ => false

/-- The destination gives no reason for a `REX` prefix, and the byte that is extended needs one. -/
def misreadExtension : List Operand → Bool
  | [⟨.register dst, dstSize⟩, ⟨.register src, 1⟩] =>
    dst < 8 && dstSize ≠ 1 && dstSize ≠ 8 && 4 ≤ number src && number src < 8
  | _ => false

def Instruction.misread (instr : Instruction) : Bool :=
  match instr.opcode with
  | .CALL => instr.operands.any fun target ↦
      match target.value with
      | .register reg => isExtended reg
      | _ => false
  | .MOVSX | .MOVZX => misreadExtension instr.operands
  | .UCOMISD => instr.operands.any Operand.extended
  | _ => false

/-! ## Operands and what they are encoded as -/

theorem number_eq_regCode : ∀ {reg : PhysicalReg}, reg < 32 → number reg = regCode reg := by
  decide

theorem number_eq_four : ∀ {reg : PhysicalReg}, reg < 16 → (number reg = 4 ↔ reg = RSP) := by
  decide

theorem lt_number : ∀ {reg : PhysicalReg}, reg < 32 →
    (isExtended reg = decide (EDI < number reg)) := by
  decide

/-- The operand a register or an address is read as, where the kind is right. -/
def RegOrAddr.operand (kind : RegKind) : RegOrAddr → Decoder.Operand
  | .reg rm => .reg (register (some {}) rm kind)
  | .addr (.reg a) => .mem (some a.base)
      (if a.index = ADDR_NO_INDEX then none else some (a.index, a.scale)) a.displacement
  | .addr (.symbol _) => .ripRelative 0

/-- Is a register read that takes a bit of a `REX` prefix? -/
def readsExtended : Decoder.Operand → Bool
  | .reg (.general n) | .reg (.sse n) => decide (EDI < n)
  | .reg (.high _) => false
  | .mem base index _ => (base.any fun b ↦ decide (EDI < b)) || index.any fun i ↦ decide (EDI < i.1)
  | .ripRelative _ => false

section Kinds

variable (frame : Frame) {operand : Operand}

theorem Operand.Is.spec_general (h : operand.Is .general) :
    ∃ n, reg operand = some n ∧ imm operand = none ∧ addr frame operand = none ∧
      operandOf frame operand.value = some (.reg (.general n)) ∧
      operand.extended = decide (EDI < n) := by
  obtain ⟨value, size⟩ := operand
  obtain ⟨r, hvalue, hlt⟩ := h
  obtain rfl : value = .register r := hvalue
  refine ⟨regCode r, rfl, rfl, rfl, ?_, ?_⟩
  · rw [operandOf, if_pos hlt, number_eq_regCode (hlt.trans (by decide))]
  · rw [← number_eq_regCode (hlt.trans (by decide)), ← lt_number (hlt.trans (by decide))]
    rfl

theorem Operand.Is.spec_sse (h : operand.Is .sse) :
    ∃ n, reg operand = some n ∧ imm operand = none ∧ addr frame operand = none ∧
      operandOf frame operand.value = some (.reg (.sse n)) ∧
      operand.extended = decide (EDI < n) := by
  obtain ⟨value, size⟩ := operand
  obtain ⟨r, hvalue, hle, hlt⟩ := h
  obtain rfl : value = .register r := hvalue
  refine ⟨regCode r, rfl, rfl, rfl, ?_, ?_⟩
  · rw [operandOf, if_neg (Nat.not_lt.mpr hle), number_eq_regCode hlt]
  · rw [← number_eq_regCode hlt, ← lt_number hlt]
    rfl

theorem Operand.Is.spec_memory (h : operand.Is .memory) :
    ∃ a, reg operand = none ∧ imm operand = none ∧ addr frame operand = some a ∧
      (∀ kind, operandOf frame operand.value = some ((RegOrAddr.addr a).operand kind)) ∧
      (operand.extended = true ↔ readsExtended ((RegOrAddr.addr a).operand .general) = true) := by
  obtain ⟨value, size⟩ := operand
  rcases h with ⟨slot, hvalue⟩ | ⟨symbol, hvalue⟩ | ⟨a, hvalue, hvalid⟩
  · obtain rfl : value = .stackSlot slot := hvalue
    exact ⟨_, rfl, rfl, rfl, fun _ ↦ rfl, by simp [Operand.extended, RegOrAddr.operand,
      readsExtended, ADDR_ESP, EDI]⟩
  · obtain rfl : value = .symbolDeref symbol := hvalue
    exact ⟨_, rfl, rfl, rfl, fun _ ↦ rfl, Iff.rfl⟩
  · obtain rfl : value = .addr a := hvalue
    obtain ⟨base, offsetConst, offsetReg⟩ := a
    cases base with
    | symbol symbol =>
      obtain ⟨rfl, rfl⟩ := hvalid
      exact ⟨_, rfl, rfl, rfl, fun _ ↦ rfl, Iff.rfl⟩
    | register base =>
      obtain ⟨hbase, hindex⟩ := hvalid
      have hbase' : number base = regCode base := number_eq_regCode (hbase.trans (by decide))
      have hbit : isExtended base = decide (EDI < regCode base) := by
        rw [← hbase', lt_number (hbase.trans (by decide))]
      cases offsetReg with
      | none =>
        refine ⟨_, rfl, rfl, rfl, fun _ ↦ ?_, ?_⟩
        · simp only [operandOf, hbase', map_none]
          rfl
        · simp only [Operand.extended, hbit, any_none, Bool.or_false]
          simp [readsExtended, RegOrAddr.operand]
      | some offset =>
        obtain ⟨index, scale⟩ := offset
        obtain ⟨hlt, hne⟩ := hindex _ rfl
        have hindex' : number index = regCode index := number_eq_regCode (hlt.trans (by decide))
        have hsp : regCode index ≠ ADDR_NO_INDEX := by
          rw [← hindex']
          exact fun h ↦ hne ((number_eq_four hlt).mp h)
        have hbit' : isExtended index = decide (EDI < regCode index) := by
          rw [← hindex', lt_number (hlt.trans (by decide))]
        refine ⟨_, rfl, rfl, rfl, fun _ ↦ ?_, ?_⟩
        · simp only [operandOf, hbase', map_some, hindex']
          simp only [RegOrAddr.operand, getD_some, if_neg hsp]
        · simp only [Operand.extended, hbit, any_some, hbit']
          simp [readsExtended, RegOrAddr.operand, hsp]

theorem Operand.Is.spec_immediate (h : operand.Is .immediate) :
    ∃ v, reg operand = none ∧ imm operand = some v ∧ addr frame operand = none ∧
      operandOf frame operand.value = none := by
  obtain ⟨value, size⟩ := operand
  rcases h with ⟨v, hvalue⟩ | ⟨v, hvalue⟩
  · obtain rfl : value = .intImmediate v := hvalue
    exact ⟨_, rfl, rfl, rfl, rfl⟩
  · obtain rfl : value = .symbol v := hvalue
    exact ⟨_, rfl, rfl, rfl, rfl⟩

end Kinds

/-! ## Reading a form -/

/-- The prefixes that are emitted before `REX`. -/
def legacyPrefixes : List Byte → Prefixes
  | [0x66] => { operandSize := true }
  | [first] => { mandatory := some first }
  | _ => {}

variable {legacy : List Byte}

theorem decodePrefixes_legacy
    (h : legacy = [] ∨ legacy = [0x66] ∨ legacy = [0xF2] ∨ legacy = [0xF3]) (rest : List Byte) :
    decodePrefixes {} (legacy ++ rest) = decodePrefixes (legacyPrefixes legacy) rest := by
  rcases h with rfl | rfl | rfl | rfl <;> rfl

theorem legacyPrefixes_rex : (legacyPrefixes legacy).rex = none := by
  unfold legacyPrefixes
  split <;> rfl

/-- The bytes of the opcode, which are read with this layout. -/
structure ReadsOpcode (bytes : List Byte) (opcode : Byte) (layout : Layout) : Prop where
  first : ∃ byte rest, bytes = byte :: rest ∧ IsOpcode byte
  reads : ∀ rest, decodeOpcode (bytes ++ rest) = some (opcode, layout, rest)

variable {layout : Layout}

variable (opcode : Byte)

theorem ReadsOpcode.one (h : IsOpcode opcode)
    (hne : opcode ≠ 0x0F) (hlayout : layout1 opcode = some layout) :
    ReadsOpcode [opcode] opcode layout where
  first := ⟨opcode, [], rfl, h⟩
  reads rest := by
    simpa [decodeOpcode, hlayout] using fun heq ↦ absurd heq hne

theorem ReadsOpcode.two (hlayout : layout2 opcode = some layout) :
    ReadsOpcode [0x0F, opcode] opcode layout where
  first := ⟨0x0F, [opcode], rfl, by decide⟩
  reads rest := by
    simp [decodeOpcode, hlayout]

variable {size : ℕ}

variable {reg : RegCode}

/-- Prefixes, an opcode and what the `ModRM` byte says. -/
theorem decodeHead_form {opcodeBytes : List Byte} {opcode : Byte} {digit : RegCode}
    {roa : RegOrAddr} (hlegacy : legacy = [] ∨ legacy = [0x66] ∨ legacy = [0xF2] ∨ legacy = [0xF3])
    (hopcode : ReadsOpcode opcodeBytes opcode layout) (hmodrm : layout.modrm = true)
    (hdigit : decide (EDI < reg) = decide (EDI < digit)) (rest : List Byte) :
    decodeHead (legacy ++ (rexBytes (rexOf size reg roa) ++ (opcodeBytes ++
        (bytes (emitModrmSib digit roa) ++ rest))))
      = some (⟨{ legacyPrefixes legacy with rex := rexOf size reg roa }, opcode, digit,
          layout.slots.map (slotOperand (rexOf size reg roa) opcode digit roa.location),
          layout.imm⟩, rest) := by
  obtain ⟨byte, tail, rfl, hbyte⟩ := hopcode.first
  have hprefixes : decodePrefixes {} (legacy ++ (rexBytes (rexOf size reg roa) ++
      (byte :: tail ++ (bytes (emitModrmSib digit roa) ++ rest))))
        = ({ legacyPrefixes legacy with rex := rexOf size reg roa },
          byte :: tail ++ (bytes (emitModrmSib digit roa) ++ rest)) := by
    rw [decodePrefixes_legacy hlegacy]
    exact decodePrefixes_rex hbyte legacyPrefixes_rex _ _
  have hread : decodeModrm ((rexOf size reg roa).getD {}) (bytes (emitModrmSib digit roa) ++ rest)
      = some (digit, roa.location, rest) := by
    rw [rexOf_getD]
    exact decodeModrm_emitModrmSib hdigit rfl rfl rest
  rw [decodeHead, hprefixes]
  simp only [hopcode.reads, hmodrm, decodeFields, if_true, hread, bind_eq_bind, bind_some]

/-! ## Operands in their slots -/

def sizedKind (size : ℕ) : RegKind := if size = 1 then .byte else .general

theorem rexOf_eq_none {roa : RegOrAddr} (h : rexOf size reg roa = none) :
    (size = 1 → aboveEbx reg = false ∧ roa.isLowByte = false) ∧ ¬EDI < reg ∧
      roa.baseBit = false := by
  rw [rexOf] at h
  split_ifs at h with hneeded
  simp only [not_or, not_and, Bool.not_eq_true, decide_eq_false_iff_not] at hneeded
  exact ⟨hneeded.1, hneeded.2.2.1, hneeded.2.2.2.2⟩

variable {n : RegCode} {rex : Option Rex}

/-- A register of a byte is read as such where its prefix is asked for. -/
theorem register_byte
    (h : rex = none → aboveEbx n = false ∧ ¬EDI < n) : register rex n .byte = .general n := by
  cases rex with
  | some rex => rfl
  | none =>
    have hsmall : ∀ n : RegCode, ¬EDI < n → aboveEbx n = false → ¬4 ≤ n := by decide
    obtain ⟨hlow, hlt⟩ := h rfl
    rw [register, if_neg (fun hand ↦ hsmall n hlt hlow hand.2)]

theorem register_sized (h : size = 1 → rex = none → aboveEbx n = false ∧ ¬EDI < n) :
    register rex n (sizedKind size) = .general n := by
  by_cases hsize : size = 1
  · rw [sizedKind, if_pos hsize]
    exact register_byte (h hsize)
  · rw [sizedKind, if_neg hsize]
    rfl

theorem field_sized (size : ℕ) (reg : RegCode) (roa : RegOrAddr) :
    register (rexOf size reg roa) reg (sizedKind size) = .general reg :=
  register_sized fun hsize hnone ↦ ⟨((rexOf_eq_none hnone).1 hsize).1, (rexOf_eq_none hnone).2.1⟩

theorem location_plain (rex : Option Rex) (kind : RegKind) (hkind : kind ≠ .byte)
    (roa : RegOrAddr) : roa.location.operand rex kind = roa.operand kind := by
  cases roa with
  | reg rm =>
    cases kind with
    | byte => exact absurd rfl hkind
    | general => rfl
    | sse => rfl
  | addr a =>
    cases a with
    | reg a => rfl
    | symbol a => rfl

theorem location_sized (size : ℕ) (reg : RegCode) (roa : RegOrAddr) :
    roa.location.operand (rexOf size reg roa) (sizedKind size) = roa.operand .general := by
  cases roa with
  | reg rm =>
    refine congrArg Decoder.Operand.reg (register_sized fun hsize hnone ↦ ?_)
    obtain ⟨hlow, -, hbase⟩ := rexOf_eq_none hnone
    exact ⟨(hlow hsize).2, of_decide_eq_false hbase⟩
  | addr a =>
    cases a with
    | reg a => rfl
    | symbol a => rfl

/-! ## Instructions of one shape -/

/-- The operands that are read from what is emitted, whatever follows. -/
def Reads (actions : List Action) (operands : List Decoder.Operand) : Prop :=
  ∀ rest, ∃ head tail, decodeHead (bytes actions ++ rest) = some (head, tail) ∧
    head.operands = operands

section Shapes

variable {actions : List Action} {legacy opcodeBytes imm : List Byte} {opcode op8 op32 : Byte}
  {layout : Layout} {size : ℕ} {reg digit : RegCode} {roa : RegOrAddr}

/-- The shape of almost everything that is emitted. -/
structure Form (actions : List Action) (legacy : List Byte) (size : ℕ) (reg : RegCode)
    (opcodeBytes : List Byte) (digit : RegCode) (roa : RegOrAddr) (imm : List Byte) : Prop where
  bytes_eq : bytes actions = legacy ++ (rexBytes (rexOf size reg roa) ++ (opcodeBytes ++
    (bytes (emitModrmSib digit roa) ++ imm)))
  legacy_mem : legacy = [] ∨ legacy = [0x66] ∨ legacy = [0xF2] ∨ legacy = [0xF3]

def sizePrefix (size : ℕ) : List Byte := if size = 2 then [0x66] else []

@[simp] theorem bytes_emit16BitPrefixIfRequired (size : ℕ) :
    bytes (emit16BitPrefixIfRequired size) = sizePrefix size := by
  rw [emit16BitPrefixIfRequired, sizePrefix]
  split_ifs <;> rfl

theorem sizePrefix_mem' (size : ℕ) : sizePrefix size = [] ∨ sizePrefix size = [0x66] := by
  rw [sizePrefix]
  split_ifs
  · exact Or.inr rfl
  · exact Or.inl rfl

theorem sizePrefix_mem (size : ℕ) : sizePrefix size = [] ∨ sizePrefix size = [0x66] ∨
    sizePrefix size = [0xF2] ∨ sizePrefix size = [0xF3] :=
  (sizePrefix_mem' size).imp_right Or.inl

theorem Form.decodeHead (h : Form actions legacy size reg opcodeBytes digit roa imm)
    (hopcode : ReadsOpcode opcodeBytes opcode layout) (hmodrm : layout.modrm = true)
    (hdigit : decide (EDI < reg) = decide (EDI < digit)) (rest : List Byte) :
    decodeHead (bytes actions ++ rest)
      = some (⟨{ legacyPrefixes legacy with rex := rexOf size reg roa }, opcode, digit,
          layout.slots.map (slotOperand (rexOf size reg roa) opcode digit roa.location),
          layout.imm⟩, imm ++ rest) := by
  rw [h.bytes_eq]
  simp only [append_assoc]
  exact decodeHead_form h.legacy_mem hopcode hmodrm hdigit (imm ++ rest)

/-- The layouts of an opcode for bytes and of one for larger operands. -/
structure SizedOpcode (op8 op32 : Byte) (slots : RegKind → List Slot)
  (small large : ImmKind := .none) :
    Prop where
  byte : ReadsOpcode [op8] op8 { slots := slots .byte, imm := small }
  general : ReadsOpcode [op32] op32 { slots := slots .general, imm := large }

variable {slots : RegKind → List Slot} {small large : ImmKind}

theorem SizedOpcode.reads (h : SizedOpcode op8 op32 slots small large) (size : ℕ) :
    ReadsOpcode [if size = 1 then op8 else op32] (if size = 1 then op8 else op32)
      { slots := slots (sizedKind size), imm := if size = 1 then small else large } := by
  by_cases hsize : size = 1
  · rw [sizedKind, if_pos hsize, if_pos hsize, if_pos hsize]
    exact h.byte
  · rw [sizedKind, if_neg hsize, if_neg hsize, if_neg hsize]
    exact h.general

theorem Form.reads_mr
    (h : Form actions legacy size reg [if size = 1 then op8 else op32] reg roa imm)
    (hopcode : SizedOpcode op8 op32 (fun kind ↦ [.rm kind, .field kind]) small large) :
    Reads actions [roa.operand .general, .reg (.general reg)] := by
  intro rest
  refine ⟨_, _, h.decodeHead (hopcode.reads size) rfl rfl rest, ?_⟩
  simp only [map_cons, map_nil, slotOperand, location_sized, field_sized]

theorem Form.reads_rm
    (h : Form actions legacy size reg [if size = 1 then op8 else op32] reg roa imm)
    (hopcode : SizedOpcode op8 op32 (fun kind ↦ [.field kind, .rm kind]) small large) :
    Reads actions [.reg (.general reg), roa.operand .general] := by
  intro rest
  refine ⟨_, _, h.decodeHead (hopcode.reads size) rfl rfl rest, ?_⟩
  simp only [map_cons, map_nil, slotOperand, location_sized, field_sized]

/-- A digit of three bits stands in for the register. -/
theorem Form.reads_m (h : Form actions legacy size 0 [if size = 1 then op8 else op32] digit roa imm)
    (hdigit : ¬EDI < digit) (hopcode : SizedOpcode op8 op32 (fun kind ↦ [.rm kind]) small large) :
    Reads actions [roa.operand .general] := by
  intro rest
  refine ⟨_, _, h.decodeHead (hopcode.reads size) rfl
    (by rw [decide_eq_false hdigit]; rfl) rest, ?_⟩
  simp only [map_cons, map_nil, slotOperand, location_sized]

/-- A count in `CL` comes after the operand. -/
theorem Form.reads_count
    (h : Form actions legacy size 0 [if size = 1 then op8 else op32] digit roa imm)
    (hdigit : ¬EDI < digit)
    (hopcode : SizedOpcode op8 op32 (fun kind ↦ [.rm kind, .count]) small large) :
    Reads actions [roa.operand .general, .reg (.general 1)] := by
  intro rest
  refine ⟨_, _, h.decodeHead (hopcode.reads size) rfl
    (by rw [decide_eq_false hdigit]; rfl) rest, ?_⟩
  simp only [map_cons, map_nil, slotOperand, location_sized]

variable {immKind : ImmKind}

theorem Form.reads_general (h : Form actions legacy size 0 opcodeBytes digit roa imm)
    (hdigit : ¬EDI < digit)
    (hopcode : ReadsOpcode opcodeBytes opcode { slots := [.rm .general], imm := immKind }) :
    Reads actions [roa.operand .general] := by
  intro rest
  refine ⟨_, _, h.decodeHead hopcode rfl (by rw [decide_eq_false hdigit]; rfl) rest, ?_⟩
  have hplain := location_plain (rexOf size 0 roa) .general (by decide) roa
  simp only [map_cons, map_nil, slotOperand, hplain]

theorem Form.reads_plain (h : Form actions legacy size reg opcodeBytes reg roa imm)
    (kind kind' : RegKind) (hkind : kind ≠ .byte) (hkind' : kind' ≠ .byte)
    (hopcode : ReadsOpcode opcodeBytes opcode
      { slots := [.field kind, .rm kind'], imm := immKind }) :
    Reads actions [(RegOrAddr.reg reg).operand kind, roa.operand kind'] := by
  intro rest
  refine ⟨_, _, h.decodeHead hopcode rfl rfl rest, ?_⟩
  simp only [map_cons, map_nil, slotOperand, location_plain _ kind' hkind']
  rw [← location_plain (rexOf size reg roa) kind hkind (.reg reg)]
  rfl

theorem Form.reads_plain_store (h : Form actions legacy size reg opcodeBytes reg roa imm)
    (kind kind' : RegKind) (hkind : kind ≠ .byte) (hkind' : kind' ≠ .byte)
    (hopcode : ReadsOpcode opcodeBytes opcode { slots := [.rm kind', .field kind] }) :
    Reads actions [roa.operand kind', (RegOrAddr.reg reg).operand kind] := by
  intro rest
  refine ⟨_, _, h.decodeHead hopcode rfl rfl rest, ?_⟩
  simp only [map_cons, map_nil, slotOperand, location_plain _ kind' hkind']
  rw [← location_plain (rexOf size reg roa) kind hkind (.reg reg)]
  rfl

/-- Without a `ModRM` byte there is nothing between the opcode and the immediate. -/
theorem reads_opcode (rex : Option Rex) (slots : List Slot)
    (hlegacy : legacy = [] ∨ legacy = [0x66])
    (hbytes : bytes actions = legacy ++ (rexBytes rex ++ (opcodeBytes ++ imm)))
    (hopcode : ReadsOpcode opcodeBytes opcode { slots, modrm := false, imm := immKind }) :
    Reads actions (slots.map (slotOperand rex opcode 0 (.reg 0))) := by
  intro rest
  obtain ⟨byte, tail, rfl, hbyte⟩ := hopcode.first
  have hprefixes : decodePrefixes {} (bytes actions ++ rest)
      = ({ legacyPrefixes legacy with rex }, byte :: tail ++ (imm ++ rest)) := by
    rw [hbytes]
    simp only [append_assoc]
    rw [decodePrefixes_legacy (hlegacy.imp_right Or.inl)]
    exact decodePrefixes_rex hbyte legacyPrefixes_rex _ _
  refine ⟨⟨{ legacyPrefixes legacy with rex }, opcode, 0, _, immKind⟩, imm ++ rest, ?_, rfl⟩
  rw [Decoder.decodeHead, hprefixes]
  simp only [hopcode.reads, decodeFields, bind_eq_bind, bind_some, Bool.false_eq_true, if_false]

end Shapes

/-! ## Operands that are a register or an address -/

section Spec

variable (frame : Frame) {operand : Operand}

theorem Operand.Is.roa_general (h : operand.Is .general ∨ operand.Is .memory) :
    ∃ r, roa frame operand = some r ∧ operandOf frame operand.value =
      some (r.operand .general) := by
  rcases h with h | h
  · obtain ⟨n, hreg, -, haddr, hshown, -⟩ := h.spec_general frame
    exact ⟨.reg n, by rw [roa, hreg]; rfl, hshown⟩
  · obtain ⟨a, hreg, -, haddr, hshown, -⟩ := h.spec_memory frame
    exact ⟨.addr a, by rw [roa, hreg, haddr]; rfl, hshown .general⟩

theorem Operand.Is.roa_sse (h : operand.Is .sse ∨ operand.Is .memory) :
    ∃ r, roa frame operand = some r ∧ operandOf frame operand.value = some (r.operand .sse) := by
  rcases h with h | h
  · obtain ⟨n, hreg, -, haddr, hshown, -⟩ := h.spec_sse frame
    exact ⟨.reg n, by rw [roa, hreg]; rfl, hshown⟩
  · obtain ⟨a, hreg, -, haddr, hshown, -⟩ := h.spec_memory frame
    exact ⟨.addr a, by rw [roa, hreg, haddr]; rfl, hshown .sse⟩

end Spec

end Banjo.Target.X8664.Encoder
