import Banjo.Target.X8664.EncodedOperands

/-!
# Addresses relative to the next instruction

The displacement of an address relative to a symbol counts from the end of the whole instruction,
the use of the symbol records where the displacement is, and the relocation that the ELF builder
writes subtracts the four bytes of the displacement. What comes after the displacement has to be in
the addend of the use.
-/

open List Option

namespace Banjo.Target.X8664.Encoder

open Emit WriteBuffer Decoder
open Mcode (Opcode)
open X8664Register

/-! ## Uses -/

/-- A use of a symbol that is to be resolved in the bytes of an instruction. -/
structure RelativeUse where
  offset : ℕ
  kind : BinSymbolUseKind
  addend : ℤ
  deriving DecidableEq, Repr

/-- The uses with four bytes, and where they are. -/
def uses (offset : ℕ) : List Action → List RelativeUse
  | [] => []
  | .use _ kind addend false :: rest => ⟨offset, kind, addend⟩ :: uses (offset + 4) rest
  | action :: rest => uses (offset + (actionBytes action).length) rest

variable (offset : ℕ)

theorem uses_cons (action : Action) (rest : List Action) :
    uses offset (action :: rest)
      = uses offset [action] ++ uses (offset + (bytes [action]).length) rest := by
  have hbytes : bytes [action] = actionBytes action := by simp [bytes]
  rw [hbytes]
  cases action with
  | use target kind addend wide => cases wide <;> rfl
  | write l => rfl
  | jmp target => rfl
  | jcc condition target => rfl
  | allocaStart => rfl
  | allocaEnd => rfl
  | pushReg reg => rfl

theorem bytes_cons (action : Action) (rest : List Action) :
    bytes (action :: rest) = bytes [action] ++ bytes rest := by
  simp [bytes]

@[simp] theorem uses_append (a b : List Action) :
    uses offset (a ++ b) = uses offset a ++ uses (offset + (bytes a).length) b := by
  induction a generalizing offset with
  | nil => rfl
  | cons action rest ih =>
    rw [cons_append, uses_cons, ih, uses_cons offset action rest, bytes_cons action rest,
      append_assoc, length_append, Nat.add_assoc]

/-- `process_x86_64_relocation`, without the type. -/
def addressOffset : BinSymbolUseKind → ℤ
  | .ABS64 => 0
  | .REL32 | .GOTPCREL32 | .PLT32 => -4

theorem addressOffset_relative {kind : BinSymbolUseKind} (h : kind ≠ .ABS64) :
    addressOffset kind = -4 := by
  cases kind with
  | ABS64 => exact absurd rfl h
  | REL32 => rfl
  | GOTPCREL32 => rfl
  | PLT32 => rfl

/-- What the linker writes: the symbol, the addend of the relocation and the place it is for. -/
def RelativeUse.displacement (use : RelativeUse) (start symbol : ℤ) : ℤ :=
  symbol + (use.addend + addressOffset use.kind) - (start + use.offset)

/-- The length of the instruction the bytes begin with, its immediate included. -/
def instrLength (bytes : List Byte) : Option ℕ :=
  (decodeHead bytes).map fun (head, rest) ↦ bytes.length - rest.length + head.immLength

/-- Wherever the instruction and the symbols are, each displacement leads from the end of the
instruction to its symbol. -/
def Accesses (actions : List Action) : Prop :=
  ∀ use ∈ uses 0 actions, use.kind ≠ .ABS64 → ∀ rest, ∃ length,
    instrLength (bytes actions ++ rest) = some length ∧
      ∀ start symbol, start + length + use.displacement start symbol = symbol

/-! ## What emits no use -/

section Uses

variable (offset : ℕ)

@[simp] theorem uses_nil : uses offset [] = [] := rfl

@[simp] theorem uses_write (l : List Byte) : uses offset [.write l] = [] := rfl

variable (opcode : Byte)

@[simp] theorem uses_emitOpcode : uses offset (emitOpcode opcode) = [] := rfl

variable (reg : RegCode)

@[simp] theorem uses_emitCombinedOpcode :
    uses offset (emitCombinedOpcode opcode reg) = [] := rfl

@[simp] theorem uses_emitModrm (mod reg rm : RegCode) : uses offset (emitModrm mod reg rm) =
    [] := rfl

@[simp] theorem uses_emitModrmRR (rm : RegCode) : uses offset (emitModrmRR reg rm) = [] := rfl

@[simp] theorem uses_emitSib (scale : Scale) (index base : RegCode) :
    uses offset (emitSib scale index base) = [] := rfl

@[simp] theorem uses_emitRex (w r x b : Bool) : uses offset (emitRex w r x b) = [] := rfl

variable (size : ℕ)

@[simp] theorem uses_emit16BitPrefixIfRequired :
    uses offset (emit16BitPrefixIfRequired size) = [] := by
  rw [emit16BitPrefixIfRequired]
  split_ifs <;> rfl

@[simp] theorem uses_emitRexRroa (reg : RegCode) (roa : RegOrAddr) :
    uses offset (emitRexRroa size reg roa) = [] := by
  cases roa with
  | reg rm =>
    simp only [emitRexRroa, emitRexRR]
    split_ifs <;> rfl
  | addr a =>
    simp only [emitRexRroa, emitRexRM]
    split_ifs <;> rfl

@[simp] theorem uses_emitRexRR (reg rm : RegCode) :
    uses offset (emitRexRR size reg rm) = [] := uses_emitRexRroa offset size reg (.reg rm)

@[simp] theorem uses_emitRexRM (reg : RegCode) (addr : Address) :
    uses offset (emitRexRM size reg addr) = [] := uses_emitRexRroa offset size reg (.addr addr)

@[simp] theorem uses_emitRexO : uses offset (emitRexO size reg) = [] := by
  simp only [emitRexO]
  split_ifs <;> rfl

variable (value : BitVec 64)

@[simp] theorem uses_writeImm : uses offset (writeImm size value) = [] := by
  rw [writeImm]
  split_ifs <;> rfl

@[simp] theorem uses_writeI8 : uses offset (writeI8 value) = [] := rfl

@[simp] theorem uses_writeI32 : uses offset (writeI32 value) = [] := rfl

@[simp] theorem uses_writeI64 : uses offset (writeI64 value) = [] := rfl

@[simp] theorem uses_emitMemReg (addr : RegAddress) (digit : RegCode) :
    uses offset (emitMemReg addr digit) = [] := by
  simp only [emitMemReg]
  split_ifs <;> simp

/-- The uses of the address that begins here. -/
def addressUses (offset : ℕ) (addend : ℤ) : RegOrAddr → List RelativeUse
  | .addr (.symbol a) => [⟨offset + 1, a.useKind, addend⟩]
  | _ => []

@[simp] theorem uses_emitMemDigit (addr : Address) (digit : RegCode) (trailing : ℕ) :
    uses offset (emitMemDigit addr digit trailing)
      = addressUses offset (-trailing) (.addr addr) := by
  cases addr with
  | reg a => exact uses_emitMemReg offset a digit
  | symbol a => rfl

@[simp] theorem uses_emitModrmSib (digit : RegCode) (roa : RegOrAddr) :
    uses offset (emitModrmSib digit roa) = addressUses offset 0 roa := by
  cases roa with
  | reg rm => rfl
  | addr a => exact uses_emitMemDigit offset a digit 0

end Uses

theorem accesses_of_uses_nil {actions : List Action} (h : uses 0 actions = []) :
    Accesses actions := by
  intro use hmem
  rw [h] at hmem
  cases hmem

/-! ## Instructions of one shape -/

section Shapes

variable {frame : Frame} {actions : List Action}

variable (reg : RegCode)

@[simp] theorem bytes_emitModrmRR (rm : RegCode) :
    bytes (emitModrmRR reg rm) = bytes (emitModrmSib reg (.reg rm)) := rfl

/-- What is resolved later takes as many bytes whatever is added to it. -/
@[simp] theorem bytes_emitMemDigit_offset (addr : Address) (digit : RegCode) (offset : ℕ) :
    bytes (emitMemDigit addr digit offset) = bytes (emitModrmSib digit (.addr addr)) := by
  cases addr <;> rfl

variable (size : ℕ)

/-- An operation on a register or an address and a register. -/
theorem form_sized (reg digit : RegCode) (roa : RegOrAddr) (op : Byte)
    (imm : List Action) :
    Form (emit16BitPrefixIfRequired size ++ emitRexRroa size reg roa ++ emitOpcode op ++
      emitModrmSib digit roa ++ imm) (sizePrefix size) size reg [op] digit roa (bytes imm) where
  bytes_eq := by simp
  legacy_mem := sizePrefix_mem size

theorem form_sized_two (reg digit : RegCode) (roa : RegOrAddr) (op : Byte) :
    Form (emit16BitPrefixIfRequired size ++ emitRexRroa size reg roa ++ emitOpcode 0x0F ++
      emitOpcode op ++ emitModrmSib digit roa) (sizePrefix size) size reg
        [0x0F, op] digit roa [] where
  bytes_eq := by simp
  legacy_mem := sizePrefix_mem size

theorem form_sse (reg : RegCode) (roa : RegOrAddr) (op : Byte) {first : Byte}
    (hfirst : first = 0x66 ∨ first = 0xF2 ∨ first = 0xF3) :
    Form (emitSse first op reg roa size) [first] size reg [0x0F, op] reg roa [] where
  bytes_eq := by simp [emitSse]
  legacy_mem := by simpa using hfirst

theorem form_packed (reg : RegCode) (roa : RegOrAddr) (op : Byte) :
    Form (emitRexRroa size reg roa ++ emitOpcode 0x0F ++ emitOpcode op ++ emitModrmSib reg roa) []
      size reg [0x0F, op] reg roa [] where
  bytes_eq := by simp
  legacy_mem := Or.inl rfl

theorem bytes_sized_opcode (reg rm : RegCode) (op : Byte) (imm : List Action) :
    bytes (emit16BitPrefixIfRequired size ++ emitRexRR size reg rm ++ emitOpcode op ++ imm)
      = sizePrefix size ++ (rexBytes (rexOf size reg (.reg rm)) ++ ([op] ++ bytes imm)) := by
  simp

/-- The prefix `emit_rex_o` emits. -/
def rexOfOpcode (size : ℕ) (reg : RegCode) : Option Rex :=
  if size = 1 ∧ aboveEbx reg ∨ decide (size = 8) ∨ decide (EDI < reg) then
    some ⟨decide (size = 8), false, false, decide (EDI < reg)⟩
  else none

@[simp] theorem bytes_emitRexO : bytes (emitRexO size reg) = rexBytes (rexOfOpcode size reg) := by
  rw [emitRexO, rexOfOpcode]
  by_cases h : size = 1 ∧ aboveEbx reg ∨ decide (size = 8) ∨ decide (EDI < reg)
  · rw [if_pos h]
    simp only [if_pos h]
    exact bytes_emitRex _ _ _ _
  · rw [if_neg h]
    simp only [if_neg h]
    rfl

@[simp] theorem bytes_emitCombinedOpcode (op : Byte) (reg : RegCode) :
    bytes (emitCombinedOpcode op reg) = [op ||| low reg] := bytes_write _

theorem rexOfOpcode_b : ((rexOfOpcode size reg).getD {}).b = decide (EDI < reg) := by
  rw [rexOfOpcode]
  split_ifs with h
  · rfl
  · simp only [not_or, Bool.not_eq_true] at h
    exact h.2.2.symm

/-- The opcodes with a register in them. -/
theorem readsOpcode_combined : ∀ reg : RegCode,
    (ReadsOpcode [0x50 ||| low reg] (0x50 ||| low reg)
      { slots := [.combined .general], modrm := false } ∧
    ReadsOpcode [0x58 ||| low reg] (0x58 ||| low reg)
      { slots := [.combined .general], modrm := false }) ∧
    ReadsOpcode [0xB0 ||| low reg] (0xB0 ||| low reg)
      { slots := [.combined .byte], modrm := false, imm := .imm8 } ∧
    ReadsOpcode [0xB8 ||| low reg] (0xB8 ||| low reg)
      { slots := [.combined .general], modrm := false, imm := .immV } := by
  have hlayout : ∀ reg : RegCode, layout1 (0x50 ||| low reg)
        = some { slots := [.combined .general], modrm := false } ∧
      layout1 (0x58 ||| low reg) = some { slots := [.combined .general], modrm := false } ∧
      layout1 (0xB0 ||| low reg)
        = some { slots := [.combined .byte], modrm := false, imm := .imm8 } ∧
      layout1 (0xB8 ||| low reg)
        = some { slots := [.combined .general], modrm := false, imm := .immV } := by decide +kernel
  have hopcode : ∀ reg : RegCode, ∀ opcode ∈ [(0x50 : Byte), 0x58, 0xB0, 0xB8],
      IsOpcode (opcode ||| low reg) ∧ opcode ||| low reg ≠ 0x0F := by decide +kernel
  intro reg
  obtain ⟨h50, h58, hB0, hB8⟩ := hlayout reg
  exact ⟨⟨.one _ (hopcode reg _ (by decide)).1 (hopcode reg _ (by decide)).2 h50,
    .one _ (hopcode reg _ (by decide)).1 (hopcode reg _ (by decide)).2 h58⟩,
    .one _ (hopcode reg _ (by decide)).1 (hopcode reg _ (by decide)).2 hB0,
    .one _ (hopcode reg _ (by decide)).1 (hopcode reg _ (by decide)).2 hB8⟩

theorem extended_combined : ∀ reg : RegCode, ∀ opcode ∈ [(0x50 : Byte), 0x58, 0xB0, 0xB8],
    extended (decide (EDI < reg)) (opcode ||| low reg) = reg := by decide +kernel

end Shapes

/-- The shape of an instruction and the use in it. -/
structure Linked (actions : List Action) (legacy : List Byte) (size : ℕ) (reg : RegCode)
    (opcodeBytes : List Byte) (digit : RegCode) (roa : RegOrAddr) (imm : List Byte) (addend : ℤ) :
    Prop where
  form : Form actions legacy size reg opcodeBytes digit roa imm
  uses_eq : uses 0 actions = addressUses
    (legacy.length + (rexBytes (rexOf size reg roa)).length + opcodeBytes.length) addend roa

section Linked

variable {actions : List Action} {legacy opcodeBytes imm : List Byte} {opcode : Byte}
  {layout : Layout} {size : ℕ} {reg digit : RegCode} {roa : RegOrAddr} {addend : ℤ}

/-- The bytes after an address relative to a symbol. -/
def trailing (legacy : List Byte) (size : ℕ) (imm : ImmKind) : ℕ :=
  Head.immLength
    ⟨{ legacyPrefixes legacy with rex := some { w := decide (size = 8) } }, 0, 0, [], imm⟩

theorem Linked.accesses_iff (h : Linked actions legacy size reg opcodeBytes digit roa imm addend)
    (hopcode : ReadsOpcode opcodeBytes opcode layout) (hmodrm : layout.modrm = true)
    (hdigit : decide (EDI < reg) = decide (EDI < digit)) :
    Accesses actions ↔ ∀ a, roa = .addr (.symbol a) → a.useKind ≠ .ABS64 →
      addend = -trailing legacy size layout.imm := by
  by_cases hsymbol : ∃ a, roa = .addr (.symbol a)
  · obtain ⟨a, rfl⟩ := hsymbol
    have hlength : ∀ rest, instrLength (bytes actions ++ rest)
        = some (legacy.length + (rexBytes (rexOf size reg (.addr (.symbol a)))).length +
          opcodeBytes.length + 5 + trailing legacy size layout.imm) := by
      intro rest
      have hrex : rexOf size reg (.addr (.symbol a))
          = some ⟨decide (size = 8), decide (EDI < reg), false, true⟩ := by
        simp [rexOf, RegOrAddr.indexBit, RegOrAddr.baseBit]
      have himm : Head.immLength ⟨{ legacyPrefixes legacy with
            rex := rexOf size reg (.addr (.symbol a)) }, opcode, digit,
          layout.slots.map (slotOperand (rexOf size reg (.addr (.symbol a))) opcode digit
            (RegOrAddr.location (.addr (.symbol a)))), layout.imm⟩
          = trailing legacy size layout.imm := by
        rw [hrex]
        rfl
      have hfive : (bytes (emitModrmSib digit (.addr (.symbol a)))).length = 5 := rfl
      have hcount : (bytes actions ++ rest).length - (imm ++ rest).length = legacy.length +
          (rexBytes (rexOf size reg (.addr (.symbol a)))).length + opcodeBytes.length + 5 := by
        rw [h.form.bytes_eq]
        simp only [length_append, hfive]
        omega
      rw [instrLength, h.form.decodeHead hopcode hmodrm hdigit]
      exact congrArg some (congrArg₂ (· + ·) hcount himm)
    have huse : ∀ use, use ∈ uses 0 actions ↔ use = ⟨legacy.length +
        (rexBytes (rexOf size reg (.addr (.symbol a)))).length + opcodeBytes.length + 1, a.useKind,
        addend⟩ := by
      intro use
      rw [h.uses_eq]
      exact mem_singleton
    constructor
    · intro haccesses b hb hkind
      obtain rfl : a = b := by
        injection hb with hb
        injection hb
      obtain ⟨length, hsome, hall⟩ := haccesses _ ((huse _).mpr rfl) hkind []
      rw [hlength, some.injEq] at hsome
      have hzero := hall 0 0
      rw [RelativeUse.displacement, addressOffset_relative hkind, ← hsome] at hzero
      push_cast at hzero
      omega
    · intro haddend use hmem hkind rest
      obtain rfl := (huse use).mp hmem
      refine ⟨_, hlength rest, fun start symbol ↦ ?_⟩
      rw [RelativeUse.displacement, addressOffset_relative hkind, haddend a rfl hkind]
      push_cast
      omega
  · refine iff_of_true (accesses_of_uses_nil ?_) fun a heq ↦ absurd ⟨a, heq⟩ hsymbol
    rw [h.uses_eq]
    cases roa with
    | reg rm => rfl
    | addr a =>
      cases a with
      | reg a => rfl
      | symbol a => exact absurd ⟨a, rfl⟩ hsymbol

/-- With no immediate nothing comes after the address. -/
theorem Linked.accesses {slots : List Slot}
    (h : Linked actions legacy size reg opcodeBytes digit roa imm 0)
    (hopcode : ReadsOpcode opcodeBytes opcode { slots })
    (hdigit : decide (EDI < reg) = decide (EDI < digit)) : Accesses actions :=
  (h.accesses_iff hopcode rfl hdigit).mpr fun _ _ _ ↦ rfl

theorem linked_sized (size : ℕ) (reg digit : RegCode) (roa : RegOrAddr) (op : Byte)
    (imm : List Action) (himm : ∀ offset, uses offset imm = []) :
    Linked (emit16BitPrefixIfRequired size ++ emitRexRroa size reg roa ++ emitOpcode op ++
      emitModrmSib digit roa ++ imm) (sizePrefix size) size reg [op] digit roa (bytes imm) 0 where
  form := form_sized size reg digit roa op imm
  uses_eq := by simp [himm, Nat.add_assoc]

theorem linked_sized_two (size : ℕ) (reg digit : RegCode) (roa : RegOrAddr) (op : Byte) :
    Linked (emit16BitPrefixIfRequired size ++ emitRexRroa size reg roa ++ emitOpcode 0x0F ++
      emitOpcode op ++ emitModrmSib digit roa) (sizePrefix size) size reg [0x0F, op] digit roa []
      0 where
  form := form_sized_two size reg digit roa op
  uses_eq := by simp [Nat.add_assoc]

theorem linked_sse (size : ℕ) (reg : RegCode) (roa : RegOrAddr) (op : Byte) {first : Byte}
    (hfirst : first = 0x66 ∨ first = 0xF2 ∨ first = 0xF3) :
    Linked (emitSse first op reg roa size) [first] size reg [0x0F, op] reg roa [] 0 where
  form := form_sse size reg roa op hfirst
  uses_eq := by simp [emitSse, Nat.add_assoc]

theorem linked_packed (size : ℕ) (reg : RegCode) (roa : RegOrAddr) (op : Byte) :
    Linked (emitRexRroa size reg roa ++ emitOpcode 0x0F ++ emitOpcode op ++ emitModrmSib reg roa) []
      size reg [0x0F, op] reg roa [] 0 where
  form := form_packed size reg roa op
  uses_eq := by simp [Nat.add_assoc]

theorem accesses_sized {op8 op32 : Byte} {slots : RegKind → List Slot}
    (hopcode : SizedOpcode op8 op32 slots) (size : ℕ) (reg digit : RegCode) (roa : RegOrAddr)
    (hdigit : decide (EDI < reg) = decide (EDI < digit)) :
    Accesses (emit16BitPrefixIfRequired size ++ emitRexRroa size reg roa ++
      emitOpcode (if size = 1 then op8 else op32) ++ emitModrmSib digit roa) := by
  have hlinked := linked_sized size reg digit roa (if size = 1 then op8 else op32) [] fun _ ↦ rfl
  rw [append_nil] at hlinked
  have hreads := hopcode.reads size
  rw [ite_self] at hreads
  exact hlinked.accesses hreads hdigit

/-- What is emitted is read as these operands, and its addresses are those of its symbols. -/
structure Encoded (actions : List Action) (operands : List Decoder.Operand) : Prop where
  reads : Reads actions operands
  accesses : Accesses actions

theorem Encoded.of_uses_nil {operands : List Decoder.Operand} (hreads : Reads actions operands)
    (h : uses 0 actions = []) : Encoded actions operands := ⟨hreads, accesses_of_uses_nil h⟩

theorem Encoded.spec {operands : List Decoder.Operand} (h : Encoded actions operands) {p : Prop}
    {a b : Bool} (ha : a = false) (hb : b = false) :
    (Reads actions operands ↔ a = false) ∧ (p → (Accesses actions ↔ b = false)) :=
  ⟨iff_of_true h.reads ha, fun _ ↦ iff_of_true h.accesses hb⟩

theorem Linked.plain (h : Linked actions legacy size reg opcodeBytes reg roa imm 0)
    (kind kind' : RegKind) (hkind : kind ≠ .byte) (hkind' : kind' ≠ .byte)
    (hopcode : ReadsOpcode opcodeBytes opcode { slots := [.field kind, .rm kind'] }) :
    Encoded actions [(RegOrAddr.reg reg).operand kind, roa.operand kind'] :=
  ⟨h.form.reads_plain kind kind' hkind hkind' hopcode, h.accesses hopcode rfl⟩

theorem Linked.plain_store (h : Linked actions legacy size reg opcodeBytes reg roa imm 0)
    (kind kind' : RegKind) (hkind : kind ≠ .byte) (hkind' : kind' ≠ .byte)
    (hopcode : ReadsOpcode opcodeBytes opcode { slots := [.rm kind', .field kind] }) :
    Encoded actions [roa.operand kind', (RegOrAddr.reg reg).operand kind] :=
  ⟨h.form.reads_plain_store kind kind' hkind hkind' hopcode, h.accesses hopcode rfl⟩

end Linked

/-! ## Instructions with an immediate after the address -/

/-- The operand is an address that is relative to a symbol. -/
def Operand.symbolAddr (operand : Operand) : Bool :=
  match operand.value with
  | .symbolDeref symbol | .addr { base := .symbol symbol, .. } => symbol.useKind ≠ .ABS64
  | _ => false

def Operand.isImmediate (operand : Operand) : Bool :=
  match operand.value with
  | .intImmediate _ | .symbol _ => true
  | _ => false

/-- An operation with an immediate on such an address. -/
def operationMisses : List Operand → Bool
  | [dst, src] => dst.symbolAddr && src.isImmediate
  | _ => false

/-- A shift by `-1` is the one that has no immediate. -/
def shiftMisses : List Operand → Bool
  | [dst, ⟨.intImmediate count, _⟩] => dst.symbolAddr && count.toBits ≠ -1
  | _ => false

/-- The use does not take the immediate into account. -/
def Instruction.missesImmediate (instr : Instruction) : Bool :=
  match instr.opcode with
  | .ADD | .SUB | .AND | .OR | .XOR | .CMP => operationMisses instr.operands
  | .SHL | .SHR | .SAR => shiftMisses instr.operands
  | _ => false

section Immediates

variable {frame : Frame} {opcode : Opcode} {operands : List Operand} {actions : List Action}

open Kind

variable {operand : Operand}

variable {r : RegOrAddr}

theorem symbolAddr_iff (h : operand.Is general ∨ operand.Is memory)
    (hroa : roa frame operand = some r) :
    operand.symbolAddr = true ↔ ∃ a, r = .addr (.symbol a) ∧ a.useKind ≠ .ABS64 := by
  obtain ⟨value, size⟩ := operand
  rcases h with ⟨n, hvalue, -⟩ | ⟨slot, hvalue⟩ | ⟨symbol, hvalue⟩ | ⟨a, hvalue, hvalid⟩
  · obtain rfl : value = .register n := hvalue
    obtain rfl := some.inj hroa
    exact iff_of_false nofun nofun
  · obtain rfl : value = .stackSlot slot := hvalue
    obtain rfl := some.inj hroa
    exact iff_of_false nofun nofun
  · obtain rfl : value = .symbolDeref symbol := hvalue
    obtain rfl := some.inj hroa
    simp [Operand.symbolAddr]
  · obtain rfl : value = .addr a := hvalue
    obtain ⟨base, offsetConst, offsetReg⟩ := a
    cases base with
    | register base =>
      obtain rfl := some.inj hroa
      exact iff_of_false nofun nofun
    | symbol symbol =>
      obtain ⟨rfl, rfl⟩ := hvalid
      obtain rfl := some.inj hroa
      simp [Operand.symbolAddr]

theorem isImmediate_eq_false (h : operand.Is general ∨ operand.Is memory) :
    operand.isImmediate = false := by
  obtain ⟨value, size⟩ := operand
  rcases h with ⟨n, hvalue, -⟩ | ⟨slot, hvalue⟩ | ⟨symbol, hvalue⟩ | ⟨a, hvalue, -⟩
  · obtain rfl : value = .register n := hvalue
    rfl
  · obtain rfl : value = .stackSlot slot := hvalue
    rfl
  · obtain rfl : value = .symbolDeref symbol := hvalue
    rfl
  · obtain rfl : value = .addr a := hvalue
    rfl

theorem isImmediate_eq_true (h : operand.Is immediate) : operand.isImmediate = true := by
  obtain ⟨value, size⟩ := operand
  rcases h with ⟨v, hvalue⟩ | ⟨v, hvalue⟩
  · obtain rfl : value = .intImmediate v := hvalue
    rfl
  · obtain rfl : value = .symbol v := hvalue
    rfl

theorem trailing_imm8 (legacy : List Byte) (size : ℕ) : trailing legacy size .imm8 = 1 := rfl

theorem trailing_immZ_pos (legacy : List Byte) (size : ℕ) : 0 < trailing legacy size .immZ := by
  simp only [trailing, Head.immLength]
  split_ifs <;> decide

variable {digit : RegCode} {op : Byte} {size : ℕ}

/-- With bytes after the address and none in the addend it is not accessed. -/
theorem Linked.accesses_iff_not_symbolAddr {dst : Operand} (hdst : dst.Is general ∨ dst.Is memory)
    (hroa : roa frame dst = some r) {legacy opcodeBytes imm : List Byte} {layout : Layout}
    {reg : RegCode} (h : Linked actions legacy size reg opcodeBytes digit r imm 0)
    (hopcode : ReadsOpcode opcodeBytes op layout) (hmodrm : layout.modrm = true)
    (hdigit : decide (EDI < reg) = decide (EDI < digit))
    (hpos : 0 < trailing legacy size layout.imm) : Accesses actions ↔ dst.symbolAddr = false := by
  rw [h.accesses_iff hopcode hmodrm hdigit, ← Bool.not_eq_true, symbolAddr_iff hdst hroa]
  constructor
  · rintro hall ⟨a, heq, hkind⟩
    have haddend := hall a heq hkind
    omega
  · intro hnot a heq hkind
    exact absurd ⟨a, heq, hkind⟩ hnot

end Immediates

end Banjo.Target.X8664.Encoder
