import Banjo.Target.X8664.RelativeUses

/-!
# What encoded instructions decode to

Each group of instructions builds its prefixes in its own way, and for each of them what is emitted
is of one of the shapes that decode to the operands of the instruction.
-/

open List
open Option (some.injEq bind_some some.inj map_some)

namespace Banjo.Target.X8664.Encoder

open Emit WriteBuffer Decoder
open Mcode (Opcode)
open X8664Register

/-! ## Forms of operands -/

theorem HasForm.cons_iff {kinds : List Kind} {forms : List (List Kind)} {operands : List Operand} :
    HasForm (kinds :: forms) operands ↔ List.Forall₂ Operand.Is operands kinds ∨
      HasForm forms operands := by
  simp [HasForm]

theorem not_hasForm_nil {operands : List Operand} : ¬HasForm [] operands := by
  simp [HasForm]

theorem forall₂_two {kind₁ kind₂ : Kind} {operands : List Operand} :
    List.Forall₂ Operand.Is operands [kind₁, kind₂] ↔
      ∃ dst src, operands = [dst, src] ∧ dst.Is kind₁ ∧ src.Is kind₂ := by
  constructor
  · intro h
    obtain ⟨dst, rest, hdst, hrest, rfl⟩ := forall₂_cons_right_iff.mp h
    obtain ⟨src, rest, hsrc, hnil, rfl⟩ := forall₂_cons_right_iff.mp hrest
    obtain rfl := forall₂_nil_right_iff.mp hnil
    exact ⟨dst, src, rfl, hdst, hsrc⟩
  · rintro ⟨dst, src, rfl, hdst, hsrc⟩
    exact .cons hdst (.cons hsrc .nil)

theorem forall₂_one {kind : Kind} {operands : List Operand} :
    List.Forall₂ Operand.Is operands [kind] ↔ ∃ operand, operands = [operand] ∧
      operand.Is kind := by
  constructor
  · intro h
    obtain ⟨operand, rest, hoperand, hrest, rfl⟩ := forall₂_cons_right_iff.mp h
    obtain rfl := forall₂_nil_right_iff.mp hrest
    exact ⟨operand, rfl, hoperand⟩
  · rintro ⟨operand, rfl, hoperand⟩
    exact .cons hoperand .nil

@[simp] theorem dstSrc_pair (opcode : Opcode) (dst src : Operand) :
    dstSrc ⟨opcode, [dst, src]⟩ = some (dst, src) := rfl

theorem shown_pair {frame : Frame} {dst src : Operand} {a b : Decoder.Operand}
    (hdst : operandOf frame dst.value = some a) (hsrc : operandOf frame src.value = some b) :
    shown frame [dst, src] = [a, b] := by
  simp [shown, hdst, hsrc]

theorem shown_first {frame : Frame} {dst src : Operand} {a : Decoder.Operand}
    (hdst : operandOf frame dst.value = some a) (hsrc : operandOf frame src.value = none) :
    shown frame [dst, src] = [a] := by
  simp [shown, hdst, hsrc]

/-! ## Opcodes for bytes and for larger operands -/

section Opcodes

open Slot

theorem SizedOpcode.of_layouts {op8 op32 : Byte} {slots : RegKind → List Slot}
    {small large : ImmKind}
    (h8 : IsOpcode op8 ∧ op8 ≠ 0x0F) (h32 : IsOpcode op32 ∧ op32 ≠ 0x0F)
    (hlayout8 : layout1 op8 = some { slots := slots .byte, imm := small })
    (hlayout32 : layout1 op32 = some { slots := slots .general, imm := large }) :
    SizedOpcode op8 op32 slots small large where
  byte := .one _ h8.1 h8.2 hlayout8
  general := .one _ h32.1 h32.2 hlayout32

/-- The opcodes of an operation are read with the layouts of its forms. -/
structure BasicInstrOpcodes.Readable (opcodes : BasicInstrOpcodes) : Prop where
  digit : ¬EDI < opcodes.digit
  store : SizedOpcode opcodes.rm8R8 opcodes.rm16R16 fun kind ↦ [rm kind, field kind]
  load : SizedOpcode opcodes.r8Rm8 opcodes.r16Rm16 fun kind ↦ [field kind, rm kind]
  short : SizedOpcode opcodes.rm8Imm8 opcodes.rm16Imm8 (fun kind ↦ [rm kind]) .imm8 .imm8
  long : ReadsOpcode [opcodes.rm16Imm16] opcodes.rm16Imm16 { slots := [rm .general], imm := .immZ }
  rax : ∀ size, ∃ imm, ReadsOpcode [if size = 1 then opcodes.raxImm8 else opcodes.raxImm16]
    (if size = 1 then opcodes.raxImm8 else opcodes.raxImm16)
    { slots := [accumulator], modrm := false, imm }

/-- The opcodes of the operation with these numbers. -/
def basicInstrOpcodes (digit : RegCode) (form : Byte) : BasicInstrOpcodes :=
  ⟨digit, form + 4, form + 5, 0x80, 0x81, 0x83, form, form + 1, form + 2, form + 3⟩

/-- The numbers of the operations. -/
def basicInstrs : List (RegCode × Byte) :=
  [(0, 0x00), (5, 0x28), (4, 0x20), (1, 0x08), (6, 0x30), (7, 0x38)]

theorem basicInstrOpcodes_readable {digit : RegCode} {form : Byte}
    (h : (digit, form) ∈ basicInstrs) : (basicInstrOpcodes digit form).Readable := by
  simp only [basicInstrs, mem_cons, Prod.mk.injEq, not_mem_nil, or_false] at h
  rcases h with ⟨rfl, rfl⟩ | ⟨rfl, rfl⟩ | ⟨rfl, rfl⟩ | ⟨rfl, rfl⟩ | ⟨rfl, rfl⟩ | ⟨rfl, rfl⟩ <;>
    refine ⟨by decide, .of_layouts (by decide) (by decide) rfl rfl,
      .of_layouts (by decide) (by decide) rfl rfl, .of_layouts (by decide) (by decide) rfl rfl,
      .one _ (by decide) (by decide) rfl, fun size ↦ ?_⟩ <;> split_ifs
  all_goals exact ⟨_, .one _ (by decide) (by decide) rfl⟩

end Opcodes

/-! ## Instructions -/

section Instructions

variable {frame : Frame} {opcode : Opcode} {operands : List Operand} {actions : List Action}

open Kind

/-- The operation on registers and addresses whose opcodes are these. -/
theorem encoded_store {op8 op32 : Byte}
    (hopcode : SizedOpcode op8 op32 fun kind ↦ [.rm kind, .field kind]) (size : ℕ) (reg : RegCode)
    (roa : RegOrAddr) :
    Encoded (emit16BitPrefixIfRequired size ++ emitRexRroa size reg roa ++
      emitOpcode (if size = 1 then op8 else op32) ++ emitModrmSib reg roa)
      [roa.operand .general, .reg (.general reg)] := by
  have hform := form_sized size reg reg roa (if size = 1 then op8 else op32) []
  rw [append_nil] at hform
  exact ⟨hform.reads_mr hopcode, accesses_sized hopcode size reg reg roa rfl⟩

theorem encoded_load {op8 op32 : Byte}
    (hopcode : SizedOpcode op8 op32 fun kind ↦ [.field kind, .rm kind]) (size : ℕ) (reg : RegCode)
    (roa : RegOrAddr) :
    Encoded (emit16BitPrefixIfRequired size ++ emitRexRroa size reg roa ++
      emitOpcode (if size = 1 then op8 else op32) ++ emitModrmSib reg roa)
      [.reg (.general reg), roa.operand .general] := by
  have hform := form_sized size reg reg roa (if size = 1 then op8 else op32) []
  rw [append_nil] at hform
  exact ⟨hform.reads_rm hopcode, accesses_sized hopcode size reg reg roa rfl⟩

theorem encodeBasicInstr_spec {opcodes : BasicInstrOpcodes} (hopcodes : opcodes.Readable)
    (hform : HasForm [[general, immediate], [memory, immediate], [general, general],
      [memory, general], [general, memory]] operands)
    (h : encodeBasicInstr frame opcodes ⟨opcode, operands⟩ = some actions) :
    Reads actions (shown frame operands) ∧
      (Accesses actions ↔ operationMisses operands = false) := by
  simp only [HasForm.cons_iff, forall₂_two, not_hasForm_nil, or_false] at hform
  have hdigit : decide (EDI < (0 : RegCode)) = decide (EDI < opcodes.digit) := by
    rw [decide_eq_false hopcodes.digit]
    rfl
  have himm : ∀ {dst src : Operand}, dst.Is general ∨ dst.Is memory → src.Is immediate →
      encodeBasicInstr frame opcodes ⟨opcode, [dst, src]⟩ = some actions →
      Reads actions (shown frame [dst, src]) ∧
        (Accesses actions ↔ (dst.symbolAddr && src.isImmediate) = false) := by
    intro dst src hdst hsrc h
    obtain ⟨r, hroa, hshown⟩ := Operand.Is.roa_general frame hdst
    obtain ⟨v, -, himm, -, hnone⟩ := hsrc.spec_immediate frame
    rw [shown_first hshown hnone, isImmediate_eq_true hsrc, Bool.and_true]
    simp only [encodeBasicInstr, dstSrc_pair, Option.bind_eq_bind, bind_some, hroa, himm] at h
    by_cases hrax : (isRax dst ∧ ¬(fitsInImm8 v.value ∧ 1 < dst.size) : Prop)
    · rw [if_pos hrax, some.injEq] at h
      have hvalue : dst.value = .register RAX := of_decide_eq_true hrax.1
      rw [hvalue] at hshown
      have hread : Decoder.Operand.reg (.general 0) = r.operand .general := some.inj hshown
      obtain ⟨kind, hreads⟩ := hopcodes.rax dst.size
      rw [← h, ← hread]
      refine ⟨reads_opcode _ _ (sizePrefix_mem' dst.size) (bytes_sized_opcode dst.size 0 0 _ _)
        hreads, iff_of_true (accesses_of_uses_nil (by simp)) ?_⟩
      rw [Operand.symbolAddr, hvalue]
    · rw [if_neg hrax] at h
      by_cases hshort : fitsInImm8 v.value
      · rw [if_pos hshort, some.injEq] at h
        have hlinked := linked_sized dst.size 0 opcodes.digit r
          (if dst.size = 1 then opcodes.rm8Imm8 else opcodes.rm16Imm8) _ fun offset ↦
            uses_writeI8 offset v.value
        rw [← h]
        refine ⟨hlinked.form.reads_m hopcodes.digit hopcodes.short,
          hlinked.accesses_iff_not_symbolAddr hdst hroa (hopcodes.short.reads dst.size) rfl hdigit
            ?_⟩
        rw [ite_self, trailing_imm8]
        decide
      · rw [if_neg hshort, some.injEq] at h
        have hlinked : ∀ imm, (∀ offset, uses offset imm = []) → _ :=
          linked_sized dst.size 0 opcodes.digit r opcodes.rm16Imm16
        rw [← h]
        refine ⟨(form_sized dst.size 0 opcodes.digit r _ _).reads_general hopcodes.digit
          hopcodes.long, (hlinked _ fun offset ↦ ?_).accesses_iff_not_symbolAddr hdst hroa
            hopcodes.long rfl hdigit (trailing_immZ_pos _ _)⟩
        split_ifs <;> simp
  have hreg : ∀ {dst src : Operand}, src.Is general ∨ src.Is memory →
      Encoded actions (shown frame [dst, src]) → Reads actions (shown frame [dst, src]) ∧
        (Accesses actions ↔ (dst.symbolAddr && src.isImmediate) = false) := by
    intro dst src hsrc h
    rw [isImmediate_eq_false hsrc, Bool.and_false]
    exact ⟨h.reads, iff_of_true h.accesses rfl⟩
  have hstore : ∀ {dst src : Operand}, dst.Is general ∨ dst.Is memory → src.Is general →
      encodeBasicInstr frame opcodes ⟨opcode, [dst, src]⟩ = some actions →
      Encoded actions (shown frame [dst, src]) := by
    intro dst src hdst hsrc h
    obtain ⟨r, hroa, hshown⟩ := Operand.Is.roa_general frame hdst
    obtain ⟨n, hreg, hnone, -, hsource, -⟩ := hsrc.spec_general frame
    rw [shown_pair hshown hsource]
    simp only [encodeBasicInstr, dstSrc_pair, Option.bind_eq_bind, bind_some, hroa, hnone,
      hreg, some.injEq] at h
    rw [← h]
    exact encoded_store hopcodes.store dst.size n r
  rcases hform with ⟨dst, src, rfl, hdst, hsrc⟩ | ⟨dst, src, rfl, hdst, hsrc⟩ |
    ⟨dst, src, rfl, hdst, hsrc⟩ | ⟨dst, src, rfl, hdst, hsrc⟩ | ⟨dst, src, rfl, hdst, hsrc⟩
  · exact himm (Or.inl hdst) hsrc h
  · exact himm (Or.inr hdst) hsrc h
  · exact hreg (Or.inl hsrc) (hstore (Or.inl hdst) hsrc h)
  · exact hreg (Or.inl hsrc) (hstore (Or.inr hdst) hsrc h)
  · refine hreg (Or.inr hsrc) ?_
    obtain ⟨n, hreg, -, -, hshown, -⟩ := hdst.spec_general frame
    obtain ⟨a, hnone, himm, haddr, hsource, -⟩ := hsrc.spec_memory frame
    rw [shown_pair hshown (hsource .general)]
    simp only [encodeBasicInstr, dstSrc_pair, Option.bind_eq_bind, bind_some, roa, hreg,
      hnone, himm, haddr, Option.map_none, map_some, some.injEq,
      HOrElse.hOrElse, OrElse.orElse, Option.orElse] at h
    rw [← h]
    exact encoded_load hopcodes.load dst.size n (.addr a)

variable {size : ℕ}

variable {n : RegCode} {v : Immediate}

theorem encoded_emitMovRI
    (h : emitMovRI n v size = some actions) : Encoded actions [.reg (.general n)] := by
  have hreads : ∀ (size : ℕ) (imm : List Action),
      Reads (emit16BitPrefixIfRequired size ++ emitRexO size n ++
        emitCombinedOpcode (if size = 1 then 0xB0 else 0xB8) n ++ imm) [.reg (.general n)] := by
    intro size imm
    obtain ⟨-, hB0, hB8⟩ := readsOpcode_combined n
    have hregister : register (rexOfOpcode size n) n (sizedKind size) = .general n := by
      refine register_sized fun hsize hnone ↦ ?_
      rw [rexOfOpcode] at hnone
      split_ifs at hnone with hneeded
      simp only [hsize, true_and, not_or, Bool.not_eq_true, decide_eq_false_iff_not] at hneeded
      exact ⟨hneeded.1, hneeded.2.2⟩
    have hbytes : bytes (emit16BitPrefixIfRequired size ++ emitRexO size n ++
        emitCombinedOpcode (if size = 1 then 0xB0 else 0xB8) n ++ imm)
          = sizePrefix size ++ (rexBytes (rexOfOpcode size n) ++
            ([(if size = 1 then 0xB0 else 0xB8) ||| low n] ++ bytes imm)) := by
      simp
    by_cases hsize : size = 1
    · rw [sizedKind, if_pos hsize] at hregister
      rw [if_pos hsize] at hbytes ⊢
      have hread := reads_opcode _ _ (sizePrefix_mem' size) hbytes hB0
      rw [map_singleton, slotOperand, rexOfOpcode_b, extended_combined n _ (by decide),
        hregister] at hread
      exact hread
    · rw [sizedKind, if_neg hsize] at hregister
      rw [if_neg hsize] at hbytes ⊢
      have hread := reads_opcode _ _ (sizePrefix_mem' size) hbytes hB8
      rw [map_singleton, slotOperand, rexOfOpcode_b, extended_combined n _ (by decide),
        hregister] at hread
      exact hread
  rw [emitMovRI] at h
  generalize (if size = 8 ∧ fitsIn32Bits v then 4 else size) = immSize at h
  cases hsymbol : v.symbolIndex with
  | none =>
    simp only [hsymbol] at h
    by_cases hsmall : immSize = 1 ∨ immSize = 2 ∨ immSize = 4
    · rw [if_pos hsmall, some.injEq] at h
      rw [← h]
      exact .of_uses_nil (hreads immSize _) (by simp)
    · rw [if_neg hsmall] at h
      by_cases hlarge : immSize = 8
      · rw [if_pos hlarge, some.injEq] at h
        rw [← h]
        exact .of_uses_nil (hreads immSize _) (by simp)
      · rw [if_neg hlarge] at h
        cases h
  | some symbol =>
    simp only [hsymbol, some.injEq] at h
    have huse : ∀ offset, uses offset [.use symbol .ABS64 0 true] = [] := fun _ ↦ rfl
    rw [← h]
    exact .of_uses_nil (hreads immSize _) (by simp [huse])

theorem movOpcodes : SizedOpcode 0x88 0x89 (fun kind ↦ [.rm kind, .field kind]) ∧
    SizedOpcode 0x8A 0x8B (fun kind ↦ [.field kind, .rm kind]) ∧
    SizedOpcode 0xC6 0xC7 (fun kind ↦ [.rm kind]) .imm8 .immZ :=
  ⟨.of_layouts (by decide) (by decide) rfl rfl, .of_layouts (by decide) (by decide) rfl rfl,
    .of_layouts (by decide) (by decide) rfl rfl⟩

theorem trailing_mov (h : size ∈ [1, 2, 4, 8]) :
    trailing (sizePrefix size) size (if size = 1 then .imm8 else .immZ)
      = if size = 8 then 4 else size := by
  simp only [mem_cons, not_mem_nil, or_false] at h
  rcases h with rfl | rfl | rfl | rfl <;> rfl

theorem emitMovMI_spec {a : Address} (h : emitMovMI a v size = some actions) :
    Reads actions [(RegOrAddr.addr a).operand .general] ∧
      (size ∈ [1, 2, 4, 8] → Accesses actions) := by
  rw [emitMovMI] at h
  by_cases hsymbol : v.symbolIndex.isSome
  · rw [if_pos hsymbol] at h
    cases h
  rw [if_neg hsymbol, some.injEq] at h
  rw [← h]
  have hlinked : ∀ immSize : ℕ, Linked (emit16BitPrefixIfRequired size ++ emitRexRM size 0 a ++
      emitOpcode (if size = 1 then 0xC6 else 0xC7) ++ emitMemDigit a 0 immSize ++
      writeImm immSize v.value) (sizePrefix size) size 0 [if size = 1 then 0xC6 else 0xC7] 0
      (.addr a) (bytes (writeImm immSize v.value)) (-immSize) := fun immSize ↦
    { form :=
        { bytes_eq := by simp
          legacy_mem := sizePrefix_mem size }
      uses_eq := by simp [Nat.add_assoc] }
  refine ⟨(hlinked _).form.reads_m (by decide) movOpcodes.2.2, fun hsize ↦ ?_⟩
  refine ((hlinked _).accesses_iff (movOpcodes.2.2.reads size) rfl rfl).mpr fun _ _ _ ↦ ?_
  rw [trailing_mov hsize]

theorem encodeMov_spec (hform : HasForm [[general, general], [general, immediate],
      [general, memory], [memory, general], [memory, immediate]] operands)
    (h : encodeMov frame ⟨opcode, operands⟩ = some actions) :
    Reads actions (shown frame operands) ∧
      ((∀ dst, operands[0]? = some dst → dst.size ∈ [1, 2, 4, 8]) → Accesses actions) := by
  have hspec : ∀ {operands' : List Decoder.Operand}, Encoded actions operands' →
      Reads actions operands' ∧
        ((∀ dst, operands[0]? = some dst → dst.size ∈ [1, 2, 4, 8]) → Accesses actions) :=
    fun h ↦ ⟨h.reads, fun _ ↦ h.accesses⟩
  simp only [HasForm.cons_iff, forall₂_two, not_hasForm_nil, or_false] at hform
  obtain ⟨hstore, hload, -⟩ := movOpcodes
  rcases hform with ⟨dst, src, rfl, hdst, hsrc⟩ | ⟨dst, src, rfl, hdst, hsrc⟩ |
    ⟨dst, src, rfl, hdst, hsrc⟩ | ⟨dst, src, rfl, hdst, hsrc⟩ | ⟨dst, src, rfl, hdst, hsrc⟩
  · obtain ⟨n, hreg, -, -, hshown, -⟩ := hdst.spec_general frame
    obtain ⟨m, hreg', -, -, hshown', -⟩ := hsrc.spec_general frame
    simp only [encodeMov, dstSrc_pair, Option.bind_eq_bind, bind_some, hreg, hreg', some.injEq] at h
    rw [shown_pair hshown hshown']
    exact hspec (h ▸ encoded_store hstore dst.size m (.reg n))
  · obtain ⟨n, hreg, -, -, hshown, -⟩ := hdst.spec_general frame
    obtain ⟨v, hnone, himm, -, hshown'⟩ := hsrc.spec_immediate frame
    simp only [encodeMov, dstSrc_pair, Option.bind_eq_bind, bind_some, hreg, hnone, himm] at h
    rw [shown_first hshown hshown']
    exact hspec (encoded_emitMovRI h)
  · obtain ⟨n, hreg, -, -, hshown, -⟩ := hdst.spec_general frame
    obtain ⟨a, hnone, himm, haddr, hshown', -⟩ := hsrc.spec_memory frame
    simp only [encodeMov, dstSrc_pair, Option.bind_eq_bind, bind_some, hreg, hnone, himm,
      haddr, some.injEq] at h
    rw [shown_pair hshown (hshown' .general)]
    exact hspec (h ▸ encoded_load hload dst.size n (.addr a))
  · obtain ⟨a, hnone, -, haddr, hshown, -⟩ := hdst.spec_memory frame
    obtain ⟨n, hreg, -, -, hshown', -⟩ := hsrc.spec_general frame
    simp only [encodeMov, dstSrc_pair, Option.bind_eq_bind, bind_some, hnone, haddr, hreg,
      some.injEq] at h
    rw [shown_pair (hshown .general) hshown']
    exact hspec (h ▸ encoded_store hstore dst.size n (.addr a))
  · obtain ⟨a, hnone, -, haddr, hshown, -⟩ := hdst.spec_memory frame
    obtain ⟨v, hnone', himm, -, hshown'⟩ := hsrc.spec_immediate frame
    simp only [encodeMov, dstSrc_pair, Option.bind_eq_bind, bind_some, hnone, haddr,
      hnone', himm] at h
    rw [shown_first (hshown .general) hshown']
    exact (emitMovMI_spec h).imp_right fun haccesses hsize ↦ haccesses (hsize dst rfl)

variable {op : Byte}

theorem encoded_encodePushPop (hop : op = 0x50 ∨ op = 0x58) (hform : HasForm [[general]] operands)
    (h : encodePushPop op ⟨opcode, operands⟩ = some actions) :
    Encoded actions (shown frame operands) := by
  simp only [HasForm.cons_iff, forall₂_one, not_hasForm_nil, or_false] at hform
  obtain ⟨operand, rfl, hoperand⟩ := hform
  obtain ⟨n, hreg, -, -, hshown, -⟩ := hoperand.spec_general frame
  have hlist : shown frame [operand] = [.reg (.general n)] := by simp [shown, hshown]
  simp only [encodePushPop, getElem?_cons_zero, Option.bind_eq_bind, bind_some, hreg,
    some.injEq] at h
  obtain ⟨⟨h50, h58⟩, -⟩ := readsOpcode_combined n
  have hopcode : ReadsOpcode [op ||| low n] (op ||| low n)
      { slots := [.combined .general], modrm := false } := by
    rcases hop with rfl | rfl
    · exact h50
    · exact h58
  let rex : Option Rex := if EDI < n then some ⟨false, false, false, true⟩ else none
  have hbytes : bytes actions = [] ++ (rexBytes rex ++ ([op ||| low n] ++ [])) := by
    rw [← h]
    simp only [rex, bytes_append, bytes_emitCombinedOpcode]
    by_cases hext : EDI < n
    · simp [hext, rexBytes]
    · simp [hext, rexBytes]
  have hextension : (rex.getD {}).b = decide (EDI < n) := by
    simp only [rex]
    by_cases hext : EDI < n
    · simp [hext]
    · simp [hext]
  have hread := reads_opcode _ _ (Or.inl rfl) hbytes hopcode
  rw [map_singleton, slotOperand, hextension, extended_combined n op (by
    rcases hop with rfl | rfl <;> decide)] at hread
  rw [hlist]
  refine .of_uses_nil hread ?_
  rw [← h]
  split_ifs <;> simp

/-- The kind of the operands that a layout has such a register for. -/
def regOperandKind : RegKind → Kind
  | .sse => .sse
  | .byte | .general => .general

variable {operand : Operand}

theorem spec_register (frame : Frame) (kind : RegKind) (hkind : kind ≠ .byte)
    (h : operand.Is (regOperandKind kind)) :
    ∃ n, reg operand = some n ∧
      operandOf frame operand.value = some ((RegOrAddr.reg n).operand kind) := by
  cases kind with
  | byte => exact absurd rfl hkind
  | general =>
    obtain ⟨n, hreg, -, -, hshown, -⟩ := Operand.Is.spec_general frame h
    exact ⟨n, hreg, hshown⟩
  | sse =>
    obtain ⟨n, hreg, -, -, hshown, -⟩ := Operand.Is.spec_sse frame h
    exact ⟨n, hreg, hshown⟩

theorem spec_roa (frame : Frame) (kind : RegKind) (hkind : kind ≠ .byte)
    (h : operand.Is (regOperandKind kind) ∨ operand.Is memory) :
    ∃ r, roa frame operand = some r ∧ operandOf frame operand.value = some (r.operand kind) := by
  cases kind with
  | byte => exact absurd rfl hkind
  | general => exact Operand.Is.roa_general frame h
  | sse => exact Operand.Is.roa_sse frame h

/-- A register, and a register or an address. -/
theorem spec_pair (frame : Frame) (kind kind' : RegKind) (hkind : kind ≠ .byte)
    (hkind' : kind' ≠ .byte)
    (hform : HasForm [[regOperandKind kind, regOperandKind kind'], [regOperandKind kind, memory]]
      operands) :
    ∃ dst src n r, operands = [dst, src] ∧ reg dst = some n ∧ roa frame src = some r ∧
      shown frame operands = [(RegOrAddr.reg n).operand kind, r.operand kind'] := by
  simp only [HasForm.cons_iff, forall₂_two, not_hasForm_nil, or_false] at hform
  obtain ⟨dst, src, rfl, hdst, hsrc⟩ : ∃ dst src, operands = [dst, src] ∧
      dst.Is (regOperandKind kind) ∧ (src.Is (regOperandKind kind') ∨ src.Is memory) := by
    rcases hform with ⟨dst, src, heq, hdst, hsrc⟩ | ⟨dst, src, heq, hdst, hsrc⟩
    · exact ⟨dst, src, heq, hdst, Or.inl hsrc⟩
    · exact ⟨dst, src, heq, hdst, Or.inr hsrc⟩
  obtain ⟨n, hreg, hshown⟩ := spec_register frame kind hkind hdst
  obtain ⟨r, hroa, hshown'⟩ := spec_roa frame kind' hkind' hsrc
  exact ⟨dst, src, n, r, rfl, hreg, hroa, shown_pair hshown hshown'⟩

variable {first : Byte}

theorem encoded_encodeSseCvt (kind kind' : RegKind) (hkind : kind ≠ .byte) (hkind' : kind' ≠ .byte)
    (hfirst : first = 0x66 ∨ first = 0xF2 ∨ first = 0xF3)
    (hop : layout2 op = some { slots := [.field kind, .rm kind'] })
    (hform : HasForm [[regOperandKind kind, regOperandKind kind'], [regOperandKind kind, memory]]
      operands)
    (h : encodeSseCvt frame first op size ⟨opcode, operands⟩ = some actions) :
    Encoded actions (shown frame operands) := by
  obtain ⟨dst, src, n, r, rfl, hreg, hroa, hshown⟩ := spec_pair frame kind kind' hkind hkind' hform
  simp only [encodeSseCvt, dstSrc_pair, Option.bind_eq_bind, bind_some, hreg, hroa, some.injEq] at h
  rw [hshown, ← h]
  exact (linked_sse size n r op hfirst).plain kind kind' hkind hkind' (.two op hop)

theorem encoded_encodeSseOp (hfirst : first = 0x66 ∨ first = 0xF2 ∨ first = 0xF3)
    (hop : layout2 op = some { slots := [.field .sse, .rm .sse] })
    (hform : HasForm [[sse, sse], [sse, memory]] operands)
    (h : encodeSseOp frame first op ⟨opcode, operands⟩ = some actions) :
    Encoded actions (shown frame operands) :=
  encoded_encodeSseCvt .sse .sse (by decide) (by decide) hfirst hop hform h

theorem encoded_encodeCmovcc (hop : layout2 op = some { slots := [.field .general, .rm .general] })
    (hform : HasForm [[general, general], [general, memory]] operands)
    (h : encodeCmovcc frame op ⟨opcode, operands⟩ = some actions) :
    Encoded actions (shown frame operands) := by
  obtain ⟨dst, src, n, r, rfl, hreg, hroa, hshown⟩ :=
    spec_pair frame .general .general (by decide) (by decide) hform
  simp only [encodeCmovcc, dstSrc_pair, Option.bind_eq_bind, bind_some, hreg, hroa] at h
  by_cases hsize : dst.size = 1
  · rw [if_pos hsize] at h
    cases h
  · rw [if_neg hsize, some.injEq] at h
    rw [hshown, ← h]
    exact (linked_sized_two dst.size n n r op).plain .general .general (by decide) (by decide)
      (.two _ hop)

theorem encoded_encodeLea (hform : HasForm [[general, memory]] operands)
    (h : encodeLea frame ⟨opcode, operands⟩ = some actions) :
    Encoded actions (shown frame operands) := by
  simp only [HasForm.cons_iff, forall₂_two, not_hasForm_nil, or_false] at hform
  obtain ⟨dst, src, rfl, hdst, hsrc⟩ := hform
  obtain ⟨n, hreg, -, -, hshown, -⟩ := hdst.spec_general frame
  obtain ⟨a, -, -, haddr, hshown', -⟩ := hsrc.spec_memory frame
  simp only [encodeLea, dstSrc_pair, Option.bind_eq_bind, bind_some, hreg, haddr, some.injEq] at h
  have hlinked := linked_sized dst.size n n (.addr a) 0x8D [] fun _ ↦ rfl
  rw [append_nil] at hlinked
  rw [shown_pair hshown (hshown' .general), ← h]
  exact hlinked.plain .general .general (by decide) (by decide)
    (.one _ (by decide) (by decide) rfl)

theorem encoded_encodeImul
    (hform : HasForm [[general, general], [general, memory], [general, immediate]] operands)
    (h : encodeImul frame ⟨.IMUL, operands⟩ = some actions) :
    Encoded actions (operandsOf frame ⟨.IMUL, operands⟩) := by
  simp only [HasForm.cons_iff, forall₂_two, not_hasForm_nil, or_false] at hform
  have hproduct : layout2 0xAF = some { slots := [.field .general, .rm .general] } := rfl
  rcases hform with ⟨dst, src, rfl, hdst, hsrc⟩ | ⟨dst, src, rfl, hdst, hsrc⟩ |
    ⟨dst, src, rfl, hdst, hsrc⟩
  · obtain ⟨n, hreg, -, -, hshown, -⟩ := hdst.spec_general frame
    obtain ⟨m, hreg', -, -, hshown', -⟩ := hsrc.spec_general frame
    have hoperands : operandsOf frame ⟨.IMUL, [dst, src]⟩ = shown frame [dst, src] := by
      obtain ⟨value, size⟩ := src
      obtain ⟨r, hvalue, -⟩ := hsrc
      obtain rfl : value = .register r := hvalue
      rfl
    simp only [encodeImul, dstSrc_pair, Option.bind_eq_bind, bind_some, hreg, hreg',
      some.injEq] at h
    rw [hoperands, shown_pair hshown hshown', ← h]
    exact (linked_sized_two dst.size n n (.reg m) 0xAF).plain .general .general (by decide)
      (by decide) (.two _ hproduct)
  · obtain ⟨n, hreg, -, -, hshown, -⟩ := hdst.spec_general frame
    obtain ⟨a, hnone, -, haddr, hshown', -⟩ := hsrc.spec_memory frame
    have hoperands : operandsOf frame ⟨.IMUL, [dst, src]⟩ = shown frame [dst, src] := by
      obtain ⟨value, size⟩ := src
      rcases hsrc with ⟨slot, hvalue⟩ | ⟨symbol, hvalue⟩ | ⟨a, hvalue, -⟩
      · obtain rfl : value = .stackSlot slot := hvalue
        rfl
      · obtain rfl : value = .symbolDeref symbol := hvalue
        rfl
      · obtain rfl : value = .addr a := hvalue
        rfl
    simp only [encodeImul, dstSrc_pair, Option.bind_eq_bind, bind_some, hreg, hnone, haddr,
      some.injEq] at h
    rw [hoperands, shown_pair hshown (hshown' .general), ← h]
    exact (linked_sized_two dst.size n n (.addr a) 0xAF).plain .general .general (by decide)
      (by decide) (.two _ hproduct)
  · obtain ⟨n, hreg, -, -, hshown, -⟩ := hdst.spec_general frame
    obtain ⟨v, hnone, himm, haddr, -⟩ := hsrc.spec_immediate frame
    have hoperands : operandsOf frame ⟨.IMUL, [dst, src]⟩ = shown frame [dst, dst] := by
      obtain ⟨value, size⟩ := src
      rcases hsrc with ⟨v, hvalue⟩ | ⟨v, hvalue⟩
      · obtain rfl : value = .intImmediate v := hvalue
        rfl
      · obtain rfl : value = .symbol v := hvalue
        rfl
    simp only [encodeImul, dstSrc_pair, Option.bind_eq_bind, bind_some, hreg, hnone, haddr,
      himm, emitImulRRI] at h
    rw [hoperands, shown_pair hshown hshown]
    by_cases hsize : (dst.size = 4 ∨ dst.size = 8) ∧ v.symbolIndex = none
    · rw [if_pos hsize, some.injEq] at h
      rw [← h]
      exact .of_uses_nil ((form_sized dst.size n n (.reg n) 0x69 _).reads_plain .general .general
        (by decide) (by decide) (.one _ (by decide) (by decide) rfl)) (by simp)
    · rw [if_neg hsize] at h
      cases h

theorem encoded_encodeDivision (digit : RegCode) (hdigit : ¬EDI < digit)
    (hform : HasForm [[general], [memory]] operands)
    (h : encodeDivision frame digit ⟨opcode, operands⟩ = some actions) :
    Encoded actions (shown frame operands) := by
  simp only [HasForm.cons_iff, forall₂_one, not_hasForm_nil, or_false] at hform
  obtain ⟨operand, rfl, hoperand⟩ : ∃ operand, operands = [operand] ∧
      (operand.Is general ∨ operand.Is memory) := by
    rcases hform with ⟨operand, heq, hoperand⟩ | ⟨operand, heq, hoperand⟩
    · exact ⟨operand, heq, Or.inl hoperand⟩
    · exact ⟨operand, heq, Or.inr hoperand⟩
  obtain ⟨r, hroa, hshown⟩ := Operand.Is.roa_general frame hoperand
  have hlist : shown frame [operand] = [r.operand .general] := by simp [shown, hshown]
  simp only [encodeDivision, getElem?_cons_zero, Option.bind_eq_bind, bind_some, hroa,
    some.injEq] at h
  have hopcode : SizedOpcode 0xF6 0xF7 fun kind ↦ [.rm kind] :=
    .of_layouts (by decide) (by decide) rfl rfl
  have hread := form_sized operand.size 0 digit r (if operand.size = 1 then 0xF6 else 0xF7) []
  rw [append_nil] at hread
  rw [hlist, ← h]
  refine ⟨hread.reads_m hdigit hopcode, accesses_sized hopcode operand.size 0 digit r ?_⟩
  rw [decide_eq_false hdigit]
  rfl

/-- A shift is by `CL`, by one, or by what is in the byte behind the address. -/
theorem encodeShift_cases {digit : RegCode}
    (hform : HasForm [[general, count], [memory, count], [general, immediate],
      [memory, immediate]] operands)
    (h : encodeShift frame digit ⟨opcode, operands⟩ = some actions) :
    ∃ dst src r, operands = [dst, src] ∧ (dst.Is general ∨ dst.Is memory) ∧
      roa frame dst = some r ∧ operandOf frame dst.value = some (r.operand .general) ∧
      ((src.value = .register RCX ∧ emit16BitPrefixIfRequired dst.size ++
          emitRexRroa dst.size 0 r ++ emitOpcode (if dst.size = 1 then 0xD2 else 0xD3) ++
          emitModrmSib digit r = actions) ∨
        ∃ v, src.value = .intImmediate v ∧ ((v.toBits = -1 ∧ emit16BitPrefixIfRequired dst.size ++
          emitRexRroa dst.size 0 r ++ emitOpcode (if dst.size = 1 then 0xD0 else 0xD1) ++
          emitModrmSib digit r = actions) ∨
          (v.toBits ≠ -1 ∧ emit16BitPrefixIfRequired dst.size ++
            emitRexRroa dst.size 0 r ++ emitOpcode (if dst.size = 1 then 0xC0 else 0xC1) ++
            emitModrmSib digit r ++ writeI8 v.toBits = actions))) := by
  simp only [HasForm.cons_iff, forall₂_two, not_hasForm_nil, or_false] at hform
  obtain ⟨dst, src, rfl, hdst, hsrc⟩ : ∃ dst src, operands = [dst, src] ∧
      (dst.Is general ∨ dst.Is memory) ∧ (src.Is count ∨ src.Is immediate) := by
    rcases hform with ⟨dst, src, heq, hdst, hsrc⟩ | ⟨dst, src, heq, hdst, hsrc⟩ |
      ⟨dst, src, heq, hdst, hsrc⟩ | ⟨dst, src, heq, hdst, hsrc⟩
    · exact ⟨dst, src, heq, Or.inl hdst, Or.inl hsrc⟩
    · exact ⟨dst, src, heq, Or.inr hdst, Or.inl hsrc⟩
    · exact ⟨dst, src, heq, Or.inl hdst, Or.inr hsrc⟩
    · exact ⟨dst, src, heq, Or.inr hdst, Or.inr hsrc⟩
  obtain ⟨r, hroa, hshown⟩ := Operand.Is.roa_general frame hdst
  refine ⟨dst, src, r, rfl, hdst, hroa, hshown, ?_⟩
  simp only [encodeShift, dstSrc_pair, Option.bind_eq_bind, bind_some, hroa] at h
  obtain ⟨value, size⟩ := src
  rcases hsrc with hsrc | ⟨v, hvalue⟩ | ⟨symbol, hvalue⟩
  · obtain rfl : value = .register RCX := hsrc
    exact Or.inl ⟨rfl, some.inj h⟩
  · obtain rfl : value = .intImmediate v := hvalue
    refine Or.inr ⟨v, rfl, ?_⟩
    by_cases hone : v.toBits = -1
    · exact Or.inl ⟨hone, some.inj ((if_pos hone).symm.trans h)⟩
    · exact Or.inr ⟨hone, some.inj ((if_neg hone).symm.trans h)⟩
  · obtain rfl : value = .symbol symbol := hvalue
    cases h

theorem encodeShift_spec (digit : RegCode) (hdigit : ¬EDI < digit)
    (hform : HasForm [[general, count], [memory, count], [general, immediate],
      [memory, immediate]] operands)
    (h : encodeShift frame digit ⟨opcode, operands⟩ = some actions) :
    Reads actions (shown frame operands) ∧ (Accesses actions ↔ shiftMisses operands = false) := by
  have hzero : decide (EDI < (0 : RegCode)) = decide (EDI < digit) := by
    rw [decide_eq_false hdigit]
    rfl
  obtain ⟨dst, ⟨value, size⟩, r, rfl, hdst, hroa, hshown, hcases⟩ := encodeShift_cases hform h
  rcases hcases with ⟨hcount, rfl⟩ | ⟨v, hvalue, ⟨hone, rfl⟩ | ⟨hone, rfl⟩⟩
  · obtain rfl : value = .register RCX := hcount
    have hopcode : SizedOpcode 0xD2 0xD3 fun kind ↦ [.rm kind, .count] :=
      .of_layouts (by decide) (by decide) rfl rfl
    have hread := form_sized dst.size 0 digit r (if dst.size = 1 then 0xD2 else 0xD3) []
    rw [append_nil] at hread
    rw [shown_pair hshown (b := .reg (.general 1)) rfl]
    exact ⟨hread.reads_count hdigit hopcode,
      iff_of_true (accesses_sized hopcode dst.size 0 digit r hzero) rfl⟩
  · obtain rfl : value = .intImmediate v := hvalue
    have hopcode : SizedOpcode 0xD0 0xD1 fun kind ↦ [.rm kind] :=
      .of_layouts (by decide) (by decide) rfl rfl
    have hread := form_sized dst.size 0 digit r (if dst.size = 1 then 0xD0 else 0xD1) []
    rw [append_nil] at hread
    rw [shown_first hshown rfl]
    refine ⟨hread.reads_m hdigit hopcode,
      iff_of_true (accesses_sized hopcode dst.size 0 digit r hzero) ?_⟩
    simp [shiftMisses, hone]
  · obtain rfl : value = .intImmediate v := hvalue
    have hopcode : SizedOpcode 0xC0 0xC1 (fun kind ↦ [.rm kind]) .imm8 .imm8 :=
      .of_layouts (by decide) (by decide) rfl rfl
    have hlinked := linked_sized dst.size 0 digit r (if dst.size = 1 then 0xC0 else 0xC1) _
      fun offset ↦ uses_writeI8 offset v.toBits
    simp only [shiftMisses, ne_eq, hone, not_false_eq_true, decide_true, Bool.and_true]
    rw [shown_first hshown rfl]
    refine ⟨hlinked.form.reads_m hdigit hopcode,
      hlinked.accesses_iff_not_symbolAddr hdst hroa (hopcode.reads dst.size) rfl hzero ?_⟩
    rw [ite_self, trailing_imm8]
    decide

theorem sseLoadStore (hop : op = 0x10 ∨ op = 0x28) :
    layout2 op = some { slots := [.field .sse, .rm .sse] } ∧
      layout2 (op + 1) = some { slots := [.rm .sse, .field .sse] } := by
  rcases hop with rfl | rfl <;> exact ⟨rfl, rfl⟩

/-- A register and a register or an address, or an address and a register. -/
theorem spec_move (frame : Frame)
    (hform : HasForm [[sse, sse], [sse, memory], [memory, sse]] operands) :
    (∃ dst src n r, operands = [dst, src] ∧ reg dst = some n ∧ roa frame src = some r ∧
      shown frame operands = [(RegOrAddr.reg n).operand .sse, r.operand .sse]) ∨
    ∃ dst src n a, operands = [dst, src] ∧ reg dst = none ∧ addr frame dst = some a ∧
      reg src = some n ∧
      shown frame operands = [(RegOrAddr.addr a).operand .sse, (RegOrAddr.reg n).operand .sse] := by
  have hsse : HasForm [[sse, sse], [sse, memory]] operands ∨ HasForm [[memory, sse]] operands := by
    simpa only [HasForm.cons_iff, not_hasForm_nil, or_false, or_assoc] using hform
  rcases hsse with hform | hform
  · exact Or.inl (spec_pair frame .sse .sse (by decide) (by decide) hform)
  · simp only [HasForm.cons_iff, forall₂_two, not_hasForm_nil, or_false] at hform
    obtain ⟨dst, src, rfl, hdst, hsrc⟩ := hform
    obtain ⟨a, hnone, -, haddr, hshown, -⟩ := hdst.spec_memory frame
    obtain ⟨n, hreg, -, -, hshown', -⟩ := hsrc.spec_sse frame
    exact Or.inr ⟨dst, src, n, a, rfl, hnone, haddr, hreg, shown_pair (hshown .sse) hshown'⟩

theorem encodeScalarMove_cases (hform : HasForm [[sse, sse], [sse, memory], [memory, sse]] operands)
    (h : encodeScalarMove frame first ⟨opcode, operands⟩ = some actions) :
    (∃ n r, emitSse first 0x10 n r 0 = actions ∧
      shown frame operands = [(RegOrAddr.reg n).operand .sse, r.operand .sse]) ∨
    ∃ n a, emitSse first 0x11 n (.addr a) 0 = actions ∧
      shown frame operands = [(RegOrAddr.addr a).operand .sse, (RegOrAddr.reg n).operand .sse] := by
  rcases spec_move frame hform with ⟨dst, src, n, r, rfl, hreg, hroa, hshown⟩ |
    ⟨dst, src, n, a, rfl, hnone, haddr, hreg, hshown⟩
  · simp only [encodeScalarMove, dstSrc_pair, Option.bind_eq_bind, bind_some, hreg, hroa,
      map_some, some.injEq] at h
    exact Or.inl ⟨n, r, h, hshown⟩
  · simp only [encodeScalarMove, dstSrc_pair, Option.bind_eq_bind, bind_some, hnone, haddr,
      hreg, map_some, some.injEq] at h
    exact Or.inr ⟨n, a, h, hshown⟩

theorem encodePackedMove_cases {load store : Byte}
    (hform : HasForm [[sse, sse], [sse, memory], [memory, sse]] operands)
    (h : encodePackedMove frame load store ⟨opcode, operands⟩ = some actions) :
    (∃ n r, emitRexRroa 0 n r ++ emitOpcode 0x0F ++ emitOpcode load ++ emitModrmSib n r = actions ∧
      shown frame operands = [(RegOrAddr.reg n).operand .sse, r.operand .sse]) ∨
    ∃ n a, emitRexRroa 0 n (.addr a) ++ emitOpcode 0x0F ++ emitOpcode store ++
        emitModrmSib n (.addr a) = actions ∧
      shown frame operands = [(RegOrAddr.addr a).operand .sse, (RegOrAddr.reg n).operand .sse] := by
  rcases spec_move frame hform with ⟨dst, src, n, r, rfl, hreg, hroa, hshown⟩ |
    ⟨dst, src, n, a, rfl, hnone, haddr, hreg, hshown⟩
  · simp only [encodePackedMove, dstSrc_pair, Option.bind_eq_bind, bind_some, hreg, hroa,
      map_some, some.injEq] at h
    exact Or.inl ⟨n, r, h, hshown⟩
  · simp only [encodePackedMove, dstSrc_pair, Option.bind_eq_bind, bind_some, hnone, haddr,
      hreg, map_some, some.injEq] at h
    exact Or.inr ⟨n, a, h, hshown⟩

theorem encoded_encodeScalarMove (hfirst : first = 0x66 ∨ first = 0xF2 ∨ first = 0xF3)
    (hform : HasForm [[sse, sse], [sse, memory], [memory, sse]] operands)
    (h : encodeScalarMove frame first ⟨opcode, operands⟩ = some actions) :
    Encoded actions (shown frame operands) := by
  obtain ⟨hload, hstore⟩ := sseLoadStore (Or.inl rfl)
  rcases encodeScalarMove_cases hform h with ⟨n, r, rfl, hshown⟩ | ⟨n, a, rfl, hshown⟩
  · rw [hshown]
    exact (linked_sse 0 n r 0x10 hfirst).plain .sse .sse (by decide) (by decide) (.two _ hload)
  · rw [hshown]
    exact (linked_sse 0 n (.addr a) 0x11 hfirst).plain_store .sse .sse (by decide)
      (by decide) (.two _ hstore)

theorem encoded_encodePackedMove {load : Byte} (hop : load = 0x10 ∨ load = 0x28)
    (hform : HasForm [[sse, sse], [sse, memory], [memory, sse]] operands)
    (h : encodePackedMove frame load (load + 1) ⟨opcode, operands⟩ = some actions) :
    Encoded actions (shown frame operands) := by
  obtain ⟨hload, hstore⟩ := sseLoadStore hop
  rcases encodePackedMove_cases hform h with ⟨n, r, rfl, hshown⟩ | ⟨n, a, rfl, hshown⟩
  · rw [hshown]
    exact (linked_packed 0 n r load).plain .sse .sse (by decide) (by decide) (.two _ hload)
  · rw [hshown]
    exact (linked_packed 0 n (.addr a) (load + 1)).plain_store .sse .sse (by decide)
      (by decide) (.two _ hstore)

theorem encoded_encodeMovq (hform : HasForm [[general, sse]] operands)
    (h : encodeMovq ⟨opcode, operands⟩ = some actions) :
    Encoded actions (shown frame operands) := by
  simp only [HasForm.cons_iff, forall₂_two, not_hasForm_nil, or_false] at hform
  obtain ⟨⟨dst, dstSize⟩, ⟨src, srcSize⟩, rfl, hdst, hsrc⟩ := hform
  obtain ⟨n, hreg, -, -, hshown, -⟩ := hdst.spec_general frame
  obtain ⟨m, hreg', -, -, hshown', -⟩ := hsrc.spec_sse frame
  obtain ⟨dstReg, hvalue, -⟩ := hdst
  obtain ⟨srcReg, hvalue', -⟩ := hsrc
  obtain rfl : dst = .register dstReg := hvalue
  obtain rfl : src = .register srcReg := hvalue'
  obtain rfl : regCode dstReg = n := some.inj hreg
  obtain rfl : regCode srcReg = m := some.inj hreg'
  simp only [encodeMovq, dstSrc_pair, Option.bind_eq_bind, bind_some] at h
  have hop : layout2 0x7E = some { slots := [.rm .general, .field .sse] } := rfl
  rw [shown_pair hshown hshown']
  by_cases hranges : dstReg ≤ R15 ∧ XMM0 ≤ srcReg
  · rw [if_pos hranges, some.injEq] at h
    rw [← h]
    exact (linked_sse 8 (regCode srcReg) (.reg (regCode dstReg)) 0x7E (Or.inl rfl)).plain_store
      .sse .general (by decide) (by decide) (.two _ hop)
  · rw [if_neg hranges] at h
    cases h

theorem encodeXorps_eq {dst src : Operand} {r : RegOrAddr} (hreg : reg dst = some n)
    (hroa : roa frame src = some r) : encodeXorps frame ⟨opcode, [dst, src]⟩
      = some (emitRexRroa 0 n r ++ emitOpcode 0x0F ++ emitOpcode 0x57 ++ emitModrmSib n r) := by
  rw [roa] at hroa
  cases hsrc : reg src with
  | some m =>
    rw [hsrc] at hroa
    obtain rfl : .reg m = r := some.inj hroa
    simp only [encodeXorps, dstSrc_pair, Option.bind_eq_bind, bind_some, hreg, hsrc]
    rfl
  | none =>
    rw [hsrc] at hroa
    cases haddr : addr frame src with
    | none =>
      rw [haddr] at hroa
      cases hroa
    | some a =>
      rw [haddr] at hroa
      obtain rfl : .addr a = r := some.inj hroa
      simp only [encodeXorps, dstSrc_pair, Option.bind_eq_bind, bind_some, hreg, hsrc, haddr]
      rfl

theorem encoded_encodeXorps (hform : HasForm [[sse, sse], [sse, memory]] operands)
    (h : encodeXorps frame ⟨opcode, operands⟩ = some actions) :
    Encoded actions (shown frame operands) := by
  obtain ⟨dst, src, n, r, rfl, hreg, hroa, hshown⟩ :=
    spec_pair frame .sse .sse (by decide) (by decide) hform
  rw [encodeXorps_eq hreg hroa, some.injEq] at h
  rw [hshown, ← h]
  exact (linked_packed 0 n r 0x57).plain .sse .sse (by decide) (by decide) (.two _ rfl)

theorem encoded_encodeXorpd (hform : HasForm [[sse, sse], [sse, memory]] operands)
    (h : encodeXorpd frame ⟨opcode, operands⟩ = some actions) :
    Encoded actions (shown frame operands) := by
  obtain ⟨dst, src, n, r, rfl, hreg, hroa, hshown⟩ :=
    spec_pair frame .sse .sse (by decide) (by decide) hform
  rw [encodeXorpd, encodeXorps_eq hreg hroa, map_some, some.injEq,
    ← append_assoc, ← append_assoc, ← append_assoc] at h
  rw [hshown, ← h]
  exact (linked_sse 0 n r 0x57 (Or.inl rfl)).plain .sse .sse (by decide) (by decide) (.two _ rfl)

theorem encoded_encodeUcomiss (hform : HasForm [[sse, sse], [sse, memory]] operands)
    (h : encodeUcomiss frame ⟨opcode, operands⟩ = some actions) :
    Encoded actions (shown frame operands) := by
  obtain ⟨dst, src, n, r, rfl, hreg, hroa, hshown⟩ :=
    spec_pair frame .sse .sse (by decide) (by decide) hform
  simp only [encodeUcomiss, dstSrc_pair, Option.bind_eq_bind, bind_some, hreg, hroa,
    some.injEq] at h
  rw [hshown, ← h]
  exact (linked_packed 4 n r 0x2E).plain .sse .sse (by decide) (by decide) (.two _ rfl)

end Instructions

end Banjo.Target.X8664.Encoder
