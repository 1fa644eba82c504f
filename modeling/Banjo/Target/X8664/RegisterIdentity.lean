import Banjo.Target.X8664.EncodedInstrs

/-!
# Register identity

Without a `REX` prefix directly before the opcode no extended register is read, and four registers
are read as others where they are accessed as bytes. Three groups of instructions are emitted so,
and the rest decode to their operands. Addresses relative to a symbol lead to it unless an immediate
comes after the displacement that its use does not take into account.
-/

open List Option

namespace Banjo.Target.X8664.Encoder

open Emit WriteBuffer Decoder
open Mcode (Opcode)
open X8664Register

/-! ## Without `REX` -/

theorem not_lt_extended (bits : Byte) : ¬EDI < extended false bits := by
  have hlow : ∀ bits : Byte, ¬EDI < (bits &&& 7).setWidth 4 ||| 0 := by decide
  exact hlow bits

/-- A location without an extended register. -/
def IsLow : Location → Prop
  | .reg number => ¬EDI < number
  | .mem base index _ => (∀ b ∈ base, ¬EDI < b) ∧ ∀ i ∈ index, ¬EDI < i.1
  | .ripRelative _ => True

theorem isLow_decodeSib {mod : Byte} {bytes rest : List Byte} {location : Location}
    (h : decodeSib {} mod bytes = some (location, rest)) : IsLow location := by
  cases bytes with
  | nil => cases h
  | cons sib bytes =>
    simp only [decodeSib, map_eq_some_iff, Prod.mk.injEq] at h
    obtain ⟨⟨displacement, tail⟩, -, rfl, -⟩ := h
    constructor
    · intro b hb
      split_ifs at hb
      · cases hb
      · obtain rfl := some.inj hb
        exact not_lt_extended sib
    · intro i hi
      split_ifs at hi
      · cases hi
      · obtain rfl := some.inj hi
        exact not_lt_extended (sib >>> 3)

theorem isLow_decodeModrm {bytes rest : List Byte} {field : RegCode} {location : Location}
    (h : decodeModrm {} bytes = some (field, location, rest)) : ¬EDI < field ∧ IsLow location := by
  cases bytes with
  | nil => cases h
  | cons modrm bytes =>
    simp only [decodeModrm] at h
    split_ifs at h
    · simp only [some.injEq, Prod.mk.injEq] at h
      obtain ⟨rfl, rfl, -⟩ := h
      exact ⟨not_lt_extended _, not_lt_extended _⟩
    · obtain ⟨⟨found, tail⟩, hsib, heq⟩ := map_eq_some_iff.mp h
      simp only [Prod.mk.injEq] at heq
      obtain ⟨rfl, rfl, -⟩ := heq
      exact ⟨not_lt_extended _, isLow_decodeSib hsib⟩
    · obtain ⟨⟨displacement, tail⟩, -, heq⟩ := map_eq_some_iff.mp h
      simp only [Prod.mk.injEq] at heq
      obtain ⟨rfl, rfl, -⟩ := heq
      exact ⟨not_lt_extended _, trivial⟩
    · obtain ⟨⟨displacement, tail⟩, -, heq⟩ := map_eq_some_iff.mp h
      simp only [Prod.mk.injEq] at heq
      obtain ⟨rfl, rfl, -⟩ := heq
      refine ⟨not_lt_extended _, fun b hb ↦ ?_, fun i hi ↦ ?_⟩
      · obtain rfl := some.inj hb
        exact not_lt_extended modrm
      · cases hi

theorem readsExtended_register {number : RegCode} (h : ¬EDI < number) (rex : Option Rex)
    (kind : RegKind) : readsExtended (.reg (register rex number kind)) = false := by
  cases kind with
  | byte =>
    rw [register]
    split_ifs
    · rfl
    · exact decide_eq_false h
  | general => exact decide_eq_false h
  | sse => exact decide_eq_false h

theorem readsExtended_slotOperand {field : RegCode} {location : Location} (hfield : ¬EDI < field)
    (hlocation : IsLow location) (opcode : Byte) (slot : Slot) :
    readsExtended (slotOperand none opcode field location slot) = false := by
  cases slot with
  | field kind => exact readsExtended_register hfield none kind
  | rm kind =>
    cases location with
    | reg number => exact readsExtended_register hlocation none kind
    | mem base index displacement =>
      obtain ⟨hbase, hindex⟩ := hlocation
      simp only [slotOperand, Location.operand, readsExtended, Bool.or_eq_false_iff,
        Option.any_eq_false]
      exact ⟨fun b hb ↦ decide_eq_false (hbase b hb), fun i hi ↦ decide_eq_false (hindex i hi)⟩
    | ripRelative displacement => rfl
  | combined kind => exact readsExtended_register (not_lt_extended opcode) none kind
  | accumulator => rfl
  | count => rfl

/-- Without the prefix no extended register is read. -/
theorem readsExtended_of_rex_none {bytes tail : List Byte} {head : Head}
    (h : decodeHead bytes = some (head, tail)) (hrex : (decodePrefixes {} bytes).1.rex = none) :
    ∀ operand ∈ head.operands, readsExtended operand = false := by
  rw [decodeHead] at h
  obtain ⟨⟨opcode, layout, bytes'⟩, -, h⟩ := bind_eq_some_iff.mp h
  obtain ⟨⟨field, location, bytes''⟩, hmodrm, h⟩ := bind_eq_some_iff.mp h
  simp only [some.injEq, Prod.mk.injEq] at h
  obtain ⟨rfl, -⟩ := h
  intro operand hmem
  obtain ⟨slot, -, rfl⟩ := mem_map.mp hmem
  rw [hrex] at hmodrm ⊢
  have hlow : ¬EDI < field ∧ IsLow location := by
    by_cases hbyte : layout.modrm = true
    · rw [decodeFields, if_pos hbyte] at hmodrm
      exact isLow_decodeModrm hmodrm
    · rw [decodeFields, if_neg hbyte] at hmodrm
      simp only [some.injEq, Prod.mk.injEq] at hmodrm
      obtain ⟨rfl, rfl, -⟩ := hmodrm
      exact ⟨by decide, fun hlt : EDI < 0 ↦ absurd hlt (by decide)⟩
  exact readsExtended_slotOperand hlow.1 hlow.2 opcode slot

/-- So what has one is not read as it. -/
theorem not_reads_of_extended {actions : List Action} {operands : List Decoder.Operand}
    (hrex : ∀ rest, (decodePrefixes {} (bytes actions ++ rest)).1.rex = none)
    (hext : ∃ operand ∈ operands, readsExtended operand = true) : ¬Reads actions operands := by
  intro hreads
  obtain ⟨head, tail, hdecode, rfl⟩ := hreads []
  obtain ⟨operand, hmem, htrue⟩ := hext
  rw [readsExtended_of_rex_none hdecode (hrex []) operand hmem] at htrue
  cases htrue

/-! ## Calls -/

section Misread

variable {frame : Frame} {operands : List Operand} {actions : List Action}

open Kind

theorem rexOf_low {size : ℕ} {reg : RegCode} {roa : RegOrAddr} (hone : size ≠ 1) (height : size ≠ 8)
    (hreg : ¬EDI < reg) (hindex : roa.indexBit = false) (hbase : roa.baseBit = false) :
    rexOf size reg roa = none := by
  simp [rexOf, hone, height, hreg, hindex, hbase]

theorem encodeCall_memory {target : Operand} (htarget : target.Is memory) {a : Address}
    (haddr : addr frame target = some a) :
    encodeCall frame ⟨.CALL, [target]⟩
        = some (emitRexRM 0 0 a ++ emitOpcode 0xFF ++ emitMemDigit a 2) ∧
      (⟨.CALL, [target]⟩ : Instruction).misread = false := by
  obtain ⟨value, size⟩ := target
  have hcall : reg ⟨value, size⟩ = none → (∀ symbol, value ≠ .symbol symbol) →
      encodeCall frame ⟨.CALL, [⟨value, size⟩]⟩
        = some (emitRexRM 0 0 a ++ emitOpcode 0xFF ++ emitMemDigit a 2) := by
    intro hreg hsymbol
    simp only [encodeCall, getElem?_cons_zero, bind_eq_bind, bind_some, hreg, haddr]
  rcases htarget with ⟨slot, hvalue⟩ | ⟨symbol, hvalue⟩ | ⟨a, hvalue, -⟩
  · obtain rfl : value = .stackSlot slot := hvalue
    exact ⟨hcall rfl (fun _ ↦ nofun), rfl⟩
  · obtain rfl : value = .symbolDeref symbol := hvalue
    exact ⟨hcall rfl (fun _ ↦ nofun), rfl⟩
  · obtain rfl : value = .addr a := hvalue
    exact ⟨hcall rfl (fun _ ↦ nofun), rfl⟩

/-- The four bytes are the whole operand of a call. -/
theorem accesses_call (symbol : Symbol) :
    Accesses (emitOpcode 0xE8 ++ [.use symbol.index symbol.useKind 0 false]) := by
  intro use hmem hkind rest
  obtain rfl : use = ⟨1, symbol.useKind, 0⟩ := mem_singleton.mp hmem
  refine ⟨5, ?_, fun start target ↦ ?_⟩
  · have hhead := (ReadsOpcode.one 0xE8 (by decide) (by decide) rfl).reads ([0, 0, 0, 0] ++ rest)
    have hprefixes : decodePrefixes {} (0xE8 :: ([0, 0, 0, 0] ++ rest))
        = ({}, 0xE8 :: ([0, 0, 0, 0] ++ rest)) := decodePrefixes_opcode (by decide) _ _
    have hbytes : bytes (emitOpcode 0xE8 ++ [.use symbol.index symbol.useKind 0 false]) ++ rest
        = 0xE8 :: ([0, 0, 0, 0] ++ rest) := rfl
    rw [singleton_append] at hhead
    rw [hbytes, instrLength, decodeHead, hprefixes]
    simp only [hhead, decodeFields, bind_eq_bind, bind_some, Bool.false_eq_true,
      if_false, map_some, Head.immLength]
    simp
  · rw [RelativeUse.displacement, addressOffset_relative hkind]
    push_cast
    omega

theorem encodeCall_spec (hform : HasForm [[general], [memory], [symbol]] operands)
    (h : encodeCall frame ⟨.CALL, operands⟩ = some actions) :
    (Reads actions (shown frame operands) ↔
      (⟨.CALL, operands⟩ : Instruction).misread = false) ∧ Accesses actions := by
  simp only [HasForm.cons_iff, forall₂_one, not_hasForm_nil, or_false] at hform
  rcases hform with ⟨target, rfl, htarget⟩ | ⟨target, rfl, htarget⟩ | ⟨target, rfl, htarget⟩
  · obtain ⟨n, hreg, -, haddr, hshown, hextended⟩ := htarget.spec_general frame
    obtain ⟨value, size⟩ := target
    obtain ⟨r, hvalue, -⟩ := htarget
    obtain rfl : value = .register r := hvalue
    have hmisread : (⟨.CALL, [⟨.register r, size⟩]⟩ : Instruction).misread = decide (EDI < n) := by
      rw [← hextended]
      simp [Instruction.misread, Operand.extended]
    simp only [encodeCall, getElem?_cons_zero, bind_eq_bind, bind_some, hreg] at h
    have hlist : shown frame [⟨.register r, size⟩] = [.reg (.general n)] := by simp [shown, hshown]
    rw [hmisread, hlist, decide_eq_false_iff_not]
    by_cases hsize : size = 8
    swap
    · rw [if_neg hsize] at h
      cases h
    rw [if_pos hsize, some.injEq] at h
    rw [← h]
    refine ⟨⟨?_, ?_⟩, accesses_of_uses_nil (by simp)⟩
    · intro hreads hlt
      refine not_reads_of_extended (fun rest ↦ ?_) ⟨_, mem_singleton_self _, ?_⟩ hreads
      · rw [bytes_append, bytes_emitOpcode, append_assoc, singleton_append,
          decodePrefixes_opcode (by decide)]
      · exact decide_eq_true hlt
    · intro hlow
      have hnone : rexOf 0 0 (.reg n) = none :=
        rexOf_low (by decide) (by decide) (by decide) rfl (decide_eq_false hlow)
      have hform : Form (emitOpcode 0xFF ++ emitModrmRR 2 n) [] 0 0 [0xFF] 2 (.reg n) [] :=
        { bytes_eq := by
            rw [hnone]
            simp [rexBytes]
          legacy_mem := Or.inl rfl }
      exact hform.reads_general (by decide) (.one _ (by decide) (by decide) rfl)
  · obtain ⟨a, hnone, -, haddr, hshown, -⟩ := htarget.spec_memory frame
    have hlist : shown frame [target] = [(RegOrAddr.addr a).operand .general] := by
      simp [shown, hshown .general]
    obtain ⟨hcall, hmisread⟩ := encodeCall_memory htarget haddr
    rw [hcall, some.injEq] at h
    rw [hmisread, hlist, ← h]
    have hlinked : Linked (emitRexRM 0 0 a ++ emitOpcode 0xFF ++ emitMemDigit a 2) [] 0 0 [0xFF] 2
        (.addr a) [] 0 :=
      { form :=
          { bytes_eq := by simp
            legacy_mem := Or.inl rfl }
        uses_eq := by simp }
    have hopcode : ReadsOpcode [0xFF] 0xFF { slots := [.rm .general] } :=
      .one _ (by decide) (by decide) rfl
    exact ⟨iff_of_true (hlinked.form.reads_general (by decide) hopcode) rfl,
      hlinked.accesses hopcode rfl⟩
  · obtain ⟨value, size⟩ := target
    obtain ⟨target, hvalue⟩ := htarget
    obtain rfl : value = .symbol target := hvalue
    obtain rfl := some.inj h
    have hreads : Reads (emitOpcode 0xE8 ++ [.use target.index target.useKind 0 false]) [] :=
      reads_opcode none [] (Or.inl rfl) rfl (.one 0xE8 (by decide) (by decide) rfl)
    exact ⟨iff_of_true hreads rfl, accesses_call target⟩

/-! ## Extensions of bytes -/

variable {n : RegCode}

theorem register_byte_iff {rex : Option Rex} :
    register rex n .byte = .general n ↔ ¬(rex = none ∧ 4 ≤ n) := by
  rw [register, ← isNone_iff_eq_none]
  split_ifs with h
  · exact ⟨by simp, fun hnot ↦ absurd h hnot⟩
  · exact ⟨fun _ ↦ h, fun _ ↦ rfl⟩

/-- A byte is read as one of the register where it needs no prefix or has one. -/
theorem Form.reads_byte_iff {legacy opcodeBytes imm : List Byte} {opcode : Byte} {size : ℕ}
    {reg : RegCode} {roa : RegOrAddr} (h : Form actions legacy size reg opcodeBytes reg roa imm)
    (hopcode : ReadsOpcode opcodeBytes opcode { slots := [.field .general, .rm .byte] }) :
    Reads actions [.reg (.general reg), roa.operand .general] ↔
      ∀ m, roa = .reg m → ¬(rexOf size reg roa = none ∧ 4 ≤ m) := by
  have hoperands : Reads actions [.reg (.general reg), roa.operand .general] ↔
      roa.location.operand (rexOf size reg roa) .byte = roa.operand .general := by
    constructor
    · intro hreads
      obtain ⟨head, tail, hdecode, heq⟩ := hreads []
      rw [h.decodeHead hopcode rfl rfl] at hdecode
      obtain ⟨rfl, -⟩ := Prod.mk.injEq .. ▸ some.inj hdecode
      simp only [map_cons, map_nil, slotOperand, cons.injEq, and_true] at heq
      exact heq.2
    · intro heq rest
      refine ⟨_, _, h.decodeHead hopcode rfl rfl rest, ?_⟩
      simp only [map_cons, map_nil, slotOperand, heq]
      rfl
  rw [hoperands]
  cases roa with
  | reg m =>
    have hreg : Location.operand (rexOf size reg (.reg m)) .byte (RegOrAddr.location (.reg m))
        = (RegOrAddr.reg m).operand .general ↔
          register (rexOf size reg (.reg m)) m .byte = .general m :=
      ⟨fun heq ↦ by injection heq, congrArg Decoder.Operand.reg⟩
    rw [hreg, register_byte_iff]
    exact ⟨fun hnot m' heq ↦ by obtain rfl := RegOrAddr.reg.inj heq; exact hnot,
      fun hall ↦ hall m rfl⟩
  | addr a =>
    refine iff_of_true ?_ (by simp)
    cases a with
    | reg a => rfl
    | symbol a => rfl

theorem regCode_facts : ∀ {r : Codegen.PhysicalReg}, r < 16 →
    (r < 8 ↔ ¬EDI < regCode r) ∧ number r = regCode r ∧
      (4 ≤ regCode r ∧ regCode r < 8 ↔ 4 ≤ regCode r ∧ ¬EDI < regCode r) ∧
      (4 ≤ regCode r → ¬EDI < regCode r → aboveEbx (regCode r) = true) := by decide

theorem misreadExtension_register {dst src : Codegen.PhysicalReg} (hdst : dst < 16)
    (hsrc : src < 16) (dstSize : ℕ) :
    misreadExtension [⟨.register dst, dstSize⟩, ⟨.register src, 1⟩] = true ↔
      rexOf dstSize (regCode dst) (.reg (regCode src)) = none ∧ 4 ≤ regCode src := by
  obtain ⟨hdstLow, -, -, -⟩ := regCode_facts hdst
  obtain ⟨-, hnumber, hsrcLow, hbyte⟩ := regCode_facts hsrc
  simp only [misreadExtension, Bool.and_eq_true, decide_eq_true_eq, hnumber, hdstLow]
  constructor
  · rintro ⟨⟨⟨⟨hlow, hone⟩, height⟩, hfour⟩, hlt⟩
    exact ⟨rexOf_low hone height hlow rfl (decide_eq_false (hsrcLow.mp ⟨hfour, hlt⟩).2), hfour⟩
  · rintro ⟨hnone, hfour⟩
    obtain ⟨hone, hlow, hbase⟩ := rexOf_eq_none hnone
    have hlt : ¬EDI < regCode src := of_decide_eq_false hbase
    refine ⟨⟨⟨⟨hlow, fun hsize ↦ ?_⟩, fun hsize ↦ ?_⟩, hfour⟩, (hsrcLow.mpr ⟨hfour, hlt⟩).2⟩
    · have hfalse : aboveEbx (regCode src) = false := (hone hsize).2
      rw [hbyte hfour hlt] at hfalse
      cases hfalse
    · simp [rexOf, hsize] at hnone

variable {dst src : Operand}

theorem misreadExtension_wide (h : src.size ≠ 1) : misreadExtension [dst, src] = false := by
  unfold misreadExtension
  split
  · next heq =>
    simp only [cons.injEq, and_true] at heq
    rw [heq.2] at h
    exact absurd rfl h
  · rfl

theorem misreadExtension_memory (h : reg src = none) : misreadExtension [dst, src] = false := by
  unfold misreadExtension
  split
  · next heq =>
    simp only [cons.injEq, and_true] at heq
    rw [heq.2] at h
    cases h
  · rfl

/-- Both extensions are of this form. -/
theorem extension_spec (hdst : dst.Is general)
    (hsrc : src.Is general ∨ src.Is memory) {r : RegOrAddr}
    (hreg : reg dst = some n) (hroa : roa frame src = some r)
    (hshown : shown frame [dst, src] = [.reg (.general n), r.operand .general])
    {opcodeBytes : List Byte} {op : Byte}
    (hlinked : Linked actions (sizePrefix dst.size) dst.size n opcodeBytes n r [] 0)
    (hopcode : ReadsOpcode opcodeBytes op
      { slots := [.field .general, .rm (if src.size = 1 then .byte else .general)] }) :
    (Reads actions (shown frame [dst, src]) ↔ misreadExtension [dst, src] = false) ∧
      Accesses actions := by
  refine ⟨?_, hlinked.accesses hopcode rfl⟩
  have hform := hlinked.form
  rw [hshown]
  by_cases hsize : src.size = 1
  · rw [if_pos hsize] at hopcode
    rw [hform.reads_byte_iff hopcode]
    rcases hsrc with hsrc | hsrc
    · obtain ⟨m, hregSrc, -, -, -, -⟩ := hsrc.spec_general frame
      obtain ⟨dst, dstSize⟩ := dst
      obtain ⟨src, srcSize⟩ := src
      obtain ⟨d, hvalue, hd⟩ := hdst
      obtain ⟨s, hvalue', hs⟩ := hsrc
      obtain rfl : dst = .register d := hvalue
      obtain rfl : src = .register s := hvalue'
      obtain rfl : srcSize = 1 := hsize
      obtain rfl : regCode d = n := some.inj hreg
      obtain rfl : .reg (regCode s) = r := some.inj hroa
      rw [← Bool.not_eq_true, misreadExtension_register hd hs]
      exact ⟨fun hall ↦ hall _ rfl, fun hnot m heq ↦ by
        obtain rfl := RegOrAddr.reg.inj heq
        exact hnot⟩
    · obtain ⟨a, hnone, -, haddr, -, -⟩ := hsrc.spec_memory frame
      rw [roa, hnone, haddr] at hroa
      obtain rfl : .addr a = r := some.inj hroa
      exact iff_of_true (by simp) (misreadExtension_memory hnone)
  · rw [if_neg hsize] at hopcode
    exact iff_of_true (hform.reads_plain .general .general (by decide)
      (by decide) hopcode) (misreadExtension_wide hsize)

theorem spec_extension (frame : Frame)
    (hform : HasForm [[general, general], [general, memory]] operands) :
    ∃ dst src n r, operands = [dst, src] ∧ dst.Is general ∧ (src.Is general ∨ src.Is memory) ∧
      reg dst = some n ∧ roa frame src = some r ∧
      shown frame [dst, src] = [.reg (.general n), r.operand .general] := by
  obtain ⟨dst, src, n, r, rfl, hreg, hroa, hshown⟩ :=
    spec_pair frame .general .general (by decide) (by decide) hform
  simp only [HasForm.cons_iff, forall₂_two, not_hasForm_nil, or_false] at hform
  rcases hform with ⟨d, s, heq, hdst, hsrc⟩ | ⟨d, s, heq, hdst, hsrc⟩ <;>
    obtain ⟨rfl, rfl⟩ : dst = d ∧ src = s := by simpa using heq
  · exact ⟨dst, src, n, r, rfl, hdst, Or.inl hsrc, hreg, hroa, hshown⟩
  · exact ⟨dst, src, n, r, rfl, hdst, Or.inr hsrc, hreg, hroa, hshown⟩

theorem encodeMovzx_spec (hform : HasForm [[general, general], [general, memory]] operands)
    (h : encodeMovzx frame ⟨.MOVZX, operands⟩ = some actions) :
    (Reads actions (shown frame operands) ↔
      (⟨.MOVZX, operands⟩ : Instruction).misread = false) ∧ Accesses actions := by
  obtain ⟨dst, src, n, r, rfl, hdst, hsrc, hreg, hroa, hshown⟩ :=
    spec_extension frame hform
  simp only [encodeMovzx, dstSrc_pair, bind_eq_bind, bind_some, hreg, hroa, some.injEq] at h
  rw [← h]
  have hopcode : ReadsOpcode [0x0F, if src.size = 1 then 0xB6 else 0xB7]
      (if src.size = 1 then 0xB6 else 0xB7)
      { slots := [.field .general, .rm (if src.size = 1 then .byte else .general)] } := .two _ ?_
  · exact extension_spec hdst hsrc hreg hroa hshown (linked_sized_two dst.size n n r _) hopcode
  by_cases hsize : src.size = 1
  · rw [if_pos hsize, if_pos hsize]
    rfl
  · rw [if_neg hsize, if_neg hsize]
    rfl

theorem encodeMovsx_spec (hform : HasForm [[general, general], [general, memory]] operands)
    (hsize : ∀ src, operands[1]? = some src → src.size ∈ [1, 2, 4])
    (h : encodeMovsx frame ⟨.MOVSX, operands⟩ = some actions) :
    (Reads actions (shown frame operands) ↔
      (⟨.MOVSX, operands⟩ : Instruction).misread = false) ∧ Accesses actions := by
  obtain ⟨dst, src, n, r, rfl, hdst, hsrc, hreg, hroa, hshown⟩ :=
    spec_extension frame hform
  have hsizes : src.size = 1 ∨ src.size = 2 ∨ src.size = 4 := by simpa using hsize src rfl
  simp only [encodeMovsx, dstSrc_pair, bind_eq_bind, bind_some, hreg, hroa, some.injEq] at h
  rw [← h]
  have hlinked : ∀ op : Byte, Linked (emit16BitPrefixIfRequired dst.size ++
      emitRexRroa dst.size n r ++ (emitOpcode 0x0F ++ emitOpcode op) ++ emitModrmSib n r)
        (sizePrefix dst.size) dst.size n [0x0F, op] n r [] 0 := fun op ↦
    { form :=
        { bytes_eq := by simp
          legacy_mem := sizePrefix_mem dst.size }
      uses_eq := by simp [Nat.add_assoc] }
  rcases hsizes with hsize | hsize | hsize
  · rw [if_pos hsize]
    refine extension_spec hdst hsrc hreg hroa hshown (hlinked 0xBE) (.two 0xBE ?_)
    rw [if_pos hsize]
    rfl
  · rw [if_neg (by omega), if_pos hsize]
    refine extension_spec hdst hsrc hreg hroa hshown (hlinked 0xBF) (.two 0xBF ?_)
    rw [if_neg (by omega)]
    rfl
  · have hread := linked_sized dst.size n n r 0x63 [] fun _ ↦ rfl
    rw [append_nil] at hread
    rw [if_neg (by omega), if_neg (by omega), if_pos hsize]
    refine extension_spec hdst hsrc hreg hroa hshown hread
      (.one 0x63 (by decide) (by decide) ?_)
    rw [if_neg (by omega)]
    rfl

/-! ## Comparisons of doubles -/

theorem decodePrefixes_late (rex : Option Rex) (opcode : Byte) (h : IsOpcode opcode)
    (rest : List Byte) : decodePrefixes {} (rexBytes rex ++ 0x66 :: opcode :: rest)
      = ({ operandSize := true }, opcode :: rest) := by
  cases rex with
  | none =>
    have hstep : decodePrefixes {} (0x66 :: opcode :: rest)
        = decodePrefixes { operandSize := true } (opcode :: rest) := by
      simp [decodePrefixes]
    exact hstep.trans (decodePrefixes_opcode h _ _)
  | some rex =>
    have hstep : decodePrefixes { rex := some rex } (0x66 :: opcode :: rest)
        = decodePrefixes { operandSize := true } (opcode :: rest) := by
      simp [decodePrefixes]
    exact (decodePrefixes_rexByte {} rex _).trans (hstep.trans (decodePrefixes_opcode h _ _))

/-- Without extended registers the prefix is not needed. -/
theorem decodeModrm_low {n : RegCode} {r : RegOrAddr} (hn : ¬EDI < n)
    (hr : readsExtended (r.operand .sse) = false) (rest : List Byte) :
    decodeModrm {} (bytes (emitModrmSib n r) ++ rest) = some (n, r.location, rest) := by
  have hfield : false = decide (EDI < n) := (decide_eq_false hn).symm
  cases r with
  | reg m => exact decodeModrm_emitModrmSib hfield rfl hr.symm rest
  | addr a =>
    cases a with
    | symbol a => exact decodeModrm_symbol hfield a rest
    | reg a =>
      simp only [RegOrAddr.operand, readsExtended, Bool.or_eq_false_iff, any_some] at hr
      obtain ⟨hbase, hindex⟩ := hr
      refine decodeModrm_emitModrmSib hfield ?_ hbase.symm rest
      by_cases hnone : a.index = ADDR_NO_INDEX
      · simp [RegOrAddr.indexBit, hnone, ADDR_NO_INDEX, EDI]
      · rw [if_neg hnone, any_some] at hindex
        exact hindex.symm

theorem shown_extended (hdst : dst.Is sse) (hsrc : src.Is sse ∨ src.Is memory) {r : RegOrAddr}
    (hreg : reg dst = some n) (hroa : roa frame src = some r) :
    (dst.extended = decide (EDI < n)) ∧ src.extended = readsExtended (r.operand .sse) := by
  obtain ⟨n', hreg', -, -, -, hext⟩ := hdst.spec_sse frame
  obtain rfl : n' = n := some.inj (hreg'.symm.trans hreg)
  refine ⟨hext, ?_⟩
  rcases hsrc with hsrc | hsrc
  · obtain ⟨m, hregSrc, -, -, -, hext'⟩ := hsrc.spec_sse frame
    rw [roa, hregSrc] at hroa
    obtain rfl : .reg m = r := some.inj hroa
    exact hext'
  · obtain ⟨a, hnone, -, haddr, -, hext'⟩ := hsrc.spec_memory frame
    rw [roa, hnone, haddr] at hroa
    obtain rfl : .addr a = r := some.inj hroa
    have hsame : (RegOrAddr.addr a).operand .sse = (RegOrAddr.addr a).operand .general := by
      cases a <;> rfl
    rw [hsame]
    exact Bool.eq_iff_iff.mpr hext'

/-- Without a prefix the register is another one, but the address is the same. -/
theorem decodeModrm_symbol_low (n : RegCode) (a : SymbolAddress) (rest : List Byte) :
    ∃ field, decodeModrm {} (bytes (emitModrmSib n (.addr (.symbol a))) ++ rest)
      = some (field, .ripRelative 0, rest) := by
  have hlow : ∀ n : RegCode, modrmByte 0 n 5 = modrmByte 0 (n &&& 7) 5 ∧
      false = decide (EDI < n &&& 7) := by decide
  have hbytes : bytes (emitModrmSib n (.addr (.symbol a)))
      = bytes (emitModrmSib (n &&& 7) (.addr (.symbol a))) :=
    congrArg (· :: [0, 0, 0, 0]) (hlow n).1
  rw [hbytes]
  exact ⟨n &&& 7, decodeModrm_symbol (hlow n).2 a rest⟩

theorem accesses_encodeUcomisd (hform : HasForm [[sse, sse], [sse, memory]] operands)
    (h : encodeUcomisd frame ⟨opcode, operands⟩ = some actions) : Accesses actions := by
  obtain ⟨dst, src, n, r, rfl, hreg, hroa, -⟩ :=
    spec_pair frame .sse .sse (by decide) (by decide) hform
  simp only [encodeUcomisd, dstSrc_pair, bind_eq_bind, bind_some, hreg, hroa, some.injEq] at h
  intro use hmem hkind rest
  have huses : uses 0 actions
      = addressUses ((rexBytes (rexOf 4 n r)).length + 3) 0 r := by
    rw [← h]
    simp [Nat.add_assoc]
  rw [huses] at hmem
  obtain ⟨a, rfl⟩ : ∃ a, r = .addr (.symbol a) := by
    cases r with
    | reg rm => cases hmem
    | addr a =>
      cases a with
      | reg a => cases hmem
      | symbol a => exact ⟨a, rfl⟩
  obtain rfl : use = ⟨(rexBytes (rexOf 4 n (.addr (.symbol a)))).length + 3 + 1, a.useKind, 0⟩ :=
    mem_singleton.mp hmem
  have hprefixes : decodePrefixes {} (bytes actions ++ rest) = ({ operandSize := true },
      0x0F :: (0x2E :: (bytes (emitModrmSib n (.addr (.symbol a))) ++ rest))) := by
    rw [← h]
    simpa using decodePrefixes_late (rexOf 4 n (.addr (.symbol a))) 0x0F (by decide)
      (0x2E :: (bytes (emitModrmSib n (.addr (.symbol a))) ++ rest))
  have hopcode : ∀ rest, decodeOpcode (0x0F :: 0x2E :: rest)
      = some (0x2E, { slots := [.field .sse, .rm .sse] }, rest) := fun rest ↦
    (ReadsOpcode.two 0x2E rfl).reads rest
  obtain ⟨field, hmodrm⟩ := decodeModrm_symbol_low n a rest
  have hlength : (bytes actions ++ rest).length
      = (rexBytes (rexOf 4 n (.addr (.symbol a)))).length + 8 + rest.length := by
    have hfive : (bytes (emitModrmSib n (.addr (.symbol a)))).length = 5 := rfl
    rw [← h]
    simp [hfive]
    omega
  refine ⟨(rexBytes (rexOf 4 n (.addr (.symbol a)))).length + 8, ?_, fun start target ↦ ?_⟩
  · rw [instrLength, decodeHead, hprefixes]
    simp only [hopcode, decodeFields, if_true, getD_none, hmodrm, bind_eq_bind,
      bind_some, map_some, Head.immLength, hlength]
    simp
  · rw [RelativeUse.displacement, addressOffset_relative hkind]
    push_cast
    omega

theorem reads_encodeUcomisd (hform : HasForm [[sse, sse], [sse, memory]] operands)
    (h : encodeUcomisd frame ⟨.UCOMISD, operands⟩ = some actions) :
    Reads actions (shown frame operands) ↔
      (⟨.UCOMISD, operands⟩ : Instruction).misread = false := by
  obtain ⟨dst, src, n, r, rfl, hreg, hroa, hshown⟩ :=
    spec_pair frame .sse .sse (by decide) (by decide) hform
  have hkinds : dst.Is sse ∧ (src.Is sse ∨ src.Is memory) := by
    simp only [HasForm.cons_iff, forall₂_two, not_hasForm_nil, or_false] at hform
    rcases hform with ⟨d, s, heq, hdst, hsrc⟩ | ⟨d, s, heq, hdst, hsrc⟩ <;>
      obtain ⟨rfl, rfl⟩ : dst = d ∧ src = s := by simpa using heq
    · exact ⟨hdst, Or.inl hsrc⟩
    · exact ⟨hdst, Or.inr hsrc⟩
  obtain ⟨hdst, hsrc⟩ := shown_extended hkinds.1 hkinds.2 hreg hroa
  have hmisread : (⟨.UCOMISD, [dst, src]⟩ : Instruction).misread
      = (decide (EDI < n) || readsExtended (r.operand .sse)) := by
    simp [Instruction.misread, hdst, hsrc]
  simp only [encodeUcomisd, dstSrc_pair, bind_eq_bind, bind_some, hreg, hroa, some.injEq] at h
  have hbytes : ∀ rest, decodePrefixes {} (bytes actions ++ rest)
      = ({ operandSize := true }, 0x0F :: (0x2E :: (bytes (emitModrmSib n r) ++ rest))) := by
    intro rest
    rw [← h]
    simpa using decodePrefixes_late (rexOf 4 n r) 0x0F (by decide)
      (0x2E :: (bytes (emitModrmSib n r) ++ rest))
  rw [hmisread, hshown]
  constructor
  · intro hreads
    by_contra hext
    rw [Bool.not_eq_false, Bool.or_eq_true] at hext
    refine not_reads_of_extended (fun rest ↦ by rw [hbytes]) ?_ hreads
    rcases hext with hext | hext
    · exact ⟨_, mem_cons_self, hext⟩
    · exact ⟨_, mem_cons_of_mem _ mem_cons_self, hext⟩
  · intro hlow rest
    rw [Bool.or_eq_false_iff, decide_eq_false_iff_not] at hlow
    refine ⟨⟨{ operandSize := true }, 0x2E, n, _, .none⟩, rest, ?_, rfl⟩
    have hopcode : ∀ rest, decodeOpcode (0x0F :: 0x2E :: rest)
        = some (0x2E, { slots := [.field .sse, .rm .sse] }, rest) := fun rest ↦
      (ReadsOpcode.two 0x2E rfl).reads rest
    rw [decodeHead, hbytes]
    simp only [hopcode, decodeFields, if_true, getD_none, decodeModrm_low hlow.1 hlow.2,
      bind_eq_bind, bind_some, map_cons, map_nil, slotOperand,
      location_plain none .sse (by decide)]
    rfl

/-! ## All instructions -/

/-- A branch to a label has no register or address. -/
theorem reads_branch (hform : HasForm [[label]] operands) (opcodeByte : Byte) {immKind : ImmKind}
    (hbytes : bytes actions = [opcodeByte, 0])
    (hopcode : ReadsOpcode [opcodeByte] opcodeByte { modrm := false, imm := immKind }) :
    Reads actions (shown frame operands) := by
  simp only [HasForm.cons_iff, forall₂_one, not_hasForm_nil, or_false] at hform
  obtain ⟨⟨value, size⟩, rfl, number, hvalue⟩ := hform
  obtain rfl : value = .basicBlock number := hvalue
  exact reads_opcode none [] (Or.inl rfl) hbytes hopcode

theorem encoded_encodeJmp {opcode : Opcode} (hform : HasForm [[label]] operands)
    (h : encodeJmp ⟨opcode, operands⟩ = some actions) : Encoded actions (shown frame operands) := by
  refine .of_uses_nil (reads_branch hform 0xEB ?_ (.one _ (by decide) (by decide) rfl)) ?_
  all_goals
    simp only [HasForm.cons_iff, forall₂_one, not_hasForm_nil, or_false] at hform
    obtain ⟨⟨value, size⟩, rfl, number, hvalue⟩ := hform
    obtain rfl : value = .basicBlock number := hvalue
    obtain rfl := some.inj h
    rfl

theorem encoded_encodeJcc {condition : Condition} {opcode : Opcode}
    (hform : HasForm [[label]] operands)
    (h : encodeJcc condition ⟨opcode, operands⟩ = some actions) :
    Encoded actions (shown frame operands) := by
  have hopcode : IsOpcode condition.opcode ∧ condition.opcode ≠ 0x0F ∧
      layout1 condition.opcode = some { modrm := false, imm := .rel8 } := by
    cases condition <;> decide
  refine .of_uses_nil (reads_branch hform condition.opcode ?_
    (.one _ hopcode.1 hopcode.2.1 hopcode.2.2)) ?_
  all_goals
    simp only [HasForm.cons_iff, forall₂_one, not_hasForm_nil, or_false] at hform
    obtain ⟨⟨value, size⟩, rfl, number, hvalue⟩ := hform
    obtain rfl : value = .basicBlock number := hvalue
    obtain rfl := some.inj h
    rfl

theorem encoded_nothing (rex : Option Rex) {legacy : List Byte} {op : Byte}
    (hlegacy : legacy = [] ∨ legacy = [0x66]) (hform : HasForm [[]] operands)
    (hbytes : bytes actions = legacy ++ (rexBytes rex ++ ([op] ++ [])))
    (huses : uses 0 actions = []) (hopcode : ReadsOpcode [op] op { modrm := false }) :
    Encoded actions (shown frame operands) := by
  simp only [HasForm.cons_iff, forall₂_nil_right_iff, not_hasForm_nil, or_false] at hform
  rw [hform]
  exact .of_uses_nil (reads_opcode _ [] hlegacy hbytes hopcode) huses

end Misread

/-- What each instruction that has one of the forms is read as, and what its addresses lead to. -/
theorem encodeInstr_spec (frame : Frame) (instr : Instruction) (haccepted : instr.Accepted)
    (actions : List Action) (h : encodeInstr frame instr = some actions) :
    (Reads actions (operandsOf frame instr) ↔ instr.misread = false) ∧
      ((instr.opcode = .MOV → ∀ dst, instr.operands[0]? = some dst → dst.size ∈ [1, 2, 4, 8]) →
        (Accesses actions ↔ instr.missesImmediate = false)) := by
  obtain ⟨opcode, operands⟩ := instr
  obtain ⟨hform, hextension⟩ := haccepted
  have hbasic : ∀ (digit : RegCode) (form : Byte), (digit, form) ∈ basicInstrs →
      HasForm (signatures .ADD) operands →
      encodeBasicInstr frame (basicInstrOpcodes digit form) ⟨opcode, operands⟩ = some actions →
      ∀ {p : Prop}, (Reads actions (shown frame operands) ↔ false = false) ∧
        (p → (Accesses actions ↔ operationMisses operands = false)) := by
    intro digit form hmem hform h p
    obtain ⟨hreads, haccesses⟩ := encodeBasicInstr_spec (basicInstrOpcodes_readable hmem) hform h
    exact ⟨iff_of_true hreads rfl, fun _ ↦ haccesses⟩
  cases opcode
  case MOV =>
    obtain ⟨hreads, haccesses⟩ := encodeMov_spec hform h
    exact ⟨iff_of_true hreads rfl, fun hsize ↦ iff_of_true (haccesses (hsize rfl)) rfl⟩
  case MOVSX =>
    obtain ⟨hreads, haccesses⟩ := encodeMovsx_spec hform (hextension rfl) h
    exact ⟨hreads, fun _ ↦ iff_of_true haccesses rfl⟩
  case MOVZX =>
    obtain ⟨hreads, haccesses⟩ := encodeMovzx_spec hform h
    exact ⟨hreads, fun _ ↦ iff_of_true haccesses rfl⟩
  case CALL =>
    obtain ⟨hreads, haccesses⟩ := encodeCall_spec hform h
    exact ⟨hreads, fun _ ↦ iff_of_true haccesses rfl⟩
  case UCOMISD =>
    exact ⟨reads_encodeUcomisd hform h, fun _ ↦ iff_of_true (accesses_encodeUcomisd hform h) rfl⟩
  case ADD => exact hbasic 0 0x00 (by decide) hform h
  case SUB => exact hbasic 5 0x28 (by decide) hform h
  case AND => exact hbasic 4 0x20 (by decide) hform h
  case OR => exact hbasic 1 0x08 (by decide) hform h
  case XOR => exact hbasic 6 0x30 (by decide) hform h
  case CMP => exact hbasic 7 0x38 (by decide) hform h
  case SHL | SHR | SAR =>
    obtain ⟨hreads, haccesses⟩ := encodeShift_spec _ (by decide) hform h
    exact ⟨iff_of_true hreads rfl, fun _ ↦ haccesses⟩
  case IMUL => exact (encoded_encodeImul hform h).spec rfl rfl
  case DIV | IDIV => exact (encoded_encodeDivision _ (by decide) hform h).spec rfl rfl
  case CMOVE | CMOVNE | CMOVA | CMOVAE | CMOVB | CMOVBE | CMOVG | CMOVGE | CMOVL | CMOVLE =>
    exact (encoded_encodeCmovcc rfl hform h).spec rfl rfl
  case LEA => exact (encoded_encodeLea hform h).spec rfl rfl
  case PUSH => exact (encoded_encodePushPop (Or.inl rfl) hform h).spec rfl rfl
  case POP => exact (encoded_encodePushPop (Or.inr rfl) hform h).spec rfl rfl
  case JMP => exact (encoded_encodeJmp hform h).spec rfl rfl
  case JE | JNE | JA | JAE | JB | JBE | JG | JGE | JL | JLE =>
    exact (encoded_encodeJcc hform h).spec rfl rfl
  case MOVSS => exact (encoded_encodeScalarMove (Or.inr (Or.inr rfl)) hform h).spec rfl rfl
  case MOVSD => exact (encoded_encodeScalarMove (Or.inr (Or.inl rfl)) hform h).spec rfl rfl
  case MOVAPS => exact (encoded_encodePackedMove (Or.inr rfl) hform h).spec rfl rfl
  case MOVUPS => exact (encoded_encodePackedMove (Or.inl rfl) hform h).spec rfl rfl
  case MOVQ => exact (encoded_encodeMovq hform h).spec rfl rfl
  case ADDSS | SUBSS | MULSS | DIVSS | MINSS | MAXSS | SQRTSS | CVTSS2SD =>
    exact (encoded_encodeSseOp (Or.inr (Or.inr rfl)) rfl hform h).spec rfl rfl
  case ADDSD | SUBSD | MULSD | DIVSD | CVTSD2SS =>
    exact (encoded_encodeSseOp (Or.inr (Or.inl rfl)) rfl hform h).spec rfl rfl
  case XORPS => exact (encoded_encodeXorps hform h).spec rfl rfl
  case XORPD => exact (encoded_encodeXorpd hform h).spec rfl rfl
  case UCOMISS => exact (encoded_encodeUcomiss hform h).spec rfl rfl
  case CVTSI2SS => exact (encoded_encodeSseCvt .sse .general (by decide) (by decide)
      (Or.inr (Or.inr rfl)) rfl hform h).spec rfl rfl
  case CVTSI2SD => exact (encoded_encodeSseCvt .sse .general (by decide) (by decide)
      (Or.inr (Or.inl rfl)) rfl hform h).spec rfl rfl
  case CVTSS2SI => exact (encoded_encodeSseCvt .general .sse (by decide) (by decide)
      (Or.inr (Or.inr rfl)) rfl hform h).spec rfl rfl
  case CVTSD2SI => exact (encoded_encodeSseCvt .general .sse (by decide) (by decide)
      (Or.inr (Or.inl rfl)) rfl hform h).spec rfl rfl
  case CWD =>
    obtain rfl := some.inj h
    exact (encoded_nothing none (Or.inr rfl) hform rfl rfl
      (.one 0x99 (by decide) (by decide) rfl)).spec rfl rfl
  case CDQ =>
    obtain rfl := some.inj h
    exact (encoded_nothing none (Or.inl rfl) hform rfl rfl
      (.one 0x99 (by decide) (by decide) rfl)).spec rfl rfl
  case CQO =>
    obtain rfl := some.inj h
    exact (encoded_nothing (some { w := true }) (Or.inl rfl) hform rfl rfl
      (.one 0x99 (by decide) (by decide) rfl)).spec rfl rfl
  case RET =>
    obtain rfl := some.inj h
    exact (encoded_nothing none (Or.inl rfl) hform rfl rfl
      (.one 0xC3 (by decide) (by decide) rfl)).spec rfl rfl
  all_goals cases h

/-- An instruction that has one of the forms decodes to its operands exactly when it is none of
those that are misread. -/
theorem reads_iff_not_misread (frame : Frame) (instr : Instruction) (haccepted : instr.Accepted)
    (actions : List Action) (h : encodeInstr frame instr = some actions) :
    Reads actions (operandsOf frame instr) ↔ instr.misread = false :=
  (encodeInstr_spec frame instr haccepted actions h).1

/-- The comparison of two of the first eight registers, whatever comes after it. -/
theorem reads_iff_not_misread_ucomisd :
    (⟨.UCOMISD, [⟨.register XMM0, 8⟩, ⟨.register (XMM0 + 7), 8⟩]⟩ : Instruction).Accepted ∧
      (Reads [.write [0x66], .write [0x0F], .write [0x2E], .write [0xC7]]
        (operandsOf (fun _ ↦ 0) ⟨.UCOMISD, [⟨.register XMM0, 8⟩, ⟨.register (XMM0 + 7), 8⟩]⟩) ↔
      (⟨.UCOMISD, [⟨.register XMM0, 8⟩, ⟨.register (XMM0 + 7), 8⟩]⟩ : Instruction).misread
        = false) := by
  have haccepted :
      (⟨.UCOMISD, [⟨.register XMM0, 8⟩, ⟨.register (XMM0 + 7), 8⟩]⟩ : Instruction).Accepted :=
    { form := ⟨[.sse, .sse], by decide, .cons ⟨XMM0, rfl, by decide, by decide⟩
        (.cons ⟨XMM0 + 7, rfl, by decide, by decide⟩ .nil)⟩
      extension := nofun }
  exact ⟨haccepted, reads_iff_not_misread _ _ haccepted _ rfl⟩

/-- A call of the function in `R8` calls the one in `RAX`. -/
theorem not_reads_call_r8 : ¬∀ (frame : Frame) (instr : Instruction), instr.Accepted →
    ∀ actions, encodeInstr frame instr = some actions → Reads actions (operandsOf frame instr) := by
  intro hall
  have haccepted : (⟨.CALL, [⟨.register R8, 8⟩]⟩ : Instruction).Accepted :=
    { form := ⟨[.general], by decide, .cons ⟨R8, rfl, by decide⟩ .nil⟩
      extension := nofun }
  obtain ⟨head, tail, hdecode, hoperands⟩ := hall (fun _ ↦ 0) _ haccepted _ rfl []
  have hread : decodeHead [0xFF, 0xD0]
      = some (⟨{}, 0xFF, 2, [.reg (.general 0)], .none⟩, []) := by decide
  obtain ⟨rfl, -⟩ := Prod.mk.injEq .. ▸ some.inj (hread.symm.trans hdecode)
  exact absurd hoperands (by decide)

/-! ## Addresses relative to the next instruction -/

/-- Every displacement that is relocated leads to its symbol exactly when no immediate is missed. -/
theorem accesses_iff_not_missesImmediate (frame : Frame) (instr : Instruction)
    (haccepted : instr.Accepted)
    (hsize : instr.opcode = .MOV → ∀ dst, instr.operands[0]? = some dst → dst.size ∈ [1, 2, 4, 8])
    (actions : List Action) (h : encodeInstr frame instr = some actions) :
    Accesses actions ↔ instr.missesImmediate = false :=
  (encodeInstr_spec frame instr haccepted actions h).2 hsize

/-- The store of an immediate, whatever is in memory after it. -/
theorem accesses_iff_not_missesImmediate_mov :
    (⟨.MOV, [⟨.symbolDeref ⟨3, .REL32⟩, 2⟩, ⟨.intImmediate ⟨5, false⟩, 2⟩]⟩ :
      Instruction).Accepted ∧
      (Accesses [.write [0x66], .write [0x41], .write [0xC7], .write [0x05],
        .use 3 .REL32 (-2) false, .write [5, 0]] ↔
      (⟨.MOV, [⟨.symbolDeref ⟨3, .REL32⟩, 2⟩, ⟨.intImmediate ⟨5, false⟩, 2⟩]⟩ :
        Instruction).missesImmediate = false) := by
  have haccepted : (⟨.MOV, [⟨.symbolDeref ⟨3, .REL32⟩, 2⟩,
      ⟨.intImmediate ⟨5, false⟩, 2⟩]⟩ : Instruction).Accepted :=
    { form := ⟨[.memory, .immediate], by decide, .cons (Or.inr (Or.inl ⟨_, rfl⟩))
        (.cons (Or.inl ⟨_, rfl⟩) .nil)⟩
      extension := nofun }
  refine ⟨haccepted, accesses_iff_not_missesImmediate (fun _ ↦ 0) _ haccepted ?_ _ rfl⟩
  rintro - dst hdst
  obtain rfl := some.inj hdst
  decide

/-- `ADD DWORD PTR [rip + symbol], 1` accesses the byte after the first of the symbol. -/
theorem not_accesses_add : ¬∀ (frame : Frame) (instr : Instruction), instr.Accepted →
    (instr.opcode = .MOV → ∀ dst, instr.operands[0]? = some dst → dst.size ∈ [1, 2, 4, 8]) →
    ∀ actions, encodeInstr frame instr = some actions → Accesses actions := by
  intro hall
  have haccepted : (⟨.ADD, [⟨.symbolDeref ⟨3, .REL32⟩, 4⟩,
      ⟨.intImmediate ⟨1, false⟩, 4⟩]⟩ : Instruction).Accepted :=
    { form := ⟨[.memory, .immediate], by decide, .cons (Or.inr (Or.inl ⟨_, rfl⟩))
        (.cons (Or.inl ⟨_, rfl⟩) .nil)⟩
      extension := nofun }
  have haccesses : Accesses [.write [0x41], .write [0x83], .write [0x05], .use 3 .REL32 0 false,
      .write [1]] := hall (fun _ ↦ 0) _ haccepted nofun _ rfl
  obtain ⟨length, hlength, hdisplacement⟩ :=
    haccesses ⟨3, .REL32, 0⟩ (by decide) (by decide) []
  have height : instrLength [0x41, 0x83, 0x05, 0, 0, 0, 0, 1] = some 8 := by decide
  obtain rfl : 8 = length := some.inj (height.symm.trans hlength)
  exact absurd (hdisplacement 0 0) (by decide)

end Banjo.Target.X8664.Encoder
