import Banjo.Emit.BinaryBuilder.Layout

/-!
# Assembling the text

The symbols of the functions are numbered before they are encoded, and encoding attaches them one
after the other, each where the text is at. What has been attached stays, since later symbols have
later numbers, and a branch is always followed by the end of its function.
-/

open List Option

namespace Banjo.Emit

open WriteBuffer OptionLists

def isText (kind : BinSymbolKind) : Bool := kind = .TEXT_FUNC ∨ kind = .TEXT_LABEL

/-- How many symbols a function has: itself, its labels and its end. -/
def symbolCount (func : Mcode.Function) : ℕ :=
  (func.blocks.filter fun block ↦ block.label ≠ "").length + 2

def SymbolDef.mark (symbolDef : SymbolDef) : ℕ × ℕ := (symbolDef.sliceIndex, symbolDef.localOffset)

/-! ## Sections -/

/-- What is in the slices while they are written, the current one being no branch. -/
structure Tidy (section_ : SectionBuilder) : Prop where
  shaped : ∀ slice ∈ section_.closed, Shaped slice
  cur : section_.cur.relaxableBranch = false
  curUses : ∀ use ∈ section_.cur.uses, use.localOffset + 4 ≤ section_.cur.buffer.length

namespace Tidy

variable {section_ : SectionBuilder}

theorem empty : Tidy {} where
  shaped _ h := absurd h not_mem_nil
  cur := rfl
  curUses _ h := absurd h not_mem_nil

theorem shaped_cur (h : Tidy section_) : Shaped section_.cur where
  branch hbranch := by
    rw [h.cur] at hbranch
    cases hbranch
  uses _ := h.curUses

theorem shaped_slices (h : Tidy section_) : ∀ slice ∈ section_.slices, Shaped slice := by
  intro slice hslice
  rcases mem_append.mp hslice with hslice | hslice
  · exact h.shaped slice hslice
  · rw [mem_singleton.mp hslice]
    exact h.shaped_cur

theorem write (h : Tidy section_) (bytes : List Byte) : Tidy (section_.write bytes) where
  shaped := h.shaped
  cur := h.cur
  curUses use huse := by
    have hold := h.curUses use huse
    rw [SectionBuilder.write, length_append]
    omega

/-- A use and the bytes it is for. -/
theorem use (h : Tidy section_) (index : ℕ) (kind : BinSymbolUseKind) (addend : ℤ)
    {bytes : List Byte} (hbytes : 4 ≤ bytes.length) :
    Tidy ((section_.addSymbolUse index kind addend).write bytes) where
  shaped := h.shaped
  cur := h.cur
  curUses use huse := by
    rw [SectionBuilder.write, length_append]
    rcases mem_append.mp huse with huse | huse
    · have hold := h.curUses use huse
      change use.localOffset + 4 ≤ section_.cur.buffer.length + bytes.length
      omega
    · rw [mem_singleton.mp huse]
      change section_.cur.buffer.length + 4 ≤ section_.cur.buffer.length + bytes.length
      omega

theorem branch (h : Tidy section_) {opcode : Byte} (hshort : isShort opcode = true) (target : ℕ) :
    Tidy (section_.branch opcode target) where
  shaped := by
    intro slice hslice
    rcases mem_append.mp hslice with hslice | hslice
    · exact h.shaped_slices slice hslice
    · rw [mem_singleton.mp hslice]
      refine ⟨fun _ ↦ ⟨_, opcode, [0], rfl, rfl, Or.inl ⟨hshort, rfl, rfl⟩⟩, fun hno ↦ by cases hno⟩
  cur := rfl
  curUses _ hmem := absurd hmem not_mem_nil

end Tidy

theorem Condition.isShort (condition : Condition) : isShort condition.opcode = true := by
  cases condition <;> rfl

namespace BinaryBuilder

/-! ## Attaching symbols -/

/-- The symbols from `n` on up to `last` are still to be attached. -/
structure Encoding (last : ℕ) (builder : BinaryBuilder) (n : ℕ) : Prop where
  tidy : Tidy builder.text
  textDefs : ∀ {j}, n ≤ j → j < last →
    ∃ symbolDef, builder.defs[j]? = some symbolDef ∧ isText symbolDef.kind = true
  addrTable : ∀ symbolDef ∈ builder.defs, symbolDef.kind = .ADDR_TABLE → symbolDef.mark = (0, 0)

/-- The definitions below `n` are the same. -/
def Keeps (n : ℕ) (builder builder' : BinaryBuilder) : Prop :=
  ∀ j symbolDef, j < n → builder.defs[j]? = some symbolDef → builder'.defs[j]? = some symbolDef

section Encoding

variable {last n k : ℕ} {builder builder' builder'' : BinaryBuilder}

theorem Keeps.refl (n : ℕ) (builder : BinaryBuilder) : Keeps n builder builder :=
  fun _ _ _ h ↦ h

theorem Keeps.trans (h : Keeps n builder builder') (h' : Keeps k builder' builder'')
    (hle : n ≤ k) : Keeps n builder builder'' :=
  fun j symbolDef hj hdef ↦ h' j symbolDef (hj.trans_le hle) (h j symbolDef hj hdef)

/-- Attaching the next symbol. -/
theorem Encoding.attach (h : Encoding last builder n) (hn : n < last) :
    Encoding last (builder.attachSymbolDef n) (n + 1) ∧
      Keeps n builder (builder.attachSymbolDef n) ∧
      ∃ symbolDef, (builder.attachSymbolDef n).defs[n]? = some symbolDef ∧
        isText symbolDef.kind = true ∧ symbolDef.mark = builder.text.mark := by
  obtain ⟨symbolDef, hdef, htext⟩ := h.textDefs le_rfl hn
  have hne : ∀ {j}, j ≠ n → (builder.attachSymbolDef n).defs[j]? = builder.defs[j]? := by
    intro j hj
    change (builder.defs.modify n _)[j]? = _
    exact getElem?_modify_ne _ _ (Ne.symm hj)
  have hself : (builder.attachSymbolDef n).defs[n]? = some { symbolDef with
      sliceIndex := builder.text.mark.1, localOffset := builder.text.mark.2 } := by
    change (builder.defs.modify n _)[n]? = _
    rw [getElem?_modify_eq, hdef]
    rfl
  refine ⟨⟨h.tidy, fun hj hlast ↦ ?_, ?_⟩, fun j symbolDef hj hdef ↦ ?_, _, hself, htext, rfl⟩
  · rw [hne (by omega)]
    exact h.textDefs (by omega) hlast
  · intro other hother hkind
    obtain ⟨j, hj⟩ := getElem?_of_mem hother
    by_cases hjn : j = n
    · -- the symbol is one of the text
      rw [hjn, hself] at hj
      obtain rfl := some.inj hj
      change symbolDef.kind = _ at hkind
      rw [hkind] at htext
      cases htext
    · rw [hne hjn] at hj
      exact h.addrTable other (mem_of_getElem? hj) hkind
  · rw [hne (by omega)]
    exact hdef

/-- A label at the end of the definitions. -/
theorem Encoding.addEmptyLabel (h : Encoding last builder n) :
    Encoding last builder.addEmptyLabel n := by
  refine ⟨h.tidy, fun hj hlast ↦ ?_, ?_⟩
  · obtain ⟨symbolDef, hdef, htext⟩ := h.textDefs hj hlast
    exact ⟨symbolDef, getElem?_append_left (List.getElem?_eq_some_iff.mp hdef).1 |>.trans hdef,
      htext⟩
  · intro symbolDef hdef hkind
    rcases mem_append.mp hdef with hdef | hdef
    · exact h.addrTable symbolDef hdef hkind
    · rw [mem_singleton.mp hdef] at hkind
      cases hkind

theorem keeps_addEmptyLabel (n : ℕ) (builder : BinaryBuilder) :
    Keeps n builder builder.addEmptyLabel :=
  fun _ _ _ hdef ↦ getElem?_append_left (List.getElem?_eq_some_iff.mp hdef).1 |>.trans hdef

/-- What an action does: it writes to the text or adds a label. -/
theorem Encoding.action {frame : UnwindInfo} (h : Encoding last builder n) (action : Action) :
    Encoding last (encodeAction (builder, frame) action).1 n ∧
      (∀ k, Keeps k builder (encodeAction (builder, frame) action).1) ∧
      (encodeAction (builder, frame) action).1.unwindInfo = builder.unwindInfo ∧
      (encodeAction (builder, frame) action).2.startSymbolIndex = frame.startSymbolIndex := by
  cases action with
  | write bytes =>
    exact ⟨⟨h.tidy.write bytes, h.textDefs, h.addrTable⟩, fun k ↦ Keeps.refl k _, rfl, rfl⟩
  | use target kind addend wide =>
    refine ⟨⟨h.tidy.use target kind addend ?_, h.textDefs, h.addrTable⟩, fun k ↦
      Keeps.refl k _, rfl,
      rfl⟩
    rw [length_replicate]
    split_ifs <;> omega
  | jmp target =>
    exact ⟨⟨h.tidy.branch rfl target, h.textDefs, h.addrTable⟩, fun k ↦ Keeps.refl k _, rfl, rfl⟩
  | jcc condition target =>
    exact ⟨⟨h.tidy.branch condition.isShort target, h.textDefs, h.addrTable⟩,
      fun k ↦ Keeps.refl k _, rfl, rfl⟩
  | allocaStart => exact ⟨h.addEmptyLabel, fun k ↦ keeps_addEmptyLabel k _, rfl, rfl⟩
  | allocaEnd => exact ⟨h.addEmptyLabel, fun k ↦ keeps_addEmptyLabel k _, rfl, rfl⟩
  | pushReg reg => exact ⟨h.addEmptyLabel, fun k ↦ keeps_addEmptyLabel k _, rfl, rfl⟩

theorem Encoding.actions : ∀ (actions : List Action) (state : BinaryBuilder × UnwindInfo),
    Encoding last state.1 n → Encoding last (actions.foldl encodeAction state).1 n ∧
      (∀ k, Keeps k state.1 (actions.foldl encodeAction state).1) ∧
      (actions.foldl encodeAction state).1.unwindInfo = state.1.unwindInfo ∧
      (actions.foldl encodeAction state).2.startSymbolIndex = state.2.startSymbolIndex := by
  intro actions
  induction actions with
  | nil => exact fun state h ↦ ⟨h, fun k ↦ Keeps.refl k _, rfl, rfl⟩
  | cons action rest ih =>
    intro state h
    obtain ⟨builder', frame⟩ := state
    obtain ⟨hnext, hkeeps, hunwind, hstart⟩ := Encoding.action h action
    obtain ⟨hrest, hkeeps', hunwind', hstart'⟩ := ih (encodeAction (builder', frame) action) hnext
    exact ⟨hrest, fun k ↦ (hkeeps k).trans (hkeeps' k) le_rfl, hunwind'.trans hunwind,
      hstart'.trans hstart⟩

/-- The blocks attach as many symbols as they have labels. -/
theorem Encoding.blocks : ∀ (blocks : List Mcode.BasicBlock)
    (state : (BinaryBuilder × UnwindInfo) × ℕ), Encoding last state.1.1 state.2 →
    state.2 + (blocks.filter fun block ↦ block.label ≠ "").length ≤ last →
    Encoding last (blocks.foldl encodeBlock state).1.1 (blocks.foldl encodeBlock state).2 ∧
      (blocks.foldl encodeBlock state).2
        = state.2 + (blocks.filter fun block ↦ block.label ≠ "").length ∧
      Keeps state.2 state.1.1 (blocks.foldl encodeBlock state).1.1 ∧
      (blocks.foldl encodeBlock state).1.1.unwindInfo = state.1.1.unwindInfo ∧
      (blocks.foldl encodeBlock state).1.2.startSymbolIndex = state.1.2.startSymbolIndex := by
  intro blocks
  induction blocks with
  | nil => exact fun state h _ ↦ ⟨h, rfl, Keeps.refl _ _, rfl, rfl⟩
  | cons block rest ih =>
    intro state h hlast
    rw [foldl_cons]
    by_cases hlabel : block.label = ""
    · have hstate : encodeBlock state block = (block.actions.foldl encodeAction state.1, state.2) :=
        if_pos hlabel
      rw [filter_cons_of_neg (by simpa using hlabel)] at hlast ⊢
      obtain ⟨hnext, hkeeps, hunwind, hstart⟩ := Encoding.actions block.actions state.1 h
      rw [hstate]
      obtain ⟨hrest, hcount, hkeeps', hunwind', hstart'⟩ :=
        ih (block.actions.foldl encodeAction state.1, state.2) hnext hlast
      exact ⟨hrest, hcount, (hkeeps _).trans hkeeps' le_rfl, hunwind'.trans hunwind,
        hstart'.trans hstart⟩
    · have hstate : encodeBlock state block
          = (block.actions.foldl encodeAction (state.1.1.attachSymbolDef state.2, state.1.2),
            state.2 + 1) := if_neg hlabel
      rw [filter_cons_of_pos (by simpa using hlabel), length_cons] at hlast ⊢
      obtain ⟨hattach, hkeeps, -⟩ := h.attach (by omega)
      obtain ⟨hnext, hkeeps', hunwind, hstart⟩ :=
        Encoding.actions block.actions (state.1.1.attachSymbolDef state.2, state.1.2) hattach
      rw [hstate]
      obtain ⟨hrest, hcount, hkeeps'', hunwind', hstart'⟩ := ih
        (block.actions.foldl encodeAction (state.1.1.attachSymbolDef state.2, state.1.2),
          state.2 + 1) hnext (by dsimp only; omega)
      refine ⟨hrest, ?_, ?_, hunwind'.trans hunwind, hstart'.trans hstart⟩
      · rw [hcount]
        dsimp only
        omega
      · exact (hkeeps.trans (hkeeps' _) le_rfl).trans hkeeps'' (Nat.le_succ _)

/-- Encoding a function: its first symbol is attached where the text is at before, and its last one
where it is at after. -/
theorem Encoding.func {func : Mcode.Function} (h : Encoding last builder n)
    (hlast : n + symbolCount func ≤ last) (heq : encodeFunc (builder, n) func = (builder', k)) :
    k = n + symbolCount func ∧ Encoding last builder' k ∧ Keeps n builder builder' ∧
      (∃ frame, builder'.unwindInfo = builder.unwindInfo ++ [frame] ∧
        frame.startSymbolIndex = n ∧ frame.endSymbolIndex = k - 1) ∧
      (∃ first, builder'.defs[n]? = some first ∧ isText first.kind = true ∧
        first.mark = builder.text.mark) ∧
      (∃ final, builder'.defs[k - 1]? = some final ∧ isText final.kind = true ∧
        final.mark = builder'.text.mark) := by
  rw [symbolCount] at hlast ⊢
  rw [encodeFunc, Prod.mk.injEq] at heq
  obtain ⟨rfl, rfl⟩ := heq
  dsimp only
  obtain ⟨hattach, hkeeps, first, hfirst, hfirsttext, hfirstmark⟩ := h.attach (by omega)
  obtain ⟨hbody, hcount, hkeeps', hunwind, hstart⟩ := Encoding.blocks func.blocks
    ((builder.attachSymbolDef n, { startSymbolIndex := n, allocaSize := func.allocSize }), n + 1)
    hattach (by dsimp only; omega)
  revert hbody hcount hkeeps' hunwind hstart
  generalize func.blocks.foldl encodeBlock
    ((builder.attachSymbolDef n, { startSymbolIndex := n, allocaSize := func.allocSize }), n + 1)
    = body
  intro hbody hcount hkeeps' hunwind hstart
  dsimp only at hbody hcount hkeeps' hunwind hstart
  obtain ⟨hend, hkeepsend, final, hfinal, hfinaltext, hfinalmark⟩ := hbody.attach (by omega)
  refine ⟨by omega, ⟨hend.tidy, hend.textDefs, hend.addrTable⟩, ?_,
    ⟨{ body.1.2 with endSymbolIndex := body.2 }, ?_, hstart, rfl⟩, ?_, ?_⟩
  · exact (hkeeps.trans hkeeps' (Nat.le_succ n)).trans hkeepsend (by omega)
  · change body.1.1.unwindInfo ++ _ = builder.unwindInfo ++ _
    rw [hunwind]
    rfl
  · exact ⟨first, hkeepsend _ _ (by omega) (hkeeps' _ _ (Nat.lt_succ_self n) hfirst), hfirsttext,
      hfirstmark⟩
  · exact ⟨final, hfinal, hfinaltext, hfinalmark⟩

/-- Encoding functions keeps what has been attached and the frames there are. -/
theorem Encoding.funcs : ∀ (funcs : List Mcode.Function) (state : BinaryBuilder × ℕ),
    Encoding last state.1 state.2 → state.2 + (funcs.map symbolCount).sum ≤ last →
    Encoding last (funcs.foldl encodeFunc state).1 (funcs.foldl encodeFunc state).2 ∧
      (funcs.foldl encodeFunc state).2 = state.2 + (funcs.map symbolCount).sum ∧
      Keeps state.2 state.1 (funcs.foldl encodeFunc state).1 ∧
      ∃ frames, (funcs.foldl encodeFunc state).1.unwindInfo = state.1.unwindInfo ++ frames ∧
        frames.length = funcs.length := by
  intro funcs
  induction funcs with
  | nil => exact fun state h _ ↦ ⟨h, rfl, Keeps.refl _ _, [], (append_nil _).symm, rfl⟩
  | cons func rest ih =>
    intro state h hlast
    rw [map_cons, sum_cons] at hlast ⊢
    obtain ⟨builder, n⟩ := state
    obtain ⟨builder', k, heq⟩ : ∃ builder' k, encodeFunc (builder, n) func = (builder', k) :=
      ⟨_, _, rfl⟩
    obtain ⟨rfl, hnext, hkeeps, ⟨frame, hframe, -⟩, -⟩ := h.func (by dsimp only at hlast; omega) heq
    obtain ⟨hrest, hcount', hkeeps', frames, hframes, hlength⟩ :=
      ih (builder', n + symbolCount func) hnext (by dsimp only at hlast ⊢; omega)
    rw [foldl_cons, heq]
    refine ⟨hrest, ?_, hkeeps.trans hkeeps' (Nat.le_add_right _ _), frame :: frames, ?_, ?_⟩
    · rw [hcount', Nat.add_assoc]
    · rw [hframes, hframe, append_assoc]
      rfl
    · rw [length_cons, length_cons, hlength]

end Encoding

/-! ## Before the functions -/

/-- Only definitions are added, and the data and the address table are written. -/
structure Adds (builder builder' : BinaryBuilder) (more : List SymbolDef) : Prop where
  text : builder'.text = builder.text
  unwindInfo : builder'.unwindInfo = builder.unwindInfo
  defs : builder'.defs = builder.defs ++ more

section Prepare

variable {builder builder' builder'' : BinaryBuilder} {more more' : List SymbolDef}

theorem Adds.refl (builder : BinaryBuilder) : Adds builder builder [] :=
  ⟨rfl, rfl, (append_nil _).symm⟩

theorem Adds.trans (h : Adds builder builder' more) (h' : Adds builder' builder'' more') :
    Adds builder builder'' (more ++ more') :=
  ⟨h'.text.trans h.text, h'.unwindInfo.trans h.unwindInfo, by rw [h'.defs, h.defs, append_assoc]⟩

theorem adds_externalSymbols (mod : Mcode.Module) : ∃ more,
    Adds builder (generateExternalSymbols builder mod) more ∧
      ∀ symbolDef ∈ more, symbolDef.kind = .UNKNOWN := by
  refine foldl_done (P := fun _ builder' ↦ ∃ more, Adds builder builder' more ∧
    ∀ symbolDef ∈ more, symbolDef.kind = .UNKNOWN) ?_ mod.externalSymbols [] builder ?_
  · rintro done name builder' ⟨more, hadds, hkinds⟩
    refine ⟨_, hadds.trans ⟨rfl, rfl, rfl⟩, fun symbolDef hdef ↦ ?_⟩
    rcases mem_append.mp hdef with hdef | hdef
    · exact hkinds symbolDef hdef
    · rw [mem_singleton.mp hdef]
  · exact ⟨[], Adds.refl builder, fun _ h ↦ absurd h not_mem_nil⟩

theorem adds_addDefIn (builder : BinaryBuilder) (section_ : SectionBuilder) (name : String)
    (kind : BinSymbolKind) (global : Bool) :
    ∃ symbolDef, Adds builder (builder.addDefIn section_ name kind global) [symbolDef] ∧
      symbolDef.kind = kind ∧ symbolDef.mark = section_.mark :=
  ⟨_, ⟨rfl, rfl, rfl⟩, rfl, rfl⟩

/-- The symbols of a function, counted. -/
theorem adds_funcSymbols (builder : BinaryBuilder) (func : Mcode.Function) : ∃ more,
    Adds builder (builder.addFuncSymbols func) more ∧ more.length = symbolCount func ∧
      ∀ symbolDef ∈ more, isText symbolDef.kind = true := by
  have hblocks : ∀ (blocks : List Mcode.BasicBlock) (builder : BinaryBuilder), ∃ more,
      Adds builder (blocks.foldl (fun builder block ↦ if block.label = "" then builder
        else builder.addDefIn builder.text block.label .TEXT_LABEL false) builder) more ∧
      more.length = (blocks.filter fun block ↦ block.label ≠ "").length ∧
      ∀ symbolDef ∈ more, isText symbolDef.kind = true := by
    intro blocks
    induction blocks with
    | nil => exact fun builder ↦ ⟨[], Adds.refl builder, rfl, fun _ h ↦ absurd h not_mem_nil⟩
    | cons block rest ih =>
      intro builder
      rw [foldl_cons]
      by_cases hlabel : block.label = ""
      · rw [if_pos hlabel, filter_cons_of_neg (by simpa using hlabel)]
        exact ih builder
      · rw [if_neg hlabel, filter_cons_of_pos (by simpa using hlabel)]
        obtain ⟨symbolDef, hadds, hkind, -⟩ :=
          adds_addDefIn builder builder.text block.label .TEXT_LABEL false
        obtain ⟨more, hmore, hlength, htext⟩ :=
          ih (builder.addDefIn builder.text block.label .TEXT_LABEL false)
        refine ⟨_, hadds.trans hmore, ?_, fun other hother ↦ ?_⟩
        · rw [length_append, hlength, length_singleton, length_cons, Nat.add_comm]
        · rcases mem_append.mp hother with hother | hother
          · rw [mem_singleton.mp hother, hkind]
            rfl
          · exact htext other hother
  obtain ⟨symbolDef, hadds, hkind, -⟩ :=
    adds_addDefIn builder builder.text func.name .TEXT_FUNC true
  obtain ⟨more, hmore, hlength, htext⟩ :=
    hblocks func.blocks (builder.addDefIn builder.text func.name .TEXT_FUNC true)
  refine ⟨_, (hadds.trans hmore).trans ⟨rfl, rfl, rfl⟩, ?_, fun other hother ↦ ?_⟩
  · rw [symbolCount, length_append, length_append, hlength, length_singleton, length_singleton]
    omega
  · rcases mem_append.mp hother with hother | hother
    · rcases mem_append.mp hother with hother | hother
      · rw [mem_singleton.mp hother, hkind]
        rfl
      · exact htext other hother
    · rw [mem_singleton.mp hother]
      rfl

theorem adds_functions (funcs : List Mcode.Function) (builder : BinaryBuilder) : ∃ more,
    Adds builder (funcs.foldl addFuncSymbols builder) more ∧
      more.length = (funcs.map symbolCount).sum ∧
      ∀ symbolDef ∈ more, isText symbolDef.kind = true := by
  refine foldl_done (P := fun done builder' ↦ ∃ more, Adds builder builder' more ∧
    more.length = (done.map symbolCount).sum ∧
    ∀ symbolDef ∈ more, isText symbolDef.kind = true) ?_ funcs [] builder ?_
  · rintro done func builder' ⟨more, hadds, hlength, htext⟩
    obtain ⟨more', hadds', hlength', htext'⟩ := adds_funcSymbols builder' func
    refine ⟨_, hadds.trans hadds', ?_, fun symbolDef hdef ↦ ?_⟩
    · rw [length_append, map_append, sum_append, hlength, hlength']
      simp
    · rcases mem_append.mp hdef with hdef | hdef
      · exact htext symbolDef hdef
      · exact htext' symbolDef hdef
  · exact ⟨[], Adds.refl builder, rfl, fun _ h ↦ absurd h not_mem_nil⟩

variable {mod : Mcode.Module} {toF32 : Double → BitVec 32}

theorem adds_generateGlobal
    {global : Mcode.Global} (h : generateGlobal toF32 mod builder global = some builder') :
    ∃ symbolDef, Adds builder builder' [symbolDef] ∧ symbolDef.kind = .DATA_LABEL := by
  rw [generateGlobal] at h
  obtain ⟨symbolDef, hadds, hkind, -⟩ := adds_addDefIn
    (builder.writeData (replicate (padding builder.data.cur.buffer.length global.alignment) 0))
    (builder.writeData
      (replicate (padding builder.data.cur.buffer.length global.alignment) 0)).data
    global.name .DATA_LABEL (global.name ∈ mod.globalSymbols)
  have hdone : ∀ {data}, Adds builder { (BinaryBuilder.addDefIn (builder.writeData
      (replicate (padding builder.data.cur.buffer.length global.alignment) 0))
      (builder.writeData
        (replicate (padding builder.data.cur.buffer.length global.alignment) 0)).data
      global.name .DATA_LABEL (global.name ∈ mod.globalSymbols)) with data := data } [symbolDef] :=
    ⟨hadds.text, hadds.unwindInfo, hadds.defs⟩
  refine ⟨symbolDef, ?_, hkind⟩
  cases hvalue : global.value with
  | symbolRef name =>
    rw [hvalue] at h
    obtain ⟨index, -, rfl⟩ := map_eq_some_iff.mp h
    exact hdone
  | integer value =>
    rw [hvalue] at h
    dsimp only at h
    split_ifs at h
    obtain rfl := some.inj h
    exact hdone
  | floatingPoint value =>
    rw [hvalue] at h
    dsimp only at h
    split at h
    · obtain rfl := some.inj h
      exact hdone
    · obtain rfl := some.inj h
      exact hdone
    · cases h
  | _ =>
    rw [hvalue] at h
    obtain rfl := some.inj h
    exact hdone

theorem adds_globals (h : mod.globals.foldlM (generateGlobal toF32 mod) builder = some builder') :
    ∃ more, Adds builder builder' more ∧ ∀ symbolDef ∈ more, symbolDef.kind = .DATA_LABEL := by
  refine foldlM_done (P := fun _ builder' ↦ ∃ more, Adds builder builder' more ∧
    ∀ symbolDef ∈ more, symbolDef.kind = .DATA_LABEL) ?_ mod.globals [] builder builder' ?_ h
  · rintro done global before after ⟨more, hadds, hkinds⟩ hstep
    obtain ⟨symbolDef, hadds', hkind⟩ := adds_generateGlobal hstep
    refine ⟨_, hadds.trans hadds', fun other hother ↦ ?_⟩
    rcases mem_append.mp hother with hother | hother
    · exact hkinds other hother
    · rw [mem_singleton.mp hother, hkind]
  · exact ⟨[], Adds.refl builder, fun _ h ↦ absurd h not_mem_nil⟩

theorem adds_addrTable {entries : Option (List String)}
    (h : builder.generateAddrTable entries = some builder') :
    ∃ more, Adds builder builder' more ∧
      ∀ symbolDef ∈ more, symbolDef.kind = .ADDR_TABLE ∧ symbolDef.mark = (0, 0) := by
  cases entries with
  | none =>
    obtain rfl := some.inj h
    exact ⟨[], Adds.refl builder, fun _ h ↦ absurd h not_mem_nil⟩
  | some entries =>
    rw [generateAddrTable, map_eq_some_iff] at h
    obtain ⟨table, -, rfl⟩ := h
    refine ⟨_, ⟨rfl, rfl, rfl⟩, fun symbolDef hdef ↦ ?_⟩
    rw [mem_singleton.mp hdef]
    exact ⟨rfl, rfl⟩

/-- The symbols of the functions are there before they are encoded. -/
theorem prepare_spec {first : ℕ} (h : prepare toF32 mod = some (builder, first)) :
    Encoding (first + (mod.functions.map symbolCount).sum) builder first ∧
      builder.text = {} ∧ builder.unwindInfo = [] := by
  rw [prepare] at h
  obtain ⟨withGlobals, hglobals, h⟩ := bind_eq_some_iff.mp h
  obtain ⟨withTable, htable, h⟩ := bind_eq_some_iff.mp h
  obtain ⟨rfl, rfl⟩ := Prod.mk.inj (some.inj h)
  obtain ⟨externals, hexternals, hunknown⟩ :
      ∃ more, Adds {} (generateExternalSymbols {} mod) more ∧
        ∀ symbolDef ∈ more, symbolDef.kind = .UNKNOWN := adds_externalSymbols mod
  obtain ⟨texts, htexts, hlength, htext⟩ :=
    adds_functions mod.functions (generateExternalSymbols {} mod)
  obtain ⟨globals, hglobals, hdata⟩ := adds_globals hglobals
  obtain ⟨tables, htables, haddr⟩ := adds_addrTable htable
  have hall := (hexternals.trans htexts).trans (hglobals.trans htables)
  have hfirst : (generateExternalSymbols {} mod).defs = externals := hexternals.defs
  have hdefs : withTable.defs = externals ++ (texts ++ (globals ++ tables)) := by
    rw [hall.defs, append_assoc]
    rfl
  refine ⟨⟨?_, fun hj hlast ↦ ?_, ?_⟩, hall.text, hall.unwindInfo⟩
  · rw [hall.text]
    exact Tidy.empty
  · rw [hfirst] at hj hlast
    rw [hdefs, getElem?_append_right hj, getElem?_append_left (by omega)]
    refine ⟨_, getElem?_eq_getElem (by omega), htext _ (getElem_mem _)⟩
  · intro symbolDef hdef hkind
    rw [hdefs] at hdef
    rcases mem_append.mp hdef with hdef | hdef
    · rw [hunknown symbolDef hdef] at hkind
      cases hkind
    · rcases mem_append.mp hdef with hdef | hdef
      · have := htext symbolDef hdef
        rw [hkind] at this
        cases this
      · rcases mem_append.mp hdef with hdef | hdef
        · rw [hdata symbolDef hdef] at hkind
          cases hkind
        · exact (haddr symbolDef hdef).2

end Prepare

end BinaryBuilder

end Banjo.Emit
