import Banjo.Target.Wasm.WasmSSALowerer

/-!
# The locals of a function

`init_func` numbers the locals: no two registers share one, and the temporaries of the block
parameters are apart from the locals of the registers. Whether they are also apart from the local
of the block index is another matter: the numbers go up from the parameters of the SSA function,
while the block index is numbered from the parameters of the WebAssembly function, which has one
more when the function is variadic.
-/

open List

namespace Banjo.Target.Wasm

open SSA (SSAType Primitive VirtualRegister BasicBlock)

/-- No local is given to a register. -/
def NoRegisters (func : SSA.Function) : Prop :=
  ∀ entry ∈ func.blocks, entry.2.paramRegs = [] ∧
    ∀ instr ∈ entry.2.instrs, instr.dest = none ∨ instr.opcode = .ALLOCA

namespace FuncData

/-- The locals a branch and the dispatcher write to. -/
def Scratch (data : FuncData) (i : ℕ) : Prop :=
  i = data.blockIndexLocal ∨ i ∈ data.blockArgTmpLocals.map Prod.snd

/-- The locals given to registers so far: their numbers are from a range that grows with the list
of locals, and none is given twice. -/
structure Numbered (params base : ℕ) (data : FuncData) : Prop where
  base_le : base ≤ params + data.locals.length
  localBounds : ∀ p ∈ data.vregs2locals, base ≤ p.2 ∧ p.2 < params + data.locals.length
  tmpBounds : ∀ p ∈ data.blockArgTmpLocals, base ≤ p.2 ∧ p.2 < params + data.locals.length
  localInj : ∀ p ∈ data.vregs2locals, ∀ q ∈ data.vregs2locals, p.2 = q.2 → p.1 = q.1
  tmpInj : ∀ p ∈ data.blockArgTmpLocals, ∀ q ∈ data.blockArgTmpLocals, p.2 = q.2 → p.1 = q.1
  apart : ∀ p ∈ data.vregs2locals, ∀ q ∈ data.blockArgTmpLocals, p.2 ≠ q.2

/-- A later stage of the numbering, with the same fixed locals. -/
structure Extends (data data' : FuncData) : Prop where
  locals : ∀ p ∈ data.vregs2locals, p ∈ data'.vregs2locals
  tmps : ∀ p ∈ data.blockArgTmpLocals, p ∈ data'.blockArgTmpLocals
  stackPointer : data'.stackPointerLocal = data.stackPointerLocal
  blockIndex : data'.blockIndexLocal = data.blockIndexLocal
  returnValue : data'.returnValueLocal = data.returnValueLocal
  stackRegs : data'.stackRegs = data.stackRegs

theorem Extends.refl (data : FuncData) : Extends data data :=
  ⟨fun _ h ↦ h, fun _ h ↦ h, rfl, rfl, rfl, rfl⟩

variable {data : FuncData}

theorem Extends.trans {data' data'' : FuncData} (h : Extends data data')
    (h' : Extends data' data'') : Extends data data'' :=
  ⟨fun p hp ↦ h'.locals p (h.locals p hp), fun p hp ↦ h'.tmps p (h.tmps p hp),
    h'.stackPointer.trans h.stackPointer, h'.blockIndex.trans h.blockIndex,
    h'.returnValue.trans h.returnValue, h'.stackRegs.trans h.stackRegs⟩

section Steps

variable (ctx : Context) {params base : ℕ} {data : FuncData}

theorem addParam_spec (h : Numbered params base data) (param : VirtualRegister × WasmType) :
    Numbered params base (addParam params data param) ∧
      Extends data (addParam params data param) := by
  obtain ⟨hbase, hlocals, htmps, hlocalInj, htmpInj, hapart⟩ := h
  refine ⟨?_, ?_⟩
  · constructor
    all_goals
      simp only [addParam, mem_append, mem_singleton, length_append, length_cons, length_nil]
    · omega
    · rintro p (hp | rfl)
      · have := hlocals p hp
        omega
      · dsimp only
        omega
    · rintro p (hp | rfl)
      · have := htmps p hp
        omega
      · dsimp only
        omega
    · rintro p (hp | rfl) q (hq | rfl) heq
      · exact hlocalInj p hp q hq heq
      · have := hlocals p hp
        dsimp only at heq
        omega
      · have := hlocals q hq
        dsimp only at heq
        omega
      · rfl
    · rintro p (hp | rfl) q (hq | rfl) heq
      · exact htmpInj p hp q hq heq
      · have := htmps p hp
        dsimp only at heq
        omega
      · have := htmps q hq
        dsimp only at heq
        omega
      · rfl
    · rintro p (hp | rfl) q (hq | rfl)
      · exact hapart p hp q hq
      · have := hlocals p hp
        dsimp only
        omega
      · have := htmps q hq
        dsimp only
        omega
      · dsimp only
        omega
  · exact ⟨fun p hp ↦ mem_append_left _ hp, fun p hp ↦ mem_append_left _ hp, rfl, rfl, rfl, rfl⟩

theorem addDest_spec (h : Numbered params base data) (instr : SSA.Instruction) :
    Numbered params base (addDest ctx params data instr) ∧
      Extends data (addDest ctx params data instr) := by
  unfold addDest
  split
  · exact ⟨h, Extends.refl data⟩
  · split_ifs
    · exact ⟨h, Extends.refl data⟩
    · obtain ⟨hbase, hlocals, htmps, hlocalInj, htmpInj, hapart⟩ := h
      refine ⟨?_, ?_⟩
      · constructor
        all_goals
          simp only [mem_append, mem_singleton, length_append, length_cons, length_nil]
        · omega
        · rintro p (hp | rfl)
          · have := hlocals p hp
            omega
          · dsimp only
            omega
        · intro p hp
          have := htmps p hp
          omega
        · rintro p (hp | rfl) q (hq | rfl) heq
          · exact hlocalInj p hp q hq heq
          · have := hlocals p hp
            dsimp only at heq
            omega
          · have := hlocals q hq
            dsimp only at heq
            omega
          · rfl
        · exact htmpInj
        · rintro p (hp | rfl) q hq
          · exact hapart p hp q hq
          · have := htmps q hq
            dsimp only
            omega
      · exact ⟨fun p hp ↦ mem_append_left _ hp, fun _ hp ↦ hp, rfl, rfl, rfl, rfl⟩

variable {α : Type}

/-- What each step of a fold keeps and extends, the fold does. -/
theorem foldl_spec {f : FuncData → α → FuncData} (items : List α)
    (hf : ∀ data, Numbered params base data → ∀ item,
      Numbered params base (f data item) ∧ Extends data (f data item))
    (h : Numbered params base data) :
    Numbered params base (items.foldl f data) ∧ Extends data (items.foldl f data) := by
  induction items generalizing data with
  | nil => exact ⟨h, Extends.refl data⟩
  | cons item items ih =>
    obtain ⟨hnext, hext⟩ := hf data h item
    obtain ⟨hall, hmore⟩ := ih hnext
    exact ⟨hall, hext.trans hmore⟩

/-- Every item of a fold is handled at some stage of it. -/
theorem foldl_stage {f : FuncData → α → FuncData} {items : List α}
    (hf : ∀ data, Numbered params base data → ∀ item,
      Numbered params base (f data item) ∧ Extends data (f data item))
    (h : Numbered params base data) {item : α} (hitem : item ∈ items) :
    ∃ stage, Numbered params base stage ∧ Extends (f stage item) (items.foldl f data) := by
  obtain ⟨before, after, rfl⟩ := append_of_mem hitem
  have hstage := (foldl_spec before hf h).1
  refine ⟨before.foldl f data, hstage, ?_⟩
  rw [foldl_append, foldl_cons]
  exact (foldl_spec after hf (hf _ hstage item).1).2

theorem addBlock_spec (h : Numbered params base data) (block : BasicBlock) :
    Numbered params base (data.addBlock ctx params block) ∧
      Extends data (data.addBlock ctx params block) := by
  obtain ⟨hparams, hext⟩ := foldl_spec (blockParams ctx block)
    (fun _ h param ↦ addParam_spec h param) h
  obtain ⟨hdests, hmore⟩ := foldl_spec block.instrs
    (fun _ h instr ↦ addDest_spec ctx h instr) hparams
  exact ⟨hdests, hext.trans hmore⟩

variable {block : BasicBlock}

/-- The parameters of a block are given both their locals. -/
theorem addBlock_params (h : Numbered params base data)
    {reg : VirtualRegister} (hreg : reg ∈ block.paramRegs) :
    (∃ i, (reg, i) ∈ (data.addBlock ctx params block).vregs2locals) ∧
      ∃ i, (reg, i) ∈ (data.addBlock ctx params block).blockArgTmpLocals := by
  obtain ⟨k, hk, rfl⟩ := getElem_of_mem hreg
  have hitem : (block.paramRegs[k], lowerType ctx (block.paramTypes.getD k Primitive.VOID))
      ∈ blockParams ctx block := by
    rw [blockParams, mem_mapIdx]
    exact ⟨k, hk, rfl⟩
  obtain ⟨stage, hstage, hext⟩ := foldl_stage (fun _ h param ↦ addParam_spec h param) h hitem
  have hall := (foldl_spec (blockParams ctx block)
    (fun _ h param ↦ addParam_spec h param) h).1
  have hmore := hext.trans (foldl_spec block.instrs
    (fun _ h instr ↦ addDest_spec ctx h instr) hall).2
  exact ⟨⟨_, hmore.locals _ (mem_append_right _ mem_cons_self)⟩,
    ⟨_, hmore.tmps _ (mem_append_right _ mem_cons_self)⟩⟩

/-- The register an instruction of a block defines is given a local. -/
theorem addBlock_dests (h : Numbered params base data)
    {instr : SSA.Instruction} (hinstr : instr ∈ block.instrs) (hop : instr.opcode ≠ .ALLOCA)
    {dest : VirtualRegister} (hdest : instr.dest = some dest) :
    ∃ i, (dest, i) ∈ (data.addBlock ctx params block).vregs2locals := by
  have hparams := (foldl_spec (blockParams ctx block)
    (fun _ h param ↦ addParam_spec h param) h).1
  obtain ⟨stage, hstage, hext⟩ := foldl_stage (fun _ h instr ↦ addDest_spec ctx h instr)
    hparams hinstr
  have hmem : (dest, params + stage.locals.length)
      ∈ (addDest ctx params stage instr).vregs2locals := by
    simp only [addDest, hdest, if_neg hop]
    exact mem_append_right _ mem_cons_self
  exact ⟨_, hext.locals _ hmem⟩

end Steps

theorem mem_of_lookup {β : Type} {maps : List (ℕ × β)} {reg : ℕ} {i : β}
    (h : maps.lookup reg = some i) : (reg, i) ∈ maps := by
  induction maps with
  | nil => cases h
  | cons head rest ih =>
    obtain ⟨r, j⟩ := head
    rw [lookup_cons] at h
    by_cases hr : reg = r
    · subst hr
      simp only [beq_self_eq_true, Option.some.injEq] at h
      exact h ▸ mem_cons_self
    · rw [beq_eq_false_iff_ne.mpr hr] at h
      exact mem_cons_of_mem _ (ih h)

variable {i : ℕ} {reg : VirtualRegister}

theorem lookup_of_mem {maps : List (VirtualRegister × ℕ)}
    (h : (reg, i) ∈ maps) : ∃ j, maps.lookup reg = some j ∧ (reg, j) ∈ maps := by
  cases hlookup : maps.lookup reg with
  | some j => exact ⟨j, rfl, mem_of_lookup hlookup⟩
  | none => exact absurd (lookup_eq_none_iff.mp hlookup _ h) (by simp)

/-- What the simulation needs of the numbers of the locals. -/
structure Separate (func : SSA.Function) (params : ℕ) (data : FuncData) : Prop where
  localClean : ∀ reg, ¬data.Scratch (data.localOf reg)
  stackPointerClean : ¬data.Scratch data.stackPointerLocal
  paramsClean : ∀ i < params, ¬data.Scratch i
  tmpNeIndex : ∀ i ∈ data.blockArgTmpLocals.map Prod.snd, i ≠ data.blockIndexLocal
  returnNeIndex : data.returnValueLocal ≠ data.blockIndexLocal
  tmpMem : ∀ entry ∈ func.blocks, ∀ reg ∈ entry.2.paramRegs,
    data.tmpLocalOf reg ∈ data.blockArgTmpLocals.map Prod.snd
  tmpInj : ∀ entry ∈ func.blocks, ∀ reg ∈ entry.2.paramRegs, ∀ entry' ∈ func.blocks,
    ∀ reg' ∈ entry'.2.paramRegs, data.tmpLocalOf reg = data.tmpLocalOf reg' → reg = reg'
  localInj : ∀ entry ∈ func.blocks, ∀ reg ∈ entry.2.paramRegs, ∀ reg' ∈ entry.2.paramRegs,
    data.localOf reg = data.localOf reg' → reg = reg'
  bounds : ∀ i, data.Scratch i ∨ i = data.stackPointerLocal ∨ i = data.returnValueLocal ∨
    (∃ reg, i = data.localOf reg) → i < params + data.locals.length + 4

theorem localOf_of_mem
    (h : (reg, i) ∈ data.vregs2locals) : (reg, data.localOf reg) ∈ data.vregs2locals := by
  obtain ⟨j, hj, hmem⟩ := lookup_of_mem h
  rwa [localOf, hj]

theorem tmpLocalOf_of_mem (h : (reg, i) ∈ data.blockArgTmpLocals) :
    (reg, data.tmpLocalOf reg) ∈ data.blockArgTmpLocals := by
  obtain ⟨j, hj, hmem⟩ := lookup_of_mem h
  rwa [tmpLocalOf, hj]

/-- The local of a register is one given to it, or the first. -/
theorem localOf_cases (data : FuncData) (reg : VirtualRegister) :
    (reg, data.localOf reg) ∈ data.vregs2locals ∨ data.localOf reg = 0 := by
  unfold localOf
  cases hlookup : data.vregs2locals.lookup reg with
  | some i => exact Or.inl (mem_of_lookup hlookup)
  | none => exact Or.inr rfl

end FuncData

/-- The data `init_func` starts from. -/
def startData (ctx : Context) (type : FunctionType) (stackRegs : List (VirtualRegister × ℕ)) :
    FuncData :=
  initFunc ctx type stackRegs ⟨[], 0⟩

section InitFunc

variable (ctx : Context) (type : FunctionType) (stackRegs : List (VirtualRegister × ℕ))
  {func : SSA.Function}

theorem initFunc_eq : initFunc ctx type stackRegs func
    = func.blocks.foldl (fun data entry ↦ data.addBlock ctx type.params.length entry.2)
        (startData ctx type stackRegs) := rfl

theorem startData_numbered :
    (startData ctx type stackRegs).Numbered type.params.length
      (type.params.length + (startData ctx type stackRegs).locals.length) := by
  constructor
  · exact le_rfl
  all_goals simp [startData, initFunc]

theorem initFunc_spec (func : SSA.Function) :
    (initFunc ctx type stackRegs func).Numbered type.params.length
        (type.params.length + (startData ctx type stackRegs).locals.length) ∧
      (startData ctx type stackRegs).Extends (initFunc ctx type stackRegs func) :=
  FuncData.foldl_spec func.blocks (fun _ h entry ↦ FuncData.addBlock_spec ctx h entry.2)
    (startData_numbered ctx type stackRegs)

variable {entry : SSA.BlockId × BasicBlock} {reg : VirtualRegister}

theorem initFunc_params (hentry : entry ∈ func.blocks) (hreg : reg ∈ entry.2.paramRegs) :
    (∃ i, (reg, i) ∈ (initFunc ctx type stackRegs func).vregs2locals) ∧
      ∃ i, (reg, i) ∈ (initFunc ctx type stackRegs func).blockArgTmpLocals := by
  obtain ⟨stage, hstage, hext⟩ := FuncData.foldl_stage
    (f := fun data (entry : SSA.BlockId × BasicBlock) ↦
      data.addBlock ctx type.params.length entry.2)
    (fun _ h entry ↦ FuncData.addBlock_spec ctx h entry.2)
    (startData_numbered ctx type stackRegs) hentry
  obtain ⟨⟨i, hi⟩, j, hj⟩ := FuncData.addBlock_params ctx hstage hreg
  exact ⟨⟨i, hext.locals _ hi⟩, ⟨j, hext.tmps _ hj⟩⟩

variable {ctx type stackRegs} in
theorem initFunc_dests (hentry : entry ∈ func.blocks)
    {instr : SSA.Instruction} (hinstr : instr ∈ entry.2.instrs) (hop : instr.opcode ≠ .ALLOCA)
    {dest : VirtualRegister} (hdest : instr.dest = some dest) :
    dest ∈ (initFunc ctx type stackRegs func).vregs2locals.map Prod.fst := by
  obtain ⟨stage, hstage, hext⟩ := FuncData.foldl_stage
    (f := fun data (entry : SSA.BlockId × BasicBlock) ↦
      data.addBlock ctx type.params.length entry.2)
    (fun _ h entry ↦ FuncData.addBlock_spec ctx h entry.2)
    (startData_numbered ctx type stackRegs) hentry
  obtain ⟨i, hi⟩ := FuncData.addBlock_dests ctx hstage hinstr hop hdest
  exact mem_map.mpr ⟨_, hext.locals _ hi, rfl⟩

variable {ctx type stackRegs} in
/-- Registers that are given locals are given different ones. -/
theorem initFunc_localInj {reg' : VirtualRegister}
    (h : reg ∈ (initFunc ctx type stackRegs func).vregs2locals.map Prod.fst)
    (h' : reg' ∈ (initFunc ctx type stackRegs func).vregs2locals.map Prod.fst)
    (heq : (initFunc ctx type stackRegs func).localOf reg
      = (initFunc ctx type stackRegs func).localOf reg') : reg = reg' := by
  obtain ⟨⟨reg, i⟩, hi, rfl⟩ := mem_map.mp h
  obtain ⟨⟨reg', j⟩, hj, rfl⟩ := mem_map.mp h'
  have hmem := FuncData.localOf_of_mem hi
  have hmem' := FuncData.localOf_of_mem hj
  have hsame := (initFunc_spec ctx type stackRegs func).1.localInj _ hmem _ hmem' heq
  exact hsame

/-- Without registers no local is given. -/
theorem initFunc_of_noRegisters (h : NoRegisters func) :
    (initFunc ctx type stackRegs func).vregs2locals = [] ∧
      (initFunc ctx type stackRegs func).blockArgTmpLocals = [] := by
  have hdests : ∀ (instrs : List SSA.Instruction) (data : FuncData),
      (∀ instr ∈ instrs, instr.dest = none ∨ instr.opcode = .ALLOCA) →
        instrs.foldl (FuncData.addDest ctx type.params.length) data = data := by
    intro instrs
    induction instrs with
    | nil => exact fun _ _ ↦ rfl
    | cons instr instrs ih =>
      intro data hall
      have hsame : FuncData.addDest ctx type.params.length data instr = data := by
        unfold FuncData.addDest
        obtain hdest | hop := hall instr mem_cons_self
        · rw [hdest]
        · split
          · rfl
          · rw [if_pos hop]
      rw [foldl_cons, hsame]
      exact ih data fun i hi ↦ hall i (mem_cons_of_mem _ hi)
  have hblocks : ∀ (blocks : List (SSA.BlockId × BasicBlock)) (data : FuncData),
      (∀ entry ∈ blocks, entry.2.paramRegs = [] ∧
        ∀ instr ∈ entry.2.instrs, instr.dest = none ∨ instr.opcode = .ALLOCA) →
      blocks.foldl (fun data entry ↦ data.addBlock ctx type.params.length entry.2) data = data := by
    intro blocks
    induction blocks with
    | nil => exact fun _ _ ↦ rfl
    | cons entry blocks ih =>
      intro data hall
      obtain ⟨hparams, hinstrs⟩ := hall entry mem_cons_self
      rw [foldl_cons, FuncData.addBlock, FuncData.blockParams, hparams]
      rw [show ([] : List VirtualRegister).mapIdx _ = [] from mapIdx_nil, foldl_nil,
        hdests _ _ hinstrs]
      exact ih data fun e he ↦ hall e (mem_cons_of_mem _ he)
  rw [initFunc_eq, hblocks _ _ h]
  exact ⟨rfl, rfl⟩

variable {ctx type stackRegs} in
/-- **The numbering is sound** for a function that is not variadic, that returns a value, or that
has no registers. -/
theorem initFunc_separate
    (h : type.variadic = false ∨ type.returnType ≠ (Primitive.VOID : SSAType) ∨ NoRegisters func) :
    (initFunc ctx type stackRegs func).Separate func type.params.length := by
  obtain ⟨hnum, hext⟩ := initFunc_spec ctx type stackRegs func
  have hparams := fun (entry : SSA.BlockId × BasicBlock) (hentry : entry ∈ func.blocks)
    (reg : VirtualRegister) (hreg : reg ∈ entry.2.paramRegs) ↦
      initFunc_params ctx type stackRegs hentry hreg
  have hempty := fun (h : NoRegisters func) ↦ initFunc_of_noRegisters ctx type stackRegs h
  generalize initFunc ctx type stackRegs func = data at hnum hext hparams hempty ⊢
  have hfuncType : (lowerFuncType ctx type).params.length
      = type.params.length + if type.variadic then 1 else 0 := by
    rw [lowerFuncType, length_append, length_map]
    split_ifs <;> rfl
  have hsp : data.stackPointerLocal = type.params.length + if type.variadic then 1 else 0 :=
    hext.stackPointer.trans hfuncType
  have hindex : data.blockIndexLocal
      = type.params.length + (if type.variadic then 1 else 0) + 1 := by
    rw [hext.blockIndex, ← hfuncType]
    rfl
  have hreturn : data.returnValueLocal = data.blockIndexLocal + 1 := by
    rw [hext.returnValue, hext.blockIndex]
    rfl
  have hlocals : (startData ctx type stackRegs).locals.length
      = 2 + if type.returnType = (Primitive.VOID : SSAType) then 0 else 1 := by
    change ([WasmType.I32, .I32] ++ (lowerFuncType ctx type).resultType.toList).length = _
    rw [lowerFuncType, length_append]
    split_ifs <;> rfl
  have hlocal : ∀ p ∈ data.vregs2locals, data.blockIndexLocal < p.2 := by
    intro p hp
    obtain hvariadic | hvoid | hnone := h
    · have := (hnum.localBounds p hp).1
      rw [hvariadic] at hindex
      simp only [Bool.false_eq_true, if_false] at hindex
      omega
    · have := (hnum.localBounds p hp).1
      rw [if_neg hvoid] at hlocals
      split_ifs at hindex <;> omega
    · rw [(hempty hnone).1] at hp
      cases hp
  have htmp : ∀ p ∈ data.blockArgTmpLocals, data.blockIndexLocal < p.2 := by
    intro p hp
    obtain hvariadic | hvoid | hnone := h
    · have := (hnum.tmpBounds p hp).1
      rw [hvariadic] at hindex
      simp only [Bool.false_eq_true, if_false] at hindex
      omega
    · have := (hnum.tmpBounds p hp).1
      rw [if_neg hvoid] at hlocals
      split_ifs at hindex <;> omega
    · rw [(hempty hnone).2] at hp
      cases hp
  have hbelow : ∀ i, i < data.blockIndexLocal → ¬data.Scratch i := by
    rintro i hi (rfl | hmem)
    · exact lt_irrefl _ hi
    · obtain ⟨p, hp, rfl⟩ := mem_map.mp hmem
      exact lt_asymm hi (htmp p hp)
  constructor
  · intro reg
    obtain hmem | hzero := data.localOf_cases reg
    · rintro (heq | htmpmem)
      · exact absurd heq (hlocal _ hmem).ne'
      · obtain ⟨p, hp, heq⟩ := mem_map.mp htmpmem
        exact hnum.apart _ hmem p hp heq.symm
    · exact hbelow _ (by omega)
  · exact hbelow _ (by omega)
  · exact fun i hi ↦ hbelow i (by omega)
  · intro i hi
    obtain ⟨p, hp, rfl⟩ := mem_map.mp hi
    exact (htmp p hp).ne'
  · omega
  · intro entry hentry reg hreg
    obtain ⟨-, i, hi⟩ := hparams entry hentry reg hreg
    exact mem_map.mpr ⟨_, FuncData.tmpLocalOf_of_mem hi, rfl⟩
  · intro entry hentry reg hreg entry' hentry' reg' hreg' heq
    obtain ⟨-, i, hi⟩ := hparams entry hentry reg hreg
    obtain ⟨-, j, hj⟩ := hparams entry' hentry' reg' hreg'
    exact hnum.tmpInj _ (FuncData.tmpLocalOf_of_mem hi) _ (FuncData.tmpLocalOf_of_mem hj) heq
  · intro entry hentry reg hreg reg' hreg' heq
    obtain ⟨⟨i, hi⟩, -⟩ := hparams entry hentry reg hreg
    obtain ⟨⟨j, hj⟩, -⟩ := hparams entry hentry reg' hreg'
    exact hnum.localInj _ (FuncData.localOf_of_mem hi) _ (FuncData.localOf_of_mem hj) heq
  · have hbase := hnum.base_le
    have hfixed : data.returnValueLocal ≤ type.params.length + 3 := by
      split_ifs at hindex <;> omega
    rintro i ((rfl | hmem) | rfl | rfl | ⟨reg, rfl⟩)
    · omega
    · obtain ⟨p, hp, rfl⟩ := mem_map.mp hmem
      have := (hnum.tmpBounds p hp).2
      omega
    · omega
    · omega
    · obtain hmem | hzero := data.localOf_cases reg
      · have := (hnum.localBounds _ hmem).2
        omega
      · omega

end InitFunc

end Banjo.Target.Wasm
