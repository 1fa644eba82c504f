import Banjo.Lib.PostOrder
import Banjo.Passes.DeadCodeElimination.Instrs
import Banjo.SSA.Checker

/-!
# Removing unused parameters

Marking is a depth-first search from the parameters that instructions read, along the arguments
that are parameters themselves. Its result is closed under these, so the parameters that are not
marked are dead, and each one that is marked flows into an operand.
-/

open List Option

namespace Banjo.SSA.DeadCodeElimination

open Relation

variable {func : Function} {b : BlockId} {block : BasicBlock} {reg : VirtualRegister}
  {param src : ParamId} {used : List ParamId}

/-! ## Registers and parameters -/

/-- The parameters of the blocks but the entry. -/
def paramIds (func : Function) : List ParamId :=
  (paramLists func).tail.flatMap fun (b, params) ↦ (List.range params.length).map (b, ·)

theorem eq_of_mem_defs (hstrict : func.Strict) {entry entry' : BlockId × BasicBlock}
    (hentry : entry ∈ func.blocks) (hentry' : entry' ∈ func.blocks) (h : reg ∈ entry.2.defs)
    (h' : reg ∈ entry'.2.defs) : entry = entry' := by
  by_contra hne
  have hpair := (nodup_flatMap.mp hstrict.defsNodup).2
  have hsymm : Std.Symm (Function.onFun List.Disjoint fun entry : BlockId × BasicBlock ↦
      entry.2.defs) := ⟨fun _ _ hdisjoint ↦ hdisjoint.symm⟩
  exact hpair.forall hentry hentry' hne h h'

theorem nodup_defs (hstrict : func.Strict) {entry : BlockId × BasicBlock}
    (hentry : entry ∈ func.blocks) : entry.2.defs.Nodup :=
  (nodup_flatMap.mp hstrict.defsNodup).1 entry hentry

theorem exists_of_regs2params (h : regs2params func reg = some param) :
    ∃ block, (param.1, block) ∈ func.blocks.tail ∧ block.paramRegs[param.2]? = some reg := by
  obtain ⟨⟨b, block⟩, hmem, hfound⟩ := exists_of_findSome?_eq_some h
  dsimp only at hfound
  split_ifs at hfound with hreg
  obtain rfl := some.inj hfound
  exact ⟨block, hmem, getElem?_idxOf hreg⟩

theorem regs2params_of_param (hstrict : func.Strict) (hmem : (b, block) ∈ func.blocks.tail) {i : ℕ}
    (hi : block.paramRegs[i]? = some reg) : regs2params func reg = some (b, i) := by
  have hreg := mem_of_getElem? hi
  have hsome : (regs2params func reg).isSome := by
    rw [regs2params, findSome?_isSome_iff]
    exact ⟨(b, block), hmem, by simp [hreg]⟩
  obtain ⟨⟨c, j⟩, hparam⟩ := isSome_iff_exists.mp hsome
  obtain ⟨block', hmem', hj⟩ := exists_of_regs2params hparam
  have heq := eq_of_mem_defs hstrict (mem_of_mem_tail hmem) (mem_of_mem_tail hmem')
    (mem_append_left _ hreg) (mem_append_left _ (mem_of_getElem? hj))
  obtain ⟨rfl, rfl⟩ := Prod.mk.inj heq
  have hnodup := (nodup_defs hstrict (mem_of_mem_tail hmem)).of_append_left
  obtain ⟨hlt, -⟩ := List.getElem?_eq_some_iff.mp hj
  have hij : j = i := (List.getElem?_inj hlt hnodup).mp (hj.trans hi.symm)
  rw [hparam, hij]

theorem mem_paramIds_of_regs2params (h : regs2params func reg = some param) :
    param ∈ paramIds func := by
  obtain ⟨block, hmem, hi⟩ := exists_of_regs2params h
  obtain ⟨hlt, -⟩ := List.getElem?_eq_some_iff.mp hi
  rw [paramIds, paramLists, ← List.map_tail]
  refine List.mem_flatMap.mpr ⟨(param.1, block.paramRegs), mem_map.mpr ⟨_, hmem, rfl⟩, ?_⟩
  exact mem_map.mpr ⟨param.2, List.mem_range.mpr hlt, rfl⟩

theorem paramOf_eq_some {operand : Operand} (h : paramOf func operand = some param) :
    ∃ reg, operand.value = .register reg ∧ regs2params func reg = some param := by
  rw [paramOf] at h
  split at h
  · rename_i reg hreg
    exact ⟨reg, hreg, h⟩
  · cases h

theorem paramOf_register {operand : Operand} (h : operand.value = .register reg) :
    paramOf func operand = regs2params func reg := by
  rw [paramOf, h]

theorem mem_directSrcParams : src ∈ directSrcParams func param ↔ ∃ target ∈ branchTargets func,
    target.block = param.1 ∧ ∃ arg reg, target.args[param.2]? = some arg ∧
      arg.value = .register reg ∧ regs2params func reg = some src := by
  rw [directSrcParams, mem_filterMap]
  refine exists_congr fun target ↦ and_congr_right fun _ ↦ ?_
  constructor
  · intro h
    split_ifs at h with hblock
    obtain ⟨arg, harg, hparam⟩ := bind_eq_some_iff.mp h
    obtain ⟨reg, hreg, hsrc⟩ := paramOf_eq_some hparam
    exact ⟨hblock, arg, reg, harg, hreg, hsrc⟩
  · rintro ⟨hblock, arg, reg, harg, hreg, hsrc⟩
    rw [if_pos hblock, harg, bind_some, paramOf_register hreg, hsrc]

/-! ## Marking -/

theorem markAsUsed_eq (func : Function) : ∀ (fuel : ℕ) (param : ParamId)
    (s : PostOrder.State ParamId), markAsUsed func fuel s.visited param
      = (PostOrder.dfs (directSrcParams func) fuel param s).visited := by
  intro fuel
  induction fuel with
  | zero => exact fun _ _ ↦ rfl
  | succ fuel ih =>
    intro param s
    have hall : ∀ (srcs : List ParamId) (s : PostOrder.State ParamId),
        srcs.foldl (fun used src ↦ if src ∈ used then used else markAsUsed func fuel used src)
          s.visited = (PostOrder.searchAll (directSrcParams func) fuel srcs s).visited := by
      intro srcs
      induction srcs with
      | nil => exact fun _ ↦ rfl
      | cons src rest ihrest =>
        intro s
        rw [foldl_cons, PostOrder.searchAll, foldl_cons]
        by_cases hsrc : src ∈ s.visited
        · rw [if_pos hsrc, if_pos hsrc]
          exact ihrest s
        · rw [if_neg hsrc, if_neg hsrc, ih]
          exact ihrest _
    rw [markAsUsed, PostOrder.dfs_succ]
    exact hall (directSrcParams func param) ⟨param :: s.visited, s.order⟩

/-- What has been marked after some of the parameters that are read. -/
structure Marked (func : Function) (done used : List ParamId) : Prop where
  covers : ∀ param ∈ done, param ∈ used
  closed : ∀ param ∈ used, ∀ src ∈ directSrcParams func param, src ∈ used
  reach : ∀ param ∈ used, ∃ root ∈ readParams func,
    ReflTransGen (fun a b ↦ b ∈ directSrcParams func a) root param

theorem Marked.mark {done : List ParamId} (h : Marked func done used) {root : ParamId}
    (hroot : root ∈ readParams func) {fuel : ℕ} (hfuel : (paramIds func).length ≤ fuel) :
    Marked func (done ++ [root]) (markAsUsed func fuel used root) := by
  have hclosed : ∀ param ∈ (paramIds func).toFinset, ∀ src ∈ directSrcParams func param,
      src ∈ (paramIds func).toFinset := by
    intro param _ src hsrc
    obtain ⟨_, _, _, _, _, _, _, hparam⟩ := mem_directSrcParams.mp hsrc
    exact mem_toFinset.mpr (mem_paramIds_of_regs2params hparam)
  have hmem : root ∈ (paramIds func).toFinset := by
    obtain ⟨instr, -, hinstr⟩ := mem_flatMap.mp hroot
    obtain ⟨operand, -, hparam⟩ := mem_filterMap.mp hinstr
    obtain ⟨reg, -, hreg⟩ := paramOf_eq_some hparam
    exact mem_toFinset.mpr (mem_paramIds_of_regs2params hreg)
  have hcard : (paramIds func).toFinset.card ≤ fuel := (toFinset_card_le _).trans hfuel
  by_cases hused : root ∈ used
  · -- everything that would be marked is
    have hsame : ∀ x, x ∈ markAsUsed func fuel used root ↔ x ∈ used := by
      cases fuel with
      | zero => exact fun _ ↦ Iff.rfl
      | succ fuel =>
        have hall : ∀ srcs : List ParamId, (∀ src ∈ srcs, src ∈ used) →
            srcs.foldl (fun used src ↦ if src ∈ used then used else markAsUsed func fuel used src)
              (root :: used) = root :: used := by
          intro srcs
          induction srcs with
          | nil => exact fun _ ↦ rfl
          | cons src rest ih =>
            intro hsrcs
            rw [foldl_cons, if_pos (mem_cons_of_mem _ (hsrcs src mem_cons_self))]
            exact ih fun other hother ↦ hsrcs other (mem_cons_of_mem _ hother)
        intro x
        rw [markAsUsed, hall _ (h.closed root hused), mem_cons]
        exact or_iff_right_of_imp fun heq ↦ heq ▸ hused
    refine ⟨fun param hparam ↦ ?_, fun param hparam src hsrc ↦ ?_, fun param hparam ↦ ?_⟩
    · rw [hsame]
      rcases mem_append.mp hparam with hparam | hparam
      · exact h.covers param hparam
      · rwa [mem_singleton.mp hparam]
    · exact (hsame src).mpr (h.closed param ((hsame param).mp hparam) src hsrc)
    · exact h.reach param ((hsame param).mp hparam)
  · obtain ⟨new, hnew⟩ := PostOrder.dfs_grows hclosed fuel root ⟨used, []⟩ hmem hused
      ((PostOrder.card_unvisited_le _ _).trans hcard)
    have heq := markAsUsed_eq func fuel root ⟨used, []⟩
    have hvisited : ∀ x, x ∈ markAsUsed func fuel used root ↔ x ∈ used ∨ x ∈ new := by
      intro x
      rw [heq]
      exact hnew.visited x
    refine ⟨fun param hparam ↦ ?_, fun param hparam src hsrc ↦ ?_, fun param hparam ↦ ?_⟩
    · rcases mem_append.mp hparam with hparam | hparam
      · exact (hvisited param).mpr (Or.inl (h.covers param hparam))
      · rw [heq]
        exact hnew.covers param hparam
    · rcases (hvisited param).mp hparam with hparam | hparam
      · exact (hvisited src).mpr (Or.inl (h.closed param hparam src hsrc))
      · rw [heq]
        exact hnew.closed param hparam src hsrc
    · rcases (hvisited param).mp hparam with hparam | hparam
      · exact h.reach param hparam
      · obtain ⟨r, hr, hreach⟩ := hnew.reach param hparam
        exact ⟨root, hroot, mem_singleton.mp hr ▸ hreach⟩

theorem marked_usedParams {fuel : ℕ} (hfuel : (paramIds func).length ≤ fuel) :
    Marked func (readParams func) (usedParams func fuel) := by
  have hgo : ∀ (roots done : List ParamId) (used : List ParamId),
      (∀ root ∈ roots, root ∈ readParams func) → Marked func done used →
      Marked func (done ++ roots) (roots.foldl (markAsUsed func fuel) used) := by
    intro roots
    induction roots with
    | nil =>
      intro done used _ h
      rwa [append_nil]
    | cons root rest ih =>
      intro done used hroots h
      rw [append_cons]
      exact ih _ _ (fun r hr ↦ hroots r (mem_cons_of_mem _ hr))
        (h.mark (hroots root mem_cons_self) hfuel)
  exact hgo (readParams func) [] [] (fun _ h ↦ h) ⟨by simp, by simp, by simp⟩

/-! ## Dead parameters -/

local instance : LawfulBEq ParamId := inferInstance

/-- The parameters that are not marked. -/
def deadParams (func : Function) (used : List ParamId) : List VirtualRegister :=
  (func.blocks.tail.flatMap fun entry ↦ entry.2.paramRegs).filter fun reg ↦
    (regs2params func reg).any (· ∉ used)

theorem mem_deadParams : reg ∈ deadParams func used ↔
    ∃ param, regs2params func reg = some param ∧ param ∉ used := by
  rw [deadParams, mem_filter, mem_flatMap]
  constructor
  · rintro ⟨-, h⟩
    obtain ⟨param, hparam, hused⟩ := (any_eq_true _ _).mp h
    exact ⟨param, hparam, of_decide_eq_true hused⟩
  · rintro ⟨param, hparam, hused⟩
    obtain ⟨block, hmem, hi⟩ := exists_of_regs2params hparam
    exact ⟨⟨_, hmem, mem_of_getElem? hi⟩, by simp [hparam, hused]⟩

theorem mem_used_of_not_mem_deadParams (h : reg ∉ deadParams func used)
    (hparam : regs2params func reg = some param) : param ∈ used := by
  by_contra hused
  exact h (mem_deadParams.mpr ⟨param, hparam, hused⟩)

/-- A block that is not the entry is in the rest of the list. -/
theorem mem_tail_of_entry_ne (hmem : (b, block) ∈ func.blocks) (hne : func.entry ≠ some b) :
    (b, block) ∈ func.blocks.tail := by
  rw [Function.entry, Function.ids] at hne
  cases hblocks : func.blocks with
  | nil =>
    rw [hblocks] at hmem
    exact absurd hmem not_mem_nil
  | cons head rest =>
    rw [hblocks] at hmem hne
    rcases mem_cons.mp hmem with rfl | hmem
    · exact absurd rfl hne
    · exact hmem

theorem paramRegs_of_entry (hstrict : func.Strict) (hmem : (b, block) ∈ func.blocks)
    (hentry : func.entry = some b) : block.paramRegs = [] := by
  obtain ⟨⟨c, first⟩, hhead, rfl⟩ := map_eq_some_iff.mp
    ((head?_map (f := Prod.fst) (l := func.blocks)).symm.trans hentry)
  have hfirst := hstrict.find_of_mem (mem_of_mem_head? hhead)
  obtain rfl := some.inj (hfirst.symm.trans (hstrict.find_of_mem hmem))
  exact hstrict.entryParams _ _ hhead

theorem mem_tail_of_param (hstrict : func.Strict) (hmem : (b, block) ∈ func.blocks)
    (hreg : reg ∈ block.paramRegs) : (b, block) ∈ func.blocks.tail := by
  refine mem_tail_of_entry_ne hmem fun hentry ↦ ?_
  rw [paramRegs_of_entry hstrict hmem hentry] at hreg
  exact absurd hreg not_mem_nil

variable {entry : BlockId × BasicBlock}

theorem mem_branchTargets (hstrict : func.Strict)
    (hentry : entry ∈ func.blocks) {instr : Instruction} (hinstr : instr ∈ entry.2.instrs)
    {target : BranchTarget} (htarget : target ∈ instr.targets) : target ∈ branchTargets func := by
  refine mem_flatMap.mpr ⟨entry, hentry, ?_⟩
  rw [(hstrict.shaped _ hentry).getLast hinstr htarget]
  exact htarget

theorem exists_of_mem_branchTargets {target : BranchTarget} (h : target ∈ branchTargets func) :
    ∃ entry ∈ func.blocks, ∃ instr ∈ entry.2.instrs, target ∈ instr.targets := by
  obtain ⟨entry, hentry, h⟩ := mem_flatMap.mp h
  cases hlast : entry.2.instrs.getLast? with
  | none =>
    rw [hlast] at h
    exact absurd h not_mem_nil
  | some instr =>
    rw [hlast] at h
    exact ⟨entry, hentry, instr, mem_of_getLast? hlast, h⟩

theorem dead_deadParams (hstrict : func.Strict)
    (hmarked : Marked func (readParams func) used) : func.Dead (deadParams func used) where
  operands entry hentry instr hinstr _ operand hoperand reg hreg hdead := by
    obtain ⟨param, hparam, hused⟩ := mem_deadParams.mp hdead
    refine hused (hmarked.covers param (mem_flatMap.mpr ⟨instr, ?_, ?_⟩))
    · exact mem_flatMap.mpr ⟨entry, hentry, hinstr⟩
    · exact mem_filterMap.mpr ⟨operand, hoperand, (paramOf_register hreg).trans hparam⟩
  args entry hentry instr hinstr target htarget next hnext arg harg hlive reg hreg hdead := by
    obtain ⟨src, hsrc, hused⟩ := mem_deadParams.mp hdead
    obtain ⟨i, hi⟩ := mem_iff_getElem?.mp harg
    obtain ⟨harg, hparam⟩ := getElem?_zip_eq_some.mp hi
    have htail := mem_tail_of_param hstrict (Function.mem_of_find hnext) (mem_of_getElem? hparam)
    have hid := regs2params_of_param hstrict htail hparam
    refine hused (hmarked.closed _ (mem_used_of_not_mem_deadParams hlive hid) src ?_)
    exact mem_directSrcParams.mpr ⟨target, mem_branchTargets hstrict hentry hinstr htarget, rfl,
      arg.1, reg, harg, hreg, hsrc⟩

/-! ## The removal -/

variable {α : Type}

theorem keepUsed_eq {dead : List VirtualRegister} : ∀ (l : List α)
    (params : List VirtualRegister) (k : ℕ), l.length = params.length →
    (∀ i reg, params[i]? = some reg → ((b, k + i) ∈ used ↔ reg ∉ dead)) →
    ((l.zipIdx k).filter fun (_, i) ↦ (b, i) ∈ used).map Prod.fst
      = ((l.zip params).filter fun arg ↦ arg.2 ∉ dead).map Prod.fst := by
  intro l
  induction l with
  | nil => exact fun _ _ _ _ ↦ rfl
  | cons x l ih =>
    intro params k hlength h
    cases params with
    | nil => cases hlength
    | cons param params =>
      have hrest := ih params (k + 1) (Nat.succ.inj hlength) fun i reg hi ↦ by
        rw [Nat.add_assoc, Nat.add_comm 1 i]
        exact h (i + 1) reg hi
      have hfirst : (b, k) ∈ used ↔ param ∉ dead := h 0 param rfl
      rw [zipIdx_cons, zip_cons_cons, filter_cons, filter_cons]
      by_cases hdead : param ∈ dead
      · simp only [hfirst, hdead, not_true_eq_false, decide_false, Bool.false_eq_true, if_false]
        exact hrest
      · simp only [hfirst, hdead, not_false_eq_true, decide_true, if_true, map_cons]
        exact congrArg _ hrest

theorem filter_zip_self (dead l : List VirtualRegister) :
    ((l.zip l).filter fun arg ↦ arg.2 ∉ dead).map Prod.fst = l.filter (· ∉ dead) := by
  induction l with
  | nil => rfl
  | cons x l ih =>
    rw [zip_cons_cons, filter_cons, filter_cons]
    split_ifs
    · rw [map_cons, ih]
    · exact ih

theorem filter_zip_comm (dead : List VirtualRegister) : ∀ (l : List α)
    (params : List VirtualRegister),
    ((l.zip params).filter fun arg ↦ arg.2 ∉ dead).map Prod.fst
      = ((params.zip l).filter fun arg ↦ arg.1 ∉ dead).map Prod.snd := by
  intro l
  induction l with
  | nil =>
    intro params
    rw [zip_nil_left, zip_nil_right]
    rfl
  | cons x l ih =>
    intro params
    cases params with
    | nil => rfl
    | cons param params =>
      rw [zip_cons_cons, zip_cons_cons, filter_cons, filter_cons]
      dsimp only
      split_ifs
      · rw [map_cons, map_cons, ih]
      · exact ih params

/-- A marked parameter is one that is not dead. -/
theorem mem_used_iff (hstrict : func.Strict) (hmem : (b, block) ∈ func.blocks.tail) {i : ℕ}
    (hi : block.paramRegs[i]? = some reg) : (b, i) ∈ used ↔ reg ∉ deadParams func used := by
  have hid := regs2params_of_param hstrict hmem hi
  constructor
  · intro hused hdead
    obtain ⟨param, hparam, hnot⟩ := mem_deadParams.mp hdead
    exact hnot (some.inj (hid.symm.trans hparam) ▸ hused)
  · exact fun hlive ↦ mem_used_of_not_mem_deadParams hlive hid

theorem keepUsed_params (hstrict : func.Strict) (hmem : (b, block) ∈ func.blocks.tail) (l : List α)
    (hlength : l.length = block.paramRegs.length) :
    keepUsed used b l
      = ((l.zip block.paramRegs).filter fun arg ↦ arg.2 ∉ deadParams func used).map Prod.fst :=
  keepUsed_eq l block.paramRegs 0 hlength fun i reg hi ↦ by
    rw [Nat.zero_add]
    exact mem_used_iff hstrict hmem hi

theorem filterArgs_eq (hstrict : func.Strict) {target : BranchTarget} {next : BasicBlock}
    (hnext : func.find target.block = some next)
    (hlength : target.args.length = next.paramRegs.length) :
    filterArgs func used target = func.thinTarget (deadParams func used) target := by
  have hmem := Function.mem_of_find hnext
  rw [filterArgs, Function.thinTarget, hnext]
  split_ifs with hentry
  · have hparams := paramRegs_of_entry hstrict hmem hentry
    have hargs : target.args = [] := length_eq_zero_iff.mp (by rw [hlength, hparams]; rfl)
    obtain ⟨c, args⟩ := target
    dsimp only at hargs
    rw [hargs]
    rfl
  · rw [keepUsed_params hstrict (mem_tail_of_entry_ne hmem hentry) target.args hlength]

/-- A parameter is not the result of an instruction. -/
theorem keeps_deadParams (hstrict : func.Strict)
    (hentry : entry ∈ func.blocks) {instr : Instruction} (hinstr : instr ∈ entry.2.instrs) :
    instr.keeps (deadParams func used) = true := by
  rw [Instruction.keeps]
  cases hdest : instr.dest with
  | none => exact Bool.or_true _
  | some reg =>
    have hlive : reg ∉ deadParams func used := by
      intro hdead
      obtain ⟨param, hparam, -⟩ := mem_deadParams.mp hdead
      obtain ⟨block, hmem, hi⟩ := exists_of_regs2params hparam
      have hreg := mem_of_getElem? hi
      have hresult : reg ∈ entry.2.instrs.filterMap Instruction.dest :=
        mem_filterMap.mpr ⟨instr, hinstr, hdest⟩
      obtain rfl := eq_of_mem_defs hstrict hentry (mem_of_mem_tail hmem)
        (mem_append_right _ hresult) (mem_append_left _ hreg)
      exact (nodup_append.mp (nodup_defs hstrict hentry)).2.2 reg hreg reg hresult rfl
    simp [hlive]

theorem filterLast_eq (hstrict : func.Strict) (hentry : entry ∈ func.blocks) :
    filterLast func used entry.2.instrs
      = func.thinInstrs (deadParams func used) entry.2.instrs := by
  have hshaped := hstrict.shaped _ hentry
  obtain ⟨body, last, hinstrs, -, hbody⟩ := hshaped.split
  have hfilter : entry.2.instrs.filter (Instruction.keeps (deadParams func used))
      = entry.2.instrs :=
    filter_eq_self.mpr fun instr hinstr ↦ keeps_deadParams hstrict hentry hinstr
  have hlastmem : last ∈ entry.2.instrs := by simp [hinstrs]
  have htargets : last.targets.map (filterArgs func used)
      = last.targets.map (func.thinTarget (deadParams func used)) :=
    map_congr_left fun target htarget ↦ by
      obtain ⟨next, hnext, hlength⟩ := hstrict.args _ hentry last hlastmem target htarget
      exact filterArgs_eq hstrict hnext hlength
  have hmap : body.map (func.thinInstr (deadParams func used)) = body := by
    refine (map_congr_left fun instr hinstr ↦ ?_).trans (map_id _)
    have hmem : instr ∈ entry.2.instrs := by simp [hinstrs, hinstr]
    have hterm := hbody instr hinstr
    rw [Instruction.isTerminator, Bool.or_eq_false_iff] at hterm
    exact Function.thinInstr_of_targets_eq_nil ((hshaped.instrs instr hmem).targets_eq_nil hterm.1)
  rw [Function.thinInstrs, hfilter, filterLast, hinstrs, getLast?_concat,
    dropLast_concat, map_append, hmap]
  simp only [htargets]
  rfl

theorem removeUnusedParams_eq (hstrict : func.Strict) (fuel : ℕ) :
    removeUnusedParams func fuel = func.thin (deadParams func (usedParams func fuel)) := by
  generalize hused : usedParams func fuel = used
  rw [removeUnusedParams, Function.thin, hused]
  congr 1
  refine map_congr_left fun entry hentry ↦ ?_
  obtain ⟨b, block⟩ := entry
  have hinstrs : filterLast func used block.instrs
      = func.thinInstrs (deadParams func used) block.instrs := filterLast_eq hstrict hentry
  have htyped := hstrict.typed _ hentry
  dsimp only at htyped
  have hblock : (filterBlock func used (b, block)).2
      = func.thinBlock (deadParams func used) block := by
    rw [filterBlock, Function.thinBlock, hinstrs]
    dsimp only
    split_ifs with hfirst
    · have hparams := paramRegs_of_entry hstrict hentry hfirst
      have htypes : block.paramTypes = [] :=
        length_eq_zero_iff.mp (by rw [htyped, hparams]; rfl)
      rw [hparams, htypes]
      rfl
    · have htail := mem_tail_of_entry_ne hentry hfirst
      rw [keepUsed_params hstrict htail block.paramRegs rfl, filter_zip_self,
        keepUsed_params hstrict htail block.paramTypes htyped, filter_zip_comm]
  exact Prod.ext rfl hblock

/-! ## What flows into operands -/

/-- A register flows into an operand of an instruction, possibly through parameters. -/
inductive Flows (func : Function) : VirtualRegister → Prop
  | read {entry : BlockId × BasicBlock} {instr : Instruction} {operand : Operand}
    {reg : VirtualRegister} : entry ∈ func.blocks → instr ∈ entry.2.instrs →
    operand ∈ instr.operands → operand.value = .register reg → Flows func reg
  | passed {entry : BlockId × BasicBlock} {instr : Instruction} {target : BranchTarget}
    {next : BasicBlock} {arg : Operand × VirtualRegister} {reg : VirtualRegister} :
    entry ∈ func.blocks → instr ∈ entry.2.instrs → target ∈ instr.targets →
    func.find target.block = some next → arg ∈ target.args.zip next.paramRegs →
    arg.1.value = .register reg → Flows func arg.2 → Flows func reg

theorem mem_thin_blocks {dead : List VirtualRegister} {entry : BlockId × BasicBlock}
    (hentry : entry ∈ func.blocks) :
    (entry.1, func.thinBlock dead entry.2) ∈ (func.thin dead).blocks :=
  mem_map.mpr ⟨entry, hentry, rfl⟩

theorem mem_thinInstrs (hstrict : func.Strict) {entry : BlockId × BasicBlock}
    (hentry : entry ∈ func.blocks) {instr : Instruction} (hinstr : instr ∈ entry.2.instrs) :
    func.thinInstr (deadParams func used) instr
      ∈ (func.thinBlock (deadParams func used) entry.2).instrs :=
  mem_map_of_mem (mem_filter.mpr ⟨hinstr, keeps_deadParams hstrict hentry hinstr⟩)

/-- What is marked flows into an operand of what is left. -/
theorem flows_of_reach (hstrict : func.Strict) (hmarked : Marked func (readParams func) used)
    {root : ParamId} (hroot : root ∈ readParams func)
    (hreach : ReflTransGen (fun a b ↦ b ∈ directSrcParams func a) root param) :
    param ∈ used ∧ ∀ reg, regs2params func reg = some param →
      Flows (func.thin (deadParams func used)) reg := by
  have hinj : ∀ {reg reg' : VirtualRegister} {param}, regs2params func reg = some param →
      regs2params func reg' = some param → reg = reg' := by
    intro reg reg' param h h'
    obtain ⟨block, hmem, hi⟩ := exists_of_regs2params h
    obtain ⟨block', hmem', hi'⟩ := exists_of_regs2params h'
    have hfind := hstrict.find_of_mem (mem_of_mem_tail hmem)
    rw [hstrict.find_of_mem (mem_of_mem_tail hmem'), some_inj] at hfind
    rw [hfind, hi, some_inj] at hi'
    exact hi'
  induction hreach with
  | refl =>
    refine ⟨hmarked.covers root hroot, fun reg hreg ↦ ?_⟩
    obtain ⟨instr, hinstr, hread⟩ := mem_flatMap.mp hroot
    obtain ⟨operand, hoperand, hparam⟩ := List.mem_filterMap.mp hread
    obtain ⟨reg', hvalue, hreg'⟩ := paramOf_eq_some hparam
    obtain rfl := hinj hreg hreg'
    obtain ⟨entry, hentry, hmem⟩ := mem_flatMap.mp hinstr
    exact .read (mem_thin_blocks hentry) (mem_thinInstrs hstrict hentry hmem) hoperand hvalue
  | @tail dst src _ hstep ih =>
    obtain ⟨hdst, hflows⟩ := ih
    refine ⟨hmarked.closed dst hdst src hstep, fun reg hreg ↦ ?_⟩
    obtain ⟨target, htarget, hblock, arg, reg', harg, hvalue, hreg'⟩ := mem_directSrcParams.mp hstep
    obtain rfl := hinj hreg hreg'
    obtain ⟨entry, hentry, instr, hinstr, hmem⟩ := exists_of_mem_branchTargets htarget
    obtain ⟨next, hnext, hlength⟩ := hstrict.args _ hentry instr hinstr target hmem
    -- the parameter the argument is for
    obtain ⟨hlt, -⟩ := List.getElem?_eq_some_iff.mp harg
    obtain ⟨q, hq⟩ : ∃ q, next.paramRegs[dst.2]? = some q :=
      ⟨_, List.getElem?_eq_getElem (hlength ▸ hlt)⟩
    have htail := mem_tail_of_param hstrict (Function.mem_of_find hnext) (mem_of_getElem? hq)
    have hid : regs2params func q = some dst := by
      rw [regs2params_of_param hstrict htail hq, hblock]
    have hlive : q ∉ deadParams func used := by
      refine (mem_used_iff hstrict htail hq).mp ?_
      rw [hblock]
      exact hdst
    have hpair : (arg, q) ∈ target.args.zip next.paramRegs :=
      List.mem_iff_getElem?.mpr ⟨dst.2, List.getElem?_zip_eq_some.mpr ⟨harg, hq⟩⟩
    have hpassed : (arg, q).1.value = .register reg := hvalue
    have hnextFlows : Flows (func.thin (deadParams func used)) (arg, q).2 := hflows q hid
    have hfind : (func.thin (deadParams func used)).find target.block
        = some (func.thinBlock (deadParams func used) next) := by
      rw [Function.find_thin, hnext, Option.map_some]
    refine .passed (mem_thin_blocks hentry) (mem_thinInstrs hstrict hentry hinstr)
      (List.mem_map_of_mem hmem) hfind ?_ hpassed hnextFlows
    · have hparams : (func.thinBlock (deadParams func used) next).paramRegs
          = ((target.args.zip next.paramRegs).filter
            fun arg ↦ arg.2 ∉ deadParams func used).map Prod.snd := by
        have hsnd : (target.args.zip next.paramRegs).map Prod.snd = next.paramRegs :=
          List.map_snd_zip hlength.ge
        rw [Function.thinBlock]
        dsimp only
        rw [← hsnd, List.filter_map, hsnd]
        rfl
      have hargs : (func.thinTarget (deadParams func used) target).args
          = ((target.args.zip next.paramRegs).filter
            fun arg ↦ arg.2 ∉ deadParams func used).map Prod.fst := by
        simp only [Function.thinTarget, hnext]
      rw [hargs, hparams, List.zip_map']
      exact mem_map.mpr ⟨(arg, q), List.mem_filter.mpr ⟨hpair, by simpa using hlive⟩, rfl⟩

/-!
## Dead code elimination is sound

The two parts are put together. What the pass does not keep are the traps of the instructions it
removes: a division whose result nobody reads is gone, with the trap of a division by zero.
-/

variable {func : Function}

/-- The pass ends with a strict function that refines the one it was, in which targets pass as many
arguments as there are parameters and every parameter flows into an operand. -/
theorem run_refines (hstrict : func.Strict) :
    ∃ F, ∀ fuel ≥ F, ∃ func', run func fuel = some func' ∧ Refines func func' ∧ func'.Strict ∧
      (∀ entry ∈ func'.blocks, ∀ instr ∈ entry.2.instrs, ∀ target ∈ instr.targets,
        ∃ next, func'.find target.block = some next ∧ target.args.length = next.paramRegs.length) ∧
      ∀ entry ∈ func'.blocks, ∀ param ∈ entry.2.paramRegs, Flows func' param := by
  refine ⟨max (instrCount func.blocks + 1) (paramIds func).length, fun fuel hfuel ↦ ?_⟩
  obtain ⟨func₁, hrun, hstrict₁, hrefines, hparams⟩ :=
    removeUnusedInstrs_spec hstrict (le_of_max_le_left hfuel : instrCount func.blocks < fuel)
  have hids : (paramIds func₁).length ≤ fuel := by
    rw [paramIds, hparams]
    exact le_of_max_le_right hfuel
  have hmarked := marked_usedParams hids
  have hdead := dead_deadParams hstrict₁ hmarked
  have hstrict₂ := hstrict₁.thin hdead
  rw [run, hrun, map_some, removeUnusedParams_eq hstrict₁]
  refine ⟨_, rfl, hrefines.trans (refines_thin hstrict₁ hdead), hstrict₂, hstrict₂.args, ?_⟩
  intro entry hentry param hparam
  obtain ⟨⟨b, block⟩, hblock, rfl⟩ := mem_map.mp hentry
  obtain ⟨hmem, hlive⟩ := mem_filter.mp hparam
  obtain ⟨i, hi⟩ := mem_iff_getElem?.mp hmem
  have hid := regs2params_of_param hstrict₁ (mem_tail_of_param hstrict₁ hblock hmem) hi
  have hused := mem_used_of_not_mem_deadParams (by simpa using hlive) hid
  obtain ⟨root, hroot, hreach⟩ := hmarked.reach _ hused
  exact (flows_of_reach hstrict₁ hmarked hroot hreach).2 param hid

/-- A well-formed function with paths to all of its blocks is strict. -/
theorem strict_of_wellFormed (hwf : func.WellFormed)
    (hblocks : ∀ entry ∈ func.blocks, func.HasBlock entry.1 entry.2)
    (hdefs : (func.blocks.flatMap fun entry ↦ entry.2.defs).Nodup)
    (htyped : ∀ entry ∈ func.blocks, entry.2.paramTypes.length = entry.2.paramRegs.length)
    (heffects : ∀ entry ∈ func.blocks, ∀ instr ∈ entry.2.instrs,
      instr.opcode = .STORE ∨ instr.opcode = .COPY → instr.dest = none)
    (hentry : ∀ entry ∈ func.blocks.head?, entry.2.paramRegs = []) : func.Strict where
  nodup := hwf.nodup
  nonempty := hwf.nonempty
  shaped entry h := hwf.shaped (hblocks entry h)
  args entry h := hwf.args (hblocks entry h)
  defsNodup := hdefs
  below entry h := hwf.below (hblocks entry h)
  typed := htyped
  effects := heffects
  entryParams b block h := hentry (b, block) h
  allDefined := hwf.allDefined

/-- A value is passed around a loop and never read. -/
def carried : Function where
  blocks :=
    [(0, { instrs := [{ opcode := .JMP
                        targets := [⟨1, [⟨.intImmediate ⟨5, false⟩, Primitive.I64⟩]⟩] }] }),
     (1, { instrs := [{ opcode := .JMP, targets := [⟨1, [⟨.register 0, Primitive.I64⟩]⟩] }]
           paramRegs := [0], paramTypes := [Primitive.I64] })]
  lastVirtualReg := 1

theorem strict_carried : carried.Strict := by
  have hentry : carried.Reachable 0 := .entry rfl
  refine strict_of_wellFormed
    (Function.wellFormed_of_check (fun _ ↦ []) (by decide))
    ?_ (by decide) (by decide) (by decide) (by decide)
  intro entry hmem
  obtain rfl | rfl := mem_pair.mp hmem
  · exact ⟨hentry, rfl⟩
  · exact ⟨hentry.succ (by decide), rfl⟩

theorem run_refines_carried :
    ∃ F, ∀ fuel ≥ F, ∃ func', run carried fuel = some func' ∧ Refines carried func' ∧
      func'.Strict ∧
      (∀ entry ∈ func'.blocks, ∀ instr ∈ entry.2.instrs, ∀ target ∈ instr.targets,
        ∃ next, func'.find target.block = some next ∧ target.args.length = next.paramRegs.length) ∧
      ∀ entry ∈ func'.blocks, ∀ param ∈ entry.2.paramRegs, Flows func' param :=
  run_refines strict_carried

/-! ## A trap that is gone -/

/-- A division by zero, and nobody reads the result. -/
def deadDivision : Function where
  blocks :=
    [(0, { instrs := [{ opcode := .SDIV
                        dest := some 0
                        operands := [⟨.intImmediate ⟨1, false⟩, Primitive.I64⟩,
                          ⟨.intImmediate ⟨0, false⟩, Primitive.I64⟩] },
                      { opcode := .RET }] })]
  lastVirtualReg := 1

theorem strict_deadDivision : deadDivision.Strict := by
  refine strict_of_wellFormed
    (Function.wellFormed_of_check (fun _ ↦ []) (by decide))
    ?_ (by decide) (by decide) (by decide) (by decide)
  intro entry hmem
  obtain rfl := mem_singleton.mp hmem
  exact ⟨.entry rfl, rfl⟩

/-- A machine that divides, and traps on zero. -/
def divides : Machine (BitVec 64) Unit where
  const
    | .intImmediate immediate => immediate.toBits
    | _ => 0
  exec opcode _ _ operands _ :=
    match opcode, operands with
    | .SDIV, [lhs, rhs] => if rhs.1 = 0 then none else some (lhs.1.sdiv rhs.1, ())
    | _, _ => some (0, ())
  holds _ _ _ taken := taken = true

theorem quiet_divides : divides.Quiet := ⟨fun _ _ ↦ rfl, fun _ _ _ ↦ ⟨true, rfl⟩⟩

/-- What is left when the division is gone. -/
def onlyReturn : Function where
  blocks := [(0, { instrs := [{ opcode := .RET }] })]
  lastVirtualReg := 1

theorem reaches_onlyReturn {c : Config (BitVec 64) Unit} (h : Reaches divides onlyReturn () c) :
    c.rest = [{ opcode := .RET }] := by
  refine h.induction (P := fun c ↦ c.rest = [{ opcode := .RET }]) ?_ ?_
  · intro b block hentry hfind
    obtain rfl := some.inj hentry
    obtain rfl := some.inj hfind
    rfl
  · rintro c c' - hrest hstep
    cases hstep with
    | op _ hexec =>
      obtain ⟨rfl, -⟩ := cons.inj hrest
      exact absurd hexec.not_terminator (by decide)
    | branch _ htakes _ =>
      obtain ⟨rfl, -⟩ := cons.inj hrest
      exact absurd htakes.isBranching (by decide)

/-- The function traps, and what the pass makes of it does not. -/
theorem not_behaves_iff_deadDivision :
    deadDivision.Strict ∧ divides.Quiet ∧ run deadDivision 3 = some onlyReturn ∧
      Behaves divides deadDivision () (.trap ()) ∧ ¬Behaves divides onlyReturn () (.trap ()) := by
  refine ⟨strict_deadDivision, quiet_divides, by decide, ?_, ?_⟩
  · refine ⟨_, ⟨_, ⟨0, _, rfl, rfl, rfl⟩, .refl⟩, .trap (fun reg hreg ↦ ?_) rfl (by decide) rfl⟩
    exact absurd hreg not_mem_nil
  · rintro ⟨c, hreach, hshow⟩
    have hrest := reaches_onlyReturn hreach
    cases hshow with
    | trap _ hterm _ _ =>
      obtain ⟨rfl, -⟩ := cons.inj hrest
      exact absurd hterm (by decide)

end Banjo.SSA.DeadCodeElimination
