import Banjo.Passes.LICMPass.Simulation

/-!
# The moved function is well formed

Moving an instruction does not change where branches lead. That no path of the moved function reads
an undefined register is the preservation of behaviour, on the machine whose runs are the paths.
-/

open List Option

namespace Banjo.SSA

theorem Instruction.Shaped.steady {instr : Instruction} (h : instr.Shaped)
    (hterm : instr.isTerminator = false) : paths.Steady instr :=
  fun env _ ↦ ⟨(), fun _ _ _ ↦ ⟨fun _ ↦ ⟨rfl, rfl⟩, fun _ ↦ h.executes hterm env⟩⟩

theorem BasicBlock.successors_congr {block block' : BasicBlock}
    (h : block.instrs.getLast? = block'.instrs.getLast?) :
    block.successors = block'.successors := by
  rw [successors, successors, h]

end Banjo.SSA

namespace Banjo.Passes.LICMPass

open SSA

variable {func : Function} {b e x y : BlockId} {front back : List Instruction}
  {instr : Instruction} {dest reg : VirtualRegister} {body : List BlockId}
  {block block' : BasicBlock}

namespace Invariant

variable (h : Invariant func body b e front back instr dest)
include h

theorem shaped : instr.Shaped := by
  obtain ⟨block, hblock, hinstrs⟩ := h.block
  refine (h.wf.shaped hblock).instrs instr ?_
  rw [hinstrs]
  simp

theorem back_ne_nil : back ≠ [] := by
  obtain ⟨block, hblock, hinstrs⟩ := h.block
  have hsuffix : (instr :: back) <:+ block.instrs := ⟨front, hinstrs.symm⟩
  intro hnil
  have hterm := ((h.wf.shaped hblock).suffix hsuffix).mpr hnil
  rw [h.not_terminator] at hterm
  cases hterm

/-- Nothing but the instructions of a block changes. -/
theorem find_move_eq_some (hfind : func.find x = some block) :
    ∃ instrs, (move func b e instr (front ++ back)).find x = some { block with instrs := instrs } ∧
      instrs.getLast? = block.instrs.getLast? := by
  obtain ⟨other, hother, hinstrs⟩ := h.block
  obtain ⟨entryBlock, hentry⟩ := h.wf.hasBlock h.entry
  by_cases hb : x = b
  · subst hb
    obtain rfl := some.inj (hother.2.symm.trans hfind)
    refine ⟨_, by rw [find_move_block h.ne, hfind, map_some], ?_⟩
    obtain ⟨first, rest, hback⟩ := exists_cons_of_ne_nil h.back_ne_nil
    rw [hinstrs, hback, getLast?_append_of_ne_nil _ (cons_ne_nil _ _),
      getLast?_append_of_ne_nil _ (cons_ne_nil _ _), getLast?_cons_cons]
  · by_cases he : x = e
    · subst he
      obtain rfl := some.inj (hentry.2.symm.trans hfind)
      obtain ⟨init, last, hsplit, -, -⟩ := (h.wf.shaped hentry).split
      refine ⟨_, h.find_move_to hentry hsplit, ?_⟩
      rw [hsplit, getLast?_concat, getLast?_append_of_ne_nil _ (cons_ne_nil _ _)]
      rfl
    · exact ⟨block.instrs, (find_move_of_ne hb he).trans hfind, rfl⟩

theorem succs_move (x : BlockId) :
    (move func b e instr (front ++ back)).succs x = func.succs x := by
  cases hfind : func.find x with
  | none =>
    have hids : x ∉ (move func b e instr (front ++ back)).ids := by
      rw [ids_move, Function.mem_ids_iff, hfind]
      simp
    rw [Function.mem_ids_iff, not_exists] at hids
    have hnone := eq_none_iff_forall_ne_some.mpr hids
    rw [Function.succs, Function.succs, hfind, hnone]
  | some block =>
    obtain ⟨instrs, hfind', hlast⟩ := h.find_move_eq_some hfind
    rw [Function.succs_of_find hfind, Function.succs_of_find hfind']
    exact BasicBlock.successors_congr hlast

theorem reachable_move : (move func b e instr (front ++ back)).Reachable x ↔ func.Reachable x := by
  rw [Function.Reachable, Function.Reachable, entry_move]
  simp only [h.succs_move]

section

variable (hblock : (move func b e instr (front ++ back)).HasBlock x block')

include hblock

/-- The blocks of the moved function. -/
theorem hasBlock_move :
    ∃ block, func.HasBlock x block ∧
      ((x ≠ e ∧ block' = { block with instrs := block.instrs.filter (· ≠ instr) }) ∨
        ∃ init last, x = e ∧ block.instrs = init ++ [last] ∧
          block' = { block with instrs := init ++ [instr, last] }) := by
  obtain ⟨block, hold⟩ := h.wf.hasBlock (h.reachable_move.mp hblock.1)
  refine ⟨block, hold, ?_⟩
  by_cases hx : x = e
  · subst hx
    obtain ⟨init, last, hsplit, -, -⟩ := (h.wf.shaped hold).split
    refine Or.inr ⟨init, last, rfl, hsplit, ?_⟩
    exact some.inj (hblock.2.symm.trans (h.find_move_to hold hsplit))
  · exact Or.inl ⟨hx, some.inj (hblock.2.symm.trans (h.find_move_other hold hx))⟩

/-- What a block of the moved function executes was executed there, or is what was moved. -/
theorem mem_instrs_move {other : Instruction} (hmem : other ∈ block'.instrs) :
    ∃ y block, func.HasBlock y block ∧ other ∈ block.instrs := by
  obtain ⟨block, hold, ⟨-, rfl⟩ | ⟨init, last, rfl, hsplit, rfl⟩⟩ := h.hasBlock_move hblock
  · exact ⟨x, block, hold, (mem_filter.mp hmem).1⟩
  · by_cases heq : other = instr
    · obtain ⟨source, hsource, hinstrs⟩ := h.block
      refine ⟨b, source, hsource, ?_⟩
      rw [heq, hinstrs]
      simp
    · refine ⟨x, block, hold, ?_⟩
      rw [hsplit]
      simpa [heq] using hmem

theorem mem_defs_move (hreg : reg ∈ block'.defs) : (x = e ∧ reg = dest) ∨
      (reg ≠ dest ∧ ∃ block, func.HasBlock x block ∧ reg ∈ block.defs) := by
  obtain ⟨block, hold, hnew⟩ := h.hasBlock_move hblock
  have hparams : block'.paramRegs = block.paramRegs := by
    rcases hnew with ⟨-, rfl⟩ | ⟨_, _, -, -, rfl⟩ <;> rfl
  rcases mem_append.mp hreg with hparam | hdef
  · rw [hparams] at hparam
    refine Or.inr ⟨fun heq ↦ h.dest_not_mem_params hold (heq ▸ hparam), block, hold, ?_⟩
    exact mem_append_left _ hparam
  · obtain ⟨other, hmem, hdest⟩ := mem_filterMap.mp hdef
    by_cases heq : other = instr
    · subst heq
      have hreg : reg = dest := some.inj (hdest.symm.trans h.dest)
      rcases hnew with ⟨-, rfl⟩ | ⟨_, _, he, -, -⟩
      · exact absurd rfl (of_decide_eq_true (mem_filter.mp hmem).2)
      · exact Or.inl ⟨he, hreg⟩
    · have hmem' : other ∈ block.instrs := by
        rcases hnew with ⟨-, rfl⟩ | ⟨init, last, -, hsplit, rfl⟩
        · exact (mem_filter.mp hmem).1
        · rw [hsplit]
          simpa [heq] using hmem
      refine Or.inr ⟨fun hreg ↦ heq (h.eq_of_dest hold hmem' (hreg ▸ hdest)), block, hold, ?_⟩
      exact mem_append_right _ (mem_filterMap.mpr ⟨other, hmem', hdest⟩)

theorem shaped_move :
    block'.Shaped := by
  refine ⟨?_, fun other hmem ↦ ?_⟩
  · obtain ⟨block, hold, hnew⟩ := h.hasBlock_move hblock
    obtain ⟨init, last, hsplit, hlast, hinit⟩ := (h.wf.shaped hold).split
    have hne : last ≠ instr := by
      rintro rfl
      rw [h.not_terminator] at hlast
      cases hlast
    rcases hnew with ⟨-, rfl⟩ | ⟨init', last', -, hsplit', rfl⟩
    · refine ⟨init.filter (· ≠ instr), last, ?_, hlast, fun other hmem ↦ ?_⟩
      · dsimp only
        rw [hsplit, filter_append, filter_cons_of_pos (by simpa using hne), filter_nil]
      · exact hinit other (mem_filter.mp hmem).1
    · obtain ⟨rfl, heq⟩ := append_inj' (hsplit.symm.trans hsplit') rfl
      obtain rfl := singleton_inj.mp heq
      refine ⟨init ++ [instr], last, by simp, hlast, fun other hmem ↦ ?_⟩
      rcases mem_append.mp hmem with hmem | hmem
      · exact hinit other hmem
      · exact mem_singleton.mp hmem ▸ h.not_terminator
  · obtain ⟨y, block, hold, hmem⟩ := h.mem_instrs_move hblock hmem
    exact (h.wf.shaped hold).instrs other hmem

theorem nodup_defs_move :
    block'.defs.Nodup := by
  obtain ⟨block, hold, ⟨-, rfl⟩ | ⟨init, last, rfl, hsplit, rfl⟩⟩ := h.hasBlock_move hblock
  · refine (h.wf.defsNodup hold).sublist ?_
    exact (List.Sublist.filterMap _ filter_sublist).append_left _
  · have hperm : (BasicBlock.defs { block with instrs := init ++ [instr, last] }).Perm
        (dest :: block.defs) := by
      have hinstrs : (init ++ [instr, last]).Perm (instr :: block.instrs) :=
        hsplit ▸ perm_middle
      have hdests := hinstrs.filterMap Instruction.dest
      rw [filterMap_cons_some h.dest] at hdests
      exact (hdests.append_left block.paramRegs).trans perm_middle
    rw [hperm.nodup_iff, nodup_cons]
    exact ⟨fun hmem ↦ h.ne (h.eq_of_dest_mem hold hmem).symm, h.wf.defsNodup hold⟩

end

/-- Moving an invariant instruction leaves a well-formed function. -/
theorem wellFormed_move : (move func b e instr (front ++ back)).WellFormed where
  nodup := by
    rw [ids_move]
    exact h.wf.nodup
  nonempty := by
    intro hnil
    have hids : (move func b e instr (front ++ back)).ids = [] := by
      rw [Function.ids, hnil, map_nil]
    rw [ids_move, Function.ids, map_eq_nil_iff] at hids
    exact h.wf.nonempty hids
  shaped := h.shaped_move
  args := by
    intro x block' hblock other hmem target htarget
    obtain ⟨y, block, hold, hmem⟩ := h.mem_instrs_move hblock hmem
    obtain ⟨next, hnext, hlength⟩ := h.wf.args hold other hmem target htarget
    obtain ⟨instrs, hnext', -⟩ := h.find_move_eq_some hnext
    exact ⟨_, hnext', hlength⟩
  defsNodup := h.nodup_defs_move
  defsDisjoint := by
    intro x y block block' hblock hblock' hne reg hreg hreg'
    rcases h.mem_defs_move hblock hreg with ⟨rfl, rfl⟩ | ⟨hdest, old, hold, hdef⟩
    · rcases h.mem_defs_move hblock' hreg' with ⟨rfl, -⟩ | ⟨hdest, -⟩
      · exact hne rfl
      · exact hdest rfl
    · rcases h.mem_defs_move hblock' hreg' with ⟨-, rfl⟩ | ⟨-, old', hold', hdef'⟩
      · exact hdest rfl
      · exact h.wf.defsDisjoint hold hold' hne hdef hdef'
  below := by
    intro x block' hblock reg hreg
    rcases h.mem_defs_move hblock hreg with ⟨-, rfl⟩ | ⟨-, old, hold, hdef⟩
    · obtain ⟨block, hold, -⟩ := h.block
      exact h.wf.below hold reg (h.dest_mem_defs hold)
    · exact h.wf.below hold reg hdef
  allDefined := by
    rw [AllDefined, ← behaves_move_iff h (h.shaped.steady h.not_terminator)]
    exact h.wf.allDefined

end Invariant

/-!
## Loops with one entry

What the analysis finds is a natural loop, whose header dominates it. Unless the header is the
entry of the function, the only block outside the loop with a branch to the header is left before
any block of the loop is entered.
-/

open SSA DominatorTree Dominance Relation LoopAnalyzer

variable {func func' : Function} {body : List BlockId} {b e : BlockId}

/-- A body that is only entered from `e`. -/
structure SingleEntry (func : Function) (body : List BlockId) (e : BlockId) : Prop where
  entry : func.Reachable e
  after : ∀ b ∈ body, ¬Before func e b
  path : ∀ b ∈ body, ∃ header ∈ func.succs e, header ∈ body ∧
    ReflTransGen (fun x y ↦ y ∈ func.succs x ∧ y ∈ body) header b

/-- Functions whose branches lead to the same blocks. -/
structure SameBranches (func func' : Function) : Prop where
  entry : func'.entry = func.entry
  succs : ∀ x, func'.succs x = func.succs x

theorem SameBranches.refl (func : Function) : SameBranches func func := ⟨rfl, fun _ ↦ rfl⟩

theorem SameBranches.trans {func'' : Function} (h : SameBranches func func')
    (h' : SameBranches func' func'') : SameBranches func func'' :=
  ⟨h'.entry.trans h.entry, fun x ↦ (h'.succs x).trans (h.succs x)⟩

theorem SameBranches.before (h : SameBranches func func') (hb : Before func' e b) :
    Before func e b := by
  induction hb with
  | entry hentry => exact .entry (h.entry ▸ hentry)
  | step _ hne hc ih => exact ih.step hne (h.succs _ ▸ hc)

theorem SingleEntry.congr (hloop : SingleEntry func body e) (h : SameBranches func func') :
    SingleEntry func' body e := by
  refine ⟨?_, fun b hb hbefore ↦ hloop.after b hb (h.before hbefore), fun b hb ↦ ?_⟩
  · obtain ⟨entry, hentry, hpath⟩ := hloop.entry
    refine ⟨entry, h.entry.trans hentry, ?_⟩
    simp only [h.succs]
    exact hpath
  · simp only [h.succs]
    exact hloop.path b hb

theorem SingleEntry.reachable (hloop : SingleEntry func body e) (hb : b ∈ body) :
    func.Reachable b := by
  obtain ⟨header, hheader, -, hpath⟩ := hloop.path b hb
  have hreach : func.Reachable header := hloop.entry.succ hheader
  clear hheader hb
  induction hpath with
  | refl => exact hreach
  | tail _ hstep ih => exact ih.succ hstep.1

/-! ## Blocks and their numbers -/

section Graph

open ControlFlowGraph

variable {p i header tail entry : ℕ}

theorem blockOf_of_getElem? (hi : (blocksInPostOrder func)[i]? = some b) :
    blockOf (ofFunction func) i = b := by
  rw [blockOf, ofFunction, getElem?_map, hi]
  rfl

variable (hclosed : Closed func)
include hclosed

/-! ## The natural loop -/

section Natural

variable (hdom : Dominates (ofFunction func).Edge (ofFunction func).entryIndex header tail)
  (hback : (ofFunction func).Edge tail header) (hheader : header ≠ (ofFunction func).entryIndex)
include hback

omit hdom hheader in
theorem exists_block (hi : InNaturalLoop (ofFunction func) header tail i) :
    ∃ b, (blocksInPostOrder func)[i]? = some b := by
  obtain ⟨b, c, hb, hc, -⟩ := exists_of_edge hclosed hback
  rcases hi with rfl | hreaches
  · exact ⟨c, hc⟩
  · cases hreaches with
    | last _ => exact ⟨b, hb⟩
    | step hedge _ _ =>
      obtain ⟨b', -, hb', -, -⟩ := exists_of_edge hclosed hedge
      exact ⟨b', hb'⟩

omit hclosed hback in
/-- A branch that leads to the loop but to the header comes from the loop. -/
theorem inNaturalLoop_pred (hi : InNaturalLoop (ofFunction func) header tail i) (hne : i ≠ header)
    (hedge : (ofFunction func).Edge p i) : InNaturalLoop (ofFunction func) header tail p := by
  by_cases hp : p = header
  · exact Or.inl hp
  · exact Or.inr (.step hedge hp (hi.resolve_left hne))

include hdom hheader

omit hclosed hback in
theorem not_inNaturalLoop_entry :
    ¬InNaturalLoop (ofFunction func) header tail (ofFunction func).entryIndex := by
  rintro (heq | hreaches)
  · exact hheader heq.symm
  · exact hdom.not_reachesAround hheader.symm hreaches

/-- Blocks of the loop are not reached before the block it is entered from is left. -/
theorem not_inNaturalLoop_of_before
    (hentry : ∀ p, (ofFunction func).Edge p header →
      ¬InNaturalLoop (ofFunction func) header tail p → p = entry)
    (hb : Before func (blockOf (ofFunction func) entry) b)
    (hi : (blocksInPostOrder func)[i]? = some b) :
    ¬InNaturalLoop (ofFunction func) header tail i := by
  induction hb generalizing i with
  | entry hb =>
    have heq := eq_of_getElem? hclosed hi ((getElem?_entryIndex hclosed).trans hb)
    rw [heq]
    exact not_inNaturalLoop_entry hdom hheader
  | @step p c hp hne hc ih =>
    have hmem := (hclosed.blocksInPostOrder_spec.1 p).mpr hp.reachable
    obtain ⟨j, hj⟩ := mem_iff_getElem?.mp hmem
    obtain ⟨i', hi', hedge⟩ := exists_edge hclosed hj hc
    obtain rfl := eq_of_getElem? hclosed hi hi'
    intro hloop
    by_cases heq : i = header
    · subst heq
      obtain rfl := hentry j hedge (ih hj)
      exact hne (blockOf_of_getElem? hj).symm
    · exact ih hj (inNaturalLoop_pred hloop heq hedge)

theorem singleEntry_of_natural
    (hbody : ∀ b, b ∈ body ↔ ∃ i, InNaturalLoop (ofFunction func) header tail i ∧
      blockOf (ofFunction func) i = b)
    (hentry : ∀ p, (ofFunction func).Edge p header →
      ¬InNaturalLoop (ofFunction func) header tail p → p = entry)
    (hedge : (ofFunction func).Edge entry header) :
    SingleEntry func body (blockOf (ofFunction func) entry) := by
  have hmem := hclosed.blocksInPostOrder_spec.1
  obtain ⟨e, h, he, hh, hsucc⟩ := exists_of_edge hclosed hedge
  have hblock : ∀ {b}, b ∈ body → ∃ i, InNaturalLoop (ofFunction func) header tail i ∧
      (blocksInPostOrder func)[i]? = some b := by
    intro b hb
    obtain ⟨i, hi, rfl⟩ := (hbody b).mp hb
    obtain ⟨b, hb⟩ := exists_block hclosed hback hi
    exact ⟨i, hi, (blockOf_of_getElem? hb).symm ▸ hb⟩
  have hheaderMem : h ∈ body :=
    (hbody h).mpr ⟨header, Or.inl rfl, blockOf_of_getElem? hh⟩
  refine ⟨?_, fun b hb hbefore ↦ ?_, fun b hb ↦ ?_⟩
  · rw [blockOf_of_getElem? he]
    exact (hmem e).mp (mem_of_getElem? he)
  · obtain ⟨i, hi, hib⟩ := hblock hb
    exact not_inNaturalLoop_of_before hclosed hdom hback hheader hentry hbefore hib hi
  · refine ⟨h, ?_, hheaderMem, ?_⟩
    · rwa [blockOf_of_getElem? he]
    · obtain ⟨i, hi, hib⟩ := hblock hb
      have hreach := (hmem b).mp (mem_of_getElem? hib)
      revert i
      refine hreach.induction (P := fun b ↦ b ∈ body → ∀ i,
        InNaturalLoop (ofFunction func) header tail i →
        (blocksInPostOrder func)[i]? = some b →
        ReflTransGen (fun x y ↦ y ∈ func.succs x ∧ y ∈ body) h b) ?_ ?_ hb
      · intro b hfirst _ i hi hib
        obtain rfl := eq_of_getElem? hclosed hib ((getElem?_entryIndex hclosed).trans hfirst)
        exact absurd hi (not_inNaturalLoop_entry hdom hheader)
      · intro p c hp ih hc hcb i hi hic
        by_cases heq : i = header
        · subst heq
          obtain rfl := some.inj (hh.symm.trans hic)
          exact .refl
        · obtain ⟨j, hj⟩ := mem_iff_getElem?.mp ((hmem p).mpr hp)
          obtain ⟨i', hi', hedge'⟩ := exists_edge hclosed hj hc
          obtain rfl := eq_of_getElem? hclosed hic hi'
          have hloop := inNaturalLoop_pred hi heq hedge'
          have hpb : p ∈ body := (hbody p).mpr ⟨j, hloop, blockOf_of_getElem? hj⟩
          exact (ih hpb j hloop hj).tail ⟨hc, hcb⟩

end Natural

/-! ## The loops that are found -/

/-- The analysis ends with natural loops. -/
theorem exists_loopsOf : ∃ F, ∀ fuel ≥ F, ∃ loops, loopsOf fuel func = some loops ∧
    ∀ loop ∈ loops, BackEdge (ofFunction func) loop.tail loop.header ∧
      (∀ x, x ∈ loop.body ↔ InNaturalLoop (ofFunction func) loop.header loop.tail x) ∧
      ∀ p, p ∈ loop.entries ↔ (ofFunction func).Edge p loop.header ∧ p ∉ loop.body := by
  have hcfg := ofFunction_postOrdered hclosed
  have hlength : (ofFunction func).entryIndex = (ofFunction func).nodes.length - 1 := rfl
  have hpos := hcfg.nonempty
  obtain ⟨F, hF⟩ := exists_ofGraph hcfg
  refine ⟨max F (ofFunction func).nodes.length, fun fuel hfuel ↦ ?_⟩
  have hnodes : (ofFunction func).nodes.length ≤ fuel := le_of_max_le_right hfuel
  obtain ⟨tree, doms, htree, hexact, hof, -⟩ := hF fuel (le_of_max_le_left hfuel)
  have hle : ∀ {edge}, edge ∈ edges (ofFunction func) → edge.1 ≤ (ofFunction func).entryIndex :=
    fun hedge ↦ edge_le hcfg ((mem_successorIndices hclosed).mp (mem_edges.mp hedge))
  obtain ⟨loops, hloops, hmem⟩ :=
    exists_analyze hexact hof (by omega : (ofFunction func).entryIndex < fuel) fun _ ↦ hle
  refine ⟨loops, ?_, fun loop hloop ↦ ?_⟩
  · rw [loopsOf, htree, bind_some]
    exact hloops
  · obtain ⟨edge, hedge, hP, rfl⟩ := (hmem loop).mp hloop
    have htail := hle hedge
    refine ⟨⟨mem_edges.mp hedge, hP.1⟩, fun x ↦ mem_collectBodyNodes hcfg hnodes (by omega),
      fun p ↦ ?_⟩
    simp only [analyzeBackEdge, mem_dedup, mem_filter, decide_eq_true_eq, Edge]

end Graph

end Banjo.Passes.LICMPass
