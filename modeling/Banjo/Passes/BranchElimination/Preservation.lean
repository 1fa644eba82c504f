import Banjo.Passes.BranchElimination.Simulation

/-!
# One elimination keeps a function well formed
-/

open List Option

namespace Banjo.Passes.BranchElimination

namespace Elimination

open SSA

variable {func func' : Function}

/-- The branching block after the rewriting. -/
def newBlock (E : Elimination func func') : BasicBlock :=
  { E.block with instrs := E.body ++ E.select :: E.tail }

variable {E : Elimination func func'}

theorem find_b : func'.find E.b = some E.newBlock := (find_kept not_gone_b).trans (if_pos rfl)

variable {c : BlockId}

theorem find_of_ne (hb : c ≠ E.b) (hc : ¬E.Gone c) : func'.find c = func.find c :=
  (find_kept hc).trans (if_neg hb)

theorem not_gone_of_find {block : BasicBlock} (h : func'.find c = some block) : ¬E.Gone c := by
  intro hgone
  rw [find_gone hgone] at h
  cases h

/-- A block that stays keeps its parameters. -/
theorem find_params {block : BasicBlock} (hc : ¬E.Gone c) (hfind : func.find c = some block) :
    ∃ block', func'.find c = some block' ∧ block'.paramRegs = block.paramRegs := by
  by_cases hb : c = E.b
  · subst hb
    rw [E.hasBlock.2, some.injEq] at hfind
    exact ⟨_, find_b, by rw [← hfind]; rfl⟩
  · exact ⟨block, (find_of_ne hb hc).trans hfind, rfl⟩

section WellFormed

variable (hwf : func.WellFormed)
include hwf

/-- The successors of the branching block after the rewriting. -/
theorem succs_newBlock : func'.succs E.b = if E.merged then func.succs E.join else [E.join] := by
  rw [Function.succs_of_find find_b, newBlock, BasicBlock.successors]
  cases hmerged : E.merged with
  | true =>
    obtain ⟨jbody, last, hinstrs, -, -⟩ := (hwf.shaped E.hasJoin).split
    have hlast : (E.body ++ E.select :: (jbody ++ [last])).getLast? = some last := by
      rw [← cons_append, ← append_assoc]
      exact getLast?_concat
    rw [E.merged_tail hmerged, if_pos rfl, Function.succs_of_find E.hasJoin.2,
      BasicBlock.successors, hinstrs, hlast, getLast?_concat]
  | false =>
    have hlast : (E.body ++ [E.select, joinJump E.join (E.target true).args E.k E.dst]).getLast?
        = some (joinJump E.join (E.target true).args E.k E.dst) := by
      rw [append_cons]
      exact getLast?_concat
    rw [E.kept_tail hmerged, hlast]
    rfl

variable {c : BlockId}

/-- A block the rewritten function reaches was reachable. -/
theorem reachable (E : Elimination func func') (h : func'.Reachable c) : func.Reachable c := by
  refine h.induction ?_ ?_
  · exact fun b hentry ↦ .entry (E.entry.symm.trans hentry)
  · intro c c' _ hc hsucc
    by_cases hb : c = E.b
    · subst hb
      rw [succs_newBlock hwf] at hsucc
      split_ifs at hsucc
      · exact E.hasJoin.1.succ hsucc
      · rw [mem_singleton.mp hsucc]
        exact E.hasJoin.1
    · refine hc.succ ?_
      rw [Function.succs] at hsucc ⊢
      by_cases hgone : E.Gone c
      · rw [find_gone hgone] at hsucc
        exact absurd hsucc not_mem_nil
      · rwa [find_of_ne hb hgone] at hsucc

variable {block : BasicBlock}

/-- A block of the rewritten function is the branching block or was there before. -/
theorem hasBlock_cases (E : Elimination func func') (h : func'.HasBlock c block) :
    ¬E.Gone c ∧ ((c = E.b ∧ block = E.newBlock) ∨ (c ≠ E.b ∧ func.HasBlock c block)) := by
  have hc : ¬E.Gone c := not_gone_of_find h.2
  refine ⟨hc, ?_⟩
  by_cases hb : c = E.b
  · subst hb
    exact Or.inl ⟨rfl, some.inj (h.2.symm.trans find_b)⟩
  · exact Or.inr ⟨hb, E.reachable hwf h.1, (find_of_ne hb hc).symm.trans h.2⟩

/-! ## Shapes -/

theorem shaped_body {instr : Instruction} (h : instr ∈ E.body) :
    instr.isTerminator = false ∧ instr.Shaped := by
  have hshaped := hwf.shaped E.hasBlock
  obtain ⟨body, last, hinstrs, -, hbody⟩ := hshaped.split
  rw [E.instrs] at hinstrs
  have heq : E.body = body := (append_inj' hinstrs rfl).1
  refine ⟨hbody instr (heq ▸ h), hshaped.instrs instr ?_⟩
  rw [E.instrs]
  exact mem_append_left _ h

omit hwf in
theorem shaped_select : E.select.Shaped :=
  ⟨⟨_, _, _, _, _, _, select_operands, E.cmp_value⟩, rfl⟩

omit hwf in
theorem shaped_joinJump {join : BlockId} {args : List Operand} {k : ℕ} {dst : VirtualRegister} :
    (joinJump join args k dst).Shaped :=
  ⟨rfl, rfl, _, rfl⟩

theorem shaped_newBlock : E.newBlock.Shaped where
  split := by
    have hselect : E.select.isTerminator = false := rfl
    cases hmerged : E.merged with
    | true =>
      obtain ⟨jbody, last, hinstrs, hlast, hbody⟩ := (hwf.shaped E.hasJoin).split
      refine ⟨E.body ++ E.select :: jbody, last, ?_, hlast, ?_⟩
      · rw [newBlock, E.merged_tail hmerged, hinstrs]
        simp
      · intro instr hinstr
        rcases mem_append.mp hinstr with h | h
        · exact (shaped_body hwf h).1
        · rcases mem_cons.mp h with rfl | h
          · exact hselect
          · exact hbody instr h
    | false =>
      refine ⟨E.body ++ [E.select], joinJump E.join (E.target true).args E.k E.dst, ?_, rfl, ?_⟩
      · rw [newBlock, E.kept_tail hmerged]
        simp
      · intro instr hinstr
        rcases mem_append.mp hinstr with h | h
        · exact (shaped_body hwf h).1
        · rw [mem_singleton.mp h]
          exact hselect
  instrs := by
    intro instr hinstr
    rcases mem_append.mp hinstr with h | h
    · exact (shaped_body hwf h).2
    · rcases mem_cons.mp h with rfl | h
      · exact shaped_select
      · cases hmerged : E.merged with
        | true =>
          rw [E.merged_tail hmerged] at h
          exact (hwf.shaped E.hasJoin).instrs instr h
        | false =>
          rw [E.kept_tail hmerged, mem_singleton] at h
          rw [h]
          exact shaped_joinJump

/-! ## Arguments -/

theorem args_of_hasBlock (hblock : func.HasBlock c block)
    (hb : c ≠ E.b) (harm : ∀ t, c ≠ E.arm t) : ∀ instr ∈ block.instrs, ∀ target ∈ instr.targets,
    ∃ next, func'.find target.block = some next ∧ target.args.length = next.paramRegs.length := by
  intro instr hinstr target ht
  obtain ⟨next, hnext, hlen⟩ := hwf.args hblock instr hinstr target ht
  have hgone : ¬E.Gone target.block := by
    intro hgone
    rcases pred_of_gone hblock.1 (hwf.target_mem_succs hblock hinstr ht) hgone with h | ⟨t, h⟩
    · exact hb h
    · exact harm t h
  obtain ⟨next', hnext', hparams⟩ := find_params hgone hnext
  exact ⟨next', hnext', by rw [hlen, hparams]⟩

theorem args_newBlock : ∀ instr ∈ E.newBlock.instrs, ∀ target ∈ instr.targets,
    ∃ next, func'.find target.block = some next ∧ target.args.length = next.paramRegs.length := by
  intro instr hinstr target ht
  rcases mem_append.mp hinstr with h | h
  · obtain ⟨hterm, hshaped⟩ := shaped_body hwf h
    rw [Instruction.isTerminator, hshaped.isBranching ht] at hterm
    exact Bool.noConfusion hterm
  · rcases mem_cons.mp h with rfl | h
    · exact absurd ht not_mem_nil
    · cases hmerged : E.merged with
      | true =>
        rw [E.merged_tail hmerged] at h
        exact args_of_hasBlock hwf E.hasJoin (E.merged_ne hmerged) join_ne_arm instr h target ht
      | false =>
        rw [E.kept_tail hmerged, mem_singleton] at h
        subst h
        obtain rfl := mem_singleton.mp ht
        obtain ⟨next, hnext, hparams⟩ := find_params (not_gone_join hmerged) E.hasJoin.2
        refine ⟨next, hnext, ?_⟩
        rw [length_modify, length_args hwf, hparams]

/-! ## Definitions -/

theorem defs_block : E.block.defs = E.block.paramRegs ++ E.body.filterMap Instruction.dest := by
  have hdest : E.branch.dest = none := by
    refine ((hwf.shaped E.hasBlock).instrs _ ?_).dest_eq_none (branch_terminator hwf)
    rw [E.instrs]
    exact mem_append_right _ (mem_singleton_self _)
  rw [BasicBlock.defs, E.instrs, filterMap_append, filterMap_cons_none hdest,
    filterMap_nil, append_nil]

theorem defs_newBlock : E.newBlock.defs
    = E.block.defs ++ E.dst :: E.tail.filterMap Instruction.dest := by
  rw [defs_block hwf, newBlock, BasicBlock.defs, filterMap_append,
    filterMap_cons_some (show E.select.dest = some E.dst from rfl), append_assoc]

omit hwf in
/-- What the branching block defines in addition. -/
theorem mem_added {reg : VirtualRegister} (h : reg ∈ E.dst :: E.tail.filterMap Instruction.dest) :
    (E.merged = true ∧ reg ∈ E.joinBlock.defs) ∨
    (E.merged = false ∧ reg = func.lastVirtualReg) := by
  cases hmerged : E.merged with
  | true =>
    refine Or.inl ⟨rfl, ?_⟩
    rcases mem_cons.mp h with rfl | h
    · exact mem_append_left _ (mem_of_getElem? (E.merged_dst hmerged))
    · rw [E.merged_tail hmerged] at h
      exact mem_append_right _ h
  | false =>
    refine Or.inr ⟨rfl, ?_⟩
    rw [E.kept_tail hmerged, joinJump] at h
    simpa [E.kept_dst hmerged] using h

theorem nodup_added : (E.dst :: E.tail.filterMap Instruction.dest).Nodup := by
  cases hmerged : E.merged with
  | true =>
    have hjoin := hwf.defsNodup E.hasJoin
    rw [BasicBlock.defs, nodup_append] at hjoin
    rw [E.merged_tail hmerged, nodup_cons]
    refine ⟨fun hmem ↦ ?_, hjoin.2.1⟩
    exact hjoin.2.2 _ (mem_of_getElem? (E.merged_dst hmerged)) _ hmem rfl
  | false =>
    rw [E.kept_tail hmerged, joinJump]
    simp

/-- What is added is defined in no block that stays. -/
theorem disjoint_added (hblock : func.HasBlock c block)
    (hc : ¬E.Gone c) : block.defs.Disjoint (E.dst :: E.tail.filterMap Instruction.dest) := by
  refine disjoint_left.mpr fun reg hreg hadded ↦ ?_
  rcases mem_added hadded with ⟨hmerged, hjoin⟩ | ⟨-, rfl⟩
  · have hne : c ≠ E.join := fun heq ↦ hc (Or.inr ⟨hmerged, heq⟩)
    exact hwf.defsDisjoint hblock E.hasJoin hne hreg hjoin
  · exact lt_irrefl _ (hwf.below hblock _ hreg)

omit hwf in
theorem lt_counter (E : Elimination func func') {reg : VirtualRegister}
    (h : reg < func.lastVirtualReg) : reg < func'.lastVirtualReg := by
  rw [E.counter]
  split_ifs
  · exact h
  · exact h.trans (Nat.lt_succ_self _)

/-- **One elimination keeps the function well formed.** -/
theorem wellFormed (E : Elimination func func') : func'.WellFormed where
  nodup := by
    rw [E.ids]
    exact hwf.nodup.filter _
  nonempty := by
    obtain ⟨b, block, hentry, -⟩ := Function.find_entry hwf.nonempty
    intro hnil
    have := E.entry.trans hentry
    rw [Function.entry, Function.ids, hnil] at this
    cases this
  shaped := by
    intro c block hblock
    rcases (E.hasBlock_cases hwf hblock).2 with ⟨rfl, rfl⟩ | ⟨-, hold⟩
    · exact shaped_newBlock hwf
    · exact hwf.shaped hold
  args := by
    intro c block hblock
    obtain ⟨hc, ⟨rfl, rfl⟩ | ⟨hb, hold⟩⟩ := E.hasBlock_cases hwf hblock
    · exact args_newBlock hwf
    · exact args_of_hasBlock hwf hold hb fun t heq ↦ hc (Or.inl ⟨t, heq⟩)
  defsNodup := by
    intro c block hblock
    rcases (E.hasBlock_cases hwf hblock).2 with ⟨rfl, rfl⟩ | ⟨-, hold⟩
    · rw [defs_newBlock hwf]
      exact (hwf.defsNodup E.hasBlock).append (nodup_added hwf)
        (disjoint_added hwf E.hasBlock not_gone_b)
    · exact hwf.defsNodup hold
  defsDisjoint := by
    intro c c' block block' hblock hblock' hne
    obtain ⟨hc, hcase⟩ := E.hasBlock_cases hwf hblock
    obtain ⟨hc', hcase'⟩ := E.hasBlock_cases hwf hblock'
    rcases hcase with ⟨rfl, rfl⟩ | ⟨-, hold⟩
    · rcases hcase' with ⟨rfl, rfl⟩ | ⟨hb', hold'⟩
      · exact absurd rfl hne
      · rw [defs_newBlock hwf, disjoint_append_left]
        exact ⟨hwf.defsDisjoint E.hasBlock hold' hne, (disjoint_added hwf hold' hc').symm⟩
    · rcases hcase' with ⟨rfl, rfl⟩ | ⟨hb', hold'⟩
      · rw [defs_newBlock hwf, disjoint_append_right]
        exact ⟨hwf.defsDisjoint hold E.hasBlock hne, disjoint_added hwf hold hc⟩
      · exact hwf.defsDisjoint hold hold' hne
  below := by
    intro c block hblock reg hreg
    rcases (E.hasBlock_cases hwf hblock).2 with ⟨rfl, rfl⟩ | ⟨-, hold⟩
    · rw [defs_newBlock hwf, mem_append] at hreg
      rcases hreg with hreg | hadded
      · exact E.lt_counter (hwf.below E.hasBlock reg hreg)
      · rcases mem_added hadded with ⟨-, hjoin⟩ | ⟨hmerged, rfl⟩
        · exact E.lt_counter (hwf.below E.hasJoin reg hjoin)
        · rw [E.counter, hmerged]
          exact Nat.lt_succ_self _
    · exact E.lt_counter (hwf.below hold reg hreg)
  allDefined := fun h ↦ hwf.allDefined ((E.equivalent hwf Unit Unit paths () .undefined).mpr h)

end WellFormed

end Elimination

end Banjo.Passes.BranchElimination
