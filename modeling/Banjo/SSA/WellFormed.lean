import Banjo.SSA.Semantics

/-!
# Well-formed functions

What the passes may assume of a function: its reachable blocks end in their only terminator,
branches lead to blocks of the function and pass as many arguments as those have parameters,
registers are defined once, below the counter new ones are drawn from, and on every path to where
they are read. Nothing is asked of blocks no path leads to.
-/

open List

namespace Banjo.SSA

open Relation

variable {V W : Type} {m : Machine V W} {func : Function}

namespace Instruction

/-- The operands, targets and destination the opcode calls for. -/
def Shaped (instr : Instruction) : Prop :=
  match instr.opcode with
  | .JMP => instr.dest = none ∧ instr.operands = [] ∧ ∃ target, instr.targets = [target]
  | .CJMP | .FCJMP => instr.dest = none ∧
      (∃ lhs cmp rhs c, instr.operands = [lhs, cmp, rhs] ∧ cmp.value = .comparison c) ∧
      ∃ trueTarget falseTarget, instr.targets = [trueTarget, falseTarget]
  | .RET => instr.dest = none ∧ instr.targets = []
  | .SELECT => (∃ lhs cmp rhs trueVal falseVal c,
      instr.operands = [lhs, cmp, rhs, trueVal, falseVal] ∧ cmp.value = .comparison c) ∧
      instr.targets = []
  | _ => instr.targets = []

end Instruction

namespace BasicBlock

/-- A body without terminators and a terminator, all of them well shaped. -/
structure Shaped (block : BasicBlock) : Prop where
  split : ∃ body last, block.instrs = body ++ [last] ∧ last.isTerminator = true ∧
    ∀ instr ∈ body, instr.isTerminator = false
  instrs : ∀ instr ∈ block.instrs, instr.Shaped

end BasicBlock

namespace Function

/-- A reachable block of the function. -/
def HasBlock (func : Function) (b : BlockId) (block : BasicBlock) : Prop :=
  func.Reachable b ∧ func.find b = some block

structure WellFormed (func : Function) : Prop where
  nodup : func.ids.Nodup
  nonempty : func.blocks ≠ []
  shaped : ∀ {b block}, func.HasBlock b block → block.Shaped
  args : ∀ {b block}, func.HasBlock b block → ∀ instr ∈ block.instrs, ∀ target ∈ instr.targets,
    ∃ next, func.find target.block = some next ∧ target.args.length = next.paramRegs.length
  defsNodup : ∀ {b block}, func.HasBlock b block → block.defs.Nodup
  defsDisjoint : ∀ {b c block block'}, func.HasBlock b block → func.HasBlock c block' → b ≠ c →
    block.defs.Disjoint block'.defs
  below : ∀ {b block}, func.HasBlock b block → ∀ reg ∈ block.defs, reg < func.lastVirtualReg
  allDefined : AllDefined func

end Function

/-! ## Reachable blocks -/

namespace Function

theorem find_entry (hne : func.blocks ≠ []) :
    ∃ b block, func.entry = some b ∧ func.find b = some block := by
  obtain ⟨⟨b, block⟩, rest, hblocks⟩ := exists_cons_of_ne_nil hne
  refine ⟨b, block, ?_, ?_⟩
  · rw [entry, ids, hblocks]
    rfl
  · rw [find, hblocks, lookup_cons_self]

variable {b : BlockId}

theorem Reachable.entry (h : func.entry = some b) : func.Reachable b :=
  ⟨b, h, .refl⟩

variable {c : BlockId}

theorem Reachable.succ (h : func.Reachable b) (hc : c ∈ func.succs b) : func.Reachable c := by
  obtain ⟨entry, hentry, hpath⟩ := h
  exact ⟨entry, hentry, hpath.tail hc⟩

/-- What holds of the entry and of the successors of what it holds of holds of reachable blocks. -/
theorem Reachable.induction {P : BlockId → Prop} (hentry : ∀ b, func.entry = some b → P b)
    (hsucc : ∀ b c, func.Reachable b → P b → c ∈ func.succs b → P c)
    (h : func.Reachable b) : P b := by
  obtain ⟨entry, hfirst, hpath⟩ := h
  induction hpath with
  | refl => exact hentry _ hfirst
  | tail hbefore hlast ih => exact hsucc _ _ ⟨entry, hfirst, hbefore⟩ ih hlast

theorem succs_of_find {block : BasicBlock} (h : func.find b = some block) :
    func.succs b = block.successors := by
  rw [succs, h]
  rfl

theorem WellFormed.succ_mem_ids (hwf : func.WellFormed) (hb : func.Reachable b)
    (hc : c ∈ func.succs b) : c ∈ func.ids := by
  cases hfind : func.find b with
  | none => simp [succs, hfind] at hc
  | some block =>
    rw [succs_of_find hfind, BasicBlock.successors] at hc
    cases hlast : block.instrs.getLast? with
    | none => simp [hlast] at hc
    | some instr =>
      simp only [hlast] at hc
      split_ifs at hc
      · obtain ⟨target, htarget, rfl⟩ := mem_map.mp hc
        obtain ⟨next, hnext, -⟩ :=
          hwf.args ⟨hb, hfind⟩ instr (mem_of_getLast? hlast) target htarget
        exact mem_ids_iff.mpr ⟨next, hnext⟩
      · exact absurd hc not_mem_nil

theorem WellFormed.mem_ids (hwf : func.WellFormed) (hb : func.Reachable b) : b ∈ func.ids := by
  refine hb.induction (P := fun b ↦ b ∈ func.ids) ?_ fun b c hb _ hc ↦ hwf.succ_mem_ids hb hc
  exact fun b hentry ↦ mem_of_mem_head? hentry

theorem WellFormed.hasBlock (hwf : func.WellFormed) (hb : func.Reachable b) :
    ∃ block, func.HasBlock b block := by
  obtain ⟨block, hfind⟩ := mem_ids_iff.mp (hwf.mem_ids hb)
  exact ⟨block, hb, hfind⟩

theorem HasBlock.unique {block block' : BasicBlock} (h : func.HasBlock b block)
    (h' : func.HasBlock b block') : block = block' :=
  Option.some.inj (h.2.symm.trans h'.2)

end Function

/-! ## Positions of runs -/

variable {block : BasicBlock} {instr : Instruction}

variable {rest : List Instruction}

/-- The last of the instructions of a shaped block is its terminator. -/
theorem BasicBlock.Shaped.suffix (h : block.Shaped) (hsuffix : (instr :: rest) <:+ block.instrs) :
    instr.isTerminator = true ↔ rest = [] := by
  obtain ⟨body, last, hinstrs, hlast, hbody⟩ := h.split
  obtain ⟨front, hfront⟩ := hsuffix
  rw [hinstrs] at hfront
  rcases eq_nil_or_concat rest with rfl | ⟨init, x, rfl⟩
  · refine iff_of_true ?_ rfl
    have := (append_inj' hfront rfl).2
    rw [singleton_inj.mp this]
    exact hlast
  · rw [concat_eq_append] at hfront ⊢
    refine iff_of_false ?_ (by simp)
    have hsplit : (front ++ instr :: init) ++ [x] = body ++ [last] := by simpa using hfront
    have hmem : instr ∈ body := by
      rw [← (append_inj' hsplit rfl).1]
      simp
    rw [hbody instr hmem]
    exact Bool.false_ne_true

variable {target : BranchTarget}

/-- Only a branch has targets. -/
theorem Instruction.Shaped.isBranching (h : instr.Shaped) (ht : target ∈ instr.targets) :
    instr.isBranching = true := by
  unfold Instruction.Shaped at h
  unfold Instruction.isBranching
  split at h <;> simp_all

/-- A terminator defines nothing. -/
theorem Instruction.Shaped.dest_eq_none (h : instr.Shaped)
    (ht : instr.isTerminator = true) : instr.dest = none := by
  unfold Instruction.Shaped at h
  unfold Instruction.isTerminator Instruction.isBranching at ht
  split at h <;> simp_all

/-- The instruction of a shaped block with targets is its last. -/
theorem BasicBlock.Shaped.getLast (h : block.Shaped) (hinstr : instr ∈ block.instrs)
    (ht : target ∈ instr.targets) : block.instrs.getLast? = some instr := by
  obtain ⟨body, last, hinstrs, -, hbody⟩ := h.split
  have hterm : instr.isTerminator = true := by
    rw [Instruction.isTerminator, (h.instrs instr hinstr).isBranching ht, Bool.true_or]
  rw [hinstrs] at hinstr ⊢
  rcases mem_append.mp hinstr with hmem | hmem
  · rw [hbody instr hmem] at hterm
    exact absurd hterm Bool.false_ne_true
  · rw [mem_singleton.mp hmem]
    exact getLast?_concat

variable {b : BlockId}

/-- The targets of the instructions of a reachable block are its successors. -/
theorem Function.WellFormed.target_mem_succs (hwf : func.WellFormed)
    (hblock : func.HasBlock b block) (hinstr : instr ∈ block.instrs) (ht : target ∈ instr.targets) :
    target.block ∈ func.succs b := by
  have hshaped := hwf.shaped hblock
  rw [succs_of_find hblock.2, BasicBlock.successors, hshaped.getLast hinstr ht]
  simp only [(hshaped.instrs instr hinstr).isBranching ht, if_true]
  exact mem_map_of_mem ht

variable {env : Env V}

/-- A taken target of the terminator of a block is among its successors. -/
theorem mem_succs_of_takes (hfind : func.find b = some block)
    (hlast : block.instrs.getLast? = some instr) (htakes : m.Takes env instr target) :
    target.block ∈ func.succs b := by
  rw [Function.succs_of_find hfind, BasicBlock.successors, hlast]
  simp only [htakes.isBranching, if_true]
  exact mem_map_of_mem htakes.mem_targets

variable {w : W}

variable {c : Config V W}

/-- A run is at a suffix of the instructions of a reachable block. -/
theorem Function.WellFormed.position (hwf : func.WellFormed)
    (h : Reaches m func w c) : ∃ block, func.HasBlock c.block block ∧ c.rest <:+ block.instrs := by
  refine h.induction (P := fun c ↦ ∃ block, func.HasBlock c.block block ∧ c.rest <:+ block.instrs)
    ?_ ?_
  · exact fun b block hentry hfind ↦ ⟨block, ⟨.entry hentry, hfind⟩, suffix_rfl⟩
  · rintro c c' - ⟨block, hblock, hsuffix⟩ hstep
    cases hstep with
    | op _ _ => exact ⟨block, hblock, (suffix_cons _ _).trans hsuffix⟩
    | @branch b instr rest env w target next _ htakes hfind =>
      refine ⟨next, ⟨hblock.1.succ ?_, hfind⟩, suffix_rfl⟩
      have hterm : instr.isTerminator = true := by
        rw [Instruction.isTerminator, htakes.isBranching, Bool.true_or]
      have hrest : rest = [] := ((hwf.shaped hblock).suffix hsuffix).mp hterm
      obtain ⟨front, hfront⟩ := hsuffix
      refine mem_succs_of_takes hblock.2 ?_ htakes
      rw [← hfront, hrest]
      exact getLast?_concat

/-- A taken branch is the last instruction of its block and leads to a successor. -/
theorem Function.WellFormed.takes_succ (hwf : func.WellFormed) {w₀ : W} {c : BlockId} {env' : Env V}
    (hreach : Reaches m func w₀ ⟨c, instr :: rest, env, w⟩) (htakes : m.Takes env' instr target) :
    instr.isTerminator = true ∧ target.block ∈ func.succs c ∧ ∃ block,
      func.HasBlock target.block block ∧ target.args.length = block.paramRegs.length := by
  obtain ⟨block, hblock, hsuffix⟩ := hwf.position hreach
  have hterm : instr.isTerminator = true := by
    rw [Instruction.isTerminator, htakes.isBranching, Bool.true_or]
  have hrest : rest = [] := ((hwf.shaped hblock).suffix hsuffix).mp hterm
  subst hrest
  have hmem : instr ∈ block.instrs := hsuffix.subset mem_cons_self
  have hlast : block.instrs.getLast? = some instr := by
    obtain ⟨front, hfront⟩ := hsuffix
    rw [← hfront]
    exact getLast?_concat
  have hsucc := mem_succs_of_takes hblock.2 hlast htakes
  obtain ⟨next, hnext, hlen⟩ := hwf.args hblock instr hmem target htakes.mem_targets
  exact ⟨hterm, hsucc, next, ⟨hblock.1.succ hsucc, hnext⟩, hlen⟩

variable {reg : VirtualRegister}

/-- What a run has defined is defined in a reachable block. -/
theorem Function.WellFormed.defined (hwf : func.WellFormed) (h : Reaches m func w c) :
    c.env reg ≠ none → ∃ b block, func.HasBlock b block ∧ reg ∈ block.defs := by
  refine h.induction
    (P := fun c ↦ c.env reg ≠ none → ∃ b block, func.HasBlock b block ∧ reg ∈ block.defs) ?_ ?_
  · exact fun _ _ _ _ hnone ↦ absurd rfl hnone
  · rintro c c' hreach ih hstep hreg
    obtain ⟨block, hblock, hsuffix⟩ := hwf.position hreach
    obtain ⟨next, hnext, -⟩ := hwf.position (hreach.step hstep)
    cases hstep with
    | @op b instr rest env w w' v _ _ =>
      by_cases hdest : instr.dest = some reg
      · have hmem : instr ∈ block.instrs := hsuffix.subset mem_cons_self
        exact ⟨_, block, hblock, mem_append_right _ (mem_filterMap.mpr ⟨instr, hmem, hdest⟩)⟩
      · dsimp only at hreg
        rw [Env.bindDest_of_ne hdest] at hreg
        exact ih hreg
    | @branch b instr rest env w target target' _ htakes hfind =>
      by_cases hparam : reg ∈ target'.paramRegs
      · exact ⟨_, target', ⟨hnext.1, hfind⟩, mem_append_left _ hparam⟩
      · dsimp only at hreg
        rw [Env.bindParams_of_not_mem hparam] at hreg
        exact ih hreg

/-- Used registers are below the counter. -/
theorem Function.WellFormed.used_lt (hwf : func.WellFormed)
    (h : Used func reg) : reg < func.lastVirtualReg := by
  obtain ⟨b, instr, rest, ⟨c, hreach, rfl, hrest⟩, hreg⟩ := h
  have hdefined : DefinedAt func c.block c.rest reg := by
    rw [hrest]
    exact hwf.allDefined.definedAt hreg
  obtain ⟨b, block, hblock, hdef⟩ := hwf.defined hreach (hreach.defined hdefined)
  exact hwf.below hblock reg hdef

end Banjo.SSA
