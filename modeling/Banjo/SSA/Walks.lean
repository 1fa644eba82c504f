import Banjo.SSA.WellFormed

/-!
# Walking along paths

A path that has got to a block can go on to any successor of it, because no path reads an undefined
register. A walk that does not leave a block defines only what is in the blocks it can get to
without leaving it, so what is defined at the end of that block on every path is defined in one of
those.
-/

open List

namespace Banjo.SSA

open Relation

variable {func : Function}

variable {instr : Instruction}

/-- Without reading anything undefined, an instruction that is no terminator is executed. -/
theorem Instruction.Shaped.executes (h : instr.Shaped) (hterm : instr.isTerminator = false)
    (env : Env Unit) : paths.Executes env instr () () () := by
  by_cases hselect : instr.opcode = .SELECT
  · rw [Instruction.Shaped, hselect] at h
    obtain ⟨⟨lhs, cmp, rhs, trueVal, falseVal, c, hoperands, hcmp⟩, -⟩ := h
    have htaken : paths.holds c (paths.evalTyped env lhs) (paths.evalTyped env rhs) true := trivial
    exact .select hselect hoperands hcmp htaken
  · exact .exec hterm hselect rfl

/-- A terminator may go to each of its targets. -/
theorem Instruction.Shaped.takes (h : instr.Shaped) {target : BranchTarget}
    (htarget : target ∈ instr.targets) (env : Env Unit) : paths.Takes env instr target := by
  have hbranch := h.isBranching htarget
  by_cases hjmp : instr.opcode = .JMP
  · rw [Instruction.Shaped, hjmp] at h
    obtain ⟨-, -, only, honly⟩ := h
    rw [honly, mem_singleton] at htarget
    exact .jmp hjmp (htarget ▸ honly)
  · have hcond : instr.isCondBranch = true := by
      simpa [Instruction.isBranching, Instruction.isCondBranch, hjmp] using hbranch
    have hshape : (∃ lhs cmp rhs c, instr.operands = [lhs, cmp, rhs] ∧
        cmp.value = .comparison c) ∧
        ∃ trueTarget falseTarget, instr.targets = [trueTarget, falseTarget] := by
      have hop : instr.opcode = .CJMP ∨ instr.opcode = .FCJMP := by
        simpa [Instruction.isCondBranch] using hcond
      rcases hop with hop | hop <;> rw [Instruction.Shaped, hop] at h <;> exact h.2
    obtain ⟨⟨lhs, cmp, rhs, c, hoperands, hcmp⟩, trueTarget, falseTarget, htargets⟩ := hshape
    rw [htargets, mem_pair] at htarget
    rcases htarget with rfl | rfl
    · have htaken : paths.holds c (paths.evalTyped env lhs) (paths.evalTyped env rhs) true :=
        trivial
      exact .cond hcond hoperands hcmp htargets htaken
    · have htaken : paths.holds c (paths.evalTyped env lhs) (paths.evalTyped env rhs) false :=
        trivial
      exact .cond hcond hoperands hcmp htargets htaken

variable {b : BlockId} {block : BasicBlock}

/-- A successor is the block of a target of the last instruction. -/
theorem Function.exists_target {c : BlockId}
    (hfind : func.find b = some block) (hc : c ∈ func.succs b) :
    ∃ last target, block.instrs.getLast? = some last ∧ target ∈ last.targets ∧
      target.block = c := by
  rw [succs_of_find hfind, BasicBlock.successors] at hc
  cases hlast : block.instrs.getLast? with
  | none => simp [hlast] at hc
  | some last =>
    simp only [hlast] at hc
    split_ifs at hc
    · obtain ⟨target, htarget, rfl⟩ := mem_map.mp hc
      exact ⟨last, target, rfl, htarget, rfl⟩
    · exact absurd hc not_mem_nil

namespace Function.WellFormed

variable (hwf : func.WellFormed)
include hwf

variable {b : BlockId} {block : BasicBlock}

/-- A path goes through a block up to its terminator. -/
theorem walk_block (hblock : func.HasBlock b block) :
    ∀ (front rest : List Instruction) {env : Env Unit}, rest ≠ [] →
    (front ++ rest) <:+ block.instrs →
    Reaches paths func () ⟨b, front ++ rest, env, ()⟩ → ∃ env',
      Reaches paths func () ⟨b, rest, env', ()⟩ ∧
      ∀ reg, env' reg ≠ none → env reg ≠ none ∨ reg ∈ block.defs := by
  intro front
  induction front with
  | nil => exact fun rest env _ _ hreach ↦ ⟨env, hreach, fun _ ↦ Or.inl⟩
  | cons instr front ih =>
    intro rest env hrest hsuffix hreach
    have hmem : instr ∈ block.instrs := hsuffix.subset mem_cons_self
    have hshaped := hwf.shaped hblock
    have hterm : instr.isTerminator = false := by
      rw [← Bool.not_eq_true, hshaped.suffix hsuffix]
      exact fun hnil ↦ hrest (append_eq_nil_iff.mp hnil).2
    have hdefines : env.Defines instr := hwf.allDefined.defines hreach
    have hexec := (hshaped.instrs instr hmem).executes hterm env
    obtain ⟨env', hreach', hdefs⟩ := ih rest hrest ((suffix_cons _ _).trans hsuffix)
      (hreach.step (.op hdefines hexec))
    refine ⟨env', hreach', fun reg hreg ↦ ?_⟩
    by_cases hdest : instr.dest = some reg
    · exact Or.inr (mem_append_right _ (mem_filterMap.mpr ⟨instr, hmem, hdest⟩))
    · have hbefore := hdefs reg hreg
      rwa [Env.bindDest_of_ne hdest] at hbefore

variable {env : Env Unit}

variable {c : BlockId}

/-- A path at a terminator goes on to any successor. -/
theorem walk_branch (hblock : func.HasBlock b block)
    {last : Instruction} (hlast : block.instrs.getLast? = some last)
    (hreach : Reaches paths func () ⟨b, [last], env, ()⟩) (hc : c ∈ func.succs b) :
    ∃ next env', func.HasBlock c next ∧ Reaches paths func () ⟨c, next.instrs, env', ()⟩ ∧
      ∀ reg, env' reg ≠ none → env reg ≠ none ∨ reg ∈ next.defs := by
  obtain ⟨last', target, hlast', htarget, rfl⟩ := exists_target hblock.2 hc
  obtain rfl := Option.some.inj (hlast.symm.trans hlast')
  have hmem := mem_of_getLast? hlast
  obtain ⟨next, hnext⟩ := hwf.hasBlock (hblock.1.succ hc)
  have htakes := ((hwf.shaped hblock).instrs last hmem).takes htarget env
  refine ⟨next, _, hnext, hreach.step (.branch (hwf.allDefined.defines hreach) htakes hnext.2),
    fun reg hreg ↦ ?_⟩
  by_cases hparam : reg ∈ next.paramRegs
  · exact Or.inr (mem_append_left _ hparam)
  · rw [Env.bindParams_of_not_mem hparam] at hreg
    exact Or.inl hreg

/-- A path at the start of a block gets to its terminator. -/
theorem walk_last (hblock : func.HasBlock b block)
    (hreach : Reaches paths func () ⟨b, block.instrs, env, ()⟩) :
    ∃ last env', block.instrs.getLast? = some last ∧
      Reaches paths func () ⟨b, [last], env', ()⟩ ∧
      ∀ reg, env' reg ≠ none → env reg ≠ none ∨ reg ∈ block.defs := by
  obtain ⟨body, last, hinstrs, -, -⟩ := (hwf.shaped hblock).split
  rw [hinstrs] at hreach
  obtain ⟨env', hreach', hdefs⟩ := hwf.walk_block hblock body [last] (cons_ne_nil _ _)
    (hinstrs ▸ suffix_rfl) hreach
  exact ⟨last, env', by rw [hinstrs, getLast?_concat], hreach', hdefs⟩

/-- A path at the start of a block goes on to the start of any successor. -/
theorem walk_succ (hblock : func.HasBlock b block)
    (hreach : Reaches paths func () ⟨b, block.instrs, env, ()⟩) (hc : c ∈ func.succs b) :
    ∃ next env', func.HasBlock c next ∧ Reaches paths func () ⟨c, next.instrs, env', ()⟩ ∧
      ∀ reg, env' reg ≠ none → env reg ≠ none ∨ reg ∈ block.defs ∨ reg ∈ next.defs := by
  obtain ⟨last, env', hlast, hreach', hdefs⟩ := hwf.walk_last hblock hreach
  obtain ⟨next, env'', hnext, hreach'', hdefs'⟩ := hwf.walk_branch hblock hlast hreach' hc
  refine ⟨next, env'', hnext, hreach'', fun reg hreg ↦ ?_⟩
  rcases hdefs' reg hreg with hreg | hreg
  · exact (hdefs reg hreg).imp_right Or.inl
  · exact Or.inr (Or.inr hreg)

/-- A path leads to the start of every reachable block. -/
theorem exists_walk (hb : func.Reachable b) :
    ∃ block env, func.HasBlock b block ∧ Reaches paths func () ⟨b, block.instrs, env, ()⟩ := by
  refine hb.induction (P := fun b ↦ ∃ block env, func.HasBlock b block ∧
    Reaches paths func () ⟨b, block.instrs, env, ()⟩) (fun b hentry ↦ ?_) fun b c _ ih hc ↦ ?_
  · obtain ⟨block, hblock⟩ := hwf.hasBlock (.entry hentry)
    exact ⟨block, _, hblock, ⟨_, ⟨b, block, hentry, hblock.2, rfl⟩, .refl⟩⟩
  · obtain ⟨block, env, hblock, hreach⟩ := ih
    obtain ⟨next, env', hnext, hreach', -⟩ := hwf.walk_succ hblock hreach hc
    exact ⟨next, env', hnext, hreach'⟩

end Function.WellFormed

/-! ## Before a block is left -/

/-- A path leads to the block on which `e` is not left. -/
inductive Before (func : Function) (e : BlockId) : BlockId → Prop
  | entry {b : BlockId} : func.entry = some b → Before func e b
  | step {p c : BlockId} : Before func e p → p ≠ e → c ∈ func.succs p → Before func e c

variable {e : BlockId}

theorem Before.reachable (h : Before func e b) : func.Reachable b := by
  induction h with
  | entry hentry => exact .entry hentry
  | step _ _ hc ih => exact ih.succ hc

theorem Function.Reachable.before_or (h : func.Reachable b) :
    Before func e b ∨ Before func e e := by
  refine h.induction (P := fun b ↦ Before func e b ∨ Before func e e)
    (fun b hentry ↦ Or.inl (.entry hentry)) fun p c _ ih hc ↦ ?_
  rcases ih with ih | ih
  · by_cases hp : p = e
    · exact Or.inr (hp ▸ ih)
    · exact Or.inl (ih.step hp hc)
  · exact Or.inr ih

/-- A reachable block is reached before it is left. -/
theorem Function.Reachable.before (h : func.Reachable e) : Before func e e :=
  h.before_or.elim id id

/-- A block is reached with nothing defined but in the blocks that come before. -/
theorem Before.exists_walk (hwf : func.WellFormed) (h : Before func e b) :
    ∃ block env, func.HasBlock b block ∧ Reaches paths func () ⟨b, block.instrs, env, ()⟩ ∧
      ∀ reg, env reg ≠ none →
        ∃ x other, Before func e x ∧ func.HasBlock x other ∧ reg ∈ other.defs := by
  induction h with
  | @entry b hentry =>
    obtain ⟨block, hblock⟩ := hwf.hasBlock (.entry hentry)
    exact ⟨block, _, hblock, ⟨_, ⟨b, block, hentry, hblock.2, rfl⟩, .refl⟩,
      fun reg hreg ↦ absurd rfl hreg⟩
  | @step p c hp hne hc ih =>
    obtain ⟨block, env, hblock, hreach, hdefs⟩ := ih
    obtain ⟨next, env', hnext, hreach', hdefs'⟩ := hwf.walk_succ hblock hreach hc
    refine ⟨next, env', hnext, hreach', fun reg hreg ↦ ?_⟩
    rcases hdefs' reg hreg with hreg | hreg | hreg
    · exact hdefs reg hreg
    · exact ⟨p, block, hp, hblock, hreg⟩
    · exact ⟨c, next, hp.step hne hc, hnext, hreg⟩

variable {reg : VirtualRegister}

/-- What is defined at the end of a block on every path is defined in a block before. -/
theorem Function.WellFormed.before_of_definedAt (hwf : func.WellFormed)
    (hblock : func.HasBlock e block) {last : Instruction}
    (hlast : block.instrs.getLast? = some last) (hreg : DefinedAt func e [last] reg) :
    ∃ x other, Before func e x ∧ func.HasBlock x other ∧ reg ∈ other.defs := by
  have hbefore : Before func e e := hblock.1.before
  obtain ⟨block', env, hblock', hreach, hdefs⟩ := hbefore.exists_walk hwf
  obtain rfl := hblock.unique hblock'
  obtain ⟨last', env', hlast', hreach', hdefs'⟩ := hwf.walk_last hblock hreach
  obtain rfl := Option.some.inj (hlast.symm.trans hlast')
  rcases hdefs' reg (hreg _ hreach' rfl rfl) with hreg | hreg
  · exact hdefs reg hreg
  · exact ⟨e, block, hbefore, hblock, hreg⟩

/-- What is not defined at the start of a block is still not defined at the start of one that is
reached without defining it. -/
theorem Function.WellFormed.walk_around (hwf : func.WellFormed) {body : List BlockId}
    (hbody : ∀ x ∈ body, ∀ block, func.HasBlock x block → reg ∉ block.defs) {a : BlockId}
    (hpath : ReflTransGen (fun x y ↦ y ∈ func.succs x ∧ y ∈ body) a b) (ha : a ∈ body)
    {env : Env Unit} (hblock : func.HasBlock a block)
    (hreach : Reaches paths func () ⟨a, block.instrs, env, ()⟩) (hreg : env reg = none) :
    b ∈ body ∧ ∃ next env', func.HasBlock b next ∧
      Reaches paths func () ⟨b, next.instrs, env', ()⟩ ∧ env' reg = none := by
  induction hpath with
  | refl => exact ⟨ha, block, env, hblock, hreach, hreg⟩
  | @tail x y _ hstep ih =>
    obtain ⟨hx, mid, env', hmid, hreach', hnone⟩ := ih
    obtain ⟨next, env'', hnext, hreach'', hdefs⟩ := hwf.walk_succ hmid hreach' hstep.1
    refine ⟨hstep.2, next, env'', hnext, hreach'', ?_⟩
    by_contra hsome
    rcases hdefs reg hsome with hdef | hdef | hdef
    · exact hdef hnone
    · exact hbody x hx mid hmid hdef
    · exact hbody y hstep.2 next hnext hdef

end Banjo.SSA
