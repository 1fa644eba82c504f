import Banjo.SSA.ControlFlowGraph

/-!
# Branch elimination

`BranchElimination::run`: a conditional branch whose two arms do nothing but jump to the same block
with arguments that differ in one place becomes a `SELECT` of that argument. The arms are removed,
and the join block is merged into the branching block when no other block leads to it.

`none` stands for what the source leaves undefined: reading an operand a branch does not have or a
block that was removed, merging a block into itself. Everything else is a `continue`.
-/

open List

namespace Banjo.Passes.BranchElimination

open SSA

/-- What `run` has found out about a block when it goes on to rewrite it. -/
structure Diamond where
  branchInstr : Instruction
  succ0 : BlockId
  succ1 : BlockId
  target0 : BranchTarget
  target1 : BranchTarget
  unequalArgIndex : ℕ
  deriving DecidableEq, Repr

/-- The positions at which the arguments of two targets differ. -/
def unequalArgs (args0 args1 : List Operand) : List ℕ :=
  (List.range args0.length).filter fun i ↦
    match args0[i]?, args1[i]? with
    | some arg0, some arg1 => !arg0.value.eq arg1.value
    | _, _ => false

/-- The tests of the loop body; `some none` is a `continue`. -/
def findDiamond (cfg : ControlFlowGraph) (func : Function) (b : BlockId) :
    Option (Option Diamond) := do
  let node ← cfg.getNode b
  if node.successors.length ≠ 2 then some none else
  let block ← func.find b
  let branchInstr ← block.instrs.getLast?
  let succ0 ← (branchInstr.targets[0]?).map BranchTarget.block
  let succ1 ← (branchInstr.targets[1]?).map BranchTarget.block
  let block0 ← func.find succ0
  if block0.instrs.length ≠ 1 then some none else
  let block1 ← func.find succ1
  if block1.instrs.length ≠ 1 then some none else
  let node0 ← cfg.getNode succ0
  if node0.predecessors.length ≠ 1 then some none else
  let node1 ← cfg.getNode succ1
  if node1.predecessors.length ≠ 1 then some none else
  let instr0 ← block0.instrs.head?
  let instr1 ← block1.instrs.head?
  if instr0.opcode ≠ .JMP ∨ instr1.opcode ≠ .JMP then some none else
  let target0 ← instr0.targets.head?
  let target1 ← instr1.targets.head?
  if target0.block ≠ target1.block ∨ target0.args.length ≠ target1.args.length then some none else
  match unequalArgs target0.args target1.args with
  | [i] => some (some ⟨branchInstr, succ0, succ1, target0, target1, i⟩)
  | _ => some none

/-- The `SELECT` on the condition of the branch. -/
def selectInstr (branchInstr : Instruction) (dst : VirtualRegister) (arg0 arg1 : Operand) :
    Instruction where
  opcode := .SELECT
  dest := some dst
  operands := branchInstr.operands.take 3 ++ [arg0, arg1]

/-- The jump to a join block that is kept. -/
def joinJump (join : BlockId) (args : List Operand) (i : ℕ) (dst : VirtualRegister) :
    Instruction where
  opcode := .JMP
  targets :=
    [{ block := join, args := args.modify i fun arg ↦ { arg with value := .register dst } }]

/-- Put instructions in the place of the branch. -/
def replaceBranch (func : Function) (b : BlockId) (instrs : List Instruction) : Function :=
  func.modify b fun block ↦ { block with instrs := block.instrs.dropLast ++ instrs }

/-- The rewriting of a block. -/
def eliminate (cfg : ControlFlowGraph) (func : Function) (b : BlockId) (d : Diamond) :
    Option Function := do
  let joinNode ← cfg.getNode d.target0.block
  let arg0 ← d.target0.args[d.unequalArgIndex]?
  let arg1 ← d.target1.args[d.unequalArgIndex]?
  if joinNode.predecessors.length = 2 then
    let join ← func.find joinNode.block
    let dst ← join.paramRegs[d.unequalArgIndex]?
    if joinNode.block = b then none else
    let func := replaceBranch func b [selectInstr d.branchInstr dst arg0 arg1]
    some (((func.mergeBlocks b joinNode.block).remove d.succ0).remove d.succ1)
  else
    let (dst, func) := func.nextVirtualReg
    let jump := joinJump joinNode.block d.target0.args d.unequalArgIndex dst
    let func := replaceBranch func b [selectInstr d.branchInstr dst arg0 arg1, jump]
    some ((func.remove d.succ0).remove d.succ1)

/-- The loop from a block on. After a rewriting it stays at the block. -/
def runFrom : ℕ → Function → BlockId → Option Function
  | 0, _, _ => none
  | fuel + 1, func, b =>
    let cfg := ControlFlowGraph.ofFunction func
    match findDiamond cfg func b with
    | none => none
    | some none =>
      match func.nextBlock b with
      | some next => runFrom fuel func next
      | none => some func
    | some (some d) =>
      match eliminate cfg func b d with
      | some func => runFrom fuel func b
      | none => none

/-- As many rounds as there can be rewritings, each with a walk over all blocks after it. -/
def maxRounds (func : Function) : ℕ := (func.blocks.length + 1) * (func.blocks.length + 1)

def run (func : Function) : Option Function :=
  match func.entry with
  | some entry => runFrom (maxRounds func) func entry
  | none => some func

/-- The functions and blocks `runFrom` sees at the head of its loop. -/
def visitsFrom : ℕ → Function → BlockId → List (Function × BlockId)
  | 0, _, _ => []
  | fuel + 1, func, b =>
    (func, b) ::
      let cfg := ControlFlowGraph.ofFunction func
      match findDiamond cfg func b with
      | none => []
      | some none =>
        match func.nextBlock b with
        | some next => visitsFrom fuel func next
        | none => []
      | some (some d) =>
        match eliminate cfg func b d with
        | some func => visitsFrom fuel func b
        | none => []

def visits (func : Function) : List (Function × BlockId) :=
  match func.entry with
  | some entry => visitsFrom (maxRounds func) func entry
  | none => []

/-!
## One elimination preserves behaviour

`Elimination func func'` says what a rewriting found in `func` and what it left in `func'`. Its
fields are the facts the simulation needs, those the pass checks as well as those it does not. Runs
of the two functions are matched block by block. While the original goes through an arm, the
rewritten function stands behind its `SELECT`; in a merged join block the two are in blocks of
different names.
-/

open SSA Relation

/-- A rewriting of `func` into `func'` at the block `b`. The arms are indexed by the outcome of the
comparison. -/
structure Elimination (func func' : Function) where
  b : BlockId
  block : BasicBlock
  body : List Instruction
  branch : Instruction
  lhs : Operand
  cmp : Operand
  rhs : Operand
  comparison : Comparison
  toArm : Bool → BranchTarget
  arm : Bool → BlockId
  armBlock : Bool → BasicBlock
  jump : Bool → Instruction
  target : Bool → BranchTarget
  arg : Bool → Operand
  join : BlockId
  joinBlock : BasicBlock
  k : ℕ
  dst : VirtualRegister
  /-- Whether the join block is merged into `b`. -/
  merged : Bool
  hasBlock : func.HasBlock b block
  instrs : block.instrs = body ++ [branch]
  cond : branch.isCondBranch = true
  operands : branch.operands = [lhs, cmp, rhs]
  cmp_value : cmp.value = .comparison comparison
  targets : branch.targets = [toArm true, toArm false]
  toArm_block : ∀ t, (toArm t).block = arm t
  hasArm : ∀ t, func.HasBlock (arm t) (armBlock t)
  armInstrs : ∀ t, (armBlock t).instrs = [jump t]
  jump_opcode : ∀ t, (jump t).opcode = .JMP
  jump_targets : ∀ t, (jump t).targets = [target t]
  target_block : ∀ t, (target t).block = join
  hasJoin : func.HasBlock join joinBlock
  arm_pred : ∀ {c t}, func.Reachable c → arm t ∈ func.succs c → c = b
  arms_ne : arm true ≠ arm false
  target_arg : ∀ t, (target t).args[k]? = some (arg t)
  /-- Arguments that compare equal are the same. -/
  same : ∀ i ≠ k, (target true).args[i]?.map Operand.value =
    (target false).args[i]?.map Operand.value
  /-- No arm passes on a parameter of its own. -/
  own : ∀ t, ∀ a ∈ (target t).args, ∀ reg, a.value = .register reg → reg ∉ (armBlock t).paramRegs
  arm_entry : ∀ t, func.entry ≠ some (arm t)
  merged_pred : merged = true → ∀ {c}, func.Reachable c → join ∈ func.succs c → ∃ t, c = arm t
  merged_entry : merged = true → func.entry ≠ some join
  merged_ne : merged = true → join ≠ b
  merged_dst : merged = true → joinBlock.paramRegs[k]? = some dst
  /-- The other parameters of a merged join block are not read. -/
  merged_unused : merged = true → ∀ i reg, joinBlock.paramRegs[i]? = some reg → i ≠ k →
    ¬Used func reg
  kept_dst : merged = false → dst = func.lastVirtualReg
  entry : func'.entry = func.entry
  ids : func'.ids = func.ids.filter fun c ↦
    c ≠ arm true ∧ c ≠ arm false ∧ (merged = true → c ≠ join)
  counter : func'.lastVirtualReg = if merged then func.lastVirtualReg else func.lastVirtualReg + 1
  /-- What `b` does after the `SELECT`. -/
  tail : List Instruction
  merged_tail : merged = true → tail = joinBlock.instrs
  kept_tail : merged = false → tail = [joinJump join (target true).args k dst]
  find : ∀ c, func'.find c =
    if c = arm true ∨ c = arm false ∨ (merged = true ∧ c = join) then none
    else if c = b then some
      { block with instrs := body ++ selectInstr branch dst (arg true) (arg false) :: tail }
    else func.find c

namespace Elimination

variable {func func' : Function} (E : Elimination func func') {V W : Type} {m : Machine V W}

def select : Instruction := selectInstr E.branch E.dst (E.arg true) (E.arg false)

/-! ## The blocks that go -/

/-- The blocks that are not in the rewritten function. -/
def Gone (c : BlockId) : Prop := (∃ t, c = E.arm t) ∨ (E.merged = true ∧ c = E.join)

variable {E}

variable {c : BlockId}

theorem find_gone (h : E.Gone c) : func'.find c = none := by
  rw [E.find, if_pos]
  rcases h with ⟨t, rfl⟩ | hjoin
  · cases t
    · exact Or.inr (Or.inl rfl)
    · exact Or.inl rfl
  · exact Or.inr (Or.inr hjoin)

theorem find_kept (h : ¬E.Gone c) : func'.find c =
    if c = E.b then some { E.block with instrs := E.body ++ E.select :: E.tail }
    else func.find c := by
  rw [E.find, if_neg]
  · rfl
  · rintro (htrue | hfalse | hjoin)
    · exact h (Or.inl ⟨true, htrue⟩)
    · exact h (Or.inl ⟨false, hfalse⟩)
    · exact h (Or.inr hjoin)

variable (t : Bool)

theorem arm_ne : E.arm t ≠ E.b := by
  intro heq
  have hfind := (E.hasArm t).2
  rw [heq, E.hasBlock.2] at hfind
  have hinstrs : E.body ++ [E.branch] = [] ++ [E.jump t] := by
    rw [nil_append, ← E.instrs, ← E.armInstrs, Option.some.inj hfind]
  have hbranch : E.branch = E.jump t := singleton_inj.mp (append_inj' hinstrs rfl).2
  have hcond := E.cond
  rw [hbranch, Instruction.isCondBranch, E.jump_opcode] at hcond
  exact absurd hcond (by decide)

theorem not_gone_b : ¬E.Gone E.b := by
  rintro (⟨t, h⟩ | ⟨hmerged, h⟩)
  · exact arm_ne t h.symm
  · exact E.merged_ne hmerged h.symm

theorem not_gone_entry (h : func.entry = some c) : ¬E.Gone c := by
  rintro (⟨t, rfl⟩ | ⟨hmerged, rfl⟩)
  · exact E.arm_entry t h
  · exact E.merged_entry hmerged h

/-- Only the branch and the arms lead to a block that goes. -/
theorem pred_of_gone {c' : BlockId} (hc : func.Reachable c) (hsucc : c' ∈ func.succs c)
    (h : E.Gone c') : c = E.b ∨ ∃ t, c = E.arm t := by
  rcases h with ⟨t, rfl⟩ | ⟨hmerged, rfl⟩
  · exact Or.inl (E.arm_pred hc hsucc)
  · exact Or.inr (E.merged_pred hmerged hc hsucc)

theorem branch_branching : E.branch.isBranching = true := by
  have := E.cond
  simp only [Instruction.isCondBranch, Instruction.isBranching, Bool.or_eq_true] at this ⊢
  tauto

theorem succs_arm : func.succs (E.arm t) = [E.join] := by
  have hbranching : (E.jump t).isBranching = true := by
    simp [Instruction.isBranching, E.jump_opcode]
  rw [Function.succs_of_find (E.hasArm t).2, BasicBlock.successors, E.armInstrs]
  simp only [getLast?_singleton, hbranching, if_true, E.jump_targets, map_cons,
    map_nil, E.target_block]

theorem join_ne_arm : E.join ≠ E.arm t := by
  intro heq
  have hsucc : E.arm t ∈ func.succs (E.arm true) := by
    rw [succs_arm, heq]
    exact mem_singleton_self _
  exact arm_ne true (E.arm_pred (E.hasArm true).1 hsucc)

theorem not_gone_join (h : E.merged = false) : ¬E.Gone E.join := by
  rintro (⟨t, heq⟩ | ⟨hmerged, -⟩)
  · exact join_ne_arm t heq
  · exact Bool.false_ne_true (h.symm.trans hmerged)

/-! ## What the blocks that go define -/

section WellFormed

variable (hwf : func.WellFormed)
include hwf

theorem branch_terminator : E.branch.isTerminator = true := by
  have hsuffix : [E.branch] <:+ E.block.instrs := by
    rw [E.instrs]
    exact suffix_append _ _
  exact ((hwf.shaped E.hasBlock).suffix hsuffix).mpr rfl

variable {reg : VirtualRegister}

/-- A register a vanishing block defines is not defined on every path to the branch: the first
time a path gets there it has been in no such block. -/
theorem not_definedAt {c : BlockId} {gone : BasicBlock}
    (hgone : func.HasBlock c gone) (hc : E.Gone c) (hreg : reg ∈ gone.defs)
    (hpoint : ReachesPoint func E.b [E.branch]) : ¬DefinedAt func E.b [E.branch] reg := by
  have honce : ∀ {c' block}, func.HasBlock c' block → reg ∈ block.defs → E.Gone c' := by
    intro c' block hblock hmem
    by_cases heq : c = c'
    · exact heq ▸ hc
    · exact absurd hmem (hwf.defsDisjoint hgone hblock heq hreg)
  intro hdefined
  have hinv : ∀ {config : Config Unit Unit}, Reaches paths func () config →
      config.env reg = none ∧ ¬E.Gone config.block := by
    intro config hreach
    refine hreach.induction (P := fun config ↦ config.env reg = none ∧ ¬E.Gone config.block) ?_ ?_
    · exact fun b block hentry _ ↦ ⟨rfl, not_gone_entry hentry⟩
    · rintro config config' hreach ⟨hnone, hkept⟩ hstep
      obtain ⟨block, hblock, hsuffix⟩ := hwf.position hreach
      obtain ⟨next, hnext, -⟩ := hwf.position (hreach.step hstep)
      cases hstep with
      | @op b instr rest env w w' v _ _ =>
        refine ⟨?_, hkept⟩
        dsimp only at hnone ⊢
        rw [Env.bindDest_of_ne fun hdest ↦ ?_]
        · exact hnone
        · have hmem : instr ∈ block.instrs := hsuffix.subset mem_cons_self
          exact hkept (honce hblock (mem_append_right _
            (mem_filterMap.mpr ⟨instr, hmem, hdest⟩)))
      | @branch b instr rest env w target next' hdef htakes hfind =>
        dsimp only at hnone hkept hblock hsuffix hnext ⊢
        have hterm : instr.isTerminator = true := by
          rw [Instruction.isTerminator, htakes.isBranching, Bool.true_or]
        have hrest : rest = [] := ((hwf.shaped hblock).suffix hsuffix).mp hterm
        subst hrest
        have hlast : block.instrs.getLast? = some instr := by
          obtain ⟨front, hfront⟩ := hsuffix
          rw [← hfront]
          exact getLast?_concat
        have hsucc := mem_succs_of_takes hblock.2 hlast htakes
        have htarget : ¬E.Gone target.block := by
          intro hgoes
          rcases pred_of_gone hblock.1 hsucc hgoes with rfl | ⟨t, rfl⟩
          · -- the branch is about to be taken for the first time
            rw [hblock.unique E.hasBlock, E.instrs, getLast?_concat] at hlast
            obtain rfl : E.branch = instr := Option.some.inj hlast
            exact hdefined _ hreach rfl rfl hnone
          · exact hkept (Or.inl ⟨t, rfl⟩)
        refine ⟨?_, htarget⟩
        rw [Env.bindParams_of_not_mem fun hparam ↦ ?_]
        · exact hnone
        · exact htarget (honce ⟨hnext.1, hfind⟩ (mem_append_left _ hparam))
  obtain ⟨config, hreach, hblock, hrest⟩ := hpoint
  exact hdefined config hreach hblock hrest (hinv hreach).1

/-- A register defined at the branch is no parameter of an arm and not what the `SELECT`
defines. -/
theorem apart (hpoint : ReachesPoint func E.b [E.branch])
    (hused : Used func reg) (hdef : DefinedAt func E.b [E.branch] reg) :
    (∀ t, reg ∉ (E.armBlock t).paramRegs) ∧ reg ≠ E.dst := by
  constructor
  · intro t hmem
    exact not_definedAt hwf (E.hasArm t) (Or.inl ⟨t, rfl⟩) (mem_append_left _ hmem) hpoint hdef
  · rintro rfl
    cases hmerged : E.merged with
    | true =>
      have hmem := mem_of_getElem? (E.merged_dst hmerged)
      exact not_definedAt hwf E.hasJoin (Or.inr ⟨hmerged, rfl⟩) (mem_append_left _ hmem) hpoint
        hdef
    | false =>
      have hlt := hwf.used_lt hused
      rw [E.kept_dst hmerged] at hlt
      exact lt_irrefl _ hlt

/-! ## Through an arm -/

omit hwf in
theorem takes_branch (t : Bool) (env : Env Unit) : paths.Takes env E.branch (E.toArm t) := by
  have h : paths.Takes env E.branch (if t then E.toArm true else E.toArm false) :=
    .cond E.cond E.operands E.cmp_value E.targets trivial
  cases t <;> exact h

omit hwf in
theorem takes_jump (t : Bool) (env : Env V) : m.Takes env (E.jump t) (E.target t) :=
  .jmp (E.jump_opcode t) (E.jump_targets t)

theorem reaches_arm (hpoint : ReachesPoint func E.b [E.branch]) (t : Bool) :
    ReachesPoint func (E.arm t) [E.jump t] := by
  obtain ⟨⟨b, rest, env, w⟩, hreach, rfl, rfl⟩ := hpoint
  have hfind : func.find (E.toArm t).block = some (E.armBlock t) := by
    rw [E.toArm_block]
    exact (E.hasArm t).2
  refine ⟨_, hreach.step (.branch (hwf.allDefined.defines hreach)
    (takes_branch t env) hfind), ?_, ?_⟩
  · exact E.toArm_block t
  · exact E.armInstrs t

/-- What an arm passes on is defined at the branch. -/
theorem arg_definedAt {t : Bool} {a : Operand} (ha : a ∈ (E.target t).args)
    (hreg : a.value = .register reg) : DefinedAt func E.b [E.branch] reg := by
  have hmem : reg ∈ (E.jump t).uses := by
    refine Instruction.mem_uses_of_arg ?_ ha hreg
    rw [E.jump_targets]
    exact mem_singleton_self _
  have hfind : func.find (E.toArm t).block = some (E.armBlock t) := by
    rw [E.toArm_block]
    exact (E.hasArm t).2
  have hdef : DefinedAt func (E.toArm t).block (E.armBlock t).instrs reg := by
    rw [E.toArm_block, E.armInstrs]
    exact hwf.allDefined.definedAt hmem
  exact (hdef.of_branch hwf.allDefined (takes_branch t (fun _ ↦ none)) hfind).resolve_left
    (E.own t a ha reg hreg)

theorem arg_used (hpoint : ReachesPoint func E.b [E.branch]) {t : Bool} {a : Operand}
    (ha : a ∈ (E.target t).args) (hreg : a.value = .register reg) : Used func reg := by
  refine ⟨_, _, _, reaches_arm hwf hpoint t, Instruction.mem_uses_of_arg ?_ ha hreg⟩
  rw [E.jump_targets]
  exact mem_singleton_self _

/-- What is defined where the arms meet was defined at the branch or is a parameter there. -/
theorem definedAt_join (hdef : DefinedAt func E.join E.joinBlock.instrs reg) :
    reg ∈ E.joinBlock.paramRegs ∨ DefinedAt func E.b [E.branch] reg := by
  by_cases hparam : reg ∈ E.joinBlock.paramRegs
  · exact Or.inl hparam
  · refine Or.inr ?_
    have harm : ∀ t, reg ∈ (E.armBlock t).paramRegs ∨ DefinedAt func E.b [E.branch] reg := by
      intro t
      have hjoin : func.find (E.target t).block = some E.joinBlock := by
        rw [E.target_block]
        exact E.hasJoin.2
      have hfind : func.find (E.toArm t).block = some (E.armBlock t) := by
        rw [E.toArm_block]
        exact (E.hasArm t).2
      have hdef' : DefinedAt func (E.target t).block E.joinBlock.instrs reg := by
        rwa [E.target_block]
      have hjump : DefinedAt func (E.arm t) [E.jump t] reg :=
        (hdef'.of_branch hwf.allDefined (takes_jump (m := paths) t (fun _ ↦ none))
          hjoin).resolve_left hparam
      rw [← E.armInstrs, ← E.toArm_block] at hjump
      exact hjump.of_branch hwf.allDefined (takes_branch t (fun _ ↦ none)) hfind
    -- no register is a parameter of both arms
    rcases harm true with htrue | hdef
    · rcases harm false with hfalse | hdef
      · exact absurd (mem_append_left _ hfalse)
          (hwf.defsDisjoint (E.hasArm true) (E.hasArm false) E.arms_ne
            (mem_append_left _ htrue))
      · exact hdef
    · exact hdef

end WellFormed

end Elimination

end Banjo.Passes.BranchElimination
