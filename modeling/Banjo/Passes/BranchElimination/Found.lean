import Banjo.Passes.BranchElimination.Preservation

/-!
# What the tests of a block establish

`Found func b d` collects what `findDiamond` has checked when it answers `d`. `Diamond.Clean` says
what the rewriting relies on and the tests do not ask; together they give an `Elimination`.
-/

open List Option

namespace Banjo.Passes.BranchElimination

open SSA

variable {func : Function} {b : BlockId} {d : Diamond}

/-! ## The branch and its arms -/

/-- A block that does nothing but jump. -/
def IsArm (func : Function) (arm : BlockId) (target : BranchTarget) : Prop :=
  ∃ block jump, func.HasBlock arm block ∧ block.instrs = [jump] ∧ jump.opcode = .JMP ∧
    jump.targets = [target]

theorem IsArm.mem_succs {arm : BlockId} {target : BranchTarget} (h : IsArm func arm target) :
    target.block ∈ func.succs arm := by
  obtain ⟨block, jump, hblock, hinstrs, hopcode, htargets⟩ := h
  rw [Function.succs_of_find hblock.2, BasicBlock.successors, hinstrs]
  simp [Instruction.isBranching, hopcode, htargets]

/-- The conditional branch at the end of a block. -/
def IsBranch (func : Function) (b : BlockId) (branch : Instruction)
    (target0 target1 : BranchTarget) : Prop :=
  ∃ block body, func.HasBlock b block ∧ block.instrs = body ++ [branch] ∧
    branch.isCondBranch = true ∧ branch.targets = [target0, target1]

structure Found (func : Function) (b : BlockId) (d : Diamond) : Prop where
  branch : ∃ target0 target1, IsBranch func b d.branchInstr target0 target1 ∧
    target0.block = d.succ0 ∧ target1.block = d.succ1
  arm0 : IsArm func d.succ0 d.target0
  arm1 : IsArm func d.succ1 d.target1
  pred0 : (ControlFlowGraph.predecessors func d.succ0).length = 1
  pred1 : (ControlFlowGraph.predecessors func d.succ1).length = 1
  join : d.target0.block = d.target1.block
  length : d.target0.args.length = d.target1.args.length
  unequal : unequalArgs d.target0.args d.target1.args = [d.unequalArgIndex]

/-- A block with two successors ends in a conditional branch. -/
theorem isBranch_of_length_succs (hwf : func.WellFormed) (hb : func.Reachable b)
    (h : (func.succs b).length = 2) : ∃ branch target0 target1,
      IsBranch func b branch target0 target1 ∧ func.succs b = [target0.block, target1.block] := by
  obtain ⟨block, hblock⟩ := hwf.hasBlock hb
  have hshaped := hwf.shaped hblock
  obtain ⟨body, last, hinstrs, -, -⟩ := hshaped.split
  have hlast : last.Shaped := by
    apply hshaped.instrs
    rw [hinstrs]
    exact mem_append_right _ (mem_singleton_self _)
  have hsuccs : func.succs b = if last.isBranching then last.targets.map
    BranchTarget.block else [] := by
    rw [Function.succs_of_find hblock.2, BasicBlock.successors, hinstrs, getLast?_concat]
  rw [hsuccs] at h ⊢
  split_ifs at h ⊢ with hbranching
  · rw [length_map] at h
    have hcond : last.isCondBranch = true := by
      rw [Instruction.Shaped] at hlast
      rw [Instruction.isBranching] at hbranching
      rw [Instruction.isCondBranch]
      split at hlast
      · obtain ⟨-, -, target, htargets⟩ := hlast
        rw [htargets] at h
        cases h
      all_goals simp_all
    obtain ⟨target0, target1, htargets⟩ := length_eq_two.mp h
    exact ⟨last, target0, target1, ⟨block, body, hblock, hinstrs, hcond, htargets⟩, by
      rw [htargets, map_cons, map_cons, map_nil]⟩

theorem operands_of_isCondBranch {instr : Instruction} (h : instr.Shaped)
    (hcond : instr.isCondBranch = true) : ∃ lhs cmp rhs c, instr.operands = [lhs, cmp, rhs] ∧
      cmp.value = .comparison c := by
  rw [Instruction.Shaped] at h
  rw [Instruction.isCondBranch] at hcond
  split at h <;> simp_all

/-- A reachable block of one instruction that is a jump. -/
theorem isArm_of_length_instrs (hwf : func.WellFormed) {arm : BlockId} {block : BasicBlock}
    (hblock : func.HasBlock arm block) (hlength : block.instrs.length = 1) :
    ∃ jump, block.instrs = [jump] ∧ (jump.opcode = .JMP → ∃ target, jump.targets = [target]) := by
  obtain ⟨jump, hinstrs⟩ := length_eq_one_iff.mp hlength
  refine ⟨jump, hinstrs, fun hopcode ↦ ?_⟩
  have hshaped := (hwf.shaped hblock).instrs jump (by simp [hinstrs])
  rw [Instruction.Shaped, hopcode] at hshaped
  exact hshaped.2.2

/-- A test that fails continues the loop. -/
theorem continue_or {c : Prop} [Decidable c] {next result : Option (Option Diamond)}
    (h : (if c then some none else next) = result) :
    result = some none ∨ (¬c ∧ next = result) := by
  split_ifs at h with hc
  · exact Or.inl h.symm
  · exact Or.inr ⟨hc, h⟩

/-- The tests of a reachable block read nothing that is not there. -/
theorem findDiamond_cases (hwf : func.WellFormed) (hb : func.Reachable b) :
    findDiamond (.ofFunction func) func b = some none ∨
      ∃ d, findDiamond (.ofFunction func) func b = some (some d) ∧ Found func b d := by
  generalize hresult : findDiamond (.ofFunction func) func b = result
  rw [findDiamond, ControlFlowGraph.getNode_of_reachable hwf hb] at hresult
  obtain hcontinue | ⟨hsuccs, hresult⟩ := continue_or hresult
  · exact Or.inl hcontinue
  obtain ⟨branch, target0, target1, hbranch, hsuccs⟩ :=
    isBranch_of_length_succs hwf hb (not_not.mp hsuccs)
  have hreach0 : func.Reachable target0.block := hb.succ (by simp [hsuccs])
  have hreach1 : func.Reachable target1.block := hb.succ (by simp [hsuccs])
  obtain ⟨block0, hblock0⟩ := hwf.hasBlock hreach0
  obtain ⟨block1, hblock1⟩ := hwf.hasBlock hreach1
  obtain ⟨block, body, hblock, hinstrs, -, htargets⟩ := id hbranch
  have hlast : block.instrs.getLast? = some branch := by
    rw [hinstrs, getLast?_concat]
  simp only [bind_eq_bind] at hresult
  rw [hblock.2, bind_some, hlast, bind_some, htargets, getElem?_cons_zero, getElem?_cons_succ,
    getElem?_cons_zero, map_some, map_some, bind_some, bind_some, hblock0.2, bind_some] at hresult
  obtain hcontinue | ⟨hlength0, hresult⟩ := continue_or hresult
  · exact Or.inl hcontinue
  rw [hblock1.2, bind_some] at hresult
  obtain hcontinue | ⟨hlength1, hresult⟩ := continue_or hresult
  · exact Or.inl hcontinue
  rw [ControlFlowGraph.getNode_of_reachable hwf hreach0, bind_some] at hresult
  obtain hcontinue | ⟨hpred0, hresult⟩ := continue_or hresult
  · exact Or.inl hcontinue
  rw [ControlFlowGraph.getNode_of_reachable hwf hreach1, bind_some] at hresult
  obtain hcontinue | ⟨hpred1, hresult⟩ := continue_or hresult
  · exact Or.inl hcontinue
  obtain ⟨jump0, hinstrs0, hjump0⟩ := isArm_of_length_instrs hwf hblock0 (not_not.mp hlength0)
  obtain ⟨jump1, hinstrs1, hjump1⟩ := isArm_of_length_instrs hwf hblock1 (not_not.mp hlength1)
  rw [hinstrs0, hinstrs1, head?_cons, head?_cons, bind_some, bind_some] at hresult
  obtain hcontinue | ⟨hopcodes, hresult⟩ := continue_or hresult
  · exact Or.inl hcontinue
  obtain ⟨hopcode0, hopcode1⟩ := not_or.mp hopcodes
  obtain ⟨out0, hout0⟩ := hjump0 (not_not.mp hopcode0)
  obtain ⟨out1, hout1⟩ := hjump1 (not_not.mp hopcode1)
  rw [hout0, hout1, head?_cons, head?_cons, bind_some, bind_some] at hresult
  obtain hcontinue | ⟨hjoin, hresult⟩ := continue_or hresult
  · exact Or.inl hcontinue
  obtain ⟨hjoin, hlength⟩ := not_or.mp hjoin
  split at hresult
  · rename_i i hunequal
    exact Or.inr ⟨_, hresult.symm, {
      branch := ⟨target0, target1, hbranch, rfl, rfl⟩
      arm0 := ⟨block0, jump0, hblock0, hinstrs0, not_not.mp hopcode0, hout0⟩
      arm1 := ⟨block1, jump1, hblock1, hinstrs1, not_not.mp hopcode1, hout1⟩
      pred0 := not_not.mp hpred0
      pred1 := not_not.mp hpred1
      join := not_not.mp hjoin
      length := not_not.mp hlength
      unequal := hunequal }⟩
  · exact Or.inl hresult.symm

/-! ## What the tests leave open -/

/-- What the rewriting of a block relies on without a test: the blocks it removes are not the
entry, no arm passes on a parameter of its own, arguments that compare equal are the same, and of
the parameters of a join block that is merged only the one at the unequal argument is read. -/
structure Diamond.Clean (func : Function) (b : BlockId) (d : Diamond) : Prop where
  entry0 : func.entry ≠ some d.succ0
  entry1 : func.entry ≠ some d.succ1
  own0 : ∀ block, func.find d.succ0 = some block → ∀ arg ∈ d.target0.args, ∀ reg,
    arg.value = .register reg → reg ∉ block.paramRegs
  own1 : ∀ block, func.find d.succ1 = some block → ∀ arg ∈ d.target1.args, ∀ reg,
    arg.value = .register reg → reg ∉ block.paramRegs
  same : ∀ (i : ℕ) (arg0 arg1 : Operand), d.target0.args[i]? = some arg0 →
    d.target1.args[i]? = some arg1 →
    arg0.value.eq arg1.value = true → arg0.value = arg1.value
  merged : (ControlFlowGraph.predecessors func d.target0.block).length = 2 →
    func.entry ≠ some d.target0.block ∧ ∀ join, func.find d.target0.block = some join →
      ∀ i reg, join.paramRegs[i]? = some reg → i ≠ d.unequalArgIndex → ¬Used func reg

theorem unequalArgs_eq_singleton {args0 args1 : List Operand} {k : ℕ}
    (h : unequalArgs args0 args1 = [k]) :
    k < args0.length ∧ ∀ i ≠ k, ∀ arg0 arg1, args0[i]? = some arg0 → args1[i]? = some arg1 →
      arg0.value.eq arg1.value = true := by
  have hmem : ∀ i, i ∈ unequalArgs args0 args1 ↔ i = k := by
    intro i
    rw [h, mem_singleton]
  constructor
  · have hk := (hmem k).mpr rfl
    rw [unequalArgs, mem_filter, mem_range] at hk
    exact hk.1
  · intro i hi arg0 arg1 h0 h1
    by_contra hne
    refine hi ((hmem i).mp ?_)
    obtain ⟨hlt, -⟩ := List.getElem?_eq_some_iff.mp h0
    rw [unequalArgs, mem_filter, mem_range]
    refine ⟨hlt, ?_⟩
    simp only [h0, h1]
    simpa using hne

/-- A block with one predecessor has no other. -/
theorem pred_unique (hwf : func.WellFormed) {arm c : BlockId}
    (hlength : (ControlFlowGraph.predecessors func arm).length = 1) (hb : func.Reachable b)
    (harm : arm ∈ func.succs b) (hc : func.Reachable c) (hsucc : arm ∈ func.succs c) : c = b := by
  obtain ⟨p, hp⟩ := length_eq_one_iff.mp hlength
  have hmem : ∀ {q}, func.Reachable q → arm ∈ func.succs q → q = p := by
    intro q hq hsucc
    have := (ControlFlowGraph.mem_predecessors hwf).mpr ⟨hq, hsucc⟩
    rwa [hp, mem_singleton] at this
  rw [hmem hc hsucc, hmem hb harm]

namespace Found

variable (hfound : Found func b d)
include hfound

theorem index_lt : d.unequalArgIndex < d.target0.args.length :=
  (unequalArgs_eq_singleton hfound.unequal).1

theorem exists_args : ∃ arg0 arg1, d.target0.args[d.unequalArgIndex]? = some arg0 ∧
    d.target1.args[d.unequalArgIndex]? = some arg1 :=
  ⟨_, _, getElem?_eq_getElem hfound.index_lt, getElem?_eq_getElem (hfound.length ▸ hfound.index_lt)⟩

/-- Arguments at the other positions are the same. -/
theorem same (hclean : d.Clean func b) {i : ℕ} (hi : i ≠ d.unequalArgIndex) :
    d.target0.args[i]?.map Operand.value = d.target1.args[i]?.map Operand.value := by
  by_cases hlt : i < d.target0.args.length
  · have h0 := getElem?_eq_getElem hlt
    have h1 := getElem?_eq_getElem (hfound.length ▸ hlt)
    have heq := (unequalArgs_eq_singleton hfound.unequal).2 i hi _ _ h0 h1
    rw [h0, h1, map_some, map_some, hclean.same i _ _ h0 h1 heq]
  · rw [getElem?_eq_none (not_lt.mp hlt), getElem?_eq_none (hfound.length ▸ not_lt.mp hlt)]

theorem succs_b : func.succs b = [d.succ0, d.succ1] := by
  obtain ⟨target0, target1, ⟨block, body, hblock, hinstrs, hcond, htargets⟩, h0, h1⟩ :=
    hfound.branch
  have hbranching : d.branchInstr.isBranching = true := by
    rw [Instruction.isCondBranch, Bool.or_eq_true] at hcond
    rw [Instruction.isBranching, Bool.or_assoc, Bool.or_eq_true]
    exact Or.inr (Bool.or_eq_true _ _ ▸ hcond)
  rw [Function.succs_of_find hblock.2, BasicBlock.successors, hinstrs, getLast?_concat]
  simp only [hbranching, if_true, htargets, map_cons, map_nil, h0, h1]

section WellFormed

variable (hwf : func.WellFormed) (hb : func.Reachable b)
include hwf hb

theorem arms_ne : d.succ0 ≠ d.succ1 := by
  intro heq
  have hcount := ControlFlowGraph.count_le_length_predecessors hwf (b := d.succ0) hb
  rw [hfound.succs_b, hfound.pred0, ← heq, count_cons_self, count_cons_self] at hcount
  omega

/-- Two predecessors of the join block are the arms. -/
theorem pred_join (hlength : (ControlFlowGraph.predecessors func d.target0.block).length = 2)
    {c : BlockId} (hc : func.Reachable c) (hsucc : d.target0.block ∈ func.succs c) :
    c = d.succ0 ∨ c = d.succ1 := by
  have hmem : ∀ {q}, func.Reachable q → d.target0.block ∈ func.succs q →
      q ∈ ControlFlowGraph.predecessors func d.target0.block :=
    fun hq hsucc ↦ (ControlFlowGraph.mem_predecessors hwf).mpr ⟨hq, hsucc⟩
  have h0 := hmem (hb.succ (by simp [hfound.succs_b])) (hfound.arm0.mem_succs)
  have h1 := hmem (hb.succ (by simp [hfound.succs_b])) (hfound.join ▸ hfound.arm1.mem_succs)
  have hc := hmem hc hsucc
  have hne := hfound.arms_ne hwf hb
  obtain ⟨p, q, hpq⟩ := length_eq_two.mp hlength
  rw [hpq] at h0 h1 hc
  simp only [mem_cons, not_mem_nil, or_false] at h0 h1 hc
  grind

omit hb in
theorem index_lt_params {join : BasicBlock} (hjoin : func.HasBlock d.target0.block join) :
    d.unequalArgIndex < join.paramRegs.length := by
  obtain ⟨block, jump, hblock, hinstrs, -, htargets⟩ := hfound.arm0
  obtain ⟨join', hjoin', hargs⟩ := hwf.args hblock jump (by simp [hinstrs]) d.target0
    (by simp [htargets])
  obtain rfl := some.inj (hjoin'.symm.trans hjoin.2)
  exact hargs ▸ hfound.index_lt

/-- A merged join block is not the branching block, which would only be reached from the arms. -/
theorem join_ne (h0 : func.entry ≠ some d.succ0) (h1 : func.entry ≠ some d.succ1)
    (hlength : (ControlFlowGraph.predecessors func d.target0.block).length = 2)
    (hentry : func.entry ≠ some d.target0.block) : d.target0.block ≠ b := by
  intro heq
  have hinv : b ≠ b ∧ b ≠ d.succ0 ∧ b ≠ d.succ1 := by
    refine hb.induction (P := fun c ↦ c ≠ b ∧ c ≠ d.succ0 ∧ c ≠ d.succ1) ?_ ?_
    · intro c hc
      refine ⟨?_, ?_, ?_⟩
      · rintro rfl
        exact hentry (heq ▸ hc)
      · rintro rfl
        exact h0 hc
      · rintro rfl
        exact h1 hc
    · intro c c' hc hinv hsucc
      refine ⟨?_, ?_, ?_⟩
      · rintro rfl
        rcases hfound.pred_join hwf hb hlength hc (heq ▸ hsucc) with h | h
        · exact hinv.2.1 h
        · exact hinv.2.2 h
      · rintro rfl
        exact hinv.1 (pred_unique hwf hfound.pred0 hb (by simp [hfound.succs_b]) hc hsucc)
      · rintro rfl
        exact hinv.1 (pred_unique hwf hfound.pred1 hb (by simp [hfound.succs_b]) hc hsucc)
  exact hinv.1 rfl

omit hfound hb in
/-- Blocks other than the entry are removed. -/
theorem entry_filter {func' : Function} {p : BlockId → Bool} (hids : func'.ids = func.ids.filter p)
    (hp : ∀ c, func.entry = some c → p c = true) : func'.entry = func.entry := by
  obtain ⟨c, -, hentry, -⟩ := Function.find_entry hwf.nonempty
  obtain ⟨rest, hrest⟩ := head?_eq_some_iff.mp hentry
  rw [Function.entry, hids, hrest, filter_cons_of_pos (hp c hentry), hentry]
  rfl

/-- The rewriting, given what is left of the join block and what it did to the blocks. -/
theorem elimination (hclean : d.Clean func b) {func' : Function} {join : BasicBlock}
    (hjoin : func.HasBlock d.target0.block join) {arg0 arg1 : Operand}
    (harg0 : d.target0.args[d.unequalArgIndex]? = some arg0)
    (harg1 : d.target1.args[d.unequalArgIndex]? = some arg1) (merged : Bool)
    (dst : VirtualRegister) (tail : List Instruction)
    (hlength : merged = true → (ControlFlowGraph.predecessors func d.target0.block).length = 2)
    (hdst : dst = if merged then join.paramRegs.getD d.unequalArgIndex 0 else func.lastVirtualReg)
    (htail : tail = if merged then join.instrs else
      [joinJump d.target0.block d.target0.args d.unequalArgIndex dst])
    (hcounter : func'.lastVirtualReg =
      if merged then func.lastVirtualReg else func.lastVirtualReg + 1)
    (hids : func'.ids = func.ids.filter fun c ↦
      c ≠ d.succ0 ∧ c ≠ d.succ1 ∧ (merged = true → c ≠ d.target0.block))
    (hfind : ∀ c, func'.find c =
      if c = d.succ0 ∨ c = d.succ1 ∨ (merged = true ∧ c = d.target0.block) then none
      else if c = b then (func.find b).map fun block ↦
        { block with
          instrs := block.instrs.dropLast ++ selectInstr d.branchInstr dst arg0 arg1 :: tail }
      else func.find c) : ∃ E : Elimination func func', E.b = b := by
  obtain ⟨target0, target1, ⟨block, body, hblock, hinstrs, hcond, htargets⟩, htarget0, htarget1⟩ :=
    hfound.branch
  obtain ⟨lhs, cmp, rhs, comparison, hoperands, hcmp⟩ :=
    operands_of_isCondBranch ((hwf.shaped hblock).instrs _ (by simp [hinstrs])) hcond
  obtain ⟨block0, jump0, hblock0, hinstrs0, hopcode0, hjump0⟩ := hfound.arm0
  obtain ⟨block1, jump1, hblock1, hinstrs1, hopcode1, hjump1⟩ := hfound.arm1
  have hjoinArgs := hfound.index_lt_params hwf hjoin
  have hdrop : block.instrs.dropLast = body := by rw [hinstrs, dropLast_concat]
  have hentry : func.entry ≠ some d.succ0 ∧ func.entry ≠ some d.succ1 ∧
      (merged = true → func.entry ≠ some d.target0.block) :=
    ⟨hclean.entry0, hclean.entry1, fun h ↦ (hclean.merged (hlength h)).1⟩
  have hpredJoin : merged = true → ∀ {c}, func.Reachable c → d.target0.block ∈ func.succs c →
      c = d.succ0 ∨ c = d.succ1 := fun h _ hc hsucc ↦ hfound.pred_join hwf hb (hlength h) hc hsucc
  refine ⟨{
    b, block, body, branch := d.branchInstr, lhs, cmp, rhs, comparison, join := d.target0.block
    joinBlock := join, k := d.unequalArgIndex, dst, merged, tail, hasJoin := hjoin
    toArm := fun t ↦ cond t target0 target1
    arm := fun t ↦ cond t d.succ0 d.succ1
    armBlock := fun t ↦ cond t block0 block1
    jump := fun t ↦ cond t jump0 jump1
    target := fun t ↦ cond t d.target0 d.target1
    arg := fun t ↦ cond t arg0 arg1
    hasBlock := hblock
    instrs := hinstrs
    cond := hcond
    operands := hoperands
    cmp_value := hcmp
    targets := htargets
    toArm_block := Bool.forall_bool.mpr ⟨htarget1, htarget0⟩
    hasArm := Bool.forall_bool.mpr ⟨hblock1, hblock0⟩
    armInstrs := Bool.forall_bool.mpr ⟨hinstrs1, hinstrs0⟩
    jump_opcode := Bool.forall_bool.mpr ⟨hopcode1, hopcode0⟩
    jump_targets := Bool.forall_bool.mpr ⟨hjump1, hjump0⟩
    target_block := Bool.forall_bool.mpr ⟨hfound.join.symm, rfl⟩
    arm_pred := ?_
    arms_ne := hfound.arms_ne hwf hb
    target_arg := Bool.forall_bool.mpr ⟨harg1, harg0⟩
    same := fun i hi ↦ hfound.same hclean hi
    own := Bool.forall_bool.mpr ⟨hclean.own1 _ hblock1.2, hclean.own0 _ hblock0.2⟩
    arm_entry := Bool.forall_bool.mpr ⟨hentry.2.1, hentry.1⟩
    merged_pred := ?_
    merged_entry := hentry.2.2
    merged_ne := ?_
    merged_dst := ?_
    merged_unused := fun h i reg hreg hi ↦ (hclean.merged (hlength h)).2 join hjoin.2 i reg hreg hi
    kept_dst := ?_
    entry := ?_
    ids := hids
    counter := hcounter
    merged_tail := ?_
    kept_tail := ?_
    find := ?_ }, rfl⟩
  · intro c t hc hsucc
    cases t
    · exact pred_unique hwf hfound.pred1 hb (by simp [hfound.succs_b]) hc hsucc
    · exact pred_unique hwf hfound.pred0 hb (by simp [hfound.succs_b]) hc hsucc
  · intro h c hc hsucc
    rcases hpredJoin h hc hsucc with rfl | rfl
    · exact ⟨true, rfl⟩
    · exact ⟨false, rfl⟩
  · exact fun h ↦ hfound.join_ne hwf hb hentry.1 hentry.2.1 (hlength h) (hentry.2.2 h)
  · intro h
    rw [hdst, if_pos h, getD_eq_getElem?_getD, getElem?_eq_getElem hjoinArgs, getD_some]
  · intro h
    rw [hdst, h]
    rfl
  · refine entry_filter hwf hids fun c hc ↦ ?_
    rw [decide_eq_true_eq]
    refine ⟨?_, ?_, ?_⟩
    · rintro rfl
      exact hentry.1 hc
    · rintro rfl
      exact hentry.2.1 hc
    · rintro h rfl
      exact hentry.2.2 h hc
  · intro h
    rw [htail, if_pos h]
  · intro h
    rw [htail, h]
    rfl
  · intro c
    rw [hfind, hblock.2, map_some, hdrop]
    rfl

/-- The rewriting of a clean diamond succeeds. -/
theorem eliminate_cases (hclean : d.Clean func b) :
    ∃ func', eliminate (.ofFunction func) func b d = some func' ∧
      ∃ E : Elimination func func', E.b = b := by
  obtain ⟨arg0, arg1, harg0, harg1⟩ := hfound.exists_args
  have hreach : func.Reachable d.target0.block :=
    (hb.succ (by simp [hfound.succs_b])).succ hfound.arm0.mem_succs
  obtain ⟨join, hjoin⟩ := hwf.hasBlock hreach
  rw [eliminate, ControlFlowGraph.getNode_of_reachable hwf hreach, harg0, harg1]
  simp only [Option.bind_eq_bind, bind_some, ControlFlowGraph.node]
  by_cases hlength : (ControlFlowGraph.predecessors func d.target0.block).length = 2
  · have hne := hfound.join_ne hwf hb hclean.entry0 hclean.entry1 hlength (hclean.merged hlength).1
    have hk : d.unequalArgIndex < join.paramRegs.length := hfound.index_lt_params hwf hjoin
    rw [if_pos hlength, hjoin.2, bind_some, getElem?_eq_getElem hk, bind_some, if_neg hne]
    refine ⟨_, rfl, hfound.elimination hwf hb hclean hjoin harg0 harg1 true
      join.paramRegs[d.unequalArgIndex] join.instrs (fun _ ↦ hlength) ?_ rfl rfl ?_ ?_⟩
    · rw [if_pos rfl, List.getD_eq_getElem?_getD, getElem?_eq_getElem hk, getD_some]
    · simp only [Function.ids_remove, Function.mergeBlocks, Function.ids_modify, replaceBranch,
        List.filter_filter]
      refine filter_congr fun c _ ↦ ?_
      grind
    · intro c
      simp only [Function.find_remove, Function.mergeBlocks, Function.find_modify, replaceBranch,
        hjoin.2, if_neg hne, Option.map_some, getD_some, true_and]
      by_cases hc : c = b
      · subst hc
        rw [if_pos rfl, if_pos rfl, if_pos rfl, Option.map_map]
        have happend : ∀ (block : BasicBlock) (select : Instruction),
            block.instrs.dropLast ++ [select] ++ join.instrs
              = block.instrs.dropLast ++ select :: join.instrs := by
          intro block select
          rw [List.append_assoc, List.singleton_append]
        simp only [Function.comp_def, happend]
        grind
      · simp only [if_neg hc]
        grind
  · rw [if_neg hlength]
    refine ⟨_, rfl, hfound.elimination hwf hb hclean hjoin harg0 harg1 false
      func.lastVirtualReg _ (fun h ↦ absurd h Bool.false_ne_true) rfl rfl rfl ?_ ?_⟩
    · simp only [Function.ids_remove, Function.nextVirtualReg, Function.ids_modify, replaceBranch,
        List.filter_filter]
      refine filter_congr fun c _ ↦ ?_
      grind
    · intro c
      have hcounter : Function.find ⟨func.blocks, func.lastVirtualReg + 1⟩ c = func.find c := rfl
      simp only [Function.find_remove, Function.nextVirtualReg, Function.find_modify, replaceBranch,
        hcounter]
      by_cases hc : c = b
      · subst hc
        grind
      · simp only [if_neg hc]
        grind

end WellFormed

end Found

end Banjo.Passes.BranchElimination
