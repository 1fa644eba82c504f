import Banjo.Passes.BranchElimination

/-!
# The simulation between a function and its rewriting

Outside the blocks the rewriting touches, and in the body of the branching block, the two functions
go in lockstep. At the branch, the original goes through an arm to the join block while the
rewritten function runs the `SELECT` and what comes after it. The matching is used in both
directions, so that neither function shows an event the other does not.
-/

open List Option

namespace Banjo.Passes.BranchElimination

namespace Elimination

open SSA Relation

variable {func func' : Function} {E : Elimination func func'} {V W : Type} {m : Machine V W}

/-! ## Matched configurations -/

variable (E m) in
/-- Where the two runs stand. -/
inductive Match : Config V W → Config V W → Prop
  | other {c : BlockId} {rest : List Instruction} {env env' : Env V} {w : W} : c ≠ E.b →
    ¬E.Gone c → Agree func c rest env env' → Match ⟨c, rest, env, w⟩ ⟨c, rest, env', w⟩
  | head {pre : List Instruction} {env env' : Env V} {w : W} :
    Agree func E.b (pre ++ [E.branch]) env env' →
    Match ⟨E.b, pre ++ [E.branch], env, w⟩ ⟨E.b, pre ++ E.select :: E.tail, env', w⟩
  | arm {t : Bool} {args : List V} {env env' : Env V} {w : W} :
    ReachesPoint func E.b [E.branch] → Agree func E.b [E.branch] env env' →
    Match ⟨E.arm t, [E.jump t], env.bindParams (E.armBlock t).paramRegs args, w⟩
      ⟨E.b, E.tail, env'.bindDest (some E.dst) (m.eval env (E.arg t)), w⟩
  | joined {rest : List Instruction} {env env' : Env V} {w : W} : E.merged = true →
    Agree func E.join rest env env' → Match ⟨E.join, rest, env, w⟩ ⟨E.b, rest, env', w⟩

/-- A block that stays is entered by both with parameters of the same names. -/
theorem Match.enter {c : BlockId} {block : BasicBlock} {env env' : Env V} (w : W) (hc : ¬E.Gone c)
    (hfind : func.find c = some block) (hagree : Agree func c block.instrs env env') :
    ∃ block', func'.find c = some block' ∧ block'.paramRegs = block.paramRegs ∧
      E.Match m ⟨c, block.instrs, env, w⟩ ⟨c, block'.instrs, env', w⟩ := by
  by_cases hb : c = E.b
  · subst hb
    obtain rfl : E.block = block := some.inj (E.hasBlock.2.symm.trans hfind)
    refine ⟨_, (find_kept hc).trans (if_pos rfl), rfl, ?_⟩
    rw [E.instrs] at hagree ⊢
    exact .head hagree
  · exact ⟨block, ((find_kept hc).trans (if_neg hb)).trans hfind, rfl, .other hb hc hagree⟩

/-! ## Lockstep -/

variable (E m) in
/-- Both sides are at the same instruction, match after it, and do not leave for a block that
goes. -/
structure Lock (c d : BlockId) (instr : Instruction) (rest rest' : List Instruction) : Prop where
  op : instr.isTerminator = false → ∀ (env env' : Env V) (w : W), Agree func c rest env env' →
    E.Match m ⟨c, rest, env, w⟩ ⟨d, rest', env', w⟩
  branch : instr.isTerminator = true → ∀ c' ∈ func.succs c, ¬E.Gone c'

section WellFormed

variable (hwf : func.WellFormed)
include hwf

section Lock

variable {w₀ w : W} {c d : BlockId} {instr : Instruction} {rest rest' : List Instruction}
  {env env' : Env V} (hreach : Reaches m func w₀ ⟨c, instr :: rest, env, w⟩)
  (hagree : Agree func c (instr :: rest) env env') (hlock : E.Lock m c d instr rest rest')
include hreach hagree hlock

/-- Both sides go to the same block. -/
theorem Lock.enter {target : BranchTarget} (htakes : m.Takes env instr target) :
    ∃ block next, func.find target.block = some block ∧ func'.find target.block = some next ∧
      E.Match m
        ⟨target.block, block.instrs, env.bindParams block.paramRegs
          (target.args.map (m.eval env)), w⟩
        ⟨target.block, next.instrs, env'.bindParams next.paramRegs (target.args.map (m.eval env')),
          w⟩ := by
  have huses := hagree.uses hwf.allDefined hreach.reachesPoint
  obtain ⟨hterm, hsucc, block, hblock, hlen⟩ := hwf.takes_succ hreach htakes
  have hargs : target.args.map (m.eval env) = target.args.map (m.eval env') :=
    map_congr_left fun a ha ↦ Machine.eval_congr fun reg hreg ↦
      huses reg (Instruction.mem_uses_of_arg htakes.mem_targets ha hreg)
  have hlen' : (target.args.map (m.eval env)).length = block.paramRegs.length := by
    rw [length_map, hlen]
  obtain ⟨next, hnext, hparams, hmatch⟩ := Match.enter (E := E) (m := m) w
    (hlock.branch hterm _ hsucc) hblock.2 (hagree.branch hwf.allDefined htakes hblock.2 hlen')
  refine ⟨block, next, hblock.2, hnext, ?_⟩
  rwa [hparams, ← hargs]

/-- A step of the original in lockstep. -/
theorem Lock.forward {c' : Config V W} (hstep : Step m func ⟨c, instr :: rest, env, w⟩ c') :
    ∃ d', Step m func' ⟨d, instr :: rest', env', w⟩ d' ∧ E.Match m c' d' := by
  have huses := hagree.uses hwf.allDefined hreach.reachesPoint
  have hdefines := hagree.defines hwf.allDefined hreach.reachesPoint
  cases hstep with
  | op hdef hexec =>
    exact ⟨_, .op (hdefines hdef) (hexec.congr huses),
      hlock.op hexec.not_terminator _ _ _ (hagree.op hwf.allDefined hexec)⟩
  | branch hdef htakes hfind =>
    obtain ⟨_, _, hfind', hnext, hmatch⟩ := hlock.enter hwf hreach hagree htakes
    obtain rfl := some.inj (hfind.symm.trans hfind')
    exact ⟨_, .branch (hdefines hdef) (htakes.congr huses) hnext, hmatch⟩

/-- A step of the rewritten function in lockstep. -/
theorem Lock.backward {d' : Config V W} (hstep : Step m func' ⟨d, instr :: rest', env', w⟩ d') :
    ∃ c', Step m func ⟨c, instr :: rest, env, w⟩ c' ∧ E.Match m c' d' := by
  have huses := hagree.uses hwf.allDefined hreach.reachesPoint
  have hdef := hwf.allDefined.defines hreach
  have huses' : ∀ reg ∈ instr.uses, env' reg = env reg := fun reg hreg ↦ (huses reg hreg).symm
  cases hstep with
  | op _ hexec =>
    have hexec' := hexec.congr huses'
    exact ⟨_, .op hdef hexec',
      hlock.op hexec.not_terminator _ _ _ (hagree.op hwf.allDefined hexec')⟩
  | branch _ htakes hnext =>
    have htakes' := htakes.congr huses'
    obtain ⟨_, _, hfind, hnext', hmatch⟩ := hlock.enter hwf hreach hagree htakes'
    obtain rfl := some.inj (hnext'.symm.trans hnext)
    exact ⟨_, .branch hdef htakes' hfind, hmatch⟩

end Lock

/-! ## The branch and the `SELECT` -/

omit hwf in
theorem takes_iff {env : Env V} {target : BranchTarget} : m.Takes env E.branch target ↔
    ∃ t, m.holds E.comparison (m.evalTyped env E.lhs) (m.evalTyped env E.rhs) t ∧
      target = E.toArm t := by
  constructor
  · intro h
    cases h with
    | jmp hopcode _ =>
      have hcond := E.cond
      rw [Instruction.isCondBranch, hopcode] at hcond
      exact absurd hcond (by decide)
    | @cond lhs cmp rhs trueTarget falseTarget comparison t _ hoperands hcmp htargets hholds =>
      rw [E.operands] at hoperands
      rw [E.targets] at htargets
      simp only [cons.injEq, and_true] at hoperands htargets
      obtain ⟨rfl, rfl, rfl⟩ := hoperands
      obtain ⟨rfl, rfl⟩ := htargets
      rw [E.cmp_value, Value.comparison.injEq] at hcmp
      subst hcmp
      exact ⟨t, hholds, by cases t <;> rfl⟩
  · rintro ⟨t, hholds, rfl⟩
    have h : m.Takes env E.branch (if t then E.toArm true else E.toArm false) :=
      .cond E.cond E.operands E.cmp_value E.targets hholds
    cases t <;> exact h

omit hwf in
theorem select_operands : E.select.operands = [E.lhs, E.cmp, E.rhs, E.arg true, E.arg false] := by
  rw [select, selectInstr, E.operands]
  rfl

omit hwf in
theorem executes_iff {env : Env V} {v : V} {w w' : W} : m.Executes env E.select w v w' ↔
    ∃ t, m.holds E.comparison (m.evalTyped env E.lhs) (m.evalTyped env E.rhs) t ∧
      v = m.eval env (E.arg t) ∧ w' = w := by
  constructor
  · intro h
    cases h with
    | exec _ hselect _ => exact absurd rfl hselect
    | @select lhs cmp rhs trueVal falseVal comparison t _ hoperands hcmp hholds =>
      rw [select_operands] at hoperands
      simp only [cons.injEq, and_true] at hoperands
      obtain ⟨rfl, rfl, rfl, rfl, rfl⟩ := hoperands
      rw [E.cmp_value, Value.comparison.injEq] at hcmp
      subst hcmp
      exact ⟨t, hholds, by cases t <;> rfl, rfl⟩
  · rintro ⟨t, hholds, rfl, rfl⟩
    have h : m.Executes env E.select w' (m.eval env (if t then E.arg true else E.arg false)) w' :=
      .select rfl select_operands E.cmp_value hholds
    cases t <;> exact h

section Fork

variable {w₀ w : W} {env env' : Env V} (hpoint : ReachesPoint func E.b [E.branch])
  (hagree : Agree func E.b [E.branch] env env')
include hpoint hagree

/-- What the arms pass on is the same on both sides. -/
theorem eval_arg {t : Bool} {a : Operand} (ha : a ∈ (E.target t).args) :
    m.eval env' a = m.eval env a :=
  Machine.eval_congr fun reg hreg ↦
    (hagree reg (arg_used hwf hpoint ha hreg) (arg_definedAt hwf ha hreg)).symm

variable (t : Bool)

theorem holds_congr :
    m.holds E.comparison (m.evalTyped env' E.lhs) (m.evalTyped env' E.rhs) t ↔
      m.holds E.comparison (m.evalTyped env E.lhs) (m.evalTyped env E.rhs) t := by
  have huses := hagree.uses hwf.allDefined hpoint
  have hoperand : ∀ operand ∈ E.branch.operands, m.evalTyped env operand =
    m.evalTyped env' operand :=
    fun operand hmem ↦ Machine.evalTyped_congr fun reg hreg ↦
      huses reg (Instruction.mem_uses_of_operand hmem hreg)
  rw [E.operands] at hoperand
  rw [hoperand E.lhs (by simp), hoperand E.rhs (by simp)]

omit hpoint in
/-- The `SELECT` reads nothing the branch and the arms did not. -/
theorem defines_select (hreach : Reaches m func w₀ ⟨E.b, [E.branch], env, w⟩) :
    env'.Defines E.select := by
  have hpoint := hreach.reachesPoint
  have hbranch := hagree.defines hwf.allDefined hpoint (hwf.allDefined.defines hreach)
  have harg : ∀ t reg, (E.arg t).value = .register reg → env' reg ≠ none := by
    intro t reg hreg
    have hmem := mem_of_getElem? (E.target_arg t)
    have hdef := arg_definedAt hwf hmem hreg
    rw [← hagree reg (arg_used hwf hpoint hmem hreg) hdef]
    exact hreach.defined hdef
  intro reg hreg
  simp only [Instruction.uses, select_operands, flatMap_cons, flatMap_nil,
    mem_append, append_nil, Operand.mem_uses] at hreg
  rcases hreg with (hlhs | hcmp | hrhs | htrue | hfalse) | hnone
  · exact hbranch reg (Instruction.mem_uses_of_operand (by simp [E.operands]) hlhs)
  · rw [E.cmp_value] at hcmp
    exact Value.noConfusion hcmp
  · exact hbranch reg (Instruction.mem_uses_of_operand (by simp [E.operands]) hrhs)
  · exact harg true reg htrue
  · exact harg false reg hfalse
  · exact absurd hnone not_mem_nil

omit hpoint in
/-- The original takes the branch; the rewritten function runs the `SELECT`. -/
theorem fork_forward (hreach : Reaches m func w₀ ⟨E.b, [E.branch], env, w⟩) {c' : Config V W}
    (hstep : Step m func ⟨E.b, [E.branch], env, w⟩ c') :
    ∃ d', Step m func' ⟨E.b, E.select :: E.tail, env', w⟩ d' ∧ E.Match m c' d' := by
  have hpoint := hreach.reachesPoint
  cases hstep with
  | op _ hexec =>
    exact absurd (branch_terminator (E := E) hwf) (by rw [hexec.not_terminator]; decide)
  | @branch _ _ _ _ _ target block _ htakes hfind =>
    obtain ⟨t, hholds, rfl⟩ := takes_iff.mp htakes
    rw [E.toArm_block] at hfind ⊢
    obtain rfl : E.armBlock t = block := some.inj ((E.hasArm t).2.symm.trans hfind)
    have hmem := mem_of_getElem? (E.target_arg t)
    have hexec : m.Executes env' E.select w (m.eval env (E.arg t)) w :=
      executes_iff.mpr ⟨t, (holds_congr hwf hpoint hagree t).mpr hholds,
        (eval_arg hwf hpoint hagree hmem).symm, rfl⟩
    refine ⟨_, .op (defines_select hwf hagree hreach) hexec, ?_⟩
    rw [E.armInstrs]
    exact .arm hpoint hagree

omit hpoint in
/-- The rewritten function runs the `SELECT`; the original takes the branch. -/
theorem fork_backward (hreach : Reaches m func w₀ ⟨E.b, [E.branch], env, w⟩) {d' : Config V W}
    (hstep : Step m func' ⟨E.b, E.select :: E.tail, env', w⟩ d') :
    ∃ c', Step m func ⟨E.b, [E.branch], env, w⟩ c' ∧ E.Match m c' d' := by
  have hpoint := hreach.reachesPoint
  cases hstep with
  | op _ hexec =>
    obtain ⟨t, hholds, rfl, rfl⟩ := executes_iff.mp hexec
    have hmem := mem_of_getElem? (E.target_arg t)
    have htakes : m.Takes env E.branch (E.toArm t) :=
      takes_iff.mpr ⟨t, (holds_congr hwf hpoint hagree t).mp hholds, rfl⟩
    have hfind : func.find (E.toArm t).block = some (E.armBlock t) := by
      rw [E.toArm_block]
      exact (E.hasArm t).2
    refine ⟨_, .branch (hwf.allDefined.defines hreach) htakes hfind, ?_⟩
    rw [E.toArm_block, E.armInstrs, eval_arg hwf hpoint hagree hmem]
    exact .arm hpoint hagree
  | branch _ htakes _ =>
    exact absurd htakes.isBranching (by simp [select, selectInstr, Instruction.isBranching])

/-! ## The join block -/

/-- The arm leaves what is defined at the branch alone, and so does the `SELECT`. -/
theorem agree_after {t : Bool} {args : List V} {value : V} {reg : VirtualRegister}
    (hused : Used func reg) (hdef : DefinedAt func E.b [E.branch] reg) :
    env.bindParams (E.armBlock t).paramRegs args reg = env'.bindDest (some E.dst) value reg := by
  obtain ⟨hparam, hdst⟩ := apart hwf hpoint hused hdef
  rw [Env.bindParams_of_not_mem (hparam t), Env.bindDest_of_ne fun h ↦ hdst (some.inj h).symm]
  exact hagree reg hused hdef

omit hpoint hagree in
theorem length_args : (E.target t).args.length = E.joinBlock.paramRegs.length := by
  have hmem : E.jump t ∈ (E.armBlock t).instrs := by
    rw [E.armInstrs]
    exact mem_singleton_self _
  have htarget : E.target t ∈ (E.jump t).targets := by
    rw [E.jump_targets]
    exact mem_singleton_self _
  obtain ⟨next, hnext, hlen⟩ := hwf.args (E.hasArm t) _ hmem _ htarget
  rw [E.target_block, E.hasJoin.2, some.injEq] at hnext
  rw [hlen, ← hnext]

omit hpoint hagree hwf in
/-- An arm evaluates its arguments to what they are at the branch. -/
theorem eval_own (args : List V) {a : Operand} (ha : a ∈ (E.target t).args) :
    m.eval (env.bindParams (E.armBlock t).paramRegs args) a = m.eval env a :=
  Machine.eval_congr fun reg hreg ↦ Env.bindParams_of_not_mem (E.own t a ha reg hreg)

/-- Entering a merged join block: only the parameter the arms disagree on is read. -/
theorem agree_joined (hmerged : E.merged = true) (t : Bool) (args : List V) :
    Agree func E.join E.joinBlock.instrs
      ((env.bindParams (E.armBlock t).paramRegs args).bindParams E.joinBlock.paramRegs
        ((E.target t).args.map (m.eval (env.bindParams (E.armBlock t).paramRegs args))))
      (env'.bindDest (some E.dst) (m.eval env (E.arg t))) := by
  intro reg hused hdef
  by_cases hparam : reg ∈ E.joinBlock.paramRegs
  · obtain ⟨i, hi⟩ := mem_iff_getElem?.mp hparam
    have hik : i = E.k := by
      by_contra hne
      exact E.merged_unused hmerged i reg hi hne hused
    subst hik
    obtain rfl : E.dst = reg := some.inj ((E.merged_dst hmerged).symm.trans hi)
    have hnodup : E.joinBlock.paramRegs.Nodup :=
      (nodup_append.mp (hwf.defsNodup E.hasJoin)).1
    have hmem := mem_of_getElem? (E.target_arg t)
    rw [Env.bindDest_self, ← eval_own t args hmem]
    refine Env.bindParams_getElem hnodup hi ?_
    rw [getElem?_map, E.target_arg]
    rfl
  · rw [Env.bindParams_of_not_mem hparam]
    exact agree_after hwf hpoint hagree hused ((definedAt_join hwf hdef).resolve_left hparam)

/-- The jump to a join block that is kept passes the arguments the arm did. -/
theorem eval_joinArgs (t : Bool) (args : List V) :
    ((E.target true).args.modify E.k fun a ↦ { a with value := .register E.dst }).map
      (m.eval (env'.bindDest (some E.dst) (m.eval env (E.arg t))))
      = (E.target t).args.map (m.eval (env.bindParams (E.armBlock t).paramRegs args)) := by
  refine List.ext_getElem? fun i ↦ ?_
  rw [getElem?_map, getElem?_map, getElem?_modify]
  by_cases hi : E.k = i
  · subst hi
    have hmem := mem_of_getElem? (E.target_arg t)
    rw [E.target_arg, E.target_arg]
    simp only [if_true, Option.map_eq_map, map_some, some.injEq]
    rw [eval_own t args hmem]
    change Option.getD (env'.bindDest (some E.dst) (m.eval env (E.arg t)) E.dst) _ = _
    rw [Env.bindDest_self]
    rfl
  · have hvalue : ∀ (env₁ : Env V) (a : Option Operand), a.map (m.eval env₁)
        = (a.map Operand.value).map fun value ↦ m.eval env₁ { value } := by
      intro env₁ a
      rw [Option.map_map]
      rfl
    have hsame : (E.target true).args[i]?.map Operand.value
        = (E.target t).args[i]?.map Operand.value := by
      cases t
      · exact E.same i (Ne.symm hi)
      · rfl
    simp only [if_neg hi, Option.map_eq_map, Option.map_id']
    rw [hvalue, hsame, ← hvalue]
    cases harg : (E.target t).args[i]? with
    | none => rfl
    | some a =>
      have hmem := mem_of_getElem? harg
      rw [map_some, map_some, some.injEq]
      refine Machine.eval_congr fun reg hreg ↦ ?_
      exact (agree_after hwf hpoint hagree (arg_used hwf hpoint hmem hreg)
        (arg_definedAt hwf hmem hreg)).symm

/-- Entering a join block that is kept. -/
theorem agree_kept {t : Bool} {args : List V} {values : List V}
    (hvalues : values.length = E.joinBlock.paramRegs.length) :
    Agree func E.join E.joinBlock.instrs
      ((env.bindParams (E.armBlock t).paramRegs args).bindParams E.joinBlock.paramRegs values)
      ((env'.bindDest (some E.dst) (m.eval env (E.arg t))).bindParams E.joinBlock.paramRegs
        values) := by
  intro reg hused hdef
  refine Env.bindParams_congr fun hmem ↦ ?_
  have hparam : reg ∉ E.joinBlock.paramRegs := hmem.resolve_right (by omega)
  exact agree_after hwf hpoint hagree hused ((definedAt_join hwf hdef).resolve_left hparam)

/-- The jump to the join block reads the new register and what the arm reads. -/
theorem defines_joinJump {t : Bool} {args : List V}
    (hdef : (env.bindParams (E.armBlock t).paramRegs args).Defines (E.jump t)) :
    (env'.bindDest (some E.dst) (m.eval env (E.arg t))).Defines
      (joinJump E.join (E.target true).args E.k E.dst) := by
  intro reg hreg
  simp only [Instruction.uses, joinJump, List.flatMap_nil, List.nil_append, List.flatMap_cons,
    List.append_nil, List.mem_flatMap, Operand.mem_uses] at hreg
  obtain ⟨a, ha, hreg⟩ := hreg
  obtain ⟨i, hi⟩ := List.mem_iff_getElem?.mp ha
  rw [getElem?_modify] at hi
  by_cases hik : E.k = i
  · subst hik
    rw [E.target_arg] at hi
    simp only [if_true, Option.map_eq_map, map_some, some.injEq] at hi
    obtain rfl : E.dst = reg := by
      rw [← hi] at hreg
      exact Value.register.inj hreg
    rw [Env.bindDest_self]
    exact Option.some_ne_none _
  · simp only [if_neg hik, Option.map_eq_map, Option.map_id'] at hi
    have hsame : (E.target true).args[i]?.map Operand.value
        = (E.target t).args[i]?.map Operand.value := by
      cases t
      · exact E.same i (Ne.symm hik)
      · rfl
    rw [hi] at hsame
    obtain ⟨a', ha', hvalue⟩ := Option.map_eq_some_iff.mp hsame.symm
    rw [hreg] at hvalue
    have hmem := mem_of_getElem? ha'
    rw [← agree_after hwf hpoint hagree (arg_used hwf hpoint hmem hvalue)
      (arg_definedAt hwf hmem hvalue)]
    refine hdef reg (Instruction.mem_uses_of_arg ?_ hmem hvalue)
    rw [E.jump_targets]
    exact List.mem_singleton_self _

omit hpoint hagree hwf in
/-- What an arm does: it jumps to the join block. -/
theorem arm_step {t : Bool} {c' : Config V W}
    (hstep : Step m func ⟨E.arm t, [E.jump t], env, w⟩ c') :
    c' = ⟨E.join, E.joinBlock.instrs,
      env.bindParams E.joinBlock.paramRegs ((E.target t).args.map (m.eval env)), w⟩ := by
  obtain ⟨block, hfind, rfl⟩ := hstep.jmp_inv (E.jump_opcode t) (E.jump_targets t)
  rw [E.target_block] at hfind ⊢
  rw [some.inj (E.hasJoin.2.symm.trans hfind)]

omit hpoint hagree in
theorem arm_run {t : Bool} (hreach : Reaches m func w₀ ⟨E.arm t, [E.jump t], env, w⟩) :
    Step m func ⟨E.arm t, [E.jump t], env, w⟩ ⟨E.join, E.joinBlock.instrs,
      env.bindParams E.joinBlock.paramRegs ((E.target t).args.map (m.eval env)), w⟩ := by
  have hfind : func.find (E.target t).block = some E.joinBlock := by
    rw [E.target_block]
    exact E.hasJoin.2
  have hstep : Step m func ⟨E.arm t, [E.jump t], env, w⟩ _ :=
    .branch (hwf.allDefined.defines hreach) (takes_jump t env) hfind
  rwa [E.target_block] at hstep

/-- Where the jump to a join block that is kept leads. -/
theorem kept_enter (hkept : E.merged = false) (t : Bool) (args : List V) :
    ∃ block', func'.find E.join = some block' ∧ E.Match m
      ⟨E.join, E.joinBlock.instrs,
        (env.bindParams (E.armBlock t).paramRegs args).bindParams E.joinBlock.paramRegs
          ((E.target t).args.map (m.eval (env.bindParams (E.armBlock t).paramRegs args))), w⟩
      ⟨E.join, block'.instrs,
        (env'.bindDest (some E.dst) (m.eval env (E.arg t))).bindParams block'.paramRegs
          (((E.target true).args.modify E.k fun a ↦ { a with value := .register E.dst }).map
            (m.eval (env'.bindDest (some E.dst) (m.eval env (E.arg t))))), w⟩ := by
  have hlen : ((E.target t).args.map (m.eval (env.bindParams (E.armBlock t).paramRegs args))).length
      = E.joinBlock.paramRegs.length := by
    rw [length_map, length_args hwf]
  obtain ⟨block', hfind, hparams, hmatch⟩ := Match.enter (E := E) (m := m) w
    (not_gone_join hkept) E.hasJoin.2 (agree_kept hwf hpoint hagree (m := m) (t := t) hlen)
  refine ⟨block', hfind, ?_⟩
  rwa [eval_joinArgs hwf hpoint hagree t args, hparams]

end Fork

/-! ## The two directions -/

section Lock

variable {w₀ w : W} {c d : BlockId} {instr : Instruction} {rest rest' : List Instruction}
  {env env' : Env V}

theorem lock_other (hreach : Reaches m func w₀ ⟨c, instr :: rest, env, w⟩) (hb : c ≠ E.b)
    (hc : ¬E.Gone c) : E.Lock m c c instr rest rest where
  op _ env env' w hagree := .other hb hc hagree
  branch _ c' hsucc hgone := by
    obtain ⟨block, hblock, -⟩ := hwf.position hreach
    rcases pred_of_gone hblock.1 hsucc hgone with heq | ⟨t, heq⟩
    · exact hb heq
    · exact hc (Or.inl ⟨t, heq⟩)

theorem lock_head {pre : List Instruction}
    (hreach : Reaches m func w₀ ⟨E.b, instr :: pre ++ [E.branch], env, w⟩) :
    E.Lock m E.b E.b instr (pre ++ [E.branch]) (pre ++ E.select :: E.tail) where
  op _ env env' w hagree := .head hagree
  branch hterm := by
    obtain ⟨block, hblock, hsuffix⟩ := hwf.position hreach
    have hnil := ((hwf.shaped hblock).suffix hsuffix).mp hterm
    simp at hnil

omit hwf in
theorem lock_joined (hmerged : E.merged = true) : E.Lock m E.join E.b instr rest rest where
  op _ env env' w hagree := .joined hmerged hagree
  branch _ c' hsucc hgone := by
    rcases pred_of_gone E.hasJoin.1 hsucc hgone with heq | ⟨t, heq⟩
    · exact E.merged_ne hmerged heq
    · exact join_ne_arm t heq

end Lock

variable {c d : Config V W} {w₀ : W}

theorem Match.forward {c' : Config V W} (hmatch : E.Match m c d) (hreach : Reaches m func w₀ c)
    (hstep : Step m func c c') : ∃ d', ReflTransGen (Step m func') d d' ∧ E.Match m c' d' := by
  cases hmatch with
  | @other c rest env env' w hb hc hagree =>
    cases rest with
    | nil => cases hstep
    | cons instr rest =>
      obtain ⟨d', hd', hmatch'⟩ := (lock_other hwf hreach hb hc).forward hwf hreach hagree hstep
      exact ⟨d', .single hd', hmatch'⟩
  | @head pre env env' w hagree =>
    cases pre with
    | nil =>
      obtain ⟨d', hd', hmatch'⟩ := fork_forward hwf hagree hreach hstep
      exact ⟨d', .single hd', hmatch'⟩
    | cons instr pre =>
      obtain ⟨d', hd', hmatch'⟩ := (lock_head hwf hreach).forward hwf hreach hagree hstep
      exact ⟨d', .single hd', hmatch'⟩
  | @arm t args env env' w hpoint hagree =>
    rw [arm_step hstep]
    cases hmerged : E.merged with
    | true =>
      refine ⟨_, .refl, ?_⟩
      rw [E.merged_tail hmerged]
      exact .joined hmerged (agree_joined hwf hpoint hagree hmerged _ _)
    | false =>
      obtain ⟨block', hfind, hmatch⟩ := kept_enter (w := w) (m := m) hwf hpoint hagree
        hmerged t args
      refine ⟨_, .single ?_, hmatch⟩
      rw [E.kept_tail hmerged]
      have htakes : ∀ env'', m.Takes env'' (joinJump E.join (E.target true).args E.k E.dst)
          ⟨E.join, _⟩ := fun _ ↦ .jmp rfl rfl
      exact .branch (defines_joinJump hwf hpoint hagree (hwf.allDefined.defines hreach)) (htakes _)
        hfind
  | @joined rest env env' w hmerged hagree =>
    cases rest with
    | nil => cases hstep
    | cons instr rest =>
      obtain ⟨d', hd', hmatch'⟩ := (lock_joined hmerged).forward hwf hreach hagree hstep
      exact ⟨d', .single hd', hmatch'⟩

theorem Match.backward {d' : Config V W} (hmatch : E.Match m c d) (hreach : Reaches m func w₀ c)
    (hstep : Step m func' d d') : ∃ c', ReflTransGen (Step m func) c c' ∧ E.Match m c' d' := by
  cases hmatch with
  | @other c rest env env' w hb hc hagree =>
    cases rest with
    | nil => cases hstep
    | cons instr rest =>
      obtain ⟨c', hc', hmatch'⟩ := (lock_other hwf hreach hb hc).backward hwf hreach hagree hstep
      exact ⟨c', .single hc', hmatch'⟩
  | @head pre env env' w hagree =>
    cases pre with
    | nil =>
      obtain ⟨c', hc', hmatch'⟩ := fork_backward hwf hagree hreach hstep
      exact ⟨c', .single hc', hmatch'⟩
    | cons instr pre =>
      obtain ⟨c', hc', hmatch'⟩ := (lock_head hwf hreach).backward hwf hreach hagree hstep
      exact ⟨c', .single hc', hmatch'⟩
  | @arm t args env env' w hpoint hagree =>
    have hjump := arm_run hwf hreach
    cases hmerged : E.merged with
    | true =>
      -- the original has to catch up before the two are in lockstep
      have hagree' := agree_joined (m := m) hwf hpoint hagree hmerged t args
      have hreach' := hreach.step hjump
      rw [E.merged_tail hmerged] at hstep
      cases hinstrs : E.joinBlock.instrs with
      | nil =>
        rw [hinstrs] at hstep
        cases hstep
      | cons instr rest =>
        rw [hinstrs] at hstep hagree' hreach'
        obtain ⟨c', hc', hmatch'⟩ :=
          (lock_joined hmerged).backward hwf hreach' hagree' hstep
        rw [hinstrs] at hjump
        exact ⟨c', .head hjump (.single hc'), hmatch'⟩
    | false =>
      obtain ⟨block', hfind, hmatch⟩ := kept_enter (w := w) (m := m) hwf hpoint hagree
        hmerged t args
      rw [E.kept_tail hmerged] at hstep
      obtain ⟨block, hfind', rfl⟩ := hstep.jmp_inv rfl rfl
      obtain rfl : block' = block := some.inj (hfind.symm.trans hfind')
      exact ⟨_, .single hjump, hmatch⟩
  | @joined rest env env' w hmerged hagree =>
    cases rest with
    | nil => cases hstep
    | cons instr rest =>
      obtain ⟨c', hc', hmatch'⟩ := (lock_joined hmerged).backward hwf hreach hagree hstep
      exact ⟨c', .single hc', hmatch'⟩

/-! ## Events -/

theorem Match.shows_forward {e : Event V W} (hmatch : E.Match m c d) (hreach : Reaches m func w₀ c)
    (hshow : Shows m c e) : Transition.Emits (Step m func') (Shows m) d e := by
  refine ⟨d, .refl, ?_⟩
  cases hmatch with
  | @other c rest env env' w _ _ hagree =>
    cases rest with
    | nil => exact hshow.of_nil ▸ .world
    | cons instr rest => exact (hagree.shows_iff hwf.allDefined hreach).mp hshow
  | @head pre env env' w hagree =>
    cases pre with
    | nil =>
      have hterm : E.branch.isBranching = true := branch_branching
      exact hshow.of_branching (hwf.allDefined.defines hreach) hterm ▸ .world
    | cons instr pre => exact (hagree.shows_iff hwf.allDefined hreach).mp hshow
  | @arm t args env env' w _ _ =>
    have hterm : (E.jump t).isBranching = true := by
      simp [Instruction.isBranching, E.jump_opcode]
    exact hshow.of_branching (hwf.allDefined.defines hreach) hterm ▸ .world
  | @joined rest env env' w _ hagree =>
    cases rest with
    | nil => exact hshow.of_nil ▸ .world
    | cons instr rest => exact (hagree.shows_iff hwf.allDefined hreach).mp hshow

theorem Match.shows_backward {e : Event V W} (hmatch : E.Match m c d) (hreach : Reaches m func w₀ c)
    (hshow : Shows m d e) : Transition.Emits (Step m func) (Shows m) c e := by
  cases hmatch with
  | @other c rest env env' w _ _ hagree =>
    cases rest with
    | nil => exact ⟨_, .refl, hshow.of_nil ▸ .world⟩
    | cons instr rest => exact ⟨_, .refl, (hagree.shows_iff hwf.allDefined hreach).mpr hshow⟩
  | @head pre env env' w hagree =>
    cases pre with
    | nil =>
      exact ⟨_, .refl, hshow.of_select (defines_select hwf hagree hreach) rfl ▸ .world⟩
    | cons instr pre => exact ⟨_, .refl, (hagree.shows_iff hwf.allDefined hreach).mpr hshow⟩
  | @arm t args env env' w hpoint hagree =>
    have hjump := arm_run hwf hreach
    cases hmerged : E.merged with
    | true =>
      have hagree' := agree_joined (m := m) hwf hpoint hagree hmerged t args
      have hreach' := hreach.step hjump
      rw [E.merged_tail hmerged] at hshow
      cases hinstrs : E.joinBlock.instrs with
      | nil =>
        rw [hinstrs] at hshow
        exact ⟨_, .refl, hshow.of_nil ▸ .world⟩
      | cons instr rest =>
        rw [hinstrs] at hshow hagree' hreach' hjump
        exact ⟨_, .single hjump, (hagree'.shows_iff hwf.allDefined hreach').mpr hshow⟩
    | false =>
      rw [E.kept_tail hmerged] at hshow
      have hdefines := defines_joinJump (m := m) hwf hpoint hagree (hwf.allDefined.defines hreach)
      exact ⟨_, .refl, hshow.of_branching hdefines rfl ▸ .world⟩
  | @joined rest env env' w _ hagree =>
    cases rest with
    | nil => exact ⟨_, .refl, hshow.of_nil ▸ .world⟩
    | cons instr rest => exact ⟨_, .refl, (hagree.shows_iff hwf.allDefined hreach).mpr hshow⟩

/-- The two functions are entered at matching configurations. -/
theorem starts_match {w : W} :
    ∃ c d : Config V W, Starts func w c ∧ Starts func' w d ∧ E.Match m c d := by
  obtain ⟨b, block, hentry, hfind⟩ := Function.find_entry hwf.nonempty
  obtain ⟨block', hfind', -, hmatch⟩ := Match.enter (E := E) (m := m) w
    (not_gone_entry hentry) hfind
    (Agree.refl b block.instrs fun _ ↦ none)
  exact ⟨_, _, ⟨b, block, hentry, hfind, rfl⟩,
    ⟨b, block', E.entry.trans hentry, hfind', rfl⟩, hmatch⟩

end WellFormed

/-- **One elimination preserves behaviour.** -/
theorem equivalent (E : Elimination func func') (hwf : func.WellFormed) :
    Equivalent func func' := by
  intro V W m w e
  obtain ⟨c, d, hc, hd, hmatch⟩ := starts_match (E := E) (m := m) (w := w) hwf
  rw [behaves_iff hc, behaves_iff hd]
  constructor
  · refine Transition.emits_of_simulation (R := fun c d ↦ Reaches m func w c ∧ E.Match m c d)
      ?_ ?_ ⟨⟨c, hc, .refl⟩, hmatch⟩
    · rintro c c' d ⟨hreach, hmatch⟩ hstep
      obtain ⟨d', hrun, hmatch'⟩ := hmatch.forward hwf hreach hstep
      exact ⟨d', hrun, hreach.step hstep, hmatch'⟩
    · exact fun c d e h hshow ↦ h.2.shows_forward hwf h.1 hshow
  · refine Transition.emits_of_simulation (R := fun d c ↦ Reaches m func w c ∧ E.Match m c d)
      ?_ ?_ ⟨⟨c, hc, .refl⟩, hmatch⟩
    · rintro d d' c ⟨hreach, hmatch⟩ hstep
      obtain ⟨c', hrun, hmatch'⟩ := hmatch.backward hwf hreach hstep
      exact ⟨c', hrun, hreach.run hrun, hmatch'⟩
    · exact fun d c e h hshow ↦ h.2.shows_backward hwf h.1 hshow

end Elimination

end Banjo.Passes.BranchElimination
