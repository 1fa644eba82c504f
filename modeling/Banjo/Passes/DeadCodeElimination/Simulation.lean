import Banjo.SSA.WellFormed
import Mathlib.Data.List.Pairwise

/-!
# Thinning

Registers that are read by nothing but dead instructions and passed to nothing but dead parameters
are taken out of a function, along with the instructions and parameters that define them and the
arguments for these parameters. What is left does the same, apart from the traps of the
instructions that are gone.
-/

open List Option

namespace Banjo.SSA

open Relation

variable {V W : Type} {m : Machine V W} {func : Function} {dead : List VirtualRegister}

/-! ## What is observed -/

/-- The instructions that act on the world. -/
def Opcode.isEffect (opcode : Opcode) : Bool :=
  opcode = .STORE || opcode = .COPY || opcode = .CALL

/-- The other instructions leave the world as it is, and every comparison has an outcome. -/
structure Machine.Quiet (m : Machine V W) : Prop where
  world : ∀ {opcode attr data operands w v w'}, opcode.isEffect = false →
    m.exec opcode attr data operands w = some (v, w') → w' = w
  total : ∀ comparison lhs rhs, ∃ taken, m.holds comparison lhs rhs taken

/-- The other instructions do not trap. -/
def Machine.Unfailing (m : Machine V W) : Prop :=
  ∀ {opcode attr data operands w}, opcode.isEffect = false →
    m.exec opcode attr data operands w ≠ none

def Event.isTrap : Event V W → Bool
  | .trap _ => true
  | _ => false

/-- The second function does what the first one does until that traps, and may go on where it does.
On a machine that traps in effects only the two do the same. -/
structure Refines (func func' : Function) : Prop where
  forward : ∀ {V W : Type} {m : Machine V W}, m.Quiet → ∀ w e, e.isTrap = false →
    Behaves m func w e → Behaves m func' w e
  backward : ∀ {V W : Type} {m : Machine V W}, m.Quiet → ∀ w e, Behaves m func' w e →
    Behaves m func w e ∨ ∃ w', Behaves m func w (.trap w')
  exact : ∀ {V W : Type} {m : Machine V W}, m.Quiet → m.Unfailing → ∀ w e,
    Behaves m func w e ↔ Behaves m func' w e

theorem Refines.refl (func : Function) : Refines func func :=
  ⟨fun _ _ _ _ h ↦ h, fun _ _ _ h ↦ Or.inl h, fun _ _ _ _ ↦ Iff.rfl⟩

theorem Refines.trans {f g h : Function} (hfg : Refines f g) (hgh : Refines g h) :
    Refines f h where
  forward hm w e he hf := hgh.forward hm w e he (hfg.forward hm w e he hf)
  backward hm w e hh := by
    rcases hgh.backward hm w e hh with hg | ⟨w', hg⟩
    · exact hfg.backward hm w e hg
    · rcases hfg.backward hm w _ hg with hf | hf
      · exact Or.inr ⟨w', hf⟩
      · exact Or.inr hf
  exact hm hu w e := (hfg.exact hm hu w e).trans (hgh.exact hm hu w e)

/-! ## Strict functions -/

/-- A function that is well-formed in all of its blocks, whether a path leads to them or not. -/
structure Function.Strict (func : Function) : Prop where
  nodup : func.ids.Nodup
  nonempty : func.blocks ≠ []
  shaped : ∀ entry ∈ func.blocks, entry.2.Shaped
  args : ∀ entry ∈ func.blocks, ∀ instr ∈ entry.2.instrs, ∀ target ∈ instr.targets,
    ∃ next, func.find target.block = some next ∧ target.args.length = next.paramRegs.length
  defsNodup : (func.blocks.flatMap fun entry ↦ entry.2.defs).Nodup
  below : ∀ entry ∈ func.blocks, ∀ reg ∈ entry.2.defs, reg < func.lastVirtualReg
  typed : ∀ entry ∈ func.blocks, entry.2.paramTypes.length = entry.2.paramRegs.length
  /-- `STORE` and `COPY` compute nothing. -/
  effects : ∀ entry ∈ func.blocks, ∀ instr ∈ entry.2.instrs,
    instr.opcode = .STORE ∨ instr.opcode = .COPY → instr.dest = none
  entryParams : ∀ b block, func.blocks.head? = some (b, block) → block.paramRegs = []
  allDefined : AllDefined func

theorem Function.Strict.find_of_mem (h : func.Strict) {b : BlockId} {block : BasicBlock}
    (hmem : (b, block) ∈ func.blocks) : func.find b = some block :=
  Function.find_of_mem h.nodup hmem

theorem Function.Strict.wellFormed (h : func.Strict) : func.WellFormed where
  nodup := h.nodup
  nonempty := h.nonempty
  shaped hblock := h.shaped _ (mem_of_find hblock.2)
  args hblock := h.args _ (mem_of_find hblock.2)
  defsNodup hblock := h.defsNodup.sublist
    (by rw [flatMap_def]
        exact sublist_flatten_of_mem (mem_map_of_mem (mem_of_find hblock.2)))
  defsDisjoint := by
    intro b c block block' hblock hblock' hne
    have hpair := (nodup_flatMap.mp h.defsNodup).2
    have hsymm : Std.Symm (Function.onFun List.Disjoint fun entry : BlockId × BasicBlock ↦
        entry.2.defs) := ⟨fun _ _ hdisjoint ↦ hdisjoint.symm⟩
    exact hpair.forall (mem_of_find hblock.2) (mem_of_find hblock'.2)
      fun heq ↦ hne (Prod.mk.inj heq).1
  below hblock := h.below _ (mem_of_find hblock.2)
  allDefined := h.allDefined

/-! ## Thinning -/

/-- Calls stay, and so does what defines no dead register. -/
def Instruction.keeps (dead : List VirtualRegister) (instr : Instruction) : Bool :=
  instr.opcode = .CALL || instr.dest.all (· ∉ dead)

/-- The arguments for the parameters that are not dead. -/
def Function.thinTarget (func : Function) (dead : List VirtualRegister) (target : BranchTarget) :
    BranchTarget :=
  { target with
    args :=
      match func.find target.block with
      | some next =>
        ((target.args.zip next.paramRegs).filter fun arg ↦ arg.2 ∉ dead).map Prod.fst
      | none => target.args }

def Function.thinInstr (func : Function) (dead : List VirtualRegister) (instr : Instruction) :
    Instruction :=
  { instr with targets := instr.targets.map (func.thinTarget dead) }

def Function.thinInstrs (func : Function) (dead : List VirtualRegister)
    (instrs : List Instruction) : List Instruction :=
  (instrs.filter (Instruction.keeps dead)).map (func.thinInstr dead)

def Function.thinBlock (func : Function) (dead : List VirtualRegister) (block : BasicBlock) :
    BasicBlock where
  instrs := func.thinInstrs dead block.instrs
  paramRegs := block.paramRegs.filter (· ∉ dead)
  paramTypes := ((block.paramRegs.zip block.paramTypes).filter fun param ↦ param.1 ∉ dead).map
    Prod.snd

def Function.thin (func : Function) (dead : List VirtualRegister) : Function :=
  { func with blocks := func.blocks.map fun (b, block) ↦ (b, func.thinBlock dead block) }

/-- What stays reads no dead register and passes none to a parameter that stays. -/
structure Function.Dead (func : Function) (dead : List VirtualRegister) : Prop where
  operands : ∀ entry ∈ func.blocks, ∀ instr ∈ entry.2.instrs, instr.keeps dead = true →
    ∀ operand ∈ instr.operands, ∀ reg, operand.value = .register reg → reg ∉ dead
  args : ∀ entry ∈ func.blocks, ∀ instr ∈ entry.2.instrs, ∀ target ∈ instr.targets,
    ∀ next, func.find target.block = some next → ∀ arg ∈ target.args.zip next.paramRegs,
    arg.2 ∉ dead → ∀ reg, arg.1.value = .register reg → reg ∉ dead

namespace Function

theorem find_thin (func : Function) (dead : List VirtualRegister) (b : BlockId) :
    (func.thin dead).find b = (func.find b).map (func.thinBlock dead) := by
  have hgo : ∀ blocks : List (BlockId × BasicBlock),
      (blocks.map fun (b, block) ↦ (b, func.thinBlock dead block)).lookup b
        = (blocks.lookup b).map (func.thinBlock dead) := by
    intro blocks
    induction blocks with
    | nil => rfl
    | cons head rest ih =>
      obtain ⟨c, block⟩ := head
      rw [map_cons, lookup_cons, lookup_cons]
      cases b == c with
      | true => rfl
      | false => exact ih
  exact hgo func.blocks

@[simp] theorem ids_thin (func : Function) (dead : List VirtualRegister) :
    (func.thin dead).ids = func.ids := by
  rw [ids, ids, thin, List.map_map]
  rfl

theorem thinInstrs_cons (instr : Instruction) (rest : List Instruction) :
    func.thinInstrs dead (instr :: rest) =
      if instr.keeps dead then func.thinInstr dead instr :: func.thinInstrs dead rest
      else func.thinInstrs dead rest := by
  rw [thinInstrs, filter_cons]
  split_ifs <;> rfl

theorem thinInstr_of_targets_eq_nil {instr : Instruction} (h : instr.targets = []) :
    func.thinInstr dead instr = instr := by
  rw [thinInstr, h, map_nil, ← h]

end Function

/-! ## Instructions that stay -/

theorem Instruction.Shaped.targets_eq_nil {instr : Instruction} (h : instr.Shaped)
    (hterm : instr.isBranching = false) : instr.targets = [] := by
  cases htargets : instr.targets with
  | nil => rfl
  | cons target rest =>
    have hbranch := h.isBranching (htargets ▸ mem_cons_self)
    rw [hterm] at hbranch
    cases hbranch

theorem Instruction.Shaped.keeps_of_isTerminator {instr : Instruction} (h : instr.Shaped)
    (hterm : instr.isTerminator = true) : instr.keeps dead = true := by
  rw [keeps, h.dest_eq_none hterm]
  exact Bool.or_true _

/-- The two register files differ in dead registers only. -/
def AgreeBut (dead : List VirtualRegister) (env env' : Env V) : Prop :=
  ∀ reg, reg ∉ dead → env reg = env' reg

theorem AgreeBut.bindDest {env env' : Env V} (h : AgreeBut dead env env')
    (dest : Option VirtualRegister) (v : V) :
    AgreeBut dead (env.bindDest dest v) (env'.bindDest dest v) := by
  intro reg hreg
  by_cases hdest : dest = some reg
  · rw [hdest, Env.bindDest_self, Env.bindDest_self]
  · rw [Env.bindDest_of_ne hdest, Env.bindDest_of_ne hdest]
    exact h reg hreg

theorem AgreeBut.bindDest_dead {env env' : Env V} (h : AgreeBut dead env env')
    {reg : VirtualRegister} (hreg : reg ∈ dead) (v : V) :
    AgreeBut dead (env.bindDest (some reg) v) env' := by
  intro other hother
  have hne : some reg ≠ some other := fun heq ↦ hother ((some.inj heq) ▸ hreg)
  rw [Env.bindDest_of_ne hne]
  exact h other hother

/-- Binding the parameters that stay to the arguments that stay. -/
theorem AgreeBut.bindParams {e e' : Env V} : ∀ {params : List VirtualRegister}
    {args : List Operand} {env env' : Env V}, AgreeBut dead env env' →
    (∀ arg ∈ args.zip params, arg.2 ∉ dead → m.eval e arg.1 = m.eval e' arg.1) →
    AgreeBut dead (env.bindParams params (args.map (m.eval e)))
      (env'.bindParams (params.filter (· ∉ dead))
        ((((args.zip params).filter fun arg ↦ arg.2 ∉ dead).map Prod.fst).map (m.eval e'))) := by
  intro params
  induction params with
  | nil =>
    intro args env env' h _
    exact h
  | cons param params ih =>
    intro args env env' h heval
    cases args with
    | nil =>
      rw [zip_nil_left]
      intro reg hreg
      have hnil : ∀ (params : List VirtualRegister) (env : Env V),
          env.bindParams params ([] : List V) = env := by
        intro params env
        rw [Env.bindParams, zip_nil_right]
        rfl
      simp only [map_nil, filter_nil, hnil]
      exact h reg hreg
    | cons arg args =>
      rw [zip_cons_cons] at heval ⊢
      have hrest : ∀ arg ∈ args.zip params, arg.2 ∉ dead → m.eval e arg.1 = m.eval e' arg.1 :=
        fun arg hmem ↦ heval arg (mem_cons_of_mem _ hmem)
      rw [map_cons, Env.bindParams_cons]
      by_cases hparam : param ∈ dead
      · rw [filter_cons_of_neg (by simpa using hparam), filter_cons_of_neg (by simpa using hparam)]
        exact ih (h.bindDest_dead hparam (m.eval e arg)) hrest
      · rw [filter_cons_of_pos (by simpa using hparam), filter_cons_of_pos (by simpa using hparam),
          map_cons, map_cons, Env.bindParams_cons, heval (arg, param) mem_cons_self hparam]
        exact ih (h.bindDest (some param) (m.eval e' arg)) hrest

/-!
## Thinning preserves behaviour

A run of the function and one of the thinned function stay together in the values of the registers
that are not dead. The thinned function waits while the other one executes an instruction that is
gone, unless that one traps.
-/

open Relation Transition

variable {V W : Type} {m : Machine V W} {func : Function} {dead : List VirtualRegister}

/-- A trap of an instruction that is no effect. -/
def Stopped (m : Machine V W) (c : Config V W) : Prop :=
  (∃ w, Shows m c (.trap w)) ∧ ¬m.Unfailing

/-- A point of the function and what is left of it in the thinned function. -/
structure Thinned (m : Machine V W) (func : Function) (dead : List VirtualRegister) (w : W)
    (c c' : Config V W) : Prop where
  reaches : Reaches m func w c
  block : c'.block = c.block
  rest : c'.rest = func.thinInstrs dead c.rest
  world : c'.world = c.world
  env : AgreeBut dead c.env c'.env

namespace Thinned

variable {w : W} {c c' d d' : Config V W} {b : BlockId} {instr : Instruction}
  {rest : List Instruction} {env : Env V} {w₁ : W}

theorem exists_env (h : Thinned m func dead w c c') :
    ∃ env', c' = ⟨c.block, func.thinInstrs dead c.rest, env', c.world⟩ ∧
      AgreeBut dead c.env env' := by
  obtain ⟨b', rest', env', w'⟩ := c'
  refine ⟨env', ?_, h.env⟩
  rw [← h.block, ← h.rest, ← h.world]

/-- Where an instruction of a run comes from. -/
theorem mem_instrs (hstrict : func.Strict) (hreach : Reaches m func w ⟨b, instr :: rest, env, w₁⟩) :
    ∃ block, (b, block) ∈ func.blocks ∧ instr ∈ block.instrs ∧ instr.Shaped := by
  obtain ⟨block, hblock, hsuffix⟩ := hstrict.wellFormed.position hreach
  have hmem : instr ∈ block.instrs := hsuffix.subset mem_cons_self
  have hentry := Function.mem_of_find hblock.2
  exact ⟨block, hentry, hmem, (hstrict.shaped _ hentry).instrs instr hmem⟩

variable {env' : Env V}

section Kept

variable (hstrict : func.Strict) (hdead : func.Dead dead)
  (hreach : Reaches m func w ⟨b, instr :: rest, env, w₁⟩) (hkeeps : instr.keeps dead = true)
  (h : AgreeBut dead env env')

include hstrict hdead hreach hkeeps h

theorem operands_agree {operand : Operand} (hoperand : operand ∈ instr.operands)
    {reg : VirtualRegister} (hreg : operand.value = .register reg) : env reg = env' reg := by
  obtain ⟨block, hentry, hmem, -⟩ := mem_instrs hstrict hreach
  exact h reg (hdead.operands _ hentry instr hmem hkeeps operand hoperand reg hreg)

/-- What stays and is no branch reads the same values. -/
theorem uses_agree (htargets : instr.targets = []) :
    ∀ reg ∈ instr.uses, env reg = env' reg := by
  intro reg hreg
  rw [Instruction.uses, htargets, flatMap_nil, append_nil, mem_flatMap] at hreg
  obtain ⟨operand, hoperand, huse⟩ := hreg
  exact operands_agree hstrict hdead hreach hkeeps h hoperand (Operand.mem_uses.mp huse)

/-- What the thinned function reads is defined. -/
theorem defines : env'.Defines (func.thinInstr dead instr) := by
  have hdefines : env.Defines instr := hstrict.allDefined.defines hreach
  obtain ⟨block, hentry, hmem, -⟩ := mem_instrs hstrict hreach
  intro reg hreg
  rcases mem_append.mp hreg with hreg | hreg
  · obtain ⟨operand, hoperand, huse⟩ := mem_flatMap.mp hreg
    have hvalue := Operand.mem_uses.mp huse
    rw [← operands_agree hstrict hdead hreach hkeeps h hoperand hvalue]
    exact hdefines reg (Instruction.mem_uses_of_operand hoperand hvalue)
  · obtain ⟨target', htarget', hreg⟩ := mem_flatMap.mp hreg
    obtain ⟨target, htarget, rfl⟩ := mem_map.mp htarget'
    obtain ⟨arg, harg, huse⟩ := mem_flatMap.mp hreg
    have hvalue := Operand.mem_uses.mp huse
    obtain ⟨next, hnext, -⟩ := hstrict.args _ hentry instr hmem target htarget
    simp only [Function.thinTarget, hnext] at harg
    obtain ⟨pair, hpair, rfl⟩ := mem_map.mp harg
    obtain ⟨hzip, hparam⟩ := mem_filter.mp hpair
    have hnot := hdead.args _ hentry instr hmem target htarget next hnext pair hzip
      (by simpa using hparam) reg hvalue
    rw [← h reg hnot]
    exact hdefines reg (Instruction.mem_uses_of_arg htarget (of_mem_zip hzip).1 hvalue)

/-- The targets are the same, with fewer arguments. -/
theorem takes_iff {target' : BranchTarget} :
    m.Takes env' (func.thinInstr dead instr) target' ↔
      ∃ target, m.Takes env instr target ∧ target' = func.thinTarget dead target := by
  have heval : ∀ operand ∈ instr.operands, m.evalTyped env operand = m.evalTyped env' operand :=
    fun operand hoperand ↦ Machine.evalTyped_congr fun reg hreg ↦
      operands_agree hstrict hdead hreach hkeeps h hoperand hreg
  constructor
  · intro htakes
    cases htakes with
    | jmp hop htargets =>
      obtain ⟨target, htarget, rfl⟩ := map_eq_singleton_iff.mp htargets
      exact ⟨target, .jmp hop htarget, rfl⟩
    | @cond lhs cmp rhs trueTarget falseTarget comparison taken hcond hoperands hcmp htargets
        hholds =>
      have hops : instr.operands = [lhs, cmp, rhs] := hoperands
      obtain ⟨target, rest', htarget, rfl, hrest⟩ := map_eq_cons_iff.mp htargets
      obtain ⟨target', htarget', rfl⟩ := map_eq_singleton_iff.mp hrest
      subst htarget'
      rw [← heval lhs (by simp [hops]), ← heval rhs (by simp [hops])] at hholds
      refine ⟨_, .cond hcond hops hcmp htarget hholds, ?_⟩
      cases taken <;> rfl
  · rintro ⟨target, htakes, rfl⟩
    cases htakes with
    | jmp hop htargets =>
      refine .jmp hop ?_
      rw [Function.thinInstr, htargets]
      rfl
    | @cond lhs cmp rhs trueTarget falseTarget comparison taken hcond hoperands hcmp htargets
        hholds =>
      rw [heval lhs (by simp [hoperands]), heval rhs (by simp [hoperands])] at hholds
      have htaken : m.Takes env' (func.thinInstr dead instr)
          (if taken then func.thinTarget dead trueTarget else func.thinTarget dead falseTarget) :=
        .cond hcond hoperands hcmp (by rw [Function.thinInstr, htargets]; rfl) hholds
      cases taken <;> exact htaken

end Kept

/-- What is gone defines a dead register. -/
theorem exists_dead (hkeeps : instr.keeps dead = false) :
    ∃ reg, instr.dest = some reg ∧ reg ∈ dead := by
  rw [Instruction.keeps, Bool.or_eq_false_iff] at hkeeps
  cases hdest : instr.dest with
  | none =>
    rw [hdest] at hkeeps
    exact absurd hkeeps.2 (by simp)
  | some reg =>
    rw [hdest] at hkeeps
    exact ⟨reg, rfl, by simpa using hkeeps.2⟩

variable {block : BasicBlock}

theorem isEffect_of_not_keeps (hstrict : func.Strict)
    (hentry : (b, block) ∈ func.blocks) (hmem : instr ∈ block.instrs)
    (hkeeps : instr.keeps dead = false) : instr.opcode.isEffect = false := by
  obtain ⟨reg, hdest, -⟩ := exists_dead hkeeps
  rw [Instruction.keeps, Bool.or_eq_false_iff, decide_eq_false_iff_not] at hkeeps
  by_contra heffect
  simp only [Opcode.isEffect, Bool.not_eq_false, Bool.or_eq_true, decide_eq_true_eq] at heffect
  have hnone := hstrict.effects _ hentry instr hmem (heffect.resolve_right hkeeps.1)
  rw [hdest] at hnone
  cases hnone

theorem world_of_not_keeps (hstrict : func.Strict) (hm : m.Quiet)
    (hentry : (b, block) ∈ func.blocks) (hmem : instr ∈ block.instrs)
    (hkeeps : instr.keeps dead = false) {v : V} {w₂ : W} (hexec : m.Executes env instr w₁ v w₂) :
    w₂ = w₁ := by
  cases hexec with
  | exec _ _ hresult => exact hm.world (isEffect_of_not_keeps hstrict hentry hmem hkeeps) hresult
  | select => rfl

/-- What a branch binds on both sides. -/
theorem branch_env (hdead : func.Dead dead) {next : BasicBlock} (hentry : (b, block) ∈ func.blocks)
    (hmem : instr ∈ block.instrs) {target : BranchTarget} (htarget : target ∈ instr.targets)
    (hfind : func.find target.block = some next) (henv : AgreeBut dead env env') :
    AgreeBut dead (env.bindParams next.paramRegs (target.args.map (m.eval env)))
      (env'.bindParams (func.thinBlock dead next).paramRegs
        ((func.thinTarget dead target).args.map (m.eval env'))) := by
  have hargs : (func.thinTarget dead target).args
      = ((target.args.zip next.paramRegs).filter fun arg ↦ arg.2 ∉ dead).map Prod.fst := by
    simp only [Function.thinTarget, hfind]
  rw [hargs]
  refine henv.bindParams fun arg harg hparam ↦ Machine.eval_congr fun reg hreg ↦ ?_
  exact henv reg (hdead.args _ hentry instr hmem target htarget next hfind arg harg hparam reg hreg)

/-- A step of the function is one of the thinned function, or it goes over what is gone. -/
theorem forward (hstrict : func.Strict) (hdead : func.Dead dead) (hm : m.Quiet)
    (h : Thinned m func dead w c c') (hstep : Step m func c d) :
    ∃ d', ReflTransGen (Step m (func.thin dead)) c' d' ∧ Thinned m func dead w d d' := by
  have hreach := h.reaches
  have hreaches := hreach.step hstep
  obtain ⟨env', rfl, henv⟩ := h.exists_env
  cases hstep with
  | @op b instr rest env w₁ w₂ v hdefines hexec =>
    obtain ⟨block, hentry, hmem, hshaped⟩ := mem_instrs hstrict hreach
    have hterm := hexec.not_terminator
    have htargets := hshaped.targets_eq_nil (by
      rw [Instruction.isTerminator, Bool.or_eq_false_iff] at hterm
      exact hterm.1)
    cases hkeeps : instr.keeps dead with
    | true =>
      have hsame : func.thinInstr dead instr = instr :=
        Function.thinInstr_of_targets_eq_nil htargets
      have hdefines' := defines hstrict hdead hreach hkeeps henv
      rw [hsame] at hdefines'
      refine ⟨⟨b, func.thinInstrs dead rest, env'.bindDest instr.dest v, w₂⟩, .single ?_,
        ⟨hreaches, rfl, rfl, rfl, henv.bindDest instr.dest v⟩⟩
      rw [Function.thinInstrs_cons, if_pos hkeeps, hsame]
      exact .op hdefines' (hexec.congr (uses_agree hstrict hdead hreach hkeeps henv htargets))
    | false =>
      obtain ⟨reg, hdest, hreg⟩ := exists_dead hkeeps
      have hworld := world_of_not_keeps hstrict hm hentry hmem hkeeps hexec
      refine ⟨_, .refl, ⟨hreaches, rfl, ?_, hworld.symm, ?_⟩⟩
      · rw [Function.thinInstrs_cons, if_neg (by simp [hkeeps])]
      · rw [hdest]
        exact henv.bindDest_dead hreg v
  | @branch b instr rest env w₁ target next hdefines htakes hfind =>
    obtain ⟨block, hentry, hmem, hshaped⟩ := mem_instrs hstrict hreach
    have hkeeps : instr.keeps dead = true := hshaped.keeps_of_isTerminator (by
      rw [Instruction.isTerminator, htakes.isBranching, Bool.true_or])
    have hfind' : (func.thin dead).find target.block = some (func.thinBlock dead next) := by
      rw [Function.find_thin, hfind, map_some]
    refine ⟨⟨target.block, (func.thinBlock dead next).instrs,
      env'.bindParams (func.thinBlock dead next).paramRegs
        ((func.thinTarget dead target).args.map (m.eval env')), w₁⟩, .single ?_,
      ⟨hreaches, rfl, rfl, rfl, branch_env hdead hentry hmem htakes.mem_targets hfind henv⟩⟩
    rw [Function.thinInstrs_cons, if_pos hkeeps]
    exact .branch (defines hstrict hdead hreach hkeeps henv)
      ((takes_iff hstrict hdead hreach hkeeps henv).mpr ⟨target, htakes, rfl⟩) hfind'

/-- At an instruction that stays the same events show. -/
theorem shows_iff (hstrict : func.Strict) (hdead : func.Dead dead) (h : Thinned m func dead w c c')
    (hkeeps : ∀ instr rest, c.rest = instr :: rest → instr.keeps dead = true) {e : Event V W} :
    Shows m c e ↔ Shows m c' e := by
  have hreach := h.reaches
  obtain ⟨env', rfl, henv⟩ := h.exists_env
  obtain ⟨b, rest, env, w₁⟩ := c
  dsimp only at henv hkeeps ⊢
  cases rest with
  | nil =>
    constructor
    · intro hshow
      rw [hshow.of_nil]
      exact .world
    · intro hshow
      rw [hshow.of_nil]
      exact .world
  | cons instr rest =>
    have hkeep := hkeeps instr rest rfl
    obtain ⟨block, hentry, hmem, hshaped⟩ := mem_instrs hstrict hreach
    have hdefines : env.Defines instr := hstrict.allDefined.defines hreach
    have hdefines' := defines hstrict hdead hreach hkeep henv
    have heval : instr.operands.map (m.eval env) = instr.operands.map (m.eval env') :=
      map_congr_left fun operand hoperand ↦ Machine.eval_congr fun reg hreg ↦
        operands_agree hstrict hdead hreach hkeep henv hoperand hreg
    have htyped : instr.operands.map (m.evalTyped env) = instr.operands.map (m.evalTyped env') :=
      map_congr_left fun operand hoperand ↦ Machine.evalTyped_congr fun reg hreg ↦
        operands_agree hstrict hdead hreach hkeep henv hoperand hreg
    rw [Function.thinInstrs_cons, if_pos hkeep]
    constructor
    · intro hshow
      cases hshow with
      | world => exact .world
      | ret _ hret => exact heval ▸ .ret hdefines' hret
      | trap _ hterm hselect htrap => exact .trap hdefines' hterm hselect (htyped ▸ htrap)
      | undefined hundef => exact absurd hdefines hundef
    · intro hshow
      cases hshow with
      | world => exact .world
      | ret _ hret =>
        have hshow' : Shows m ⟨b, instr :: rest, env, w₁⟩
            (.ret (instr.operands.map (m.eval env)) w₁) := .ret hdefines hret
        exact heval ▸ hshow'
      | trap _ hterm hselect htrap => exact .trap hdefines hterm hselect (htyped ▸ htrap)
      | undefined hundef => exact absurd hdefines' hundef

/-- An instruction that is gone shows nothing but the world and its own trap. -/
theorem shows_forward (hstrict : func.Strict) (hdead : func.Dead dead)
    (h : Thinned m func dead w c c') {e : Event V W} (he : e.isTrap = false ∨ m.Unfailing)
    (hshow : Shows m c e) : Shows m c' e := by
  by_cases hkeeps : ∀ instr rest, c.rest = instr :: rest → instr.keeps dead = true
  · exact (h.shows_iff hstrict hdead hkeeps).mp hshow
  · obtain ⟨instr, rest, hrest, hgone⟩ : ∃ instr rest, c.rest = instr :: rest ∧
        instr.keeps dead = false := by
      push Not at hkeeps
      simpa using hkeeps
    have hreach := h.reaches
    obtain ⟨env', rfl, henv⟩ := h.exists_env
    obtain ⟨b, rest₀, env, w₁⟩ := c
    dsimp only at hrest
    subst hrest
    obtain ⟨block, hentry, hmem, hshaped⟩ := mem_instrs hstrict hreach
    cases hshow with
    | world => exact .world
    | ret _ hret =>
      have hterm : instr.isTerminator = true := by simp [Instruction.isTerminator, hret]
      rw [hshaped.keeps_of_isTerminator hterm] at hgone
      cases hgone
    | trap _ _ _ htrap =>
      rcases he with he | he
      · cases he
      · exact absurd htrap (he (isEffect_of_not_keeps hstrict hentry hmem hgone))
    | undefined hundef => exact absurd (hstrict.allDefined.defines hreach) hundef

/-- The function gets over what is gone, or traps there. -/
theorem skip (hstrict : func.Strict) (hm : m.Quiet) : ∀ {rest : List Instruction} {b : BlockId}
    {env : Env V} {w₁ : W}, Thinned m func dead w ⟨b, rest, env, w₁⟩ c' →
    ∃ d, ReflTransGen (Step m func) ⟨b, rest, env, w₁⟩ d ∧
      ((Thinned m func dead w d c' ∧
        ∀ instr rest, d.rest = instr :: rest → instr.keeps dead = true) ∨ Stopped m d) := by
  intro rest
  induction rest with
  | nil => exact fun h ↦ ⟨_, .refl, Or.inl ⟨h, fun _ _ hrest ↦ by cases hrest⟩⟩
  | cons instr rest ih =>
    intro b env w₁ h
    cases hkeeps : instr.keeps dead with
    | true =>
      refine ⟨_, .refl, Or.inl ⟨h, fun instr' rest' hrest ↦ ?_⟩⟩
      obtain ⟨rfl, -⟩ := cons.inj hrest
      exact hkeeps
    | false =>
      obtain ⟨block, hentry, hmem, hshaped⟩ := mem_instrs hstrict h.reaches
      have hdefines : env.Defines instr := hstrict.allDefined.defines h.reaches
      have hterm : instr.isTerminator = false := by
        by_contra hterm
        rw [hshaped.keeps_of_isTerminator (by simpa using hterm)] at hkeeps
        cases hkeeps
      obtain ⟨reg, hdest, hreg⟩ := exists_dead hkeeps
      -- one step, after which the thinned function is still where it was
      have hstep : ∀ {v w₂}, m.Executes env instr w₁ v w₂ →
          ∃ d, ReflTransGen (Step m func) ⟨b, instr :: rest, env, w₁⟩ d ∧
            ((Thinned m func dead w d c' ∧
              ∀ instr rest, d.rest = instr :: rest → instr.keeps dead = true) ∨ Stopped m d) := by
        intro v w₂ hexec
        have hworld := world_of_not_keeps hstrict hm hentry hmem hkeeps hexec
        have hone : Step m func ⟨b, instr :: rest, env, w₁⟩
            ⟨b, rest, env.bindDest instr.dest v, w₂⟩ := .op hdefines hexec
        have hnext : Thinned m func dead w ⟨b, rest, env.bindDest instr.dest v, w₂⟩ c' := by
          refine ⟨h.reaches.step hone, h.block, ?_, h.world.trans hworld.symm, ?_⟩
          · rw [h.rest, Function.thinInstrs_cons, if_neg (by simp [hkeeps])]
          · rw [hdest]
            exact h.env.bindDest_dead hreg v
        obtain ⟨d, hrun, hd⟩ := ih hnext
        exact ⟨d, .head hone hrun, hd⟩
      by_cases hselect : instr.opcode = .SELECT
      · simp only [Instruction.Shaped, hselect] at hshaped
        obtain ⟨⟨lhs, cmp, rhs, trueVal, falseVal, comparison, hoperands, hcmp⟩, -⟩ := hshaped
        obtain ⟨taken, htaken⟩ := hm.total comparison (m.evalTyped env lhs) (m.evalTyped env rhs)
        exact hstep (.select hselect hoperands hcmp htaken)
      · cases hresult : m.exec instr.opcode instr.attr instr.attrData
          (instr.operands.map (m.evalTyped env)) w₁ with
        | none =>
          refine ⟨_, .refl, Or.inr ⟨⟨w₁, .trap hdefines hterm hselect hresult⟩, fun hu ↦ ?_⟩⟩
          exact hu (isEffect_of_not_keeps hstrict hentry hmem hkeeps) hresult
        | some result => exact hstep (.exec hterm hselect hresult)

/-- A step of the thinned function is a run of the function. -/
theorem backward (hstrict : func.Strict) (hdead : func.Dead dead) (hm : m.Quiet)
    (h : Thinned m func dead w c c') (hstep : Step m (func.thin dead) c' d') :
    ∃ d, ReflTransGen (Step m func) c d ∧ (Thinned m func dead w d d' ∨ Stopped m d) := by
  obtain ⟨c₁, hrun, ⟨h₁, hkeeps⟩ | htrap⟩ := h.skip hstrict hm
  · have hreach := h₁.reaches
    obtain ⟨env', rfl, henv⟩ := h₁.exists_env
    obtain ⟨b, rest, env, w₁⟩ := c₁
    dsimp only at henv hkeeps hstep
    cases rest with
    | nil => cases hstep
    | cons instr rest =>
      have hkeep := hkeeps instr rest rfl
      obtain ⟨block, hentry, hmem, hshaped⟩ := mem_instrs hstrict hreach
      have hdefines : env.Defines instr := hstrict.allDefined.defines hreach
      rw [Function.thinInstrs_cons, if_pos hkeep] at hstep
      cases hstep with
      | @op _ _ _ _ _ w₂ v hdefines' hexec =>
        have hterm : instr.isTerminator = false := hexec.not_terminator
        have htargets := hshaped.targets_eq_nil (by
          rw [Instruction.isTerminator, Bool.or_eq_false_iff] at hterm
          exact hterm.1)
        have hsame : func.thinInstr dead instr = instr :=
          Function.thinInstr_of_targets_eq_nil htargets
        rw [hsame] at hexec
        have hagree := uses_agree hstrict hdead hreach hkeep henv htargets
        have hone : Step m func ⟨b, instr :: rest, env, w₁⟩
            ⟨b, rest, env.bindDest instr.dest v, w₂⟩ :=
          .op hdefines (hexec.congr fun reg hreg ↦ (hagree reg hreg).symm)
        exact ⟨_, hrun.tail hone,
          Or.inl ⟨hreach.step hone, rfl, rfl, rfl, henv.bindDest instr.dest v⟩⟩
      | @branch _ _ _ _ _ target' next' hdefines' htakes' hfind' =>
        obtain ⟨target, htakes, rfl⟩ := (takes_iff hstrict hdead hreach hkeep henv).mp htakes'
        have hblock : (func.thinTarget dead target).block = target.block := rfl
        rw [hblock, Function.find_thin] at hfind'
        obtain ⟨next, hfind, rfl⟩ := map_eq_some_iff.mp hfind'
        have hone : Step m func ⟨b, instr :: rest, env, w₁⟩ ⟨target.block, next.instrs,
            env.bindParams next.paramRegs (target.args.map (m.eval env)), w₁⟩ :=
          .branch hdefines htakes hfind
        exact ⟨_, hrun.tail hone, Or.inl ⟨hreach.step hone, rfl, rfl, rfl,
          branch_env hdead hentry hmem htakes.mem_targets hfind henv⟩⟩
  · exact ⟨c₁, hrun, Or.inr htrap⟩

end Thinned

/-! ## Thinned functions -/

theorem exists_thinned_start (dead : List VirtualRegister) (hstrict : func.Strict) (m : Machine V W)
    (w : W) :
    ∃ start start', Starts func w start ∧ Starts (func.thin dead) w start' ∧
      Thinned m func dead w start start' := by
  obtain ⟨b, block, hentry, hfind⟩ := Function.find_entry hstrict.nonempty
  have hstart : Starts func w (⟨b, block.instrs, fun _ ↦ none, w⟩ : Config V W) :=
    ⟨b, block, hentry, hfind, rfl⟩
  refine ⟨_, ⟨b, (func.thinBlock dead block).instrs, fun _ ↦ none, w⟩, hstart,
    ⟨b, func.thinBlock dead block, ?_, ?_, rfl⟩, ⟨_, hstart, .refl⟩, rfl, rfl, rfl, fun _ _ ↦ rfl⟩
  · rw [Function.entry, Function.ids_thin]
    exact hentry
  · rw [Function.find_thin, hfind, map_some]

variable {e : Event V W} {w : W}

theorem behaves_thin (hstrict : func.Strict) (hdead : func.Dead dead) (hm : m.Quiet)
    (he : e.isTrap = false ∨ m.Unfailing) (h : Behaves m func w e) :
    Behaves m (func.thin dead) w e := by
  obtain ⟨start, start', hstart, hstart', hthinned⟩ :=
    exists_thinned_start dead hstrict m w
  rw [behaves_iff hstart] at h
  rw [behaves_iff hstart']
  obtain ⟨c, hrun, hshow⟩ := h
  obtain ⟨c', hrun', hc⟩ := run_of_simulation
    (fun _ _ _ hthinned hstep ↦ hthinned.forward hstrict hdead hm hstep) hthinned hrun
  exact ⟨c', hrun', hc.shows_forward hstrict hdead he hshow⟩

theorem behaves_of_thin (hstrict : func.Strict) (hdead : func.Dead dead) (hm : m.Quiet)
    (h : Behaves m (func.thin dead) w e) :
    Behaves m func w e ∨ (∃ w', Behaves m func w (.trap w')) ∧ ¬m.Unfailing := by
  obtain ⟨start, start', hstart, hstart', hthinned⟩ :=
    exists_thinned_start dead hstrict m w
  rw [behaves_iff hstart'] at h
  simp only [behaves_iff hstart]
  obtain ⟨c', hrun', hshow⟩ := h
  obtain ⟨c, hrun, hc | ⟨⟨w', htrap⟩, hfails⟩⟩ := run_of_simulation
    (R := fun c' c ↦ Thinned m func dead w c c' ∨ Stopped m c)
    (fun _ _ c hc hstep ↦ hc.elim (fun hthinned ↦ hthinned.backward hstrict hdead hm hstep)
      fun hstopped ↦ ⟨c, .refl, Or.inr hstopped⟩) (Or.inl hthinned) hrun'
  · obtain ⟨d, hmore, ⟨hd, hkeeps⟩ | ⟨⟨w', htrap⟩, hfails⟩⟩ := hc.skip hstrict hm
    · exact Or.inl ⟨d, hrun.trans hmore, (hd.shows_iff hstrict hdead hkeeps).mpr hshow⟩
    · exact Or.inr ⟨⟨w', d, hrun.trans hmore, htrap⟩, hfails⟩
  · exact Or.inr ⟨⟨w', c, hrun, htrap⟩, hfails⟩

theorem refines_thin (hstrict : func.Strict) (hdead : func.Dead dead) :
    Refines func (func.thin dead) where
  forward hm _ _ he h := behaves_thin hstrict hdead hm (Or.inl he) h
  backward hm _ _ h := (behaves_of_thin hstrict hdead hm h).imp_right And.left
  exact hm hu _ _ := ⟨behaves_thin hstrict hdead hm (Or.inr hu), fun h ↦
    (behaves_of_thin hstrict hdead hm h).resolve_right fun hstopped ↦ hstopped.2 hu⟩

/-! ## Strictness -/

theorem quiet_paths : paths.Quiet := ⟨fun _ _ ↦ rfl, fun _ _ _ ↦ ⟨true, trivial⟩⟩

theorem unfailing_paths : paths.Unfailing := fun _ ↦ some_ne_none _

theorem Instruction.Shaped.thinInstr {instr : Instruction} (h : instr.Shaped) :
    (func.thinInstr dead instr).Shaped := by
  unfold Instruction.Shaped at h ⊢
  have hop : (func.thinInstr dead instr).opcode = instr.opcode := rfl
  have htargets : (func.thinInstr dead instr).targets
      = instr.targets.map (func.thinTarget dead) := rfl
  rw [hop, htargets]
  split at h
  · obtain ⟨hdest, hoperands, target, htarget⟩ := h
    exact ⟨hdest, hoperands, _, by rw [htarget]; rfl⟩
  · obtain ⟨hdest, hoperands, trueTarget, falseTarget, htarget⟩ := h
    exact ⟨hdest, hoperands, _, _, by rw [htarget]; rfl⟩
  · obtain ⟨hdest, hoperands, trueTarget, falseTarget, htarget⟩ := h
    exact ⟨hdest, hoperands, _, _, by rw [htarget]; rfl⟩
  · exact ⟨h.1, by rw [h.2]; rfl⟩
  · exact ⟨h.1, by rw [h.2]; rfl⟩
  · rw [h]
    rfl

theorem BasicBlock.Shaped.thinBlock {block : BasicBlock} (h : block.Shaped) :
    (func.thinBlock dead block).Shaped where
  split := by
    obtain ⟨body, last, hinstrs, hlast, hbody⟩ := h.split
    have hkeeps : last.keeps dead = true :=
      (h.instrs last (by simp [hinstrs])).keeps_of_isTerminator hlast
    refine ⟨(body.filter (Instruction.keeps dead)).map (func.thinInstr dead),
      func.thinInstr dead last, ?_, hlast, fun instr hinstr ↦ ?_⟩
    · rw [Function.thinBlock, Function.thinInstrs, hinstrs, filter_append, map_append,
        filter_cons_of_pos hkeeps]
      rfl
    · obtain ⟨instr, hmem, rfl⟩ := mem_map.mp hinstr
      exact hbody instr (mem_of_mem_filter hmem)
  instrs instr hinstr := by
    obtain ⟨instr, hmem, rfl⟩ := mem_map.mp hinstr
    exact (h.instrs instr (mem_of_mem_filter hmem)).thinInstr

theorem defs_thinBlock (func : Function) (dead : List VirtualRegister) (block : BasicBlock) :
    (func.thinBlock dead block).defs.Sublist block.defs := by
  refine List.Sublist.append List.filter_sublist ?_
  rw [Function.thinBlock, Function.thinInstrs, filterMap_map]
  exact filter_sublist.filterMap _

theorem length_thinTarget {target : BranchTarget} {next : BasicBlock}
    (hfind : func.find target.block = some next)
    (hlength : target.args.length = next.paramRegs.length) :
    (func.thinTarget dead target).args.length = (func.thinBlock dead next).paramRegs.length := by
  have hsnd : (target.args.zip next.paramRegs).map Prod.snd = next.paramRegs :=
    map_snd_zip hlength.ge
  have hfilter : next.paramRegs.filter (· ∉ dead)
      = ((target.args.zip next.paramRegs).filter fun arg ↦ arg.2 ∉ dead).map Prod.snd := by
    rw [← hsnd, List.filter_map, hsnd]
    rfl
  simp only [Function.thinTarget, Function.thinBlock, hfind, length_map, hfilter]

theorem Function.Strict.thin (hstrict : func.Strict) (hdead : func.Dead dead) :
    (func.thin dead).Strict where
  nodup := by
    rw [Function.ids_thin]
    exact hstrict.nodup
  nonempty h := hstrict.nonempty (map_eq_nil_iff.mp h)
  shaped entry hentry := by
    obtain ⟨⟨b, block⟩, hblock, rfl⟩ := mem_map.mp hentry
    exact (hstrict.shaped _ hblock).thinBlock
  args entry hentry instr' hinstr target' htarget' := by
    obtain ⟨⟨b, block⟩, hblock, rfl⟩ := mem_map.mp hentry
    obtain ⟨instr, hmem, rfl⟩ := mem_map.mp hinstr
    obtain ⟨target, htarget, rfl⟩ := mem_map.mp htarget'
    obtain ⟨next, hnext, hlength⟩ :=
      hstrict.args _ hblock instr (mem_of_mem_filter hmem) target htarget
    refine ⟨func.thinBlock dead next, ?_, length_thinTarget hnext hlength⟩
    have hid : (func.thinTarget dead target).block = target.block := rfl
    rw [hid, Function.find_thin, hnext, map_some]
  defsNodup := by
    refine hstrict.defsNodup.sublist ?_
    have hgo : ∀ blocks : List (BlockId × BasicBlock),
        ((blocks.map fun (b, block) ↦ (b, func.thinBlock dead block)).flatMap
          fun entry ↦ entry.2.defs).Sublist (blocks.flatMap fun entry ↦ entry.2.defs) := by
      intro blocks
      induction blocks with
      | nil => exact .slnil
      | cons head rest ih =>
        rw [map_cons, flatMap_cons, flatMap_cons]
        exact (defs_thinBlock func dead head.2).append ih
    exact hgo func.blocks
  below entry hentry reg hreg := by
    obtain ⟨⟨b, block⟩, hblock, rfl⟩ := mem_map.mp hentry
    exact hstrict.below _ hblock reg ((defs_thinBlock func dead block).subset hreg)
  typed entry hentry := by
    obtain ⟨⟨b, block⟩, hblock, rfl⟩ := mem_map.mp hentry
    have hfst : (block.paramRegs.zip block.paramTypes).map Prod.fst = block.paramRegs :=
      map_fst_zip (hstrict.typed _ hblock).ge
    have hfilter : block.paramRegs.filter (· ∉ dead)
        = ((block.paramRegs.zip block.paramTypes).filter fun param ↦ param.1 ∉ dead).map
          Prod.fst := by
      rw [← hfst, List.filter_map, hfst]
      rfl
    simp only [Function.thinBlock, length_map, hfilter]
  effects entry hentry instr hinstr hop := by
    obtain ⟨⟨b, block⟩, hblock, rfl⟩ := mem_map.mp hentry
    obtain ⟨instr, hmem, rfl⟩ := mem_map.mp hinstr
    exact hstrict.effects _ hblock instr (mem_of_mem_filter hmem) hop
  entryParams b block hhead := by
    rw [Function.thin, head?_map] at hhead
    obtain ⟨⟨c, old⟩, hold, heq⟩ := map_eq_some_iff.mp hhead
    obtain ⟨rfl, rfl⟩ := Prod.mk.inj heq
    have hnil := hstrict.entryParams c old hold
    simp only [Function.thinBlock, hnil, filter_nil]
  allDefined h := by
    rcases behaves_of_thin hstrict hdead quiet_paths h with h | h
    · exact hstrict.allDefined h
    · exact h.2 unfailing_paths

end Banjo.SSA
