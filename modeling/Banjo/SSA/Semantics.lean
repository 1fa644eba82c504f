import Banjo.SSA.Function
import Banjo.Lib.Loops

/-!
# What an SSA function does

The meaning of the operations is left to a machine: how a constant is turned into a value, what an
instruction computes and does to the world, and which way a comparison goes. The world is whatever
the machine makes of it; one that keeps a trace of its stores and calls makes the trace
observable. What is fixed here is the rest of the SSA form: registers, branches that pass arguments
to block parameters, and `SELECT`, which goes the way the conditional branch on the same
comparison would.

A register that was never defined cannot be read. The machine `paths` computes nothing and lets
every comparison go both ways, so its runs are the paths of the control-flow graph, and a function
is free of undefined reads on every path when that machine never reads an undefined register.
-/

open List Option Function

namespace Banjo.SSA

open Relation

structure Machine (V W : Type) where
  /-- The value of an operand that is not a register. -/
  const : Value → V
  /-- What an instruction computes from its operands, and the world it leaves; `none` is a trap. -/
  exec : Opcode → Attribute → ℕ → List (V × SSAType) → W → Option (V × W)
  /-- The outcomes of a comparison. -/
  holds : Comparison → V × SSAType → V × SSAType → Bool → Prop

abbrev Env (V : Type) := VirtualRegister → Option V

variable {V W : Type}

namespace Env

/-- Every register the instruction reads is defined. -/
def Defines (env : Env V) (instr : Instruction) : Prop := ∀ reg ∈ instr.uses, env reg ≠ none

def bindDest (env : Env V) (dest : Option VirtualRegister) (v : V) : Env V :=
  match dest with
  | some reg => update env reg (some v)
  | none => env

def bindParams (env : Env V) (params : List VirtualRegister) (args : List V) : Env V :=
  (params.zip args).foldl (fun env (param, arg) ↦ update env param (some arg)) env

end Env

namespace Machine

def eval (m : Machine V W) (env : Env V) (operand : Operand) : V :=
  match operand.value with
  | .register reg => (env reg).getD (m.const .undef)
  | value => m.const value

def evalTyped (m : Machine V W) (env : Env V) (operand : Operand) : V × SSAType :=
  (m.eval env operand, operand.type)

/-- What an instruction that is not a terminator computes and does to the world. -/
inductive Executes (m : Machine V W) (env : Env V) : Instruction → W → V → W → Prop
  | exec {instr : Instruction} {w w' : W} {v : V} : instr.isTerminator = false →
    instr.opcode ≠ .SELECT →
    m.exec instr.opcode instr.attr instr.attrData (instr.operands.map (m.evalTyped env)) w
      = some (v, w') →
    Executes m env instr w v w'
  | select {instr : Instruction} {w : W} {lhs cmp rhs trueVal falseVal : Operand}
    {comparison : Comparison} {taken : Bool} : instr.opcode = .SELECT →
    instr.operands = [lhs, cmp, rhs, trueVal, falseVal] → cmp.value = .comparison comparison →
    m.holds comparison (m.evalTyped env lhs) (m.evalTyped env rhs) taken →
    Executes m env instr w (m.eval env (if taken then trueVal else falseVal)) w

/-- The target a branch goes to. -/
inductive Takes (m : Machine V W) (env : Env V) : Instruction → BranchTarget → Prop
  | jmp {instr : Instruction} {target : BranchTarget} : instr.opcode = .JMP →
    instr.targets = [target] → Takes m env instr target
  | cond {instr : Instruction} {lhs cmp rhs : Operand} {trueTarget falseTarget : BranchTarget}
    {comparison : Comparison} {taken : Bool} : instr.isCondBranch = true →
    instr.operands = [lhs, cmp, rhs] → cmp.value = .comparison comparison →
    instr.targets = [trueTarget, falseTarget] →
    m.holds comparison (m.evalTyped env lhs) (m.evalTyped env rhs) taken →
    Takes m env instr (if taken then trueTarget else falseTarget)

end Machine

/-- A block, the instructions of it that are left, the registers and the world. -/
structure Config (V W : Type) where
  block : BlockId
  rest : List Instruction
  env : Env V
  world : W

inductive Step (m : Machine V W) (func : Function) : Config V W → Config V W → Prop
  | op {b : BlockId} {instr : Instruction} {rest : List Instruction} {env : Env V} {w w' : W}
    {v : V} : env.Defines instr → m.Executes env instr w v w' →
    Step m func ⟨b, instr :: rest, env, w⟩ ⟨b, rest, env.bindDest instr.dest v, w'⟩
  | branch {b : BlockId} {instr : Instruction} {rest : List Instruction} {env : Env V} {w : W}
    {target : BranchTarget} {block : BasicBlock} : env.Defines instr → m.Takes env instr target →
    func.find target.block = some block →
    Step m func ⟨b, instr :: rest, env, w⟩
      ⟨target.block, block.instrs, env.bindParams block.paramRegs (target.args.map (m.eval env)), w⟩

/-- What can be seen of a run: the worlds it passes through, what it returns, that it traps, and
that it reads a register that was never defined. -/
inductive Event (V W : Type) where
  | world (w : W)
  | ret (values : List V) (w : W)
  | trap (w : W)
  | undefined

inductive Shows (m : Machine V W) : Config V W → Event V W → Prop
  | world {c : Config V W} : Shows m c (.world c.world)
  | ret {b : BlockId} {instr : Instruction} {rest : List Instruction} {env : Env V} {w : W} :
    env.Defines instr → instr.opcode = .RET →
    Shows m ⟨b, instr :: rest, env, w⟩ (.ret (instr.operands.map (m.eval env)) w)
  | trap {b : BlockId} {instr : Instruction} {rest : List Instruction} {env : Env V} {w : W} :
    env.Defines instr → instr.isTerminator = false → instr.opcode ≠ .SELECT →
    m.exec instr.opcode instr.attr instr.attrData (instr.operands.map (m.evalTyped env)) w = none →
    Shows m ⟨b, instr :: rest, env, w⟩ (.trap w)
  | undefined {b : BlockId} {instr : Instruction} {rest : List Instruction} {env : Env V} {w : W} :
    ¬env.Defines instr → Shows m ⟨b, instr :: rest, env, w⟩ .undefined

/-- The function is entered with no register defined. -/
def Starts (func : Function) (w : W) (c : Config V W) : Prop :=
  ∃ b block, func.entry = some b ∧ func.find b = some block ∧ c = ⟨b, block.instrs, fun _ ↦ none, w⟩

/-- The configurations of the runs from a world. -/
def Reaches (m : Machine V W) (func : Function) (w : W) (c : Config V W) : Prop :=
  ∃ start, Starts func w start ∧ ReflTransGen (Step m func) start c

/-- The events of the runs from a world. -/
def Behaves (m : Machine V W) (func : Function) (w : W) (e : Event V W) : Prop :=
  ∃ c, Reaches m func w c ∧ Shows m c e

/-- Two functions have the same events from every world, whatever the machine. -/
def Equivalent (func func' : Function) : Prop :=
  ∀ (V W : Type) (m : Machine V W) (w : W) (e : Event V W), Behaves m func w e ↔ Behaves m func' w e

theorem Equivalent.refl (func : Function) : Equivalent func func := fun _ _ _ _ _ ↦ Iff.rfl

theorem Equivalent.trans {f g h : Function} (hfg : Equivalent f g) (hgh : Equivalent g h) :
    Equivalent f h :=
  fun V W m w e ↦ (hfg V W m w e).trans (hgh V W m w e)

/-! ## Paths -/

/-- Every comparison may go either way and every instruction succeeds. -/
def paths : Machine Unit Unit where
  const _ := ()
  exec _ _ _ _ _ := some ((), ())
  holds _ _ _ _ := True

/-- No path reads a register that was not defined on it. -/
def AllDefined (func : Function) : Prop := ¬Behaves paths func () .undefined

/-- The register is defined on every path to the point. -/
def DefinedAt (func : Function) (b : BlockId) (rest : List Instruction) (reg : VirtualRegister) :
    Prop :=
  ∀ c : Config Unit Unit, Reaches paths func () c → c.block = b → c.rest = rest → c.env reg ≠ none

/-- Some path leads to the point. -/
def ReachesPoint (func : Function) (b : BlockId) (rest : List Instruction) : Prop :=
  ∃ c : Config Unit Unit, Reaches paths func () c ∧ c.block = b ∧ c.rest = rest

/-!
## Runs and paths

Every run of a machine follows a path, so a register that is defined on every path to a point has a
value whenever a run gets there. Two register files *agree* at a point when they give the same
values to the registers that are defined there and used at all; what an instruction does depends on
no others, and agreement is kept by executing the same instruction on both sides.
-/

variable {V W : Type} {m : Machine V W} {func : Function}

/-! ### Register files -/

namespace Env

variable {env : Env V} {reg : VirtualRegister}

variable {v : V}

theorem bindDest_of_ne {dest : Option VirtualRegister} (h : dest ≠ some reg) :
    env.bindDest dest v reg = env reg := by
  cases dest with
  | none => rfl
  | some d =>
    have hne : reg ≠ d := fun heq ↦ h (congrArg some heq.symm)
    exact update_of_ne hne _ _

theorem bindDest_self : env.bindDest (some reg) v reg = some v :=
  update_self _ _ _

theorem bindParams_cons (env : Env V) (param : VirtualRegister) (params : List VirtualRegister)
    (arg : V) (args : List V) : env.bindParams (param :: params) (arg :: args)
      = Env.bindParams (update env param (some arg)) params args := rfl

variable {params : List VirtualRegister}

theorem bindParams_of_not_mem : ∀ {args : List V} {env : Env V}
    {reg : VirtualRegister}, reg ∉ params → env.bindParams params args reg = env reg := by
  induction params with
  | nil => intro args env reg _; rfl
  | cons param params ih =>
    intro args env reg h
    rw [mem_cons, not_or] at h
    cases args with
    | nil => rfl
    | cons arg args =>
      rw [bindParams_cons, ih h.2]
      exact update_of_ne h.1 _ _

/-- Parameters are bound to the same values whatever was there before. -/
theorem bindParams_congr : ∀ {args : List V} {env env' : Env V}
    {reg : VirtualRegister}, (reg ∉ params ∨ args.length < params.length → env reg = env' reg) →
    env.bindParams params args reg = env'.bindParams params args reg := by
  induction params with
  | nil => exact fun h ↦ h (Or.inl not_mem_nil)
  | cons param params ih =>
    intro args env env' reg h
    cases args with
    | nil => exact h (Or.inr (Nat.succ_pos _))
    | cons arg args =>
      rw [bindParams_cons, bindParams_cons]
      refine ih fun hmem ↦ ?_
      by_cases hreg : reg = param
      · rw [hreg, update_self, update_self]
      · rw [update_of_ne hreg, update_of_ne hreg]
        refine h (hmem.imp (fun hmem ↦ ?_) fun hlen ↦ ?_)
        · rw [mem_cons, not_or]
          exact ⟨hreg, hmem⟩
        · rw [length_cons, length_cons]
          omega

/-- The value a parameter is bound to, when no parameter is named twice. -/
theorem bindParams_getElem : ∀ {args : List V} {env : Env V}
    {k : ℕ} {param : VirtualRegister} {arg : V}, params.Nodup → params[k]? = some param →
    args[k]? = some arg → env.bindParams params args param = some arg := by
  induction params with
  | nil => intro args env k param arg _ h _; simp at h
  | cons head params ih =>
    intro args env k param arg hnodup hparam harg
    rw [nodup_cons] at hnodup
    cases args with
    | nil => simp at harg
    | cons first args =>
      rw [bindParams_cons]
      cases k with
      | zero =>
        rw [getElem?_cons_zero, some.injEq] at hparam harg
        subst hparam harg
        rw [bindParams_of_not_mem hnodup.1, update_self]
      | succ k =>
        rw [getElem?_cons_succ] at hparam harg
        exact ih hnodup.2 hparam harg

theorem bindParams_ne_none : ∀ {args : List V} {env : Env V}
    {reg : VirtualRegister}, args.length = params.length → reg ∈ params ∨ env reg ≠ none →
    env.bindParams params args reg ≠ none := by
  induction params with
  | nil =>
    intro args env reg _ h
    exact h.resolve_left not_mem_nil
  | cons param params ih =>
    intro args env reg hlength h
    cases args with
    | nil => cases hlength
    | cons arg args =>
      rw [bindParams_cons]
      refine ih (Nat.succ.inj hlength) ?_
      by_cases hparam : reg = param
      · right
        rw [hparam, update_self]
        exact some_ne_none arg
      · rw [update_of_ne hparam]
        exact h.imp_left fun hmem ↦ (mem_cons.mp hmem).resolve_left hparam

/-- Which registers are defined, without their values. -/
def erase (env : Env V) : Env Unit := fun reg ↦ (env reg).map fun _ ↦ ()

theorem erase_eq_none :
    env.erase reg = none ↔ env reg = none := map_eq_none_iff

theorem erase_update (env : Env V) (reg : VirtualRegister) (v : V) :
    Env.erase (update env reg (some v)) = update env.erase reg (some ()) := by
  funext other
  by_cases h : other = reg
  · rw [h, erase, update_self, update_self]
    rfl
  · rw [erase, update_of_ne h, update_of_ne h]
    rfl

theorem erase_bindDest (env : Env V) (dest : Option VirtualRegister) (v : V) :
    (env.bindDest dest v).erase = env.erase.bindDest dest () := by
  cases dest with
  | none => rfl
  | some reg => exact erase_update env reg v

theorem erase_bindParams : ∀ (env : Env V) (args : List V)
    (units : List Unit), args.length = units.length →
    (env.bindParams params args).erase = env.erase.bindParams params units := by
  induction params with
  | nil => exact fun _ _ _ _ ↦ rfl
  | cons param params ih =>
    intro env args units hlen
    cases args with
    | nil =>
      obtain rfl : units = [] := length_eq_zero_iff.mp hlen.symm
      rfl
    | cons arg args =>
      cases units with
      | nil => exact absurd hlen (Nat.succ_ne_zero _)
      | cons u units =>
        rw [bindParams_cons, bindParams_cons, ih _ args units (Nat.succ.inj hlen), erase_update]

end Env

/-! ### Evaluation -/

namespace Machine

variable {env env' : Env V}

variable {operand : Operand}

theorem eval_congr (h : ∀ reg, operand.value = .register reg → env reg = env' reg) :
    m.eval env operand = m.eval env' operand := by
  unfold eval
  split
  · rename_i reg hreg
    rw [h reg hreg]
  · rfl

theorem evalTyped_congr (h : ∀ reg, operand.value = .register reg → env reg = env' reg) :
    m.evalTyped env operand = m.evalTyped env' operand := by
  rw [evalTyped, evalTyped, eval_congr h]

variable {instr : Instruction} {v : V} {w w' : W}

/-- What an instruction computes depends on the registers it uses. -/
theorem Executes.congr (h : ∀ reg ∈ instr.uses, env reg = env' reg)
    (hexec : m.Executes env instr w v w') : m.Executes env' instr w v w' := by
  have hoperand : ∀ operand ∈ instr.operands, ∀ reg, operand.value = .register reg →
      env reg = env' reg :=
    fun operand hmem reg hreg ↦ h reg (Instruction.mem_uses_of_operand hmem hreg)
  cases hexec with
  | exec hterm hselect hresult =>
    refine .exec hterm hselect ?_
    rw [← hresult]
    congr 1
    exact map_congr_left fun operand hmem ↦ (evalTyped_congr (hoperand operand hmem)).symm
  | @select lhs cmp rhs trueVal falseVal comparison taken hopcode hoperands hcmp hholds =>
    rw [hoperands] at hoperand
    have hvalue : m.eval env (if taken then trueVal else falseVal)
        = m.eval env' (if taken then trueVal else falseVal) := by
      refine eval_congr (hoperand _ ?_)
      cases taken <;> simp
    rw [hvalue]
    refine .select hopcode hoperands hcmp ?_
    rwa [← evalTyped_congr (hoperand lhs (by simp)), ← evalTyped_congr (hoperand rhs (by simp))]

variable {target : BranchTarget}

/-- Where a branch goes depends on the registers it uses. -/
theorem Takes.congr (h : ∀ reg ∈ instr.uses, env reg = env' reg)
    (htakes : m.Takes env instr target) : m.Takes env' instr target := by
  cases htakes with
  | jmp hopcode htargets => exact .jmp hopcode htargets
  | @cond lhs cmp rhs trueTarget falseTarget comparison taken hcond hoperands hcmp htargets
      hholds =>
    have hoperand : ∀ operand ∈ instr.operands, ∀ reg, operand.value = .register reg →
        env reg = env' reg :=
      fun operand hmem reg hreg ↦ h reg (Instruction.mem_uses_of_operand hmem hreg)
    rw [hoperands] at hoperand
    refine .cond hcond hoperands hcmp htargets ?_
    rwa [← evalTyped_congr (hoperand lhs (by simp)), ← evalTyped_congr (hoperand rhs (by simp))]

theorem Takes.isBranching (h : m.Takes env instr target) : instr.isBranching = true := by
  cases h with
  | jmp hopcode _ => simp [Instruction.isBranching, hopcode]
  | cond hcond _ _ _ _ =>
    simp only [Instruction.isCondBranch, Instruction.isBranching, Bool.or_eq_true] at hcond ⊢
    tauto

theorem Takes.mem_targets (h : m.Takes env instr target) : target ∈ instr.targets := by
  cases h with
  | jmp _ htargets =>
    rw [htargets]
    exact mem_singleton_self target
  | @cond _ _ _ _ _ _ taken _ _ _ htargets _ =>
    rw [htargets]
    cases taken <;> simp

theorem Executes.not_terminator (h : m.Executes env instr w v w') : instr.isTerminator = false := by
  cases h with
  | exec hterm _ _ => exact hterm
  | select hopcode _ _ _ => simp [Instruction.isTerminator, Instruction.isBranching, hopcode]

/-- An instruction that executes also executes on a path. -/
theorem Executes.erase (h : m.Executes env instr w v w') (env' : Env Unit) :
    paths.Executes env' instr () () () := by
  cases h with
  | exec hterm hselect _ => exact .exec hterm hselect rfl
  | @select _ _ _ _ _ _ taken hopcode hoperands hcmp _ =>
    exact Executes.select hopcode hoperands hcmp (show paths.holds _ _ _ taken from trivial)

/-- A branch that is taken is also taken on a path. -/
theorem Takes.erase
    (h : m.Takes env instr target) (env' : Env Unit) : paths.Takes env' instr target := by
  cases h with
  | jmp hopcode htargets => exact .jmp hopcode htargets
  | cond hcond hoperands hcmp htargets _ => exact .cond hcond hoperands hcmp htargets trivial

end Machine

/-! ### Runs follow paths -/

def Config.erase (c : Config V W) : Config Unit Unit := ⟨c.block, c.rest, c.env.erase, ()⟩

variable {env : Env V} {instr : Instruction}

theorem Env.Defines.erase (h : env.Defines instr) : env.erase.Defines instr :=
  fun reg hreg hnone ↦ h reg hreg (erase_eq_none.mp hnone)

variable {c c' : Config V W}

theorem Step.erase (h : Step m func c c') : Step paths func c.erase c'.erase := by
  cases h with
  | op hdef hexec =>
    simp only [Config.erase, Env.erase_bindDest]
    exact .op hdef.erase (hexec.erase _)
  | @branch _ instr rest env w target block hdef htakes hfind =>
    have hbind : (env.bindParams block.paramRegs (target.args.map (m.eval env))).erase
        = env.erase.bindParams block.paramRegs (target.args.map (paths.eval env.erase)) :=
      Env.erase_bindParams env _ _ (by rw [length_map, length_map])
    simp only [Config.erase, hbind]
    exact .branch hdef.erase (htakes.erase _) hfind

variable {b : BlockId} {rest : List Instruction} {w : W}

variable {target : BranchTarget}

/-- What a jump does. -/
theorem Step.jmp_inv (h : Step m func ⟨b, instr :: rest, env, w⟩ c') (hopcode : instr.opcode = .JMP)
    (htargets : instr.targets = [target]) : ∃ block, func.find target.block = some block ∧
      c' = ⟨target.block, block.instrs,
        env.bindParams block.paramRegs (target.args.map (m.eval env)), w⟩ := by
  cases h with
  | op _ hexec =>
    have hterm := hexec.not_terminator
    simp [Instruction.isTerminator, Instruction.isBranching, hopcode] at hterm
  | @branch _ _ _ _ _ target' block _ htakes hfind =>
    have hmem := htakes.mem_targets
    rw [htargets, mem_singleton] at hmem
    subst hmem
    exact ⟨block, hfind, rfl⟩

theorem Reaches.erase (h : Reaches m func w c) : Reaches paths func () c.erase := by
  obtain ⟨start, ⟨b, block, hentry, hfind, rfl⟩, hrun⟩ := h
  refine ⟨_, ⟨b, block, hentry, hfind, rfl⟩, ?_⟩
  exact hrun.lift Config.erase fun _ _ h ↦ h.erase

theorem Reaches.step (h : Reaches m func w c) (hstep : Step m func c c') : Reaches m func w c' := by
  obtain ⟨start, hstart, hrun⟩ := h
  exact ⟨start, hstart, hrun.tail hstep⟩

theorem Reaches.run (h : Reaches m func w c)
    (hrun : ReflTransGen (Step m func) c c') : Reaches m func w c' := by
  obtain ⟨start, hstart, hrun'⟩ := h
  exact ⟨start, hstart, hrun'.trans hrun⟩

theorem Starts.unique (h : Starts func w c) (h' : Starts func w c') : c = c' := by
  obtain ⟨b, block, hentry, hfind, rfl⟩ := h
  obtain ⟨b', block', hentry', hfind', rfl⟩ := h'
  obtain rfl : b = b' := some.inj (hentry.symm.trans hentry')
  rw [some.inj (hfind.symm.trans hfind')]

variable {e : Event V W}

theorem behaves_iff {start : Config V W} (hstart : Starts func w start) :
    Behaves m func w e ↔ Transition.Emits (Step m func) (Shows m) start e := by
  constructor
  · rintro ⟨c, ⟨start', hstart', hrun⟩, hshow⟩
    exact ⟨c, hstart.unique hstart' ▸ hrun, hshow⟩
  · rintro ⟨c, hrun, hshow⟩
    exact ⟨c, ⟨start, hstart, hrun⟩, hshow⟩

/-- A property that holds at the start and is kept by the steps holds of all that is reached. -/
theorem Reaches.induction {P : Config V W → Prop}
    (hstart : ∀ b block, func.entry = some b → func.find b = some block →
      P ⟨b, block.instrs, fun _ ↦ none, w⟩)
    (hstep : ∀ c c', Reaches m func w c → P c → Step m func c c' → P c')
    (h : Reaches m func w c) : P c := by
  obtain ⟨start, hinit, hrun⟩ := h
  induction hrun with
  | refl =>
    obtain ⟨b, block, hentry, hfind, rfl⟩ := hinit
    exact hstart b block hentry hfind
  | tail hbefore hlast ih => exact hstep _ _ ⟨start, hinit, hbefore⟩ ih hlast

theorem Reaches.reachesPoint (h : Reaches m func w c) : ReachesPoint func c.block c.rest :=
  ⟨c.erase, h.erase, rfl, rfl⟩

variable {reg : VirtualRegister}

/-- What is defined on every path has a value in every run. -/
theorem Reaches.defined (h : Reaches m func w c)
    (hreg : DefinedAt func c.block c.rest reg) : c.env reg ≠ none :=
  fun hnone ↦ hreg c.erase h.erase rfl rfl (Env.erase_eq_none.mpr hnone)

variable {w' : W}

/-- Where every path defines what it reads, every run does. -/
theorem AllDefined.defines (hdef : AllDefined func)
    (h : Reaches m func w ⟨b, instr :: rest, env, w'⟩) : env.Defines instr := by
  by_contra hnot
  refine hdef ⟨_, h.erase, .undefined fun hall ↦ hnot fun reg hreg hnone ↦ ?_⟩
  exact hall reg hreg (Env.erase_eq_none.mpr hnone)

theorem AllDefined.definedAt (hdef : AllDefined func) (hreg : reg ∈ instr.uses) :
    DefinedAt func b (instr :: rest) reg := by
  rintro ⟨b', rest', env, w⟩ hreach rfl rfl hnone
  exact hdef ⟨_, hreach, .undefined fun hall ↦ hall reg hreg hnone⟩

/-- What is defined after an instruction was defined before it or is its destination. -/
theorem DefinedAt.of_op (hdef : AllDefined func) {v : V} (hexec : m.Executes env instr w v w')
    (h : DefinedAt func b rest reg) :
    instr.dest = some reg ∨ DefinedAt func b (instr :: rest) reg := by
  by_cases hdest : instr.dest = some reg
  · exact Or.inl hdest
  · refine Or.inr ?_
    rintro ⟨b', rest', env', w'⟩ hreach rfl rfl
    have hdefines : env'.Defines instr := hdef.defines hreach
    have hnext := h _ (hreach.step (.op hdefines (hexec.erase env'))) rfl rfl
    dsimp only at hnext
    rwa [Env.bindDest_of_ne hdest] at hnext

/-- What is defined where a branch leads was defined before it or is a parameter. -/
theorem DefinedAt.of_branch (hdef : AllDefined func) {block : BasicBlock}
    (htakes : m.Takes env instr target) (hfind : func.find target.block = some block)
    (h : DefinedAt func target.block block.instrs reg) :
    reg ∈ block.paramRegs ∨ DefinedAt func b (instr :: rest) reg := by
  by_cases hparam : reg ∈ block.paramRegs
  · exact Or.inl hparam
  · refine Or.inr ?_
    rintro ⟨b', rest', env', w'⟩ hreach rfl rfl
    have hdefines : env'.Defines instr := hdef.defines hreach
    have hnext := h _ (hreach.step (.branch hdefines (htakes.erase env') hfind)) rfl rfl
    dsimp only at hnext
    rwa [Env.bindParams_of_not_mem hparam] at hnext

/-! ### What does not show -/

theorem Shows.of_nil (h : Shows m ⟨b, [], env, w⟩ e) : e = .world w := by
  cases h
  rfl

theorem Shows.of_branching (h : Shows m ⟨b, instr :: rest, env, w⟩ e)
    (hdef : env.Defines instr) (hbranch : instr.isBranching = true) : e = .world w := by
  cases h with
  | world => rfl
  | ret _ hret => simp [Instruction.isBranching, hret] at hbranch
  | trap _ hterm _ _ => simp [Instruction.isTerminator, hbranch] at hterm
  | undefined hundef => exact absurd hdef hundef

theorem Shows.of_select (h : Shows m ⟨b, instr :: rest, env, w⟩ e)
    (hdef : env.Defines instr) (hselect : instr.opcode = .SELECT) : e = .world w := by
  cases h with
  | world => rfl
  | ret _ hret => exact absurd (hselect.symm.trans hret) (by decide)
  | trap _ _ hnot _ => exact absurd hselect hnot
  | undefined hundef => exact absurd hdef hundef

/-! ### Agreement -/

/-- Some reachable instruction reads the register. -/
def Used (func : Function) (reg : VirtualRegister) : Prop :=
  ∃ b instr rest, ReachesPoint func b (instr :: rest) ∧ reg ∈ instr.uses

/-- The register files give the same values to the used registers defined at the point. -/
def Agree (func : Function) (b : BlockId) (rest : List Instruction) (env env' : Env V) : Prop :=
  ∀ reg, Used func reg → DefinedAt func b rest reg → env reg = env' reg

theorem Agree.refl (b : BlockId) (rest : List Instruction) (env : Env V) :
    Agree func b rest env env := fun _ _ _ ↦ rfl

section Agree

variable {b : BlockId} {instr : Instruction} {rest : List Instruction} {env env' : Env V}
  (h : Agree func b (instr :: rest) env env') (hdef : AllDefined func)

include h hdef

theorem Agree.uses (hpoint : ReachesPoint func b (instr :: rest)) :
    ∀ reg ∈ instr.uses, env reg = env' reg :=
  fun reg hreg ↦ h reg ⟨b, instr, rest, hpoint, hreg⟩ (hdef.definedAt hreg)

theorem Agree.defines (hpoint : ReachesPoint func b (instr :: rest))
    (hdefines : env.Defines instr) : env'.Defines instr := by
  intro reg hreg
  rw [← h.uses hdef hpoint reg hreg]
  exact hdefines reg hreg

/-- Agreement is kept by an instruction both sides execute. -/
theorem Agree.op {w' : W} {v : V} (hexec : m.Executes env instr w v w') :
    Agree func b rest (env.bindDest instr.dest v) (env'.bindDest instr.dest v) := by
  intro reg hused hreg
  by_cases hdest : instr.dest = some reg
  · rw [hdest, Env.bindDest_self, Env.bindDest_self]
  · rw [Env.bindDest_of_ne hdest, Env.bindDest_of_ne hdest]
    exact h reg hused ((hreg.of_op hdef hexec).resolve_left hdest)

/-- Agreement is kept by a branch both sides take with the same arguments. -/
theorem Agree.branch {target : BranchTarget} {block : BasicBlock}
    (htakes : m.Takes env instr target) (hfind : func.find target.block = some block)
    {args : List V} (hargs : args.length = block.paramRegs.length) :
    Agree func target.block block.instrs (env.bindParams block.paramRegs args)
      (env'.bindParams block.paramRegs args) := by
  intro reg hused hreg
  refine Env.bindParams_congr fun hmem ↦ ?_
  have hparam : reg ∉ block.paramRegs := hmem.resolve_right (by omega)
  exact h reg hused ((hreg.of_branch hdef htakes hfind).resolve_left hparam)

/-- At the same instruction the same events show. -/
theorem Agree.shows_iff {w₀ : W} (hreach : Reaches m func w₀ ⟨b, instr :: rest, env, w⟩)
    {d : BlockId} {rest' : List Instruction} :
    Shows m ⟨b, instr :: rest, env, w⟩ e ↔ Shows m ⟨d, instr :: rest', env', w⟩ e := by
  have huses := h.uses hdef hreach.reachesPoint
  have henv := hdef.defines hreach
  have henv' := h.defines hdef hreach.reachesPoint henv
  have hoperand : ∀ operand ∈ instr.operands, ∀ reg, operand.value = .register reg →
      env reg = env' reg :=
    fun operand hmem reg hreg ↦ huses reg (Instruction.mem_uses_of_operand hmem hreg)
  have heval : instr.operands.map (m.eval env) = instr.operands.map (m.eval env') :=
    map_congr_left fun operand hmem ↦ Machine.eval_congr (hoperand operand hmem)
  have htyped : instr.operands.map (m.evalTyped env) = instr.operands.map (m.evalTyped env') :=
    map_congr_left fun operand hmem ↦ Machine.evalTyped_congr (hoperand operand hmem)
  constructor
  · intro hshow
    cases hshow with
    | world => exact .world
    | ret _ hret => exact heval ▸ .ret henv' hret
    | trap _ hterm hselect htrap => exact .trap henv' hterm hselect (htyped ▸ htrap)
    | undefined hundef => exact absurd henv hundef
  · intro hshow
    cases hshow with
    | world => exact .world
    | ret _ hret => exact heval ▸ .ret henv hret
    | trap _ hterm hselect htrap => exact .trap henv hterm hselect (htyped ▸ htrap)
    | undefined hundef => exact absurd henv' hundef

end Agree

end Banjo.SSA
