import Banjo.Passes.LICMPass

/-!
# Moving an invariant instruction preserves behaviour

A run of the function and one of the moved function stay together in the values of the registers
that are defined on every path. From when the moved function leaves the block the instruction was
moved to, it holds the value the instruction has, until something the instruction uses is defined
again, which only happens in blocks that come before.
-/

open List Option

namespace Banjo.SSA

/-- The instruction has one outcome, whatever the world, and leaves the world as it is. -/
def Machine.Steady {V W : Type} (m : Machine V W) (instr : Instruction) : Prop :=
  ∀ env : Env V, env.Defines instr → ∃ v, ∀ w v' w', m.Executes env instr w v' w' ↔ v' = v ∧ w' = w

end Banjo.SSA

namespace Banjo.Passes.LICMPass

open SSA Relation Transition

variable {V W : Type} {m : Machine V W} {func : Function} {b e x : BlockId}
  {front back rest rest' : List Instruction} {instr other : Instruction}
  {dest reg : VirtualRegister} {body : List BlockId} {block : BasicBlock} {env env' : Env V}
  {w w₁ w₂ : W} {v : V} {c c' d d' : Config V W}

/-- The instructions that are left on both sides. -/
inductive At (e : BlockId) (instr : Instruction) :
    BlockId → List Instruction → List Instruction → Prop
  | other {x : BlockId} {rest : List Instruction} : x ≠ e →
    At e instr x rest (rest.filter (· ≠ instr))
  | ahead {init : List Instruction} {last : Instruction} :
    At e instr e (init ++ [last]) (init ++ [instr, last])
  | last {last : Instruction} : At e instr e [last] [last]

theorem At.tail (h : At e instr x (other :: rest) (other :: rest')) (hne : other ≠ instr)
    (hrest : rest ≠ []) : At e instr x rest rest' ∧ (x = e → rest ≠ rest') := by
  generalize hl : other :: rest = l at h
  generalize hl' : other :: rest' = l' at h
  cases h with
  | other hx =>
    rw [← hl, filter_cons_of_pos (by simpa using hne)] at hl'
    rw [(cons.inj hl').2]
    exact ⟨.other hx, fun heq ↦ absurd heq hx⟩
  | @ahead init last =>
    cases init with
    | nil => exact absurd (cons.inj hl).2 hrest
    | cons first init =>
      obtain rfl := (cons.inj hl).2
      obtain rfl := (cons.inj hl').2
      exact ⟨.ahead, fun _ heq ↦ by simpa using congrArg length heq⟩
  | last => exact absurd (cons.inj hl).2 hrest

/-- The register holds what the instruction computes. -/
def Holds (m : Machine V W) (instr : Instruction) (dest : VirtualRegister) (env : Env V) : Prop :=
  env.Defines instr ∧ ∃ v, env dest = some v ∧ ∀ w, m.Executes env instr w v w

theorem Holds.congr (h : Holds m instr dest env) (huses : ∀ reg ∈ instr.uses, env reg = env' reg)
    (hdest : env dest = env' dest) : Holds m instr dest env' := by
  obtain ⟨hdefines, v, hv, hexec⟩ := h
  exact ⟨fun reg hreg ↦ huses reg hreg ▸ hdefines reg hreg, v, hdest ▸ hv,
    fun w ↦ (hexec w).congr huses⟩

/-- A point of the function and of the moved function. -/
structure Moved (m : Machine V W) (func : Function) (e : BlockId) (instr : Instruction)
    (dest : VirtualRegister) (w : W) (c c' : Config V W) : Prop where
  reaches : Reaches m func w c
  block : c'.block = c.block
  world : c'.world = c.world
  rest : At e instr c.block c.rest c'.rest
  agree : Agree func c.block c.rest c.env c'.env
  holds : (Before func e c.block ∧ (c.block = e → c.rest ≠ c'.rest)) ∨ Holds m instr dest c'.env

namespace Moved

theorem exists_eq (h : Moved m func e instr dest w ⟨x, rest, env, w₁⟩ c') :
    ∃ rest' env', c' = ⟨x, rest', env', w₁⟩ := by
  obtain ⟨x', rest', env', w'⟩ := c'
  obtain rfl := h.block
  obtain rfl := h.world
  exact ⟨rest', env', rfl⟩

end Moved

section Steps

variable (h : Invariant func body b e front back instr dest)
include h

/-- The register still holds the value, unless the blocks come before. -/
theorem Holds.or_before (hholds : Holds m instr dest env) (hblock : func.HasBlock x block)
    (hdefs : ∀ reg, env reg ≠ env' reg → reg ∈ block.defs) (hdest : env dest = env' dest) :
    Before func e x ∨ Holds m instr dest env' := by
  by_cases huses : ∀ reg ∈ instr.uses, env reg = env' reg
  · exact Or.inr (hholds.congr huses hdest)
  · push Not at huses
    obtain ⟨reg, hreg, hne⟩ := huses
    exact Or.inl (h.before_of_mem_defs hreg hblock (hdefs reg hne))

/-- An instruction both sides execute. -/
theorem Moved.op
    (hM : Moved m func e instr dest w ⟨x, other :: rest, env, w₁⟩ ⟨x, other :: rest', env', w₁⟩)
    (hne : other ≠ instr) (hexec : m.Executes env other w₁ v w₂) :
    Moved m func e instr dest w ⟨x, rest, env.bindDest other.dest v, w₂⟩
      ⟨x, rest', env'.bindDest other.dest v, w₂⟩ := by
  have hall := h.wf.allDefined
  obtain ⟨block, hblock, hsuffix⟩ := h.wf.position hM.reaches
  have hmem : other ∈ block.instrs := hsuffix.subset mem_cons_self
  have hrest : rest ≠ [] := by
    intro hnil
    have hterm := ((h.wf.shaped hblock).suffix hsuffix).mpr hnil
    rw [hexec.not_terminator] at hterm
    cases hterm
  obtain ⟨hat, hphase⟩ := hM.rest.tail hne hrest
  refine ⟨hM.reaches.step (.op (hall.defines hM.reaches) hexec), rfl, rfl, hat,
    hM.agree.op hall hexec, ?_⟩
  rcases hM.holds with hbefore | hholds
  · exact Or.inl ⟨hbefore.1, hphase⟩
  · have hdest : other.dest ≠ some dest := fun hdest ↦ hne (h.eq_of_dest hblock hmem hdest)
    refine (hholds.or_before h hblock (fun reg hreg ↦ ?_)
      (Env.bindDest_of_ne hdest).symm).imp_left fun hbefore ↦ ⟨hbefore, hphase⟩
    by_contra hdef
    refine hreg (Env.bindDest_of_ne fun hother ↦ hdef ?_).symm
    exact mem_append_right _ (mem_filterMap.mpr ⟨other, hmem, hother⟩)

/-- Where both sides are at the start of a block. -/
theorem exists_find_move (hblock : func.HasBlock x block) :
    ∃ instrs, (move func b e instr (front ++ back)).find x = some { block with instrs := instrs } ∧
      At e instr x block.instrs instrs ∧ (x = e → block.instrs ≠ instrs) := by
  by_cases hx : x = e
  · subst hx
    obtain ⟨init, last, hinstrs, -, -⟩ := (h.wf.shaped hblock).split
    refine ⟨_, h.find_move_to hblock hinstrs, hinstrs ▸ .ahead, fun _ heq ↦ ?_⟩
    rw [hinstrs] at heq
    simpa using congrArg length heq
  · exact ⟨_, h.find_move_other hblock hx, .other hx, fun heq ↦ absurd heq hx⟩

/-- A branch both sides take. -/
theorem Moved.branch (hM : Moved m func e instr dest w ⟨x, other :: rest, env, w₁⟩
      ⟨x, other :: rest', env', w₁⟩) {target : BranchTarget} (htakes : m.Takes env other target)
    {next : BasicBlock} (hnext : func.HasBlock target.block next) :
    ∃ instrs, (move func b e instr (front ++ back)).find target.block
        = some { next with instrs := instrs } ∧
      Moved m func e instr dest w
        ⟨target.block, next.instrs, env.bindParams next.paramRegs (target.args.map (m.eval env)),
          w₁⟩
        ⟨target.block, instrs, env'.bindParams next.paramRegs (target.args.map (m.eval env')),
          w₁⟩ := by
  have hall := h.wf.allDefined
  obtain ⟨instrs, hfind, hat, hphase⟩ := exists_find_move h hnext
  have huses := hM.agree.uses hall hM.reaches.reachesPoint
  have hargs : target.args.map (m.eval env) = target.args.map (m.eval env') :=
    map_congr_left fun arg harg ↦ Machine.eval_congr fun reg hreg ↦
      huses reg (Instruction.mem_uses_of_arg htakes.mem_targets harg hreg)
  obtain ⟨hterm, hsucc, next', hnext', hlength⟩ := h.wf.takes_succ hM.reaches htakes
  obtain rfl := hnext.unique hnext'
  refine ⟨instrs, hfind, hM.reaches.step (.branch (hall.defines hM.reaches) htakes hnext.2), rfl,
    rfl, hat, ?_, ?_⟩
  · rw [← hargs]
    exact hM.agree.branch hall htakes hnext.2 (by rw [length_map, hlength])
  · rcases hM.holds with ⟨hbefore, hne⟩ | hholds
    · refine Or.inl ⟨hbefore.step (fun hx ↦ ?_) hsucc, hphase⟩
      -- the block is only left when the instruction has been executed
      have hat' := hM.rest
      generalize hl : other :: rest = l at hat'
      generalize hl' : other :: rest' = l' at hat'
      have hsame := hne hx
      dsimp only at hsame hat' hx
      rw [hl, hl'] at hsame
      cases hat' with
      | other hx' => exact hx' hx
      | @ahead init last =>
        cases init with
        | nil =>
          obtain rfl := (cons.inj hl').1
          rw [h.not_terminator] at hterm
          cases hterm
        | cons first init =>
          obtain ⟨block, hblock, hsuffix⟩ := h.wf.position hM.reaches
          have hnil := ((h.wf.shaped hblock).suffix hsuffix).mp hterm
          obtain ⟨-, hrest⟩ := cons.inj hl
          rw [hnil] at hrest
          exact absurd hrest.symm (by simp)
      | last => exact hsame rfl
    · refine (hholds.or_before h hnext (fun reg hreg ↦ ?_) ?_).imp_left fun hbefore ↦
        ⟨hbefore, hphase⟩
      · by_contra hdef
        refine hreg (Env.bindParams_of_not_mem fun hparam ↦ hdef ?_).symm
        exact mem_append_left _ hparam
      · exact (Env.bindParams_of_not_mem (h.dest_not_mem_params hnext)).symm

/-- The function executes the instruction where it was. -/
theorem Moved.skip (hm : m.Steady instr)
    (hM : Moved m func e instr dest w ⟨x, instr :: rest, env, w₁⟩ ⟨x, rest', env', w₁⟩)
    (hx : x ≠ e) : ∃ v, (∀ v' w', m.Executes env instr w₁ v' w' ↔ v' = v ∧ w' = w₁) ∧
      Moved m func e instr dest w ⟨x, rest, env.bindDest instr.dest v, w₁⟩
        ⟨x, rest', env', w₁⟩ := by
  have hall := h.wf.allDefined
  obtain ⟨block, hblock, hsuffix⟩ := h.wf.position hM.reaches
  obtain rfl : x = b := h.eq_of_mem hblock (hsuffix.subset mem_cons_self)
  obtain ⟨hdefines, v, hv, hexec⟩ :=
    hM.holds.resolve_left fun hbefore ↦ h.after hbefore.1
  have hexec' : m.Executes env instr w₁ v w₁ :=
    (hexec w₁).congr fun reg hreg ↦ (hM.agree.uses hall hM.reaches.reachesPoint reg hreg).symm
  obtain ⟨v', hiff⟩ := hm env (hall.defines hM.reaches)
  obtain rfl := ((hiff w₁ v w₁).mp hexec').1
  refine ⟨v, hiff w₁, hM.reaches.step (.op (hall.defines hM.reaches) hexec'), rfl, rfl, ?_, ?_,
    Or.inr ⟨hdefines, v, hv, hexec⟩⟩
  · have hat := hM.rest
    generalize hl : instr :: rest = l at hat
    generalize hl' : rest' = l' at hat
    cases hat with
    | other _ =>
      rw [← hl, filter_cons_of_neg (by simp)]
      exact .other hx
    | ahead => exact absurd rfl hx
    | last => exact absurd rfl hx
  · intro reg hused hreg
    dsimp only
    by_cases hdest : reg = dest
    · rw [h.dest, hdest, Env.bindDest_self]
      exact hv.symm
    · have hne : instr.dest ≠ some reg := by
        rw [h.dest]
        exact fun heq ↦ hdest (some.inj heq).symm
      rw [Env.bindDest_of_ne hne]
      exact hM.agree reg hused ((hreg.of_op hall hexec').resolve_left hne)

/-- The moved function executes the instruction where it is now. -/
theorem Moved.arrive (hm : m.Steady instr) {last : Instruction}
    (hM : Moved m func e instr dest w ⟨e, [last], env, w₁⟩ ⟨e, [instr, last], env', w₁⟩) :
    env'.Defines instr ∧ ∃ v, (∀ v' w', m.Executes env' instr w₁ v' w' ↔ v' = v ∧ w' = w₁) ∧
      Moved m func e instr dest w ⟨e, [last], env, w₁⟩
        ⟨e, [last], env'.bindDest instr.dest v, w₁⟩ := by
  obtain ⟨block, hblock, hsuffix⟩ := h.wf.position hM.reaches
  have hlast : block.instrs.getLast? = some last := by
    obtain ⟨init, hinit⟩ := hsuffix
    rw [← hinit, getLast?_concat]
  have hdefined : ∀ {reg}, reg ∈ instr.uses → DefinedAt func e [last] reg :=
    h.definedAt_uses hblock hlast
  have hdefines : env'.Defines instr := by
    intro reg hreg
    have hsame : env reg = env' reg := hM.agree reg (h.used hreg) (hdefined hreg)
    exact hsame ▸ hM.reaches.defined (hdefined hreg)
  obtain ⟨v, hiff⟩ := hm env' hdefines
  have huses : ∀ reg ∈ instr.uses, env' reg = env'.bindDest instr.dest v reg := by
    intro reg hreg
    refine (Env.bindDest_of_ne fun heq ↦ ?_).symm
    rw [h.dest, some_inj] at heq
    exact h.dest_not_mem_uses (heq ▸ hreg)
  refine ⟨hdefines, v, hiff w₁, hM.reaches, rfl, rfl, .last, ?_, Or.inr ⟨?_, v, ?_, ?_⟩⟩
  · intro reg hused hreg
    have hne : instr.dest ≠ some reg := by
      rw [h.dest]
      exact fun heq ↦ h.not_definedAt_dest hblock hlast (some.inj heq ▸ hreg)
    dsimp only
    rw [Env.bindDest_of_ne hne]
    exact hM.agree reg hused hreg
  · exact fun reg hreg ↦ (huses reg hreg).symm.trans_ne (hdefines reg hreg)
  · rw [h.dest]
    exact Env.bindDest_self
  · exact fun w ↦ ((hiff w v w).mpr ⟨rfl, rfl⟩).congr huses

/-! ## Keeping up -/

variable {event : Event V W}

/-- An instruction with one outcome shows nothing but the world. -/
theorem shows_world (hm : m.Steady instr) (hdefines : env.Defines instr)
    (hshow : Shows m ⟨x, instr :: rest, env, w₁⟩ event) : event = .world w₁ := by
  obtain ⟨v, hiff⟩ := hm env hdefines
  cases hshow with
  | world => rfl
  | ret _ hret =>
    have hterm : instr.isTerminator = true := by simp [Instruction.isTerminator, hret]
    rw [h.not_terminator] at hterm
    cases hterm
  | trap _ _ hselect htrap =>
    cases (hiff w₁ v w₁).mpr ⟨rfl, rfl⟩ with
    | exec _ _ hresult =>
      rw [htrap] at hresult
      cases hresult
    | select hopcode _ _ _ => exact absurd hopcode hselect
  | undefined hundef => exact absurd hdefines hundef

theorem Moved.ne_of_head (hM : Moved m func e instr dest w ⟨x, instr :: rest, env, w₁⟩ c') :
    x ≠ e := by
  obtain ⟨block, hblock, hsuffix⟩ := h.wf.position hM.reaches
  obtain rfl : x = b := h.eq_of_mem hblock (hsuffix.subset mem_cons_self)
  exact h.ne

/-- The function gets over the instruction where it was. -/
theorem Moved.exists_skip (hm : m.Steady instr) : ∀ {rest : List Instruction} {env : Env V},
    Moved m func e instr dest w ⟨x, rest, env, w₁⟩ c' →
    ∃ d, ReflTransGen (Step m func) ⟨x, rest, env, w₁⟩ d ∧ Moved m func e instr dest w d c' ∧
      d.rest.head? ≠ some instr := by
  intro rest
  induction rest with
  | nil => exact fun hM ↦ ⟨_, .refl, hM, nofun⟩
  | cons first rest ih =>
    intro env hM
    by_cases hfirst : first = instr
    · subst hfirst
      obtain ⟨rest', env', rfl⟩ := hM.exists_eq
      obtain ⟨v, hiff, hM'⟩ := hM.skip h hm (hM.ne_of_head h)
      obtain ⟨d, hrun, hd⟩ := ih hM'
      refine ⟨d, .head (.op (h.wf.allDefined.defines hM.reaches) ?_) hrun, hd⟩
      exact (hiff v w₁).mpr ⟨rfl, rfl⟩
    · exact ⟨_, .refl, hM, fun heq ↦ hfirst (some.inj heq)⟩

/-- The moved function gets over the instruction where it is now. -/
theorem Moved.exists_arrive (hm : m.Steady instr) (hM : Moved m func e instr dest w c c') :
    ∃ d', ReflTransGen (Step m (move func b e instr (front ++ back))) c' d' ∧
      Moved m func e instr dest w c d' ∧ d'.rest.head? ≠ some instr := by
  obtain ⟨x, rest, env, w₁⟩ := c
  obtain ⟨rest', env', rfl⟩ := hM.exists_eq
  obtain ⟨block, hblock, hsuffix⟩ := h.wf.position hM.reaches
  have hat := hM.rest
  dsimp only at hat hblock hsuffix
  cases hat with
  | other hx =>
    refine ⟨_, .refl, hM, fun hhead ↦ ?_⟩
    have hmem := mem_of_mem_head? hhead
    exact of_decide_eq_true (mem_filter.mp hmem).2 rfl
  | @ahead init last =>
    have hnot : instr ∉ init ++ [last] := fun hmem ↦
      h.ne (h.eq_of_mem hblock (hsuffix.subset hmem)).symm
    cases init with
    | nil =>
      obtain ⟨hdefines, v, hiff, hM'⟩ := hM.arrive h hm
      refine ⟨_, .single (.op hdefines ((hiff v w₁).mpr ⟨rfl, rfl⟩)), hM', fun hhead ↦ hnot ?_⟩
      exact mem_of_mem_head? hhead
    | cons first init =>
      refine ⟨_, .refl, hM, fun hhead ↦ hnot ?_⟩
      exact some.inj hhead ▸ mem_cons_self
  | last =>
    refine ⟨_, .refl, hM, fun hhead ↦ h.ne (h.eq_of_mem hblock ?_).symm⟩
    exact hsuffix.subset (mem_of_mem_head? hhead)

/-- The moved function is about to execute the instruction. -/
theorem Moved.exists_ahead
    (hM : Moved m func e instr dest w ⟨x, rest, env, w₁⟩ ⟨x, rest', env', w₁⟩)
    (hhead : rest'.head? = some instr) : ∃ last, x = e ∧ rest = [last] ∧ rest' = [instr, last] := by
  obtain ⟨block, hblock, hsuffix⟩ := h.wf.position hM.reaches
  have hat := hM.rest
  dsimp only at hat hblock hsuffix
  cases hat with
  | other hx =>
    have hmem := mem_of_mem_head? hhead
    exact absurd rfl (of_decide_eq_true (mem_filter.mp hmem).2)
  | @ahead init last =>
    cases init with
    | nil => exact ⟨last, rfl, rfl, rfl⟩
    | cons first init =>
      refine absurd (h.eq_of_mem hblock (hsuffix.subset ?_)).symm h.ne
      exact some.inj hhead ▸ mem_cons_self
  | last =>
    refine absurd (h.eq_of_mem hblock ?_).symm h.ne
    exact hsuffix.subset (mem_of_mem_head? hhead)

omit h in
/-- Both sides are at the same instruction. -/
theorem At.cases_head (hat : At e instr x rest rest') (hrest : rest.head? ≠ some instr)
    (hrest' : rest'.head? ≠ some instr) : (rest = [] ∧ rest' = []) ∨
      ∃ other tail tail', rest = other :: tail ∧ rest' = other :: tail' ∧ other ≠ instr := by
  cases hat with
  | other hx =>
    cases rest with
    | nil => exact Or.inl ⟨rfl, rfl⟩
    | cons first tail =>
      have hne : first ≠ instr := fun heq ↦ hrest (congrArg some heq)
      exact Or.inr ⟨first, tail, _, rfl, filter_cons_of_pos (by simpa using hne), hne⟩
  | @ahead init last =>
    cases init with
    | nil => exact absurd rfl hrest'
    | cons first init =>
      exact Or.inr ⟨first, _, _, rfl, rfl, fun heq ↦ hrest (congrArg some heq)⟩
  | @last last => exact Or.inr ⟨last, _, _, rfl, rfl, fun heq ↦ hrest (congrArg some heq)⟩

/-- At the same instruction both sides make the same steps. -/
theorem Moved.step_iff (hM : Moved m func e instr dest w ⟨x, other :: rest, env, w₁⟩
      ⟨x, other :: rest', env', w₁⟩) (hne : other ≠ instr) :
    (∀ d, Step m func ⟨x, other :: rest, env, w₁⟩ d → ∃ d',
      Step m (move func b e instr (front ++ back)) ⟨x, other :: rest', env', w₁⟩ d' ∧
        Moved m func e instr dest w d d') ∧
    ∀ d', Step m (move func b e instr (front ++ back)) ⟨x, other :: rest', env', w₁⟩ d' → ∃ d,
      Step m func ⟨x, other :: rest, env, w₁⟩ d ∧ Moved m func e instr dest w d d' := by
  have hall := h.wf.allDefined
  have hpoint := hM.reaches.reachesPoint
  have huses : ∀ reg ∈ other.uses, env reg = env' reg := hM.agree.uses hall hpoint
  have hdefines : env.Defines other := hall.defines hM.reaches
  have hdefines' : env'.Defines other := hM.agree.defines hall hpoint hdefines
  constructor
  · intro d hstep
    cases hstep with
    | op _ hexec => exact ⟨_, .op hdefines' (hexec.congr huses), hM.op h hne hexec⟩
    | @branch _ _ _ _ _ target next _ htakes hfind =>
      obtain ⟨-, hsucc, next', hnext, -⟩ := h.wf.takes_succ hM.reaches htakes
      obtain rfl := some.inj (hfind.symm.trans hnext.2)
      obtain ⟨instrs, hfind', hM'⟩ := hM.branch h htakes hnext
      exact ⟨_, .branch hdefines' (htakes.congr huses) hfind', hM'⟩
  · intro d' hstep
    cases hstep with
    | op _ hexec =>
      have hexec' := hexec.congr fun reg hreg ↦ (huses reg hreg).symm
      exact ⟨_, .op hdefines hexec', hM.op h hne hexec'⟩
    | @branch _ _ _ _ _ target next' _ htakes hfind' =>
      have htakes' := htakes.congr fun reg hreg ↦ (huses reg hreg).symm
      obtain ⟨-, hsucc, next, hnext, -⟩ := h.wf.takes_succ hM.reaches htakes'
      obtain ⟨instrs, hfind, hM'⟩ := hM.branch h htakes' hnext
      obtain rfl := some.inj (hfind.symm.trans hfind')
      exact ⟨_, .branch hdefines htakes' hnext.2, hM'⟩

section

variable (hm : m.Steady instr) (hM : Moved m func e instr dest w c c')

include hm hM

theorem Moved.forward (hstep : Step m func c d) : ∃ d',
    ReflTransGen (Step m (move func b e instr (front ++ back))) c' d' ∧
      Moved m func e instr dest w d d' := by
  obtain ⟨x, rest, env, w₁⟩ := c
  by_cases hhead : rest.head? = some instr
  · obtain ⟨first, rfl⟩ := head?_eq_some_iff.mp hhead
    obtain ⟨rest', env', rfl⟩ := hM.exists_eq
    obtain ⟨v, hiff, hM'⟩ := hM.skip h hm (hM.ne_of_head h)
    cases hstep with
    | op _ hexec =>
      obtain ⟨rfl, rfl⟩ := (hiff _ _).mp hexec
      exact ⟨_, .refl, hM'⟩
    | branch _ htakes _ =>
      have hterm := (h.wf.takes_succ hM.reaches htakes).1
      rw [h.not_terminator] at hterm
      cases hterm
  · obtain ⟨d', hrun, hM', hhead'⟩ := hM.exists_arrive h hm
    obtain ⟨rest', env', rfl⟩ := hM'.exists_eq
    rcases hM'.rest.cases_head hhead hhead' with ⟨hnil, -⟩ | ⟨other, tail, tail', hr, hr', hne⟩
    · dsimp only at hnil
      subst hnil
      cases hstep
    · dsimp only at hr hr'
      subst hr hr'
      obtain ⟨d'', hstep', hM''⟩ := (hM'.step_iff h hne).1 d hstep
      exact ⟨d'', hrun.tail hstep', hM''⟩

theorem Moved.backward (hstep : Step m (move func b e instr (front ++ back)) c' d') : ∃ d,
    ReflTransGen (Step m func) c d ∧ Moved m func e instr dest w d d' := by
  obtain ⟨x, rest, env, w₁⟩ := c
  obtain ⟨rest', env', rfl⟩ := hM.exists_eq
  by_cases hhead : rest'.head? = some instr
  · have harrive := hM.exists_ahead h hhead
    obtain ⟨last, rfl, rfl, rfl⟩ := harrive
    obtain ⟨-, v, hiff, hM'⟩ := hM.arrive h hm
    cases hstep with
    | op _ hexec =>
      obtain ⟨rfl, rfl⟩ := (hiff _ _).mp hexec
      exact ⟨_, .refl, hM'⟩
    | branch _ htakes _ =>
      have hterm := htakes.isBranching
      have hnot := h.not_terminator
      rw [Instruction.isTerminator, hterm, Bool.true_or] at hnot
      cases hnot
  · obtain ⟨c₁, hrun, hM', hhead'⟩ := hM.exists_skip h hm
    obtain ⟨x₁, rest₁, env₁, w₂⟩ := c₁
    obtain rfl := hM'.block
    obtain rfl := hM'.world
    rcases hM'.rest.cases_head hhead' hhead with ⟨-, hnil⟩ | ⟨other, tail, tail', hr, hr', hne⟩
    · dsimp only at hnil
      subst hnil
      cases hstep
    · dsimp only at hr hr'
      subst hr hr'
      obtain ⟨d, hstep', hM''⟩ := (hM'.step_iff h hne).2 d' hstep
      exact ⟨d, hrun.tail hstep', hM''⟩

theorem Moved.shows_forward (hshow : Shows m c event) :
    Emits (Step m (move func b e instr (front ++ back))) (Shows m) c' event := by
  obtain ⟨x, rest, env, w₁⟩ := c
  by_cases hhead : rest.head? = some instr
  · obtain ⟨first, rfl⟩ := head?_eq_some_iff.mp hhead
    obtain rfl := shows_world h hm (h.wf.allDefined.defines hM.reaches) hshow
    have hworld : c'.world = w₁ := hM.world
    exact ⟨c', .refl, hworld ▸ .world⟩
  · obtain ⟨d', hrun, hM', hhead'⟩ := hM.exists_arrive h hm
    obtain ⟨rest', env', rfl⟩ := hM'.exists_eq
    refine ⟨_, hrun, ?_⟩
    rcases hM'.rest.cases_head hhead hhead' with ⟨hnil, -⟩ | ⟨other, tail, tail', hr, hr', hne⟩
    · dsimp only at hnil
      subst hnil
      rw [hshow.of_nil]
      exact .world
    · dsimp only at hr hr'
      subst hr hr'
      exact (hM'.agree.shows_iff h.wf.allDefined hM'.reaches).mp hshow

theorem Moved.shows_backward (hshow : Shows m c' event) :
    Emits (Step m func) (Shows m) c event := by
  obtain ⟨x, rest, env, w₁⟩ := c
  obtain ⟨rest', env', rfl⟩ := hM.exists_eq
  by_cases hhead : rest'.head? = some instr
  · obtain ⟨last, rfl, rfl, rfl⟩ := hM.exists_ahead h hhead
    obtain rfl := shows_world h hm (hM.arrive h hm).1 hshow
    exact ⟨_, .refl, .world⟩
  · obtain ⟨c₁, hrun, hM', hhead'⟩ := hM.exists_skip h hm
    obtain ⟨x₁, rest₁, env₁, w₂⟩ := c₁
    obtain rfl := hM'.block
    obtain rfl := hM'.world
    refine ⟨_, hrun, ?_⟩
    rcases hM'.rest.cases_head hhead' hhead with ⟨hnil, hnil'⟩ | ⟨other, tail, tail', hr, hr', hne⟩
    · dsimp only at hnil'
      subst hnil'
      rw [hshow.of_nil]
      exact .world
    · dsimp only at hr hr'
      subst hr hr'
      exact (hM'.agree.shows_iff h.wf.allDefined hM'.reaches).mpr hshow

end

/-! ## Behaviour -/

theorem entry_move_of_wellFormed : ∃ c c', Starts func w c ∧
    Starts (move func b e instr (front ++ back)) w c' ∧ Moved m func e instr dest w c c' := by
  obtain ⟨start, block, hentry, hfind⟩ := Function.find_entry h.wf.nonempty
  obtain ⟨instrs, hfind', hat, hphase⟩ := exists_find_move h ⟨.entry hentry, hfind⟩
  refine ⟨_, _, ⟨start, block, hentry, hfind, rfl⟩,
    ⟨start, _, entry_move.trans hentry, hfind', rfl⟩,
    ⟨_, ⟨start, block, hentry, hfind, rfl⟩, .refl⟩, rfl, rfl, hat, .refl _ _ _,
    Or.inl ⟨.entry hentry, hphase⟩⟩

/-- Moving an instruction with one outcome preserves behaviour. -/
theorem behaves_move_iff (hm : m.Steady instr) (w : W) (event : Event V W) :
    Behaves m func w event ↔ Behaves m (move func b e instr (front ++ back)) w event := by
  obtain ⟨c, c', hc, hc', hM⟩ := entry_move_of_wellFormed (m := m) (w := w) h
  rw [behaves_iff hc, behaves_iff hc']
  constructor
  · exact emits_of_simulation (R := Moved m func e instr dest w)
      (fun _ _ _ hM hstep ↦ hM.forward h hm hstep)
      (fun _ _ _ hM hshow ↦ hM.shows_forward h hm hshow) hM
  · exact emits_of_simulation (R := fun c' c ↦ Moved m func e instr dest w c c')
      (fun _ _ _ hM hstep ↦ hM.backward h hm hstep)
      (fun _ _ _ hM hshow ↦ hM.shows_backward h hm hshow) hM

/-- Wherever the instruction was, its register holds what it would compute there. -/
theorem holds_of_reaches (hm : m.Steady instr)
    (hreach : Reaches m (move func b e instr (front ++ back)) w c') (hblock : c'.block = b) :
    Holds m instr dest c'.env := by
  obtain ⟨c, start', hc, hstart', hM⟩ := entry_move_of_wellFormed (m := m) (w := w) h
  obtain ⟨start, hstart, hrun⟩ := hreach
  obtain rfl := hstart.unique hstart'
  obtain ⟨d, -, hM'⟩ := run_of_simulation (R := fun c' c ↦ Moved m func e instr dest w c c')
    (fun _ _ _ hM hstep ↦ hM.backward h hm hstep) hM hrun
  refine hM'.holds.resolve_left fun hbefore ↦ h.after ?_
  rw [← hblock, hM'.block]
  exact hbefore.1

end Steps

end Banjo.Passes.LICMPass
