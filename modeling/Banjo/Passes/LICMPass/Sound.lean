import Banjo.Passes.LICMPass.Loops
import Banjo.SSA.IntSemantics
import Mathlib.Algebra.Order.BigOperators.Group.List

/-!
# Loop-invariant code motion is sound where nothing that may trap is moved

The pass ends, because a definition that leaves a loop does not come back. What it moves out of a
loop is invariant there. It is executed in front of the loop even if it was never executed in it,
which does no harm to what has one outcome whatever the world.
-/

open List Option

namespace Banjo.Passes.LICMPass

open SSA DominatorTree Relation LoopAnalyzer

variable {func func' : Function} {body : List BlockId} {b e : BlockId} {s s' : State}
  {instr : Instruction} {dest : VirtualRegister} {kept rest : List Instruction}
  {block : BasicBlock}

/-! ## The pass ends -/

/-- Definitions leave the loop, one at least if something has changed. -/
def Shrinks (body : List BlockId) (s s' : State) : Prop :=
  (inLoopDefs s'.func body).length ≤ (inLoopDefs s.func body).length ∧
    (s'.changed = true → s.changed = true ∨
      (inLoopDefs s'.func body).length < (inLoopDefs s.func body).length)

theorem Shrinks.refl (body : List BlockId) (s : State) : Shrinks body s s := ⟨le_rfl, Or.inl⟩

theorem Shrinks.trans {s'' : State} (h : Shrinks body s s') (h' : Shrinks body s' s'') :
    Shrinks body s s'' := by
  refine ⟨h'.1.trans h.1, fun hchanged ↦ ?_⟩
  rcases h'.2 hchanged with hmid | hlt
  · exact (h.2 hmid).imp_right h'.1.trans_lt
  · exact Or.inr (hlt.trans_le h.1)

theorem length_inLoopDefs_move (hb : b ∈ body) (he : e ∉ body) (hfind : func.find b = some block)
    (hinstrs : block.instrs = kept ++ instr :: rest) (hdest : instr.dest = some dest) :
    (inLoopDefs (move func b e instr (kept ++ rest)) body).length
      < (inLoopDefs func body).length := by
  have hne : b ≠ e := fun heq ↦ he (heq ▸ hb)
  have hlt : (BasicBlock.defs { block with instrs := kept ++ rest }).length
      < block.defs.length := by
    rw [BasicBlock.defs, BasicBlock.defs, hinstrs, filterMap_append, filterMap_append,
      filterMap_cons_some hdest]
    simp only [length_append, length_cons]
    omega
  have hfind' : (move func b e instr (kept ++ rest)).find b
      = some { block with instrs := kept ++ rest } := by
    rw [find_move_block hne, hfind, map_some]
  rw [inLoopDefs, inLoopDefs, length_flatMap, length_flatMap]
  refine sum_lt_sum _ _ (fun x hx ↦ ?_) ⟨b, hb, ?_⟩
  · have hxe : x ≠ e := fun heq ↦ he (heq ▸ hx)
    by_cases hxb : x = b
    · subst hxb
      rw [hfind, hfind']
      exact hlt.le
    · rw [find_move_of_ne hxb hxe]
  · rw [hfind, hfind']
    exact hlt

theorem visitInstrs_shrinks (hb : b ∈ body) (he : e ∉ body) : ∀ (rest kept : List Instruction)
    (s : State) (block : BasicBlock), s.func.find b = some block → block.instrs = kept ++ rest →
    Shrinks body s (visitInstrs b e kept rest s) := by
  intro rest
  induction rest with
  | nil => exact fun kept s _ _ _ ↦ .refl body s
  | cons instr rest ih =>
    intro kept s block hfind hinstrs
    rw [visitInstrs]
    cases hmoved : movedDest s.inLoopDefs instr with
    | none => exact ih _ s block hfind (by rw [hinstrs, append_assoc]; rfl)
    | some dest =>
      have hdest := (movedDest_eq_some.mp hmoved).2.2
      have hlt := length_inLoopDefs_move hb he hfind hinstrs hdest
      have hne : b ≠ e := fun heq ↦ he (heq ▸ hb)
      have hstep : Shrinks body s (s.move b e instr dest (kept ++ rest)) :=
        ⟨hlt.le, fun _ ↦ Or.inr hlt⟩
      refine hstep.trans (ih kept _ { block with instrs := kept ++ rest } ?_ rfl)
      exact (find_move_block hne).trans (by rw [hfind, map_some])

theorem visitBlock_shrinks (hb : b ∈ body) (he : e ∉ body) (s : State) :
    Shrinks body s (visitBlock e s b) := by
  rw [visitBlock, instrsOf]
  cases hfind : s.func.find b with
  | none => exact .refl body s
  | some block => exact visitInstrs_shrinks hb he block.instrs [] s block hfind rfl

theorem visitBody_shrinks (he : e ∉ body) (func : Function) :
    Shrinks body ⟨func, inLoopDefs func body, false⟩ (visitBody body e func) := by
  have hgo : ∀ (blocks : List BlockId) (s : State), (∀ b ∈ blocks, b ∈ body) →
      Shrinks body s (blocks.foldl (visitBlock e) s) := by
    intro blocks
    induction blocks with
    | nil => exact fun s _ ↦ .refl body s
    | cons b rest ih =>
      intro s hmem
      exact (visitBlock_shrinks (hmem b mem_cons_self) he s).trans
        (ih _ fun b hb ↦ hmem b (mem_cons_of_mem _ hb))
  exact hgo body _ fun _ hb ↦ hb

theorem exists_hoist (he : e ∉ body) : ∀ (fuel : ℕ) (func : Function),
    (inLoopDefs func body).length < fuel → ∃ func', hoist body e fuel func = some func' := by
  intro fuel
  induction fuel with
  | zero => exact fun _ hfuel ↦ absurd hfuel (Nat.not_lt_zero _)
  | succ fuel ih =>
    intro func hfuel
    have hshrinks := (visitBody_shrinks he func).2
    rw [hoist]
    dsimp only at hshrinks ⊢
    cases hchanged : (visitBody body e func).changed with
    | false => exact ⟨_, rfl⟩
    | true =>
      have hlt := (hshrinks hchanged).resolve_left Bool.false_ne_true
      exact ih _ (by omega)

/-! ## Runs -/

section Runs

variable (P : Instruction → Prop)

/-- Whenever an instruction of the block is moved, it meets the condition. -/
def SafeInstrs (b e : BlockId) : List Instruction → List Instruction → State → Prop
  | _, [], _ => True
  | kept, instr :: rest, s =>
    match movedDest s.inLoopDefs instr with
    | some dest => P instr ∧ SafeInstrs b e kept rest (s.move b e instr dest (kept ++ rest))
    | none => SafeInstrs b e (kept ++ [instr]) rest s

def SafeBlocks (e : BlockId) : List BlockId → State → Prop
  | [], _ => True
  | b :: rest, s => SafeInstrs P b e [] (instrsOf s.func b) s ∧ SafeBlocks e rest (visitBlock e s b)

def SafeHoist (body : List BlockId) (e : BlockId) : ℕ → Function → Prop
  | 0, _ => True
  | fuel + 1, func =>
    SafeBlocks P e body ⟨func, inLoopDefs func body, false⟩ ∧
      ((visitBody body e func).changed = true → SafeHoist body e fuel (visitBody body e func).func)

/-- What is moved out of the loop meets the condition, and the loop does not start where the
function does. -/
def SafeLoop (order : List ℕ → List ℕ) (cfg : ControlFlowGraph) (func : Function)
    (loop : LoopAnalysis) : Prop :=
  ∀ entry, loop.entries = [entry] →
    SafeHoist (fun instr ↦ P instr ∧ loop.header ≠ cfg.entryIndex)
      ((order loop.body).map (blockOf cfg)) (blockOf cfg entry)
      ((inLoopDefs func ((order loop.body).map (blockOf cfg))).length + 1) func

def SafeLoops (order : List ℕ → List ℕ) (cfg : ControlFlowGraph) :
    List LoopAnalysis → Function → Prop
  | [], _ => True
  | loop :: rest, func => SafeLoop P order cfg func loop ∧
      ∀ next, runLoop order cfg func loop = some next → SafeLoops order cfg rest next

def SafeRun (order : List ℕ → List ℕ) (fuel : ℕ) (func : Function) : Prop :=
  ∀ loops, loopsOf fuel func = some loops →
    SafeLoops P order (ControlFlowGraph.ofFunction func) loops func

/-- An invariant instruction that meets the condition is moved. -/
def Hoists (func func' : Function) : Prop :=
  ∃ body b e front back instr dest, P instr ∧ Invariant func body b e front back instr dest ∧
    func' = move func b e instr (front ++ back)

end Runs

variable {P : Instruction → Prop}

theorem Hoists.mono {Q : Instruction → Prop} (hPQ : ∀ instr, P instr → Q instr)
    (h : Hoists P func func') : Hoists Q func func' := by
  obtain ⟨body, b, e, front, back, instr, dest, hP, hinv⟩ := h
  exact ⟨body, b, e, front, back, instr, dest, hPQ instr hP, hinv⟩

theorem Hoists.sameBranches (h : Hoists P func func') : SameBranches func func' := by
  obtain ⟨_, _, _, _, _, _, _, -, hinv, rfl⟩ := h
  exact ⟨entry_move, hinv.succs_move⟩

theorem Hoists.wellFormed (h : Hoists P func func') : func'.WellFormed := by
  obtain ⟨_, _, _, _, _, _, _, -, hinv, rfl⟩ := h
  exact hinv.wellFormed_move

theorem sameBranches_of_hoists (h : ReflTransGen (Hoists P) func func') :
    SameBranches func func' := by
  induction h with
  | refl => exact .refl func
  | tail _ hlast ih => exact ih.trans hlast.sameBranches

theorem wellFormed_of_hoists (hwf : func.WellFormed) (h : ReflTransGen (Hoists P) func func') :
    func'.WellFormed := by
  cases h with
  | refl => exact hwf
  | tail _ hlast => exact hlast.wellFormed

/-- The definitions of the loop are known. -/
structure Ready (body : List BlockId) (e : BlockId) (s : State) : Prop where
  wf : s.func.WellFormed
  loop : SingleEntry s.func body e
  defs : ∀ b ∈ body, ∀ block, s.func.HasBlock b block → ∀ reg ∈ block.defs, reg ∈ s.inLoopDefs

namespace Ready

variable (h : Ready body e s)
include h

theorem invariant (hb : b ∈ body) (hfind : s.func.find b = some block)
    (hinstrs : block.instrs = kept ++ instr :: rest)
    (hmoved : movedDest s.inLoopDefs instr = some dest) :
    Invariant s.func body b e kept rest instr dest where
  wf := h.wf
  block := ⟨block, ⟨h.loop.reachable hb, hfind⟩, hinstrs⟩
  dest := (movedDest_eq_some.mp hmoved).2.2
  entry := h.loop.entry
  after := h.loop.after b hb
  path := h.loop.path b hb
  uses x hx block hblock reg hreg hdef :=
    (movedDest_eq_some.mp hmoved).2.1 reg hreg (h.defs x hx block hblock reg hdef)

theorem not_mem : e ∉ body := fun he ↦ h.loop.after e he h.loop.entry.before

theorem move (hinv : Invariant s.func body b e kept rest instr dest) :
    Ready body e (s.move b e instr dest (kept ++ rest)) where
  wf := hinv.wellFormed_move
  loop := h.loop.congr ⟨entry_move, hinv.succs_move⟩
  defs x hx block' hblock reg hreg := by
    rcases hinv.mem_defs_move hblock hreg with ⟨heq, -⟩ | ⟨hne, block, hold, hdef⟩
    · exact absurd (heq ▸ hx) h.not_mem
    · exact mem_filter.mpr ⟨h.defs x hx block hold reg hdef, decide_eq_true hne⟩

end Ready

theorem visitInstrs_hoists (hb : b ∈ body) : ∀ (rest kept : List Instruction) (s : State)
    (block : BasicBlock), Ready body e s → s.func.find b = some block →
    block.instrs = kept ++ rest → SafeInstrs P b e kept rest s →
    Ready body e (visitInstrs b e kept rest s) ∧
      ReflTransGen (Hoists P) s.func (visitInstrs b e kept rest s).func := by
  intro rest
  induction rest with
  | nil => exact fun _ s _ hready _ _ _ ↦ ⟨hready, .refl⟩
  | cons instr rest ih =>
    intro kept s block hready hfind hinstrs hsafe
    rw [visitInstrs]
    rw [SafeInstrs] at hsafe
    cases hmoved : movedDest s.inLoopDefs instr with
    | none =>
      rw [hmoved] at hsafe
      exact ih _ s block hready hfind (by rw [hinstrs, append_assoc]; rfl) hsafe
    | some dest =>
      rw [hmoved] at hsafe
      have hinv := hready.invariant hb hfind hinstrs hmoved
      have hfind' : (s.move b e instr dest (kept ++ rest)).func.find b
          = some { block with instrs := kept ++ rest } :=
        (find_move_block hinv.ne).trans (by rw [hfind, map_some])
      obtain ⟨hready', hrun⟩ := ih kept _ _ (hready.move hinv) hfind' rfl hsafe.2
      exact ⟨hready', .head ⟨body, b, e, kept, rest, instr, dest, hsafe.1, hinv, rfl⟩ hrun⟩

theorem foldl_visitBlock_hoists : ∀ (blocks : List BlockId) (s : State), (∀ b ∈ blocks, b ∈ body) →
    Ready body e s → SafeBlocks P e blocks s → Ready body e (blocks.foldl (visitBlock e) s) ∧
      ReflTransGen (Hoists P) s.func (blocks.foldl (visitBlock e) s).func := by
  intro blocks
  induction blocks with
  | nil => exact fun s _ hready _ ↦ ⟨hready, .refl⟩
  | cons b rest ih =>
    intro s hmem hready hsafe
    have hb := hmem b mem_cons_self
    obtain ⟨block, hblock⟩ := hready.wf.hasBlock (hready.loop.reachable hb)
    have hinstrs : instrsOf s.func b = block.instrs := by
      rw [instrsOf, hblock.2]
      rfl
    rw [SafeBlocks, hinstrs] at hsafe
    obtain ⟨hready', hrun⟩ :=
      visitInstrs_hoists hb block.instrs [] s block hready hblock.2 rfl hsafe.1
    rw [← hinstrs] at hready' hrun
    obtain ⟨hready'', hrun'⟩ :=
      ih _ (fun b hb ↦ hmem b (mem_cons_of_mem _ hb)) hready' hsafe.2
    exact ⟨hready'', hrun.trans hrun'⟩

theorem hoist_hoists : ∀ (fuel : ℕ) (func : Function), func.WellFormed →
    SingleEntry func body e → SafeHoist P body e fuel func → hoist body e fuel func = some func' →
    ReflTransGen (Hoists P) func func' := by
  intro fuel
  induction fuel with
  | zero => exact fun _ _ _ _ h ↦ nomatch h
  | succ fuel ih =>
    intro func hwf hloop hsafe hrun
    have hready : Ready body e ⟨func, inLoopDefs func body, false⟩ := by
      refine ⟨hwf, hloop, fun b hb block hblock reg hreg ↦ mem_flatMap.mpr ⟨b, hb, ?_⟩⟩
      rw [hblock.2]
      exact hreg
    obtain ⟨hready', hhoists⟩ := foldl_visitBlock_hoists body _ (fun _ hb ↦ hb) hready hsafe.1
    rw [hoist] at hrun
    split_ifs at hrun with hchanged
    · exact hhoists.trans (ih _ hready'.wf hready'.loop (hsafe.2 hchanged) hrun)
    · exact some.inj hrun ▸ hhoists

section Unsafe

variable (hP : ∀ instr, ¬P instr)
include hP

/-- Where no instruction meets the condition, none is moved. -/
theorem visitInstrs_of_forall_not : ∀ (rest kept : List Instruction) (s : State),
    SafeInstrs P b e kept rest s → visitInstrs b e kept rest s = s := by
  intro rest
  induction rest with
  | nil => exact fun _ _ _ ↦ rfl
  | cons instr rest ih =>
    intro kept s hsafe
    rw [SafeInstrs] at hsafe
    rw [visitInstrs]
    cases hmoved : movedDest s.inLoopDefs instr with
    | none =>
      rw [hmoved] at hsafe
      exact ih _ s hsafe
    | some dest =>
      rw [hmoved] at hsafe
      exact absurd hsafe.1 (hP instr)

theorem foldl_visitBlock_of_forall_not : ∀ (blocks : List BlockId) (s : State),
    SafeBlocks P e blocks s → blocks.foldl (visitBlock e) s = s := by
  intro blocks
  induction blocks with
  | nil => exact fun _ _ ↦ rfl
  | cons b rest ih =>
    intro s hsafe
    have hsame : visitBlock e s b = s := visitInstrs_of_forall_not hP _ _ s hsafe.1
    rw [foldl_cons, hsame]
    exact ih s (hsame ▸ hsafe.2)

theorem hoist_of_forall_not {fuel : ℕ} (hsafe : SafeHoist P body e fuel func)
    (hrun : hoist body e fuel func = some func') : func' = func := by
  cases fuel with
  | zero => cases hrun
  | succ fuel =>
    have hsame : visitBody body e func = ⟨func, inLoopDefs func body, false⟩ :=
      foldl_visitBlock_of_forall_not hP body _ hsafe.1
    rw [hoist, hsame] at hrun
    exact (some.inj hrun).symm

end Unsafe

/-! ## Behaviour -/

variable {V W : Type} {m : Machine V W}

/-- An instruction is moved: it does not trap, whoever executes it, its register holds in the block
it was in what it would compute there, and the function behaves as before. -/
def KeepsBehaviour (m : Machine V W) (func func' : Function) : Prop :=
  ∃ b e others instr dest, func' = move func b e instr others ∧ instr.dest = some dest ∧
    (∀ x rest env w w', env.Defines instr → ¬Shows m ⟨x, instr :: rest, env, w⟩ (.trap w')) ∧
    (∀ w c, Reaches m func' w c → c.block = b → Holds m instr dest c.env) ∧
    ∀ w event, Behaves m func w event ↔ Behaves m func' w event

theorem Hoists.keepsBehaviour (h : Hoists m.Steady func func') : KeepsBehaviour m func func' := by
  obtain ⟨body, b, e, front, back, instr, dest, hm, hinv, rfl⟩ := h
  refine ⟨b, e, front ++ back, instr, dest, rfl, hinv.dest, ?_, ?_, ?_⟩
  · intro x rest env w w' hdefines hshow
    cases shows_world hinv hm hdefines hshow
  · exact fun w c hreach hblock ↦ holds_of_reaches hinv hm hreach hblock
  · exact behaves_move_iff hinv hm

theorem behaves_iff_of_keepsBehaviour (h : ReflTransGen (KeepsBehaviour m) func func') (w : W)
    (event : Event V W) : Behaves m func w event ↔ Behaves m func' w event := by
  induction h with
  | refl => exact Iff.rfl
  | tail _ hlast ih =>
    obtain ⟨_, _, _, _, _, -, -, -, -, hiff⟩ := hlast
    exact ih.trans (hiff w event)

variable {order : List ℕ → List ℕ}

theorem mem_map_order (horder : ∀ l, (order l).Perm l) {cfg : ControlFlowGraph} {l : List ℕ} :
    b ∈ (order l).map (blockOf cfg) ↔ ∃ i ∈ l, blockOf cfg i = b := by
  simp only [List.mem_map, (horder l).mem_iff]

/-- What the analysis finds of a loop. -/
structure Natural (cfg : ControlFlowGraph) (loop : LoopAnalysis) : Prop where
  back : BackEdge cfg loop.tail loop.header
  body : ∀ x, x ∈ loop.body ↔ InNaturalLoop cfg loop.header loop.tail x
  entries : ∀ p, p ∈ loop.entries ↔ cfg.Edge p loop.header ∧ p ∉ loop.body

section Loop

variable {order : List ℕ → List ℕ} {loop : LoopAnalysis} {entry : ℕ}
  (hclosed : ControlFlowGraph.Closed func)
  (hloop : Natural (ControlFlowGraph.ofFunction func) loop)
  (horder : ∀ l, (order l).Perm l) (hentry : loop.entries = [entry])
include hclosed hloop horder hentry

/-- The block the loop is entered from is outside of it. -/
theorem Natural.not_mem : blockOf (ControlFlowGraph.ofFunction func) entry
    ∉ (order loop.body).map (blockOf (ControlFlowGraph.ofFunction func)) := by
  have hmem : entry ∈ loop.entries := hentry ▸ mem_singleton_self entry
  obtain ⟨hedge, hnot⟩ := (hloop.entries entry).mp hmem
  obtain ⟨e, h, he, -, -⟩ := exists_of_edge hclosed hedge
  have hback := (mem_successorIndices hclosed).mp hloop.back.1
  rw [mem_map_order horder]
  rintro ⟨i, hi, heq⟩
  obtain ⟨b, hb⟩ := exists_block hclosed hback ((hloop.body i).mp hi)
  rw [blockOf_of_getElem? hb, blockOf_of_getElem? he] at heq
  subst heq
  exact hnot (eq_of_getElem? hclosed hb he ▸ hi)

theorem Natural.singleEntry
    (hheader : loop.header ≠ (ControlFlowGraph.ofFunction func).entryIndex) :
    SingleEntry func ((order loop.body).map (blockOf (ControlFlowGraph.ofFunction func)))
      (blockOf (ControlFlowGraph.ofFunction func) entry) := by
  have hback := (mem_successorIndices hclosed).mp hloop.back.1
  have hmem : entry ∈ loop.entries := hentry ▸ mem_singleton_self entry
  refine singleEntry_of_natural hclosed hloop.back.2 hback hheader (fun b ↦ ?_) (fun p hp hnot ↦ ?_)
    ((hloop.entries entry).mp hmem).1
  · simp only [mem_map_order horder, hloop.body]
  · have hp' : p ∈ loop.entries := (hloop.entries p).mpr ⟨hp, mt (hloop.body p).mp hnot⟩
    rw [hentry] at hp'
    exact mem_singleton.mp hp'

end Loop

variable {func₀ : Function}

theorem runLoop_spec (func : Function) {loop : LoopAnalysis}
    (hclosed : ControlFlowGraph.Closed func₀)
    (hloop : Natural (ControlFlowGraph.ofFunction func₀) loop) (horder : ∀ l, (order l).Perm l) :
    ∃ func', runLoop order (ControlFlowGraph.ofFunction func₀) func loop = some func' ∧
      (func.WellFormed → SameBranches func₀ func →
        SafeLoop P order (ControlFlowGraph.ofFunction func₀) func loop →
        ReflTransGen (Hoists P) func func') := by
  rw [runLoop]
  split
  · rename_i entry hentry
    obtain ⟨func', hrun⟩ :=
      exists_hoist (hloop.not_mem hclosed horder hentry) _ func (Nat.lt_succ_self _)
    refine ⟨func', hrun, fun hwf hsame hsafe ↦ ?_⟩
    by_cases hheader : loop.header = (ControlFlowGraph.ofFunction func₀).entryIndex
    · rw [hoist_of_forall_not (fun _ hP ↦ hP.2 hheader) (hsafe entry hentry) hrun]
    · have hsingle := (hloop.singleEntry hclosed horder hentry hheader).congr hsame
      have hhoists := hoist_hoists _ func hwf hsingle (hsafe entry hentry) hrun
      exact hhoists.lift id fun _ _ hstep ↦ hstep.mono fun _ ↦ And.left
  · exact ⟨func, rfl, fun _ _ _ ↦ .refl⟩

theorem foldlM_runLoop (hclosed : ControlFlowGraph.Closed func₀) (horder : ∀ l, (order l).Perm l) :
    ∀ (loops : List LoopAnalysis) (func : Function),
    (∀ loop ∈ loops, Natural (ControlFlowGraph.ofFunction func₀) loop) →
    ∃ func', loops.foldlM (runLoop order (ControlFlowGraph.ofFunction func₀)) func = some func' ∧
      (func.WellFormed → SameBranches func₀ func →
        SafeLoops P order (ControlFlowGraph.ofFunction func₀) loops func →
        ReflTransGen (Hoists P) func func') := by
  intro loops
  induction loops with
  | nil => exact fun func _ ↦ ⟨func, rfl, fun _ _ _ ↦ .refl⟩
  | cons loop rest ih =>
    intro func hnatural
    obtain ⟨next, hnext, hspec⟩ := runLoop_spec (P := P) func hclosed
      (hnatural loop mem_cons_self) horder
    obtain ⟨func', hrun, hspec'⟩ := ih next fun loop hloop ↦ hnatural loop (mem_cons_of_mem _ hloop)
    refine ⟨func', ?_, fun hwf hsame hsafe ↦ ?_⟩
    · rw [foldlM_cons, hnext]
      exact hrun
    · have hhoists := hspec hwf hsame hsafe.1
      exact hhoists.trans (hspec' (wellFormed_of_hoists hwf hhoists)
        (hsame.trans (sameBranches_of_hoists hhoists)) (hsafe.2 next hnext))

/-- The pass ends, and if what it moves has one outcome and is not moved out of a loop that starts
where the function does, every move keeps the behaviour of the function. -/
theorem run_keepsBehaviour {order : List ℕ → List ℕ} (horder : ∀ l, (order l).Perm l)
    (hwf : func.WellFormed) (m : Machine V W) :
    ∃ F, ∀ fuel ≥ F, ∃ func', run order fuel func = some func' ∧
      (SafeRun m.Steady order fuel func →
        func'.WellFormed ∧ ReflTransGen (KeepsBehaviour m) func func' ∧
          ∀ w event, Behaves m func w event ↔ Behaves m func' w event) := by
  have hclosed := ControlFlowGraph.closed_of_wellFormed hwf
  obtain ⟨F, hF⟩ := exists_loopsOf hclosed
  refine ⟨F, fun fuel hfuel ↦ ?_⟩
  obtain ⟨loops, hloops, hall⟩ := hF fuel hfuel
  obtain ⟨func', hrun, hspec⟩ := foldlM_runLoop (P := m.Steady) hclosed horder loops func
    fun loop hloop ↦ ⟨(hall loop hloop).1, (hall loop hloop).2.1, (hall loop hloop).2.2⟩
  refine ⟨func', ?_, fun hsafe ↦ ?_⟩
  · rw [run, hloops, bind_some]
    exact hrun
  · have hhoists := hspec hwf (.refl func) (hsafe loops hloops)
    have hkeeps : ReflTransGen (KeepsBehaviour m) func func' :=
      hhoists.lift id fun _ _ ↦ Hoists.keepsBehaviour
    exact ⟨wellFormed_of_hoists hwf hhoists, hkeeps, behaves_iff_of_keepsBehaviour hkeeps⟩

/-! ## A loop that is not entered -/

/-- Integers of 64 bits. -/
def integers : Machine (BitVec 64) Unit where
  const
    | .intImmediate immediate => immediate.toBits
    | _ => 0
  exec opcode _ _ operands _ :=
    match operands with
    | [lhs, rhs] => (opcode.evalInt lhs.1 rhs.1).map (·, ())
    | _ => none
  holds comparison lhs rhs taken := taken = comparison.holdsInt lhs.1 rhs.1

/-- An operation on one and zero. -/
def onConstants (opcode : Opcode) : Instruction where
  opcode := opcode
  dest := some 0
  operands := [⟨.intImmediate ⟨1, false⟩, Primitive.I64⟩, ⟨.intImmediate ⟨0, false⟩, Primitive.I64⟩]

def jumpTo (b : BlockId) : Instruction where
  opcode := .JMP
  targets := [⟨b, []⟩]

/-- While one is two. -/
def whileFalse : Instruction where
  opcode := .CJMP
  operands := [⟨.intImmediate ⟨1, false⟩, Primitive.I64⟩, ⟨.comparison .EQ, Primitive.VOID⟩,
    ⟨.intImmediate ⟨2, false⟩, Primitive.I64⟩]
  targets := [⟨2, []⟩, ⟨3, []⟩]

def zeroTrip (before inside : List Instruction) : Function where
  blocks :=
    [(0, { instrs := before ++ [jumpTo 1] }),
     (1, { instrs := [whileFalse] }),
     (2, { instrs := inside ++ [jumpTo 1] }),
     (3, { instrs := [{ opcode := .RET }] })]
  lastVirtualReg := 1

theorem wellFormed_zeroTrip_add : (zeroTrip [] [onConstants .ADD]).WellFormed :=
  Function.wellFormed_of_check (fun _ ↦ []) (by decide)

theorem steady_add : integers.Steady (onConstants .ADD) := by
  refine fun env _ ↦ ⟨1, fun w v' w' ↦ ⟨fun hexec ↦ ?_, ?_⟩⟩
  · cases hexec with
    | exec _ _ hresult =>
      obtain ⟨rfl, rfl⟩ := Prod.mk.inj (some.inj hresult)
      exact ⟨rfl, rfl⟩
    | select hop _ _ _ => cases hop
  · rintro ⟨rfl, rfl⟩
    exact .exec rfl (by decide) rfl

theorem safeRun_zeroTrip_add : SafeRun integers.Steady id 8 (zeroTrip [] [onConstants .ADD]) := by
  intro loops hloops
  have hfound : loopsOf 8 (zeroTrip [] [onConstants .ADD])
      = some [⟨2, [0, 2], 0, [3], [(2, 1)]⟩] := by decide
  obtain rfl := some.inj (hfound.symm.trans hloops)
  refine ⟨fun entry hentry ↦ ?_, fun _ _ ↦ trivial⟩
  obtain rfl := singleton_inj.mp hentry
  have hadd : integers.Steady (onConstants .ADD) ∧ 2 ≠ 3 := ⟨steady_add, by decide⟩
  -- the first round moves the addition, the second one moves nothing
  have hsecond : SafeHoist (fun instr ↦ integers.Steady instr ∧ 2 ≠ 3) [2, 1] 0 1
      (zeroTrip [onConstants .ADD] []) :=
    And.intro (And.intro trivial (And.intro trivial trivial)) nofun
  exact And.intro (And.intro (And.intro hadd trivial) (And.intro trivial trivial)) fun _ ↦ hsecond

theorem run_keepsBehaviour_zeroTrip :
    SafeRun integers.Steady id 8 (zeroTrip [] [onConstants .ADD]) ∧
      run id 8 (zeroTrip [] [onConstants .ADD]) = some (zeroTrip [onConstants .ADD] []) ∧
      ∃ F, ∀ fuel ≥ F, ∃ func', run id fuel (zeroTrip [] [onConstants .ADD]) = some func' ∧
        (SafeRun integers.Steady id fuel (zeroTrip [] [onConstants .ADD]) →
          func'.WellFormed ∧
            ReflTransGen (KeepsBehaviour integers) (zeroTrip [] [onConstants .ADD]) func' ∧
            ∀ w event, Behaves integers (zeroTrip [] [onConstants .ADD]) w event ↔
              Behaves integers func' w event) :=
  ⟨safeRun_zeroTrip_add, by decide,
    run_keepsBehaviour (fun l ↦ .refl l) wellFormed_zeroTrip_add integers⟩

/-- The body of the loop is not executed. -/
theorem reaches_zeroTrip {inside : List Instruction} {c : Config (BitVec 64) Unit}
    (h : Reaches integers (zeroTrip [] inside) () c) :
    c.rest = [jumpTo 1] ∨ c.rest = [whileFalse] ∨ c.rest = [{ opcode := .RET }] := by
  refine h.induction (P := fun c ↦ c.rest = [jumpTo 1] ∨ c.rest = [whileFalse] ∨
    c.rest = [{ opcode := .RET }]) ?_ ?_
  · intro b block hentry hfind
    obtain rfl := some.inj hentry
    obtain rfl := some.inj hfind
    exact Or.inl rfl
  · rintro c c' - hrest hstep
    cases hstep with
    | op _ hexec =>
      have hterm := hexec.not_terminator
      rcases hrest with hrest | hrest | hrest <;> obtain ⟨rfl, -⟩ := cons.inj hrest <;>
        exact absurd hterm (by decide)
    | branch _ htakes hfind =>
      rcases hrest with hrest | hrest | hrest <;> obtain ⟨rfl, -⟩ := cons.inj hrest
      · obtain rfl := mem_singleton.mp htakes.mem_targets
        obtain rfl := some.inj hfind
        exact Or.inr (Or.inl rfl)
      · cases htakes with
        | jmp hop _ => cases hop
        | cond _ hoperands hcmp htargets hholds =>
          cases hoperands
          cases hcmp
          cases htargets
          cases hholds
          obtain rfl := some.inj hfind
          exact Or.inr (Or.inr rfl)
      · exact absurd htakes.isBranching (by decide)

/-- The division of a loop that is not entered is executed in front of it. -/
theorem not_keepsBehaviour_zeroTrip :
    (zeroTrip [] [onConstants .SDIV]).WellFormed ∧
      run id 8 (zeroTrip [] [onConstants .SDIV]) = some (zeroTrip [onConstants .SDIV] []) ∧
      ¬Behaves integers (zeroTrip [] [onConstants .SDIV]) () (.trap ()) ∧
      Behaves integers (zeroTrip [onConstants .SDIV] []) () (.trap ()) := by
  refine ⟨Function.wellFormed_of_check (fun _ ↦ []) (by decide), by decide, ?_, ?_⟩
  · rintro ⟨c, hreach, hshow⟩
    have hrest := reaches_zeroTrip hreach
    cases hshow with
    | trap _ hterm _ _ =>
      rcases hrest with hrest | hrest | hrest <;> obtain ⟨rfl, -⟩ := cons.inj hrest <;>
        exact absurd hterm (by decide)
  · refine ⟨_, ⟨_, ⟨0, _, rfl, rfl, rfl⟩, .refl⟩, .trap (fun reg hreg ↦ ?_) rfl (by decide) rfl⟩
    exact absurd hreg not_mem_nil

end Banjo.Passes.LICMPass
