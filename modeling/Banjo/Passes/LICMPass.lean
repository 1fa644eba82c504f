import Banjo.Passes.LoopAnalysis
import Banjo.SSA.Walks

/-!
# Loop-invariant code motion

An instruction of a loop that uses nothing the loop defines is moved in front of the terminator of
the block the loop is entered from, if there is one such block. What it defines is then no longer
defined in the loop, and the loop is gone over until nothing is moved. Loads, stores, calls and
member pointers stay; divisions do not, and nobody asks whether the instruction would have been
executed.
-/

open List

namespace Banjo.Passes.LICMPass

open SSA DominatorTree

/-- The instructions the pass goes over. -/
def isSkipped (instr : Instruction) : Bool :=
  instr.opcode = .LOAD || instr.opcode = .STORE || instr.opcode = .CALL || instr.opcode = .MEMBERPTR

def usesInLoopDef (inLoopDefs : List VirtualRegister) (instr : Instruction) : Bool :=
  instr.uses.any (· ∈ inLoopDefs)

/-- What the instruction defines, if it is to be moved. -/
def movedDest (inLoopDefs : List VirtualRegister) (instr : Instruction) : Option VirtualRegister :=
  if isSkipped instr || usesInLoopDef inLoopDefs instr then none else instr.dest

/-- `insert_before`, at the last instruction of a block. -/
def insertBeforeLast (instrs : List Instruction) (instr : Instruction) : List Instruction :=
  instrs.dropLast ++ instr :: instrs.getLast?.toList

/-- The instruction goes to the end of `e`, and the others stay in `b`. -/
def move (func : Function) (b e : BlockId) (instr : Instruction) (others : List Instruction) :
    Function :=
  (func.modify e fun block ↦ { block with instrs := insertBeforeLast block.instrs instr }).modify b
    fun block ↦ { block with instrs := others }

structure State where
  func : Function
  inLoopDefs : List VirtualRegister
  changed : Bool
  deriving DecidableEq, Repr

def State.move (s : State) (b e : BlockId) (instr : Instruction) (dest : VirtualRegister)
    (others : List Instruction) : State where
  func := LICMPass.move s.func b e instr others
  inLoopDefs := s.inLoopDefs.filter (· ≠ dest)
  changed := true

/-- The loop over a block, from the instructions it has kept and the ones that are left. -/
def visitInstrs (b e : BlockId) : List Instruction → List Instruction → State → State
  | _, [], s => s
  | kept, instr :: rest, s =>
    match movedDest s.inLoopDefs instr with
    | some dest => visitInstrs b e kept rest (s.move b e instr dest (kept ++ rest))
    | none => visitInstrs b e (kept ++ [instr]) rest s

def instrsOf (func : Function) (b : BlockId) : List Instruction :=
  ((func.find b).map BasicBlock.instrs).getD []

def visitBlock (e : BlockId) (s : State) (b : BlockId) : State :=
  visitInstrs b e [] (instrsOf s.func b) s

def inLoopDefs (func : Function) (body : List BlockId) : List VirtualRegister :=
  body.flatMap fun b ↦ ((func.find b).map BasicBlock.defs).getD []

def visitBody (body : List BlockId) (e : BlockId) (func : Function) : State :=
  body.foldl (visitBlock e) ⟨func, inLoopDefs func body, false⟩

/-- The recursion on a loop with one entry. -/
def hoist (body : List BlockId) (e : BlockId) : ℕ → Function → Option Function
  | 0, _ => none
  | fuel + 1, func =>
    let s := visitBody body e func
    if s.changed then hoist body e fuel s.func else some s.func

def blockOf (cfg : ControlFlowGraph) (i : ℕ) : BlockId :=
  ((cfg.nodes[i]?).map ControlFlowGraph.Node.block).getD 0

/-- As deep as the loop has definitions, which is deep enough. -/
def hoistAll (body : List BlockId) (e : BlockId) (func : Function) : Option Function :=
  hoist body e ((inLoopDefs func body).length + 1) func

/-- `order` is the order of the set the body is. -/
def runLoop (order : List ℕ → List ℕ) (cfg : ControlFlowGraph) (func : Function)
    (loop : LoopAnalysis) : Option Function :=
  match loop.entries with
  | [entry] => hoistAll ((order loop.body).map (blockOf cfg)) (blockOf cfg entry) func
  | _ => some func

/-- The loops of a function. -/
def loopsOf (fuel : ℕ) (func : Function) : Option (List LoopAnalysis) :=
  (ofGraph (ControlFlowGraph.ofFunction func) fuel).bind fun tree ↦
    LoopAnalyzer.analyze (ControlFlowGraph.ofFunction func) tree.parentIndices fuel

def run (order : List ℕ → List ℕ) (fuel : ℕ) (func : Function) : Option Function :=
  (loopsOf fuel func).bind fun loops ↦
    loops.foldlM (runLoop order (ControlFlowGraph.ofFunction func)) func

/-! ## What is moved -/

variable {func : Function} {b e c : BlockId} {instr : Instruction} {others : List Instruction}

@[simp] theorem insertBeforeLast_concat (body : List Instruction) (last instr : Instruction) :
    insertBeforeLast (body ++ [last]) instr = body ++ [instr, last] := by
  rw [insertBeforeLast, dropLast_concat, getLast?_concat]
  rfl

theorem movedDest_eq_some {defs : List VirtualRegister} {dest : VirtualRegister} :
    movedDest defs instr = some dest ↔
      isSkipped instr = false ∧ (∀ reg ∈ instr.uses, reg ∉ defs) ∧ instr.dest = some dest := by
  rw [movedDest]
  split_ifs with h
  · refine iff_of_false nofun fun ⟨hskip, huses, _⟩ ↦ ?_
    rw [hskip, Bool.false_or, usesInLoopDef, any_eq_true] at h
    obtain ⟨reg, hreg, hdef⟩ := h
    exact huses reg hreg (of_decide_eq_true hdef)
  · rw [Bool.or_eq_true, not_or, Bool.not_eq_true, usesInLoopDef, any_eq_true] at h
    refine ⟨fun hdest ↦ ⟨h.1, fun reg hreg hdef ↦ ?_, hdest⟩, fun h ↦ h.2.2⟩
    exact h.2 ⟨reg, hreg, decide_eq_true hdef⟩

@[simp] theorem ids_move : (move func b e instr others).ids = func.ids := by
  rw [move, Function.ids_modify, Function.ids_modify]

theorem entry_move : (move func b e instr others).entry = func.entry := by
  rw [Function.entry, Function.entry, ids_move]

theorem find_move_block (hne : b ≠ e) : (move func b e instr others).find b
    = (func.find b).map fun block ↦ { block with instrs := others } := by
  rw [move, Function.find_modify, if_pos rfl, Function.find_modify, if_neg hne]

theorem find_move_entry (hne : b ≠ e) : (move func b e instr others).find e
    = (func.find e).map fun block ↦
        { block with instrs := insertBeforeLast block.instrs instr } := by
  rw [move, Function.find_modify, if_neg hne.symm, Function.find_modify, if_pos rfl]

theorem find_move_of_ne (hb : c ≠ b) (he : c ≠ e) :
    (move func b e instr others).find c = func.find c := by
  rw [move, Function.find_modify, if_neg hb, Function.find_modify, if_neg he]

/-!
## One instruction is moved

What makes a move one of an invariant instruction: a path through the loop leads from the block it
is moved to, which is left before the loop is entered, to the block it is moved from, and nothing
on it defines what the instruction uses.
-/

open SSA Relation

variable {func : Function} {b e x : BlockId} {front back : List Instruction} {instr : Instruction}
  {dest reg : VirtualRegister} {body : List BlockId} {block : BasicBlock}

structure Invariant (func : Function) (body : List BlockId) (b e : BlockId)
    (front back : List Instruction) (instr : Instruction) (dest : VirtualRegister) : Prop where
  wf : func.WellFormed
  block : ∃ block, func.HasBlock b block ∧ block.instrs = front ++ instr :: back
  dest : instr.dest = some dest
  entry : func.Reachable e
  after : ¬Before func e b
  path : ∃ header ∈ func.succs e, header ∈ body ∧
    ReflTransGen (fun x y ↦ y ∈ func.succs x ∧ y ∈ body) header b
  uses : ∀ x ∈ body, ∀ block, func.HasBlock x block → ∀ reg ∈ instr.uses, reg ∉ block.defs

namespace Invariant

variable (h : Invariant func body b e front back instr dest)
include h

theorem ne : b ≠ e := fun heq ↦ h.after (heq ▸ h.entry.before)

theorem mem_body : b ∈ body := by
  obtain ⟨header, -, hheader, hpath⟩ := h.path
  rcases hpath.cases_tail with rfl | ⟨_, -, hstep⟩
  · exact hheader
  · exact hstep.2

theorem not_terminator : instr.isTerminator = false := by
  obtain ⟨block, hblock, hinstrs⟩ := h.block
  have hmem : instr ∈ block.instrs := by rw [hinstrs]; simp
  by_contra hterm
  have hnone := ((h.wf.shaped hblock).instrs instr hmem).dest_eq_none (by simpa using hterm)
  rw [h.dest] at hnone
  cases hnone

/-- The register is defined where the instruction is, and there only. -/
theorem dest_not_mem (hblock : func.HasBlock b block) :
    dest ∉ block.paramRegs ∧ dest ∉ front.filterMap Instruction.dest ∧
      dest ∉ back.filterMap Instruction.dest := by
  obtain ⟨block', hblock', hinstrs⟩ := h.block
  obtain rfl := hblock.unique hblock'
  have hnodup := h.wf.defsNodup hblock
  rw [BasicBlock.defs, hinstrs, filterMap_append, filterMap_cons_some h.dest] at hnodup
  have hinner := nodup_append.mp hnodup.of_append_right
  refine ⟨fun hparam ↦ ?_, fun hfront ↦ ?_, (nodup_cons.mp hinner.2.1).1⟩
  · exact (nodup_append.mp hnodup).2.2 dest hparam dest (by simp) rfl
  · exact hinner.2.2 dest hfront dest mem_cons_self rfl

theorem dest_mem_defs (hblock : func.HasBlock b block) : dest ∈ block.defs := by
  obtain ⟨block', hblock', hinstrs⟩ := h.block
  obtain rfl := hblock.unique hblock'
  refine mem_append_right _ (mem_filterMap.mpr ⟨instr, ?_, h.dest⟩)
  rw [hinstrs]
  simp

theorem eq_of_dest_mem (hblock : func.HasBlock x block) (hdest : dest ∈ block.defs) : x = b := by
  obtain ⟨other, hother, -⟩ := h.block
  by_contra hne
  exact h.wf.defsDisjoint hblock hother hne hdest (h.dest_mem_defs hother)

theorem eq_of_dest {other : Instruction} (hblock : func.HasBlock x block)
    (hmem : other ∈ block.instrs) (hdest : other.dest = some dest) : other = instr := by
  have hdef : dest ∈ block.defs :=
    mem_append_right _ (mem_filterMap.mpr ⟨other, hmem, hdest⟩)
  obtain rfl := h.eq_of_dest_mem hblock hdef
  obtain ⟨block', hblock', hinstrs⟩ := h.block
  obtain rfl := hblock.unique hblock'
  obtain ⟨-, hfront, hback⟩ := h.dest_not_mem hblock
  rw [hinstrs, mem_append, mem_cons] at hmem
  rcases hmem with hmem | rfl | hmem
  · exact absurd (mem_filterMap.mpr ⟨other, hmem, hdest⟩) hfront
  · rfl
  · exact absurd (mem_filterMap.mpr ⟨other, hmem, hdest⟩) hback

theorem dest_not_mem_params (hblock : func.HasBlock x block) : dest ∉ block.paramRegs := by
  intro hparam
  obtain rfl := h.eq_of_dest_mem hblock (mem_append_left _ hparam)
  exact (h.dest_not_mem hblock).1 hparam

theorem eq_of_mem (hblock : func.HasBlock x block) (hmem : instr ∈ block.instrs) : x = b :=
  h.eq_of_dest_mem hblock
    (mem_append_right _ (mem_filterMap.mpr ⟨instr, hmem, h.dest⟩))

theorem dest_not_mem_uses : dest ∉ instr.uses := by
  obtain ⟨block, hblock, -⟩ := h.block
  exact fun huse ↦ h.uses b h.mem_body block hblock dest huse (h.dest_mem_defs hblock)

/-- What the instruction uses is used on a path. -/
theorem used (hreg : reg ∈ instr.uses) : Used func reg := by
  obtain ⟨block, hblock, hinstrs⟩ := h.block
  obtain ⟨block', env, hblock', hreach⟩ := h.wf.exists_walk hblock.1
  obtain rfl := hblock.unique hblock'
  rw [hinstrs] at hreach
  obtain ⟨env', hreach', -⟩ := h.wf.walk_block hblock front (instr :: back)
    (cons_ne_nil _ _) (hinstrs ▸ suffix_rfl) hreach
  exact ⟨b, instr, back, ⟨_, hreach', rfl, rfl⟩, hreg⟩

/-! ## What is defined where -/

variable {last : Instruction}

/-- The instruction uses what is defined at the end of the block it is moved to. -/
theorem definedAt_uses (hblock : func.HasBlock e block) (hlast : block.instrs.getLast? = some last)
    (hreg : reg ∈ instr.uses) : DefinedAt func e [last] reg := by
  rintro ⟨e', rest, env, w⟩ hreach rfl rfl hnone
  obtain ⟨header, hsucc, hheader, hpath⟩ := h.path
  obtain ⟨next, env', hnext, hreach', hdefs⟩ := h.wf.walk_branch hblock hlast hreach hsucc
  have hbody : ∀ x ∈ body, ∀ block, func.HasBlock x block → reg ∉ block.defs :=
    fun x hx block hblock ↦ h.uses x hx block hblock reg hreg
  have hnone' : env' reg = none := by
    by_contra hsome
    exact (hdefs reg hsome).elim (fun hdef ↦ hdef hnone) (hbody header hheader next hnext)
  obtain ⟨hb, other, env₁, hother, hreach₁, hnone₁⟩ :=
    h.wf.walk_around hbody hpath hheader hnext hreach' hnone'
  obtain ⟨block', hblock', hinstrs⟩ := h.block
  obtain rfl := hother.unique hblock'
  rw [hinstrs] at hreach₁
  obtain ⟨env₂, hreach₂, hdefs₂⟩ := h.wf.walk_block hother front (instr :: back)
    (cons_ne_nil _ _) (hinstrs ▸ suffix_rfl) hreach₁
  have hdefined := h.wf.allDefined.definedAt hreg _ hreach₂ rfl rfl
  exact (hdefs₂ reg hdefined).elim (fun hdef ↦ hdef hnone₁) (hbody b hb other hother)

theorem not_definedAt_dest (hblock : func.HasBlock e block)
    (hlast : block.instrs.getLast? = some last) : ¬DefinedAt func e [last] dest := by
  intro hdest
  obtain ⟨x, other, hx, hother, hmem⟩ := h.wf.before_of_definedAt hblock hlast hdest
  exact h.after (h.eq_of_dest_mem hother hmem ▸ hx)

/-- What the instruction uses is defined in blocks that come before the end of the block it is
moved to. -/
theorem before_of_mem_defs (hreg : reg ∈ instr.uses) (hblock : func.HasBlock x block)
    (hdef : reg ∈ block.defs) : Before func e x := by
  obtain ⟨entryBlock, hentry⟩ := h.wf.hasBlock h.entry
  obtain ⟨body', last, hinstrs, -, -⟩ := (h.wf.shaped hentry).split
  have hlast : entryBlock.instrs.getLast? = some last := by rw [hinstrs, getLast?_concat]
  obtain ⟨y, other, hy, hother, hmem⟩ :=
    h.wf.before_of_definedAt hentry hlast (h.definedAt_uses hentry hlast hreg)
  by_cases heq : x = y
  · exact heq ▸ hy
  · exact absurd hmem (h.wf.defsDisjoint hblock hother heq hdef)

/-! ## Blocks -/

theorem filter_front_back : (front ++ instr :: back).filter (· ≠ instr) = front ++ back := by
  obtain ⟨block, hblock, hinstrs⟩ := h.block
  obtain ⟨-, hfront, hback⟩ := h.dest_not_mem hblock
  have hother : ∀ {l : List Instruction}, dest ∉ l.filterMap Instruction.dest →
      l.filter (· ≠ instr) = l := by
    intro l hl
    refine filter_eq_self.mpr fun other hmem ↦ decide_eq_true fun heq ↦ hl ?_
    exact mem_filterMap.mpr ⟨other, hmem, heq ▸ h.dest⟩
  rw [filter_append, filter_cons_of_neg (by simp), hother hfront, hother hback]

theorem find_move_other (hblock : func.HasBlock x block) (hx : x ≠ e) :
    (move func b e instr (front ++ back)).find x
      = some { block with instrs := block.instrs.filter (· ≠ instr) } := by
  by_cases hb : x = b
  · obtain ⟨block', hblock', hinstrs⟩ := h.block
    subst hb
    obtain rfl := hblock.unique hblock'
    rw [find_move_block hx, hblock.2, Option.map_some, hinstrs, h.filter_front_back]
  · rw [find_move_of_ne hb hx, hblock.2, filter_eq_self.mpr]
    exact fun other hmem ↦ decide_eq_true fun heq ↦ hb (h.eq_of_mem hblock (heq ▸ hmem))

theorem find_move_to (hblock : func.HasBlock e block) {init : List Instruction}
    (hinstrs : block.instrs = init ++ [last]) :
    (move func b e instr (front ++ back)).find e
      = some { block with instrs := init ++ [instr, last] } := by
  rw [find_move_entry h.ne, hblock.2, Option.map_some, hinstrs, insertBeforeLast_concat]

end Invariant

end Banjo.Passes.LICMPass
