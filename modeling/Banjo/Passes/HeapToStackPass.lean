import Banjo.SSA.ControlFlowGraph

/-!
# Heap to stack

An allocation of a constant size becomes a stack slot of the function if each block that returns
and that a path from the allocation leads to frees it. Where the pointer goes in the meantime is
not asked, and neither is how often the allocation is executed. Iterators are places in the
function, which the removal of other instructions does not move.
-/

open List Option

namespace Banjo.Passes.HeapToStackPass

open SSA

def MAX_ALLOC_SIZE : LargeInt := ⟨256, false⟩

/-- A block and the index of one of its instructions. -/
structure InstrInContext where
  block : BlockId
  instr : ℕ
  deriving DecidableEq, Repr

structure Allocation where
  allocInstr : InstrInContext
  freeInstrs : List InstrInContext
  deriving DecidableEq, Repr

/-- The map from registers to allocations. -/
abbrev Allocs := List (VirtualRegister × Allocation)

/-- `insert`, which leaves an entry that is there. -/
def insertAlloc (allocs : Allocs) (reg : VirtualRegister) (alloc : Allocation) : Allocs :=
  if (allocs.lookup reg).isSome then allocs else allocs ++ [(reg, alloc)]

def addFree (allocs : Allocs) (reg : VirtualRegister) (free : InstrInContext) : Allocs :=
  allocs.map fun entry ↦
    if entry.1 = reg then
      (entry.1, { entry.2 with freeInstrs := entry.2.freeInstrs ++ [free] })
    else entry

/-- One round of the loop of `collect_heap_instrs`; `names` are those of the external functions. -/
def collectHeapInstr (names : FuncId → String) (b : BlockId) (allocs : Allocs)
    (entry : Instruction × ℕ) : Allocs :=
  if entry.1.opcode ≠ .CALL then allocs
  else
    match (entry.1.getOperand 0).value with
    | .externFunc f =>
      if names f = "malloc" then
        match entry.1.dest, (entry.1.getOperand 1).value with
        | some reg, .intImmediate size =>
          if MAX_ALLOC_SIZE.lt size then allocs
          else insertAlloc allocs reg ⟨⟨b, entry.2⟩, []⟩
        | _, _ => allocs
      else if names f = "free" then
        match (entry.1.getOperand 1).value with
        | .register reg => addFree allocs reg ⟨b, entry.2⟩
        | _ => allocs
      else allocs
    | _ => allocs

def collectHeapInstrs (names : FuncId → String) (allocs : Allocs)
    (entry : BlockId × BasicBlock) : Allocs :=
  entry.2.instrs.zipIdx.foldl (collectHeapInstr names entry.1) allocs

def collect (names : FuncId → String) (func : Function) : Allocs :=
  func.blocks.foldl (collectHeapInstrs names) []

/-- The result and `visited_blocks`. -/
def isAlwaysFreed (func : Function) (alloc : Allocation) :
    ℕ → List BlockId → BlockId → Option (Bool × List BlockId)
  | 0, _, _ => none
  | fuel + 1, visited, block =>
    if block ∈ visited then some (true, visited)
    else if ((func.find block).bind fun found ↦ found.instrs.getLast?).any (·.opcode = .RET) then
      some (alloc.freeInstrs.any (·.block = block), block :: visited)
    else
      ((ControlFlowGraph.ofFunction func).getNode block).bind fun node ↦
        node.successors.foldlM (fun state successor ↦
          if state.1 then isAlwaysFreed func alloc fuel state.2 successor
          else some state) (true, block :: visited)

def selectAlloc (func : Function) (fuel : ℕ) (allocs : Allocs)
    (entry : VirtualRegister × Allocation) : Option Allocs :=
  (isAlwaysFreed func entry.2 fuel [] entry.2.allocInstr.block).map fun (freed, _) ↦
    if freed then allocs ++ [entry] else allocs

/-- The allocations that are replaced. `order` is the order of the map; replacing some allocations
does not change what `is_always_freed` looks at for the others. -/
def promoted (names : FuncId → String) (order : Allocs → Allocs) (fuel : ℕ) (func : Function) :
    Option Allocs :=
  (order (collect names func)).foldlM (selectAlloc func fuel) []

/-- What has been removed, and the instructions that have been put in front of the entry block. -/
structure Promotion where
  removed : List InstrInContext
  allocas : List Instruction
  deriving DecidableEq, Repr

def instrAt (func : Function) (place : InstrInContext) : Option Instruction :=
  (func.find place.block).bind fun block ↦ block.instrs[place.instr]?

/-- A negative size fails an assertion. -/
def promote (func : Function) (s : Promotion) (entry : VirtualRegister × Allocation) :
    Option Promotion :=
  match (instrAt func entry.2.allocInstr).map (Instruction.getOperand · 1 |>.value) with
  | some (.intImmediate size) =>
    if size.negative then none
    else
      some {
        removed := s.removed ++ entry.2.allocInstr :: entry.2.freeInstrs
        allocas :=
          { opcode := .ALLOCA
            dest := some entry.1
            operands := [⟨.type, ⟨.primitive .U8, size.magnitude.toNat⟩⟩] } :: s.allocas }
  | _ => none

def Promotion.apply (func : Function) (s : Promotion) : Function :=
  { func with
    blocks := func.blocks.map fun entry ↦
      (entry.1, { entry.2 with
        instrs := (if func.entry = some entry.1 then s.allocas else []) ++
          (entry.2.instrs.zipIdx.filter fun instr ↦ ⟨entry.1, instr.2⟩ ∉ s.removed).map
            Prod.fst }) }

def run (names : FuncId → String) (order : Allocs → Allocs) (fuel : ℕ) (func : Function) :
    Option Function :=
  (promoted names order fuel func).bind fun allocs ↦
    (allocs.foldlM (promote func) ⟨[], []⟩).map (Promotion.apply func)

/-! ## What is collected -/

variable {names : FuncId → String} {func : Function} {allocs : Allocs} {b : BlockId}
  {entry : VirtualRegister × Allocation}

/-- A call with a place of its own that defines the register. -/
def Allocates (func : Function) (entry : VirtualRegister × Allocation) : Prop :=
  ∃ instr, instrAt func entry.2.allocInstr = some instr ∧ instr.dest = some entry.1

theorem mem_insertAlloc {reg : VirtualRegister} {alloc : Allocation}
    (h : entry ∈ insertAlloc allocs reg alloc) : entry ∈ allocs ∨ entry = (reg, alloc) := by
  rw [insertAlloc] at h
  split_ifs at h
  · exact Or.inl h
  · exact (mem_append.mp h).imp_right mem_singleton.mp

theorem allocates_collectHeapInstr (h : ∀ entry ∈ allocs, Allocates func entry)
    {instr : Instruction × ℕ} (hinstr : instrAt func ⟨b, instr.2⟩ = some instr.1) :
    ∀ entry ∈ collectHeapInstr names b allocs instr, Allocates func entry := by
  intro entry hentry
  rw [collectHeapInstr] at hentry
  split_ifs at hentry
  · exact h entry hentry
  · split at hentry
    · split_ifs at hentry
      · split at hentry
        · rename_i hdest _
          split_ifs at hentry
          · exact h entry hentry
          · rcases mem_insertAlloc hentry with hold | rfl
            · exact h entry hold
            · exact ⟨instr.1, hinstr, hdest⟩
        · exact h entry hentry
      · split at hentry
        · obtain ⟨old, hold, rfl⟩ := mem_map.mp hentry
          have hallocates := h old hold
          split_ifs
          · exact hallocates
          · exact hallocates
        · exact h entry hentry
      · exact h entry hentry
    · exact h entry hentry

theorem allocates_collect (hnodup : func.ids.Nodup) :
    ∀ entry ∈ collect names func, Allocates func entry := by
  have hblock : ∀ {b : BlockId} {block : BasicBlock} (l : List (Instruction × ℕ)) (allocs : Allocs),
      func.find b = some block → (∀ instr ∈ l, block.instrs[instr.2]? = some instr.1) →
      (∀ entry ∈ allocs, Allocates func entry) →
      ∀ entry ∈ l.foldl (collectHeapInstr names b) allocs, Allocates func entry := by
    intro b block l
    induction l with
    | nil => exact fun _ _ _ h ↦ h
    | cons instr rest ih =>
      intro allocs hfind hl h
      refine ih _ hfind (fun instr hinstr ↦ hl instr (mem_cons_of_mem _ hinstr)) ?_
      refine allocates_collectHeapInstr h ?_
      rw [instrAt, hfind, bind_some]
      exact hl instr mem_cons_self
  have hgo : ∀ (blocks : List (BlockId × BasicBlock)) (allocs : Allocs),
      (∀ entry ∈ blocks, func.find entry.1 = some entry.2) →
      (∀ entry ∈ allocs, Allocates func entry) →
      ∀ entry ∈ blocks.foldl (collectHeapInstrs names) allocs, Allocates func entry := by
    intro blocks
    induction blocks with
    | nil => exact fun _ _ h ↦ h
    | cons entry rest ih =>
      intro allocs hfind h
      refine ih _ (fun entry hentry ↦ hfind entry (mem_cons_of_mem _ hentry)) ?_
      refine hblock _ allocs (hfind entry mem_cons_self) (fun instr hinstr ↦ ?_) h
      exact mem_zipIdx_iff_getElem?.mp hinstr
  refine hgo func.blocks [] (fun entry hentry ↦ ?_) fun _ hnil ↦ absurd hnil not_mem_nil
  exact Function.find_of_mem hnodup hentry

theorem mem_of_promoted {order : Allocs → Allocs} {fuel : ℕ}
    (h : promoted names order fuel func = some allocs) (hentry : entry ∈ allocs) :
    entry ∈ order (collect names func) := by
  have hgo : ∀ (l found : Allocs), l.foldlM (selectAlloc func fuel) found = some allocs →
      entry ∈ found ∨ entry ∈ l := by
    intro l
    induction l with
    | nil =>
      intro found hrun
      rw [← some.inj hrun] at hentry
      exact Or.inl hentry
    | cons first rest ih =>
      intro found hrun
      rw [foldlM_cons] at hrun
      obtain ⟨next, hnext, hrest⟩ := bind_eq_some_iff.mp hrun
      obtain ⟨⟨freed, visited⟩, -, rfl⟩ := map_eq_some_iff.mp hnext
      rcases ih _ hrest with hmem | hmem
      · dsimp only at hmem
        split_ifs at hmem
        · rcases mem_append.mp hmem with hmem | hmem
          · exact Or.inl hmem
          · exact Or.inr (mem_singleton.mp hmem ▸ mem_cons_self)
        · exact Or.inl hmem
      · exact Or.inr (mem_cons_of_mem _ hmem)
  exact (hgo _ [] h).resolve_left not_mem_nil

/-!
## What becomes of the blocks of an allocation

A run of a machine is followed with a record of the blocks that executions of one allocation have
returned, numbered one after the other: which registers hold a value that is computed from a pointer
to which of them, which of them memory or other code has got hold of, and which are not freed. What
is loaded may be computed from anything that memory has got hold of.
-/

structure Track where
  regs : VirtualRegister → Set ℕ
  kept : Set ℕ
  live : Set ℕ
  next : ℕ

namespace Track

def start : Track := ⟨fun _ ↦ ∅, ∅, ∅, 0⟩

/-- The blocks operands are computed from. -/
def sources (t : Track) (operands : List Operand) : Set ℕ :=
  {k | ∃ operand ∈ operands, ∃ reg ∈ operand.uses, k ∈ t.regs reg}

def setDest (t : Track) (dest : Option VirtualRegister) (blocks : Set ℕ) : Track :=
  match dest with
  | some reg => { t with regs := Function.update t.regs reg blocks }
  | none => t

/-- What an instruction that is no terminator does. -/
def exec (alloc : Allocation) (place : InstrInContext) (instr : Instruction) (t : Track) : Track :=
  if place = alloc.allocInstr then
    { t.setDest instr.dest {t.next} with live := insert t.next t.live, next := t.next + 1 }
  else if place ∈ alloc.freeInstrs then
    { t.setDest instr.dest ∅ with live := t.live \ t.sources instr.operands }
  else
    match instr.opcode with
    | .CALL =>
      { t.setDest instr.dest (t.kept ∪ t.sources instr.operands) with
        kept := t.kept ∪ t.sources instr.operands }
    | .STORE =>
      { t.setDest instr.dest ∅ with kept := t.kept ∪ t.sources [instr.getOperand 0] }
    | .LOAD => t.setDest instr.dest t.kept
    | _ => t.setDest instr.dest (t.sources instr.operands)

/-- What a branch to a block does. -/
def enter (instr : Instruction) (b : BlockId) (params : List VirtualRegister) (t : Track) : Track :=
  { t with
    regs := fun reg ↦ {k | (reg ∉ params ∧ k ∈ t.regs reg) ∨
      ∃ target ∈ instr.targets, target.block = b ∧
        ∃ pair ∈ target.args.zip params, pair.2 = reg ∧ k ∈ t.sources [pair.1]} }

/-- The blocks an instruction reads or writes. -/
def accessed (t : Track) (instr : Instruction) : Set ℕ :=
  match instr.opcode with
  | .LOAD | .STORE => t.sources [instr.getOperand 1]
  | .COPY => t.sources instr.operands
  | _ => ∅

end Track

variable {V W : Type}

/-- Where a run is in its block. -/
def placeOf (func : Function) (c : Config V W) : InstrInContext :=
  ⟨c.block, ((func.find c.block).map fun block ↦ block.instrs.length).getD 0 - c.rest.length⟩

def paramsOf (func : Function) (b : BlockId) : List VirtualRegister :=
  ((func.find b).map BasicBlock.paramRegs).getD []

/-- What a step does. -/
def Track.after (func : Function) (alloc : Allocation) (c c' : Config V W) (t : Track) : Track :=
  match c.rest with
  | [] => t
  | instr :: _ =>
    if instr.isTerminator then t.enter instr c'.block (paramsOf func c'.block)
    else t.exec alloc (placeOf func c) instr

/-- The configurations of the runs from a world, with what has become of the blocks. -/
inductive Tracked (m : Machine V W) (func : Function) (alloc : Allocation) (w : W) :
    Config V W → Track → Prop
  | start {c : Config V W} : Starts func w c → Tracked m func alloc w c .start
  | step {c c' : Config V W} {t : Track} : Tracked m func alloc w c t → Step m func c c' →
    Tracked m func alloc w c' (t.after func alloc c c')

/-- No two blocks are live at the same time, only live ones are accessed, and no other code, no
memory and no caller gets hold of any. -/
structure Unobservable (c : Config V W) (t : Track) : Prop where
  apart : ∀ j ∈ t.live, ∀ k ∈ t.live, j = k
  accessed : ∀ instr rest, c.rest = instr :: rest → t.accessed instr ⊆ t.live
  notKept : t.kept = ∅
  notReturned : ∀ instr rest, c.rest = instr :: rest → instr.opcode = .RET →
    t.sources instr.operands = ∅

end Banjo.Passes.HeapToStackPass
