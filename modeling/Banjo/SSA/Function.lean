import Banjo.SSA.Instruction

/-!
# SSA functions

A function is a linked list of basic blocks, here a list of blocks under their identities, and the
counter `next_virtual_reg` draws from. Blocks are looked up, changed and removed by identity; the
order of the list is what the loops over the blocks of a function follow, and its first block is
the entry.
-/

open List

namespace Banjo.SSA

structure BasicBlock where
  instrs : List Instruction
  paramRegs : List VirtualRegister := []
  paramTypes : List SSAType := []
  deriving DecidableEq, Repr

namespace BasicBlock

def append (block : BasicBlock) (instr : Instruction) : BasicBlock :=
  { block with instrs := block.instrs ++ [instr] }

/-- The blocks the last instruction can jump to. -/
def successors (block : BasicBlock) : List BlockId :=
  match block.instrs.getLast? with
  | some instr => if instr.isBranching then instr.targets.map BranchTarget.block else []
  | none => []

/-- The registers a block defines. -/
def defs (block : BasicBlock) : List VirtualRegister :=
  block.paramRegs ++ block.instrs.filterMap Instruction.dest

end BasicBlock

structure Function where
  blocks : List (BlockId × BasicBlock)
  lastVirtualReg : ℕ
  deriving DecidableEq, Repr

namespace Function

def find (func : Function) (b : BlockId) : Option BasicBlock := func.blocks.lookup b

def ids (func : Function) : List BlockId := func.blocks.map Prod.fst

def entry (func : Function) : Option BlockId := func.ids.head?

/-- The instructions of a function, block by block. -/
def instrs (func : Function) : List Instruction := func.blocks.flatMap fun entry ↦ entry.2.instrs

/-- The block after a block in the list. -/
def nextBlock (func : Function) (b : BlockId) : Option BlockId :=
  func.ids[func.ids.idxOf b + 1]?

def modify (func : Function) (b : BlockId) (f : BasicBlock → BasicBlock) : Function :=
  { func with blocks := func.blocks.map fun (c, block) ↦ (c, if c = b then f block else block) }

def remove (func : Function) (b : BlockId) : Function :=
  { func with blocks := func.blocks.filter fun (c, _) ↦ c ≠ b }

/-- `next_virtual_reg`. -/
def nextVirtualReg (func : Function) : VirtualRegister × Function :=
  (func.lastVirtualReg, { func with lastVirtualReg := func.lastVirtualReg + 1 })

/-- `merge_blocks`, of two different blocks. -/
def mergeBlocks (func : Function) (first second : BlockId) : Function :=
  (func.modify first fun block ↦
    { block with instrs := block.instrs ++ ((func.find second).map
      BasicBlock.instrs).getD [] }).remove
    second

def succs (func : Function) (b : BlockId) : List BlockId :=
  ((func.find b).map BasicBlock.successors).getD []

/-- A path of branches leads from the entry to the block. -/
def Reachable (func : Function) (b : BlockId) : Prop :=
  ∃ entry, func.entry = some entry ∧ Relation.ReflTransGen (fun a b ↦ b ∈ func.succs a) entry b

/-! ## Lookups -/

variable {block : BasicBlock}

theorem mem_of_find {func : Function} {b : BlockId}
    (h : func.find b = some block) : (b, block) ∈ func.blocks := by
  obtain ⟨front, rest, hblocks, -⟩ := lookup_eq_some_iff.mp h
  rw [hblocks]
  exact mem_append_right _ mem_cons_self

theorem find_of_mem {func : Function} {b : BlockId} (h : func.ids.Nodup)
    (hmem : (b, block) ∈ func.blocks) : func.find b = some block := by
  have hgo : ∀ blocks : List (BlockId × BasicBlock), (blocks.map Prod.fst).Nodup →
      (b, block) ∈ blocks → blocks.lookup b = some block := by
    intro blocks
    induction blocks with
    | nil => exact fun _ hmem ↦ absurd hmem not_mem_nil
    | cons head rest ih =>
      intro hnodup hmem
      rw [map_cons, nodup_cons] at hnodup
      rcases mem_cons.mp hmem with rfl | hmem
      · exact lookup_cons_self
      · have hne : b ≠ head.1 := by
          rintro rfl
          exact hnodup.1 (mem_map.mpr ⟨_, hmem, rfl⟩)
        rw [lookup_cons, beq_eq_false_iff_ne.mpr hne]
        exact ih hnodup.2 hmem
  exact hgo func.blocks h hmem

variable (func : Function)

variable (b c : BlockId) (f : BasicBlock → BasicBlock)

@[simp] theorem find_modify :
    (func.modify b f).find c = if c = b then (func.find c).map f else func.find c := by
  have h : ∀ blocks : List (BlockId × BasicBlock),
      (blocks.map fun (c, block) ↦ (c, if c = b then f block else block)).lookup c
        = if c = b then (blocks.lookup c).map f else blocks.lookup c := by
    intro blocks
    induction blocks with
    | nil => simp
    | cons head rest ih =>
      obtain ⟨d, block⟩ := head
      by_cases hd : c = d
      · subst hd
        by_cases hc : c = b <;> simp [hc]
      · simp [lookup_cons, beq_eq_false_iff_ne.mpr hd, ih]
  exact h func.blocks

@[simp] theorem find_remove : (func.remove b).find c = if c = b then none else func.find c := by
  have h : ∀ blocks : List (BlockId × BasicBlock),
      (blocks.filter fun (c, _) ↦ c ≠ b).lookup c = if c = b then none else blocks.lookup c := by
    intro blocks
    induction blocks with
    | nil => simp
    | cons head rest ih =>
      obtain ⟨d, block⟩ := head
      by_cases hd : d = b
      · subst hd
        rw [filter_cons_of_neg (by simp), ih]
        by_cases hc : c = d
        · simp [hc]
        · simp [hc, lookup_cons, beq_eq_false_iff_ne.mpr hc]
      · rw [filter_cons_of_pos (by simpa using hd)]
        by_cases hc : c = d
        · subst hc
          simp [hd]
        · rw [lookup_cons, lookup_cons, beq_eq_false_iff_ne.mpr hc]
          exact ih
  exact h func.blocks

@[simp] theorem ids_modify : (func.modify b f).ids = func.ids := by
  simp [ids, modify, Function.comp_def]

theorem ids_remove : (func.remove b).ids = func.ids.filter (· ≠ b) := by
  simp only [ids, remove, filter_map]
  rfl

theorem mem_ids_iff {func : Function} {b : BlockId} :
    b ∈ func.ids ↔ ∃ block, func.find b = some block := by
  have h : ∀ blocks : List (BlockId × BasicBlock),
      b ∈ blocks.map Prod.fst ↔ ∃ block, blocks.lookup b = some block := by
    intro blocks
    induction blocks with
    | nil => simp
    | cons head rest ih =>
      obtain ⟨d, block⟩ := head
      by_cases hd : b = d
      · simp [hd]
      · simp [lookup_cons, beq_eq_false_iff_ne.mpr hd, hd, ih]
  exact h func.blocks

end Function

end Banjo.SSA
