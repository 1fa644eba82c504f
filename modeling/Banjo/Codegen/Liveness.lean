import Mathlib.Data.Set.Lattice
import Banjo.Lib.PostOrder
import Mathlib.Algebra.BigOperators.Group.Finset.Basic
import Mathlib.Data.Finset.Sort

/-!
# The register allocator's view of a machine function

Blocks of instructions with the registers each instruction touches, the program points inside a
block, and the live ranges and bundles built from them. A program point is an instruction index
together with a stage: stage `0` is where the instruction reads its uses and stage `1` where it
writes its definitions. `RegAllocPoint.value` orders the points of one block.

The machine instruction behind a `RegAllocInstr` is left as a type variable: the allocator only
hands it to the target's analyzer.
-/

namespace Banjo.Codegen

/-- A virtual register number. -/
abbrev VirtualReg := ℕ

/-- A physical register number. -/
abbrev PhysicalReg := ℕ

/-- `mcode::Register`: a virtual or a physical register. -/
inductive Register where
  | fromVirtual (reg : VirtualReg)
  | fromPhysical (reg : PhysicalReg)
  deriving DecidableEq, Repr

/-- How an instruction touches a register. -/
inductive RegUsage where
  | DEF
  | USE
  | USE_DEF
  | KILL
  deriving DecidableEq, Repr

/-- One entry of an instruction's operand list, as the target's analyzer reports it. -/
structure RegOp where
  reg : Register
  usage : RegUsage
  deriving DecidableEq, Repr

/-- An instruction of the allocator's function. -/
structure RegAllocInstr (Instr : Type) where
  index : ℕ
  iter : Instr
  regs : List RegOp
  deriving Repr

/-- A program point of a block. -/
structure RegAllocPoint where
  instr : ℕ
  /-- `0` is the use stage, `1` the definition stage. -/
  stage : ℕ
  deriving DecidableEq, Repr

namespace RegAllocPoint

def value (point : RegAllocPoint) : ℕ := 2 * point.instr + point.stage

@[simp] theorem value_mk (instr stage : ℕ) : (⟨instr, stage⟩ : RegAllocPoint).value
    = 2 * instr + stage := rfl

end RegAllocPoint

/-- A closed range of program points inside one block. -/
structure LiveRange where
  block : ℕ
  start : RegAllocPoint
  end_ : RegAllocPoint
  deriving DecidableEq, Repr

namespace LiveRange

def intersects (range other : LiveRange) : Bool :=
  if range.block ≠ other.block then false
  else decide (range.start.value ≤ other.end_.value)
    && decide (other.start.value ≤ range.end_.value)

def contains (range other : LiveRange) : Bool :=
  if range.block ≠ other.block then false
  else decide (range.start.value ≤ other.start.value)
    && decide (range.end_.value ≥ other.end_.value)

/-- The program points a range stands for, as pairs of a block and a point value. -/
def points (range : LiveRange) : Set (ℕ × ℕ) :=
  {p | p.1 = range.block ∧ p.2 ∈ Set.Icc range.start.value range.end_.value}

theorem intersects_eq_true_iff {a b : LiveRange} : a.intersects b = true ↔
    a.block = b.block ∧ a.start.value ≤ b.end_.value ∧ b.start.value ≤ a.end_.value := by
  by_cases h : a.block = b.block <;> simp [intersects, h]

theorem contains_eq_true_iff {a b : LiveRange} : a.contains b = true ↔
    a.block = b.block ∧ a.start.value ≤ b.start.value ∧ b.end_.value ≤ a.end_.value := by
  by_cases h : a.block = b.block <;> simp [contains, h]

theorem intersects_comm (a b : LiveRange) : a.intersects b = b.intersects a := by
  rw [Bool.eq_iff_iff, intersects_eq_true_iff, intersects_eq_true_iff]
  exact ⟨fun ⟨h, h1, h2⟩ ↦ ⟨h.symm, h2, h1⟩, fun ⟨h, h1, h2⟩ ↦ ⟨h.symm, h2, h1⟩⟩

/-- Whatever meets a contained range meets the containing one. No range is assumed to be
nonempty. -/
theorem intersects_of_contains {a b c : LiveRange} (hab : a.contains b = true)
    (hbc : b.intersects c = true) : a.intersects c = true := by
  rw [contains_eq_true_iff] at hab
  rw [intersects_eq_true_iff] at hbc ⊢
  obtain ⟨hblock, hstart, hend⟩ := hab
  obtain ⟨hblock', hstart', hend'⟩ := hbc
  exact ⟨hblock.trans hblock', hstart.trans hstart', hend'.trans hend⟩

end LiveRange

/-- A range in which a physical register is taken before allocation starts. -/
structure ReservedSegment where
  reg : PhysicalReg
  range : LiveRange
  deriving DecidableEq, Repr

/-- A block of the allocator's function; `preds` and `succs` are block indices. -/
structure RegAllocBlock (Instr : Type) where
  instrs : List (RegAllocInstr Instr)
  preds : List ℕ
  succs : List ℕ
  reservedSegments : List ReservedSegment
  deriving Repr

/-- The function handed to liveness analysis and to the allocator. -/
structure RegAllocFunc (Instr : Type) where
  blocks : List (RegAllocBlock Instr)
  deriving Repr

abbrev RegClass := ℕ

abbrev StackSlotID := ℕ

/-- A live range of one virtual register. -/
structure Segment where
  reg : VirtualReg
  range : LiveRange
  deriving DecidableEq, Repr

/-- Segments that are allocated together. -/
structure Bundle where
  segments : List Segment
  regClass : RegClass
  evictable : Bool := true
  srcStackSlot : Option StackSlotID := none
  dstStackSlot : Option StackSlotID := none
  deleted : Bool := false
  deriving DecidableEq, Repr

/-!
## Liveness analysis

`LivenessAnalysis::compute`: the registers each block uses and defines, the fixpoint of live-in and
live-out registers over the blocks reachable from the entry, and the live ranges built by a
backward scan of every block.

A `RegisterSet` is a bit set in the source and a finite set here. The unordered map from registers
to their ranges is an association list; only the list of one register is ever read or changed at a
time. The `while` loop over the blocks is bounded by fuel, and `compute` gives it as much as the
sets can grow.
-/

/-- A point at which a physical register is clobbered. -/
structure KillPoint where
  reg : PhysicalReg
  block : ℕ
  instr : ℕ
  deriving DecidableEq, Repr

/-- The ranges of each register, in the iteration order of the unordered map. -/
abbrev RegRanges := List (Register × List LiveRange)

/-- The result of liveness analysis. -/
structure LivenessAnalysis where
  regRanges : RegRanges
  killPoints : List KillPoint
  deriving DecidableEq, Repr

/-- The register sets of one block. -/
structure BlockLiveness where
  defs : Finset Register := ∅
  uses : Finset Register := ∅
  ins : Finset Register := ∅
  outs : Finset Register := ∅
  deriving DecidableEq

namespace Register

/-- `get_physical_reg`, which drops the tag bit whatever it is. -/
def getPhysicalReg : Register → PhysicalReg
  | .fromVirtual reg => reg
  | .fromPhysical reg => reg

/-- The bit position of a register in a register set. -/
def internalValue : Register → ℕ
  | .fromVirtual reg => 2 * reg
  | .fromPhysical reg => 2 * reg + 1

theorem internalValue_injective : Function.Injective internalValue := by
  intro a b h
  cases a with
  | fromVirtual a =>
    cases b with
    | fromVirtual b =>
      exact congrArg fromVirtual (Nat.eq_of_mul_eq_mul_left (by decide) h)
    | fromPhysical b => simp only [internalValue] at h; omega
  | fromPhysical a =>
    cases b with
    | fromVirtual b => simp only [internalValue] at h; omega
    | fromPhysical b =>
      have h' : 2 * a = 2 * b := Nat.succ.inj h
      exact congrArg fromPhysical (Nat.eq_of_mul_eq_mul_left (by decide) h')

instance : LinearOrder Register := LinearOrder.lift' internalValue internalValue_injective

end Register

namespace RegRanges

/-- The ranges of a register; reading a missing key gives an empty vector. -/
def get (regRanges : RegRanges) (reg : Register) : List LiveRange :=
  (regRanges.lookup reg).getD []

/-- Change the ranges of one register, which are inserted when they are missing. -/
def update : RegRanges → Register → (List LiveRange → List LiveRange) → RegRanges
  | [], reg, f => [(reg, f [])]
  | (reg', ranges) :: rest, reg, f =>
    if reg = reg' then (reg', f ranges) :: rest else (reg', ranges) :: update rest reg f

@[simp] theorem get_nil (reg : Register) : get [] reg = [] := rfl

theorem get_cons (reg reg' : Register) (ranges : List LiveRange) (rest : RegRanges) :
    get ((reg', ranges) :: rest) reg = if reg = reg' then ranges else get rest reg := by
  by_cases h : reg = reg'
  · subst h
    simp [get]
  · simp [get, List.lookup_cons, h, beq_eq_false_iff_ne.mpr h]

@[simp] theorem get_update_self (regRanges : RegRanges) (reg : Register)
    (f : List LiveRange → List LiveRange) :
    (regRanges.update reg f).get reg = f (regRanges.get reg) := by
  induction regRanges with
  | nil => simp [update, get_cons]
  | cons head rest ih =>
    obtain ⟨reg', ranges⟩ := head
    by_cases h : reg = reg'
    · simp [update, get_cons, h]
    · simp [update, get_cons, h, ih]

@[simp] theorem get_update_of_ne {reg other : Register} (hne : other ≠ reg)
    (regRanges : RegRanges) (f : List LiveRange → List LiveRange) :
    (regRanges.update reg f).get other = regRanges.get other := by
  induction regRanges with
  | nil => simp [update, get_cons, hne]
  | cons head rest ih =>
    obtain ⟨reg', ranges⟩ := head
    by_cases h : reg = reg'
    · subst h
      simp [update, get_cons, hne]
    · by_cases h' : other = reg' <;> simp [update, get_cons, h, h', ih]

end RegRanges

namespace LivenessAnalysis

variable {Instr : Type}

/-! ## Uses and definitions -/

/-- One operand of `collect_uses_and_defs`. -/
def collectOp (liveness : BlockLiveness) (operand : RegOp) : BlockLiveness :=
  if operand.usage = .DEF then { liveness with defs := insert operand.reg liveness.defs }
  else if operand.usage = .USE ∧ operand.reg ∉ liveness.defs then
    { liveness with uses := insert operand.reg liveness.uses }
  else liveness

def collectUsesAndDefs (block : RegAllocBlock Instr) : BlockLiveness :=
  block.instrs.foldl (fun liveness instr ↦ instr.regs.foldl collectOp liveness) {}

/-! ## The fixpoint -/

def succsOf (func : RegAllocFunc Instr) (blockIndex : ℕ) : List ℕ :=
  (func.blocks[blockIndex]?.map RegAllocBlock.succs).getD []

/-- `collect_blocks_post_order` from the entry block. -/
def blockIndicesPostOrder (func : RegAllocFunc Instr) : List ℕ :=
  PostOrder.postOrder (succsOf func) func.blocks.length 0

/-- The body of the loop over the blocks: the new sets of one block. -/
def updateLiveness (func : RegAllocFunc Instr) (blockLiveness : ℕ → BlockLiveness)
    (blockIndex : ℕ) : BlockLiveness :=
  let liveness := blockLiveness blockIndex
  let outs := (succsOf func blockIndex).foldl
    (fun outs succ ↦ outs ∪ (blockLiveness succ).ins) liveness.outs
  { liveness with
    outs
    ins := liveness.ins ∪ liveness.uses ∪ outs.filter (· ∉ liveness.defs) }

/-- One pass over the blocks, and whether it changed the size of a set. -/
def computePass (func : RegAllocFunc Instr) (indices : List ℕ)
    (blockLiveness : ℕ → BlockLiveness) : (ℕ → BlockLiveness) × Bool :=
  indices.foldl
    (fun (blockLiveness, changes) blockIndex ↦
      let liveness := blockLiveness blockIndex
      let updated := updateLiveness func blockLiveness blockIndex
      (Function.update blockLiveness blockIndex updated,
        changes || (updated.ins.card ≠ liveness.ins.card || updated.outs.card ≠
          liveness.outs.card)))
    (blockLiveness, false)

/-- The loop that runs passes until nothing changes. -/
def computeLoop (func : RegAllocFunc Instr) (indices : List ℕ) :
    ℕ → (ℕ → BlockLiveness) → Option (ℕ → BlockLiveness)
  | 0, _ => none
  | fuel + 1, blockLiveness =>
    match computePass func indices blockLiveness with
    | (blockLiveness, true) => computeLoop func indices fuel blockLiveness
    | (blockLiveness, false) => some blockLiveness

/-- The registers a function mentions. -/
def allRegs (func : RegAllocFunc Instr) : Finset Register :=
  (func.blocks.flatMap fun block ↦ block.instrs.flatMap fun instr ↦
    instr.regs.map RegOp.reg).toFinset

/-- As many passes as the live-in and live-out sets of all blocks can grow, and one more. -/
def maxPasses (func : RegAllocFunc Instr) : ℕ :=
  2 * func.blocks.length * (allRegs func).card + 1

def initialLiveness (func : RegAllocFunc Instr) (blockIndex : ℕ) : BlockLiveness :=
  (func.blocks[blockIndex]?.map collectUsesAndDefs).getD {}

def computeInsAndOuts (func : RegAllocFunc Instr) : Option (ℕ → BlockLiveness) :=
  computeLoop func (blockIndicesPostOrder func).reverse (maxPasses func) (initialLiveness func)

/-! ## Live ranges -/

/-- What the backward scan of a block works on. -/
structure ScanState where
  regRanges : RegRanges
  killPoints : List KillPoint
  liveRegs : Finset Register

/-- `ranges.back().start = start`. -/
def setBackStart (ranges : List LiveRange) (start : RegAllocPoint) : List LiveRange :=
  ranges.modify (ranges.length - 1) fun range ↦ { range with start }

/-- One operand of the scan. -/
def scanOp (blockIndex instrIndex : ℕ) (s : ScanState) (op : RegOp) : ScanState :=
  match op.usage with
  | .USE =>
    if op.reg ∈ s.liveRegs then s
    else
      { s with
        regRanges := s.regRanges.update op.reg
          (· ++ [⟨blockIndex, ⟨instrIndex, 0⟩, ⟨instrIndex, 0⟩⟩])
        liveRegs := insert op.reg s.liveRegs }
  | .DEF =>
    if op.reg ∈ s.liveRegs then
      { s with
        regRanges := s.regRanges.update op.reg (setBackStart · ⟨instrIndex, 1⟩)
        liveRegs := s.liveRegs.erase op.reg }
    else
      { s with
        regRanges := s.regRanges.update op.reg
          (· ++ [⟨blockIndex, ⟨instrIndex, 1⟩, ⟨instrIndex, 1⟩⟩]) }
  | .USE_DEF =>
    if op.reg ∈ s.liveRegs then s
    else
      { s with
        regRanges := s.regRanges.update op.reg
          (· ++ [⟨blockIndex, ⟨instrIndex, 0⟩, ⟨instrIndex, 1⟩⟩])
        liveRegs := insert op.reg s.liveRegs }
  | .KILL =>
    { s with
      killPoints := s.killPoints ++ [⟨op.reg.getPhysicalReg, blockIndex, instrIndex⟩]
      liveRegs := s.liveRegs.erase op.reg }

/-- The scan of the instructions of a block, from the last one to the first. -/
def scanInstrs (blockIndex : ℕ) (instrs : List (RegAllocInstr Instr)) (s : ScanState) :
    ScanState :=
  instrs.zipIdx.reverse.foldl
    (fun s (instr, instrIndex) ↦ instr.regs.foldl (scanOp blockIndex instrIndex) s) s

/-- A live-out register is first taken to be live in the whole block. -/
def pushOuts (blockIndex : ℕ) (block : RegAllocBlock Instr) (outs : Finset Register)
    (regRanges : RegRanges) : RegRanges :=
  (outs.sort (· ≤ ·)).foldl
    (fun regRanges out ↦ regRanges.update out
      (· ++ [⟨blockIndex, ⟨0, 0⟩, ⟨block.instrs.length - 1, 1⟩⟩])) regRanges

/-- The topmost range of a live-in register starts where the block does. -/
def extendIns (ins : Finset Register) (regRanges : RegRanges) : RegRanges :=
  (ins.sort (· ≤ ·)).foldl
    (fun regRanges in_ ↦ regRanges.update in_ (setBackStart · ⟨0, 0⟩)) regRanges

/-- The ranges of one block. -/
def computeBlockRanges (blockIndex : ℕ) (block : RegAllocBlock Instr) (liveness : BlockLiveness)
    (analysis : LivenessAnalysis) : LivenessAnalysis :=
  if block.instrs.isEmpty then analysis
  else
    let s := scanInstrs blockIndex block.instrs
      { regRanges := pushOuts blockIndex block liveness.outs analysis.regRanges
        killPoints := analysis.killPoints
        liveRegs := liveness.outs }
    { regRanges := extendIns liveness.ins s.regRanges, killPoints := s.killPoints }

def computePreciseLiveRanges (func : RegAllocFunc Instr) (blockLiveness : ℕ → BlockLiveness) :
    LivenessAnalysis :=
  func.blocks.zipIdx.foldl
    (fun analysis (block, blockIndex) ↦
      computeBlockRanges blockIndex block (blockLiveness blockIndex) analysis) ⟨[], []⟩

def compute (func : RegAllocFunc Instr) : Option LivenessAnalysis :=
  (computeInsAndOuts func).map (computePreciseLiveRanges func)

end LivenessAnalysis

end Banjo.Codegen
