import Banjo.Codegen.Liveness
import Banjo.Lib.Loops

/-!
# The register allocation pass

`RegAllocPass` as the code runs it: the allocator's function is built from the machine function,
fixed ranges and kill points are reserved, the live ranges of each virtual register become a
bundle, bundles joined by a move are coalesced, and the main loop then takes bundles from a
priority queue and assigns, evicts or spills.

The target's analyzer is an interface in the source and a structure of functions here. A
`std::priority_queue` fixes only that `top` has maximal weight, not which of several such bundles
it is, so the loop is a step relation; everything inside one iteration is a function.
-/

namespace Banjo.Codegen

/-- The part of `target::TargetRegAnalyzer` the allocator calls. -/
structure TargetRegAnalyzer (Instr : Type) where
  /-- The operands of the instruction at a position of its block. -/
  getOperands : List Instr → ℕ → List RegOp
  getCandidates : RegClass → List PhysicalReg
  suggestRegs : RegAllocFunc Instr → Bundle → List PhysicalReg
  isMoveFrom : Instr → VirtualReg → Bool

/-- A block of a machine function. -/
structure MBlock (Instr : Type) where
  instrs : List Instr
  predecessors : List ℕ
  successors : List ℕ

structure Alloc where
  physicalReg : PhysicalReg
  bundle : Bundle
  deriving DecidableEq, Repr

structure Context (Instr : Type) where
  func : RegAllocFunc Instr
  bundles : List Bundle
  allocs : List Alloc
  /-- The number of slots of the function's stack frame. -/
  stackSlots : ℕ

namespace RegAllocPass

variable {Instr : Type}

/-! ## Setting up -/

def collectInstrs (analyzer : TargetRegAnalyzer Instr) (instrs : List Instr) :
    List (RegAllocInstr Instr) :=
  instrs.mapIdx fun index iter ↦ ⟨index, iter, analyzer.getOperands instrs index⟩

def createRegAllocFunc (analyzer : TargetRegAnalyzer Instr) (func : List (MBlock Instr)) :
    RegAllocFunc Instr where
  blocks := func.map fun block ↦
    { instrs := collectInstrs analyzer block.instrs
      preds := block.predecessors
      succs := block.successors
      reservedSegments := [] }

def reserve (func : RegAllocFunc Instr) (segment : ReservedSegment) : RegAllocFunc Instr where
  blocks := func.blocks.modify segment.range.block fun block ↦
    { block with reservedSegments := block.reservedSegments ++ [segment] }

/-- The segments `reserve_fixed_ranges` reserves: the ranges of the physical registers, then one
point for each kill. -/
def fixedSegments (liveness : LivenessAnalysis) : List ReservedSegment :=
  (liveness.regRanges.flatMap fun (reg, ranges) ↦
    match reg with
    | .fromVirtual _ => []
    | .fromPhysical reg => ranges.map fun range ↦ ⟨reg, range⟩)
  ++ liveness.killPoints.map fun killPoint ↦
    ⟨killPoint.reg, killPoint.block, ⟨killPoint.instr, 1⟩, ⟨killPoint.instr, 1⟩⟩

def reserveFixedRanges (func : RegAllocFunc Instr) (liveness : LivenessAnalysis) :
    RegAllocFunc Instr :=
  (fixedSegments liveness).foldl reserve func

/-- One bundle for each virtual register. `none` is the exception of a register without a
class. -/
def createBundles (regClasses : VirtualReg → Option RegClass) :
    List (Register × List LiveRange) → Option (List Bundle)
  | [] => some []
  | (.fromPhysical _, _) :: rest => createBundles regClasses rest
  | (.fromVirtual reg, ranges) :: rest => do
    let regClass ← regClasses reg
    let bundles ← createBundles regClasses rest
    return { segments := ranges.map fun range ↦ ⟨reg, range⟩, regClass } :: bundles

/-! ## Coalescing -/

def isConnectingMove (analyzer : TargetRegAnalyzer Instr) (block : RegAllocBlock Instr)
    (dst src : Segment) : Bool :=
  let start := dst.range.start
  let end_ := src.range.end_
  if start.instr = end_.instr ∧ end_.stage = 0 ∧ start.stage = 1 then
    match block.instrs[start.instr]? with
    | some instr => analyzer.isMoveFrom instr.iter src.reg
    | none => false
  else false

def intersect (a b : Bundle) : Bool :=
  a.segments.any fun segmentA ↦ b.segments.any fun segmentB ↦
    segmentA.range.intersects segmentB.range

/-- The test inside `try_coalesce`: the segment of `b` that may join the bundle `a`. -/
def coalescedSegment (analyzer : TargetRegAnalyzer Instr) (func : RegAllocFunc Instr)
    (a b : Bundle) : Option Segment :=
  if a.regClass ≠ b.regClass then none
  else match b.segments with
    | [segmentB] =>
      if a.segments.any fun segmentA ↦
          segmentA.range.block = segmentB.range.block &&
          (match func.blocks[segmentA.range.block]? with
            | some block => isConnectingMove analyzer block segmentA segmentB
                || isConnectingMove analyzer block segmentB segmentA
            | none => false) &&
          !intersect a b
      then some segmentB else none
    | _ => none

/-- `try_coalesce` on the bundles at two indices of the vector it works in. -/
def tryCoalesce (analyzer : TargetRegAnalyzer Instr) (func : RegAllocFunc Instr)
    (bundles : List Bundle) (i j : ℕ) : List Bundle :=
  match bundles[i]?, bundles[j]? with
  | some a, some b =>
    match coalescedSegment analyzer func a b with
    | some segmentB =>
      (bundles.modify i fun a ↦ { a with segments := a.segments ++ [segmentB] }).modify j
        fun b ↦ { b with deleted := true }
    | none => bundles
  | _, _ => bundles

def isDeleted (bundles : List Bundle) (i : ℕ) : Bool := (bundles[i]?.map Bundle.deleted).getD true

/-- The inner loop of `coalesce_bundles`, over all partners of one bundle. -/
def coalesceInto (analyzer : TargetRegAnalyzer Instr) (func : RegAllocFunc Instr) (n i : ℕ)
    (bundles : List Bundle) : List Bundle :=
  (List.range n).foldl
    (fun bundles j ↦ if isDeleted bundles j then bundles else tryCoalesce analyzer func bundles i j)
    bundles

def coalesceBundles (analyzer : TargetRegAnalyzer Instr) (func : RegAllocFunc Instr)
    (bundles : List Bundle) : List Bundle :=
  let n := bundles.length
  ((List.range n).foldl
    (fun bundles i ↦ if isDeleted bundles i then bundles else coalesceInto
      analyzer func n i bundles)
    bundles).filter fun bundle ↦ !bundle.deleted

/-! ## Assigning -/

def isAllocPossible (ctx : Context Instr) (bundle : Bundle) (reg : PhysicalReg) : Bool :=
  bundle.segments.all fun segment ↦
    ((ctx.func.blocks[segment.range.block]?.map RegAllocBlock.reservedSegments).getD []).all
      (fun reserved ↦ !(reg = reserved.reg && segment.range.intersects reserved.range)) &&
    ctx.allocs.all fun alloc ↦ alloc.bundle.segments.all fun allocRange ↦
      !(alloc.physicalReg = reg && allocRange.range.intersects segment.range)

/-- `try_alloc_physical_reg` over a list of candidates: the first that is possible is taken. -/
def tryAssign (ctx : Context Instr) (bundle : Bundle) :
    List PhysicalReg → Option (Context Instr)
  | [] => none
  | candidate :: rest =>
    if isAllocPossible ctx bundle candidate then
      some { ctx with allocs := ctx.allocs ++ [⟨candidate, bundle⟩] }
    else tryAssign ctx bundle rest

def tryAssignSuggestedRegs (analyzer : TargetRegAnalyzer Instr) (ctx : Context Instr)
    (bundle : Bundle) : Option (Context Instr) :=
  tryAssign ctx bundle (analyzer.suggestRegs ctx.func bundle)

def tryAssignCandidateRegs (analyzer : TargetRegAnalyzer Instr) (ctx : Context Instr)
    (bundle : Bundle) : Option (Context Instr) :=
  tryAssign ctx bundle (analyzer.getCandidates bundle.regClass)

/-! ## Evicting -/

def canEvict (bundle : Bundle) (alloc : Alloc) : Bool :=
  if !alloc.bundle.evictable || alloc.bundle.regClass ≠ bundle.regClass then false
  else bundle.segments.all fun segment ↦ alloc.bundle.segments.any fun allocSegment ↦
    allocSegment.range.contains segment.range

/-- The allocations with the first evictable one replaced, and the bundle that lost its place. -/
def evictFirst (bundle : Bundle) : List Alloc → Option (List Alloc × Bundle)
  | [] => none
  | alloc :: rest =>
    if canEvict bundle alloc then some ({ alloc with bundle } :: rest, alloc.bundle)
    else (evictFirst bundle rest).map fun (allocs, evicted) ↦ (alloc :: allocs, evicted)

def tryEvict (ctx : Context Instr) (bundle : Bundle) : Option (Context Instr) :=
  if bundle.evictable then none
  else (evictFirst bundle ctx.allocs).map fun (allocs, evicted) ↦
    { ctx with allocs, bundles := ctx.bundles ++ [evicted] }

/-! ## Spilling -/

/-- The bundle that reloads, stores or does both around one operand of a spilled register. -/
def spilledBundle (stackSlot : StackSlotID) (regClass : RegClass) (reg : VirtualReg)
    (block instr : ℕ) : RegUsage → Option Bundle
  | .DEF => some
      { segments := [⟨reg, block, ⟨instr, 1⟩, ⟨instr, 1⟩⟩], regClass, evictable := false
        srcStackSlot := none, dstStackSlot := some stackSlot }
  | .USE => some
      { segments := [⟨reg, block, ⟨instr, 0⟩, ⟨instr, 0⟩⟩], regClass, evictable := false
        srcStackSlot := some stackSlot, dstStackSlot := none }
  | .USE_DEF => some
      { segments := [⟨reg, block, ⟨instr, 0⟩, ⟨instr, 1⟩⟩], regClass, evictable := false
        srcStackSlot := some stackSlot, dstStackSlot := some stackSlot }
  | .KILL => none

def spilledBundles (func : RegAllocFunc Instr) (stackSlot : StackSlotID) (bundle : Bundle) :
    List Bundle :=
  bundle.segments.flatMap fun range ↦
    let instrs := (func.blocks[range.range.block]?.map RegAllocBlock.instrs).getD []
    (List.range' range.range.start.instr
        (range.range.end_.instr + 1 - range.range.start.instr)).flatMap fun instr ↦
      ((instrs[instr]?.map RegAllocInstr.regs).getD []).filterMap fun op ↦
        if op.reg ≠ .fromVirtual range.reg then none
        else spilledBundle stackSlot bundle.regClass range.reg range.range.block instr op.usage

def spill (ctx : Context Instr) (bundle : Bundle) : Context Instr :=
  { ctx with
    bundles := ctx.bundles ++ spilledBundles ctx.func ctx.stackSlots bundle
    stackSlots := ctx.stackSlots + 1 }

/-! ## The loop -/

def allocBundle (analyzer : TargetRegAnalyzer Instr) (ctx : Context Instr) (bundle : Bundle) :
    Context Instr :=
  match tryAssignSuggestedRegs analyzer ctx bundle with
  | some ctx => ctx
  | none => match tryAssignCandidateRegs analyzer ctx bundle with
    | some ctx => ctx
    | none => match tryEvict ctx bundle with
      | some ctx => ctx
      | none => spill ctx bundle

/-- `BundleComparator::get_weight`; the difference is one of unsigned numbers. -/
def getWeight (bundle : Bundle) : ℕ :=
  bundle.segments.foldl
    (fun longest segment ↦
      max longest ((segment.range.end_.instr + 2 ^ 32 - segment.range.start.instr) % 2 ^ 32)) 0

/-- What `top` promises of the bundle it returns. -/
def IsTop (bundles : List Bundle) (bundle : Bundle) : Prop :=
  bundle ∈ bundles ∧ ∀ other ∈ bundles, getWeight other ≤ getWeight bundle

/-- The context the loop starts in. -/
def initContext (analyzer : TargetRegAnalyzer Instr) (func : RegAllocFunc Instr)
    (liveness : LivenessAnalysis) (regClasses : VirtualReg → Option RegClass)
    (stackSlots : ℕ) : Option (Context Instr) := do
  let func := reserveFixedRanges func liveness
  let bundles ← createBundles regClasses liveness.regRanges
  return { func, bundles := coalesceBundles analyzer func bundles, allocs := [], stackSlots }

/-- One iteration of the loop: a top bundle is popped and allocated. -/
inductive Step (analyzer : TargetRegAnalyzer Instr) : Context Instr → Context Instr → Prop where
  | pop {ctx : Context Instr} {bundle : Bundle} (htop : IsTop ctx.bundles bundle) :
      Step analyzer ctx
        (allocBundle analyzer { ctx with bundles := ctx.bundles.erase bundle } bundle)

/-- The contexts the loop reaches from a register-allocation problem: a machine function, its
live ranges and kill points, and the register classes. -/
def Reachable (analyzer : TargetRegAnalyzer Instr) (func : List (MBlock Instr))
    (liveness : LivenessAnalysis) (regClasses : VirtualReg → Option RegClass) (stackSlots : ℕ)
    (ctx : Context Instr) : Prop :=
  ∃ start, initContext analyzer (createRegAllocFunc analyzer func) liveness regClasses stackSlots
      = some start ∧ Relation.ReflTransGen (Step analyzer) start ctx

end RegAllocPass

end Banjo.Codegen
