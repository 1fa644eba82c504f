import Banjo.SSA.Function

/-!
# Dead code elimination

Instructions whose result nobody reads are removed until there are no more of them. Then the
parameters that are only passed from block to block are found: a parameter is used if an
instruction reads it, or if it is an argument for a parameter that is used. The loop over the
instructions is bounded by fuel, and running out of it is `none`.
-/

namespace Banjo.SSA.DeadCodeElimination

/-! ## Instructions -/

/-- `reg_uses`. -/
abbrev Uses := VirtualRegister → ℕ

def addUses (uses : Uses) (instr : Instruction) : Uses :=
  fun reg ↦ uses reg + instr.uses.count reg

def dropUses (uses : Uses) (instr : Instruction) : Uses :=
  fun reg ↦ uses reg - instr.uses.count reg

def regUses (func : Function) : Uses := func.instrs.foldl addUses fun _ ↦ 0

/-- The uses that are left, and whether something was removed. -/
abbrev Sweep := Uses × Bool

/-- What is done at an instruction, with the instructions after it that are left. -/
def visit (instr : Instruction) (state : Sweep × List Instruction) : Sweep × List Instruction :=
  if instr.opcode = .CALL then (state.1, instr :: state.2)
  else
    match instr.dest with
    | some reg =>
      if state.1.1 reg = 0 then ((dropUses state.1.1 instr, true), state.2)
      else (state.1, instr :: state.2)
    | none => (state.1, instr :: state.2)

/-- The instructions of a block, the last one first. -/
def sweepInstrs (sweep : Sweep) (instrs : List Instruction) : Sweep × List Instruction :=
  instrs.foldr visit (sweep, [])

def sweepBlocks (sweep : Sweep) :
    List (BlockId × BasicBlock) → Sweep × List (BlockId × BasicBlock)
  | [] => (sweep, [])
  | (b, block) :: rest =>
    let swept := sweepInstrs sweep block.instrs
    let others := sweepBlocks swept.1 rest
    (others.1, (b, { block with instrs := swept.2 }) :: others.2)

/-- The loop while something changes. -/
def removeLoop : ℕ → Uses → Function → Option Function
  | 0, _, _ => none
  | fuel + 1, uses, func =>
    let swept := sweepBlocks (uses, false) func.blocks
    if swept.1.2 then removeLoop fuel swept.1.1 { func with blocks := swept.2 }
    else some { func with blocks := swept.2 }

def removeUnusedInstrs (func : Function) (fuel : ℕ) : Option Function :=
  removeLoop fuel (regUses func) func

/-! ## Parameters -/

/-- A `ParamInfo`: a block but the entry, and the index of a parameter. -/
abbrev ParamId := BlockId × ℕ

def regs2params (func : Function) (reg : VirtualRegister) : Option ParamId :=
  func.blocks.tail.findSome? fun (b, block) ↦
    if reg ∈ block.paramRegs then some (b, block.paramRegs.idxOf reg) else none

/-- The parameter an operand is, if it is one. -/
def paramOf (func : Function) (operand : Operand) : Option ParamId :=
  match operand.value with
  | .register reg => regs2params func reg
  | _ => none

/-- The targets of the last instruction of each block. -/
def branchTargets (func : Function) : List BranchTarget :=
  func.blocks.flatMap fun entry ↦
    match entry.2.instrs.getLast? with
    | some instr => instr.targets
    | none => []

/-- `direct_src_params`. -/
def directSrcParams (func : Function) (param : ParamId) : List ParamId :=
  (branchTargets func).filterMap fun target ↦
    if target.block = param.1 then target.args[param.2]?.bind (paramOf func) else none

def markAsUsed (func : Function) : ℕ → List ParamId → ParamId → List ParamId
  | 0, used, _ => used
  | fuel + 1, used, param =>
    (directSrcParams func param).foldl
      (fun used src ↦ if src ∈ used then used else markAsUsed func fuel used src) (param :: used)

/-- The parameters instructions read. -/
def readParams (func : Function) : List ParamId :=
  func.instrs.flatMap fun instr ↦ instr.operands.filterMap (paramOf func)

def usedParams (func : Function) (fuel : ℕ) : List ParamId :=
  (readParams func).foldl (markAsUsed func fuel) []

/-- The elements of a list at the indices of the used parameters of a block. -/
def keepUsed {α : Type} (used : List ParamId) (b : BlockId) (l : List α) : List α :=
  (l.zipIdx.filter fun (_, i) ↦ (b, i) ∈ used).map Prod.fst

/-- The arguments of a target, unless it is the entry. -/
def filterArgs (func : Function) (used : List ParamId) (target : BranchTarget) : BranchTarget :=
  if func.entry = some target.block then target
  else { target with args := keepUsed used target.block target.args }

/-- The last instruction of a block. -/
def filterLast (func : Function) (used : List ParamId) (instrs : List Instruction) :
    List Instruction :=
  match instrs.getLast? with
  | some last =>
    instrs.dropLast ++ [{ last with targets := last.targets.map (filterArgs func used) }]
  | none => []

def filterBlock (func : Function) (used : List ParamId) (entry : BlockId × BasicBlock) :
    BlockId × BasicBlock :=
  (entry.1,
    if func.entry = some entry.1 then
      { entry.2 with instrs := filterLast func used entry.2.instrs }
    else
      { instrs := filterLast func used entry.2.instrs
        paramRegs := keepUsed used entry.1 entry.2.paramRegs
        paramTypes := keepUsed used entry.1 entry.2.paramTypes })

def removeUnusedParams (func : Function) (fuel : ℕ) : Function :=
  { func with blocks := func.blocks.map (filterBlock func (usedParams func fuel)) }

def run (func : Function) (fuel : ℕ) : Option Function :=
  (removeUnusedInstrs func fuel).map fun func ↦ removeUnusedParams func fuel

end Banjo.SSA.DeadCodeElimination
