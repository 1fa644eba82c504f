import Banjo.SSA.Function

/-!
# Replacing registers

`replace_in_func` puts a value in the place of a register everywhere in a function. Only the values
change: operands keep their types, and instructions their opcodes and destinations.
-/

namespace Banjo

namespace SSA

/-- A value in the place of a register, under the type the operand had. -/
def Operand.replace (reg : VirtualRegister) (value operand : Operand) : Operand :=
  if operand.value = .register reg then value.withType operand.type else operand

def BranchTarget.replace (reg : VirtualRegister) (value : Operand) (target : BranchTarget) :
    BranchTarget := { target with args := target.args.map (Operand.replace reg value) }

end SSA

namespace Passes.PassUtils

open SSA

def replaceInInstr (reg : VirtualRegister) (value : Operand) (instr : Instruction) : Instruction :=
  { instr with
    operands := instr.operands.map (Operand.replace reg value)
    targets := instr.targets.map (BranchTarget.replace reg value) }

def replaceInInstrs (reg : VirtualRegister) (value : Operand) (block : BasicBlock) : BasicBlock :=
  { block with instrs := block.instrs.map (replaceInInstr reg value) }

def replaceInBlock (func : Function) (b : BlockId) (reg : VirtualRegister) (value : Operand) :
    Function := func.modify b (replaceInInstrs reg value)

def replaceInFunc (func : Function) (reg : VirtualRegister) (value : Operand) : Function :=
  { func with
    blocks := func.blocks.map fun (b, block) ↦ (b, replaceInInstrs reg value block) }

/-- `find_def`: the first instruction that defines the register. -/
def findDef (func : Function) (reg : VirtualRegister) : Option Instruction :=
  func.instrs.find? fun instr ↦ instr.dest = some reg

end Passes.PassUtils

end Banjo
