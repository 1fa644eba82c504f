import Banjo.SSA.Instruction

/-!
# Precomputing

`precompute_result` computes an instruction whose operands are immediates, and selects an operand
of a `SELECT` that compares immediates. The outer `Option` of its result is `none` where the code
does not get to a result: an operand does not hold the alternative that is asked for, a division by
zero, a shift that is not defined. The arithmetic of doubles is a parameter.
-/

namespace Banjo.Passes

open SSA

/-- The operations on doubles. -/
structure FloatArithmetic where
  add : Double → Double → Double
  sub : Double → Double → Double
  mul : Double → Double → Double
  div : Double → Double → Double
  sqrt : Double → Double
  lt : Double → Double → Bool
  /-- The double of a signed number. -/
  ofSigned : BitVec 64 → Double

namespace Precomputing

variable (fp : FloatArithmetic)

def precomputeBinaryIntOperation (instr : Instruction)
    (compute : LargeInt → LargeInt → Option LargeInt) : Option (Option Operand) :=
  match (instr.getOperand 0).value, (instr.getOperand 1).value with
  | .intImmediate lhs, .intImmediate rhs =>
    (compute lhs rhs).map fun result ↦ some ⟨.intImmediate result, (instr.getOperand 0).type⟩
  | _, _ => some none

def precomputeBinaryFpOperation (instr : Instruction) (compute : Double → Double → Double) :
    Option (Option Operand) :=
  match (instr.getOperand 0).value, (instr.getOperand 1).value with
  | .fpImmediate lhs, .fpImmediate rhs =>
    some (some ⟨.fpImmediate (compute lhs rhs), (instr.getOperand 0).type⟩)
  | _, _ => some none

/-- A shift by a count below 64. -/
def shift (f : BitVec 64 → ℕ → BitVec 64) (value count : BitVec 64) : Option (BitVec 64) :=
  if count.toNat < 64 then some (f value count.toNat) else none

def precomputeLshl (lhs rhs : LargeInt) : Option LargeInt :=
  (shift (· <<< ·) lhs.toBits rhs.toBits).map LargeInt.ofSigned32

def precomputeLshr (lhs rhs : LargeInt) : Option LargeInt :=
  (shift BitVec.sshiftRight lhs.toBits rhs.toBits).map LargeInt.ofSigned32

/-- `to_u64` gives a signed number, so that this shifts the sign in. -/
def precomputeAshr (lhs rhs : LargeInt) : Option LargeInt :=
  (shift BitVec.sshiftRight lhs.magnitude rhs.magnitude).map LargeInt.ofSigned

def isInt : Comparison → Bool
  | .FEQ | .FNE | .FGT | .FGE | .FLT | .FLE => false
  | _ => true

def compareInts (comparison : Comparison) (lhs rhs : LargeInt) : Bool :=
  match comparison with
  | .EQ => lhs = rhs
  | .NE => lhs ≠ rhs
  | .UGT | .SGT => rhs.lt lhs
  | .UGE | .SGE => !lhs.lt rhs
  | .ULT | .SLT => lhs.lt rhs
  | .ULE | .SLE => !rhs.lt lhs
  | _ => false

def compareFps (comparison : Comparison) (lhs rhs : Double) : Bool :=
  match comparison with
  | .FEQ => lhs.eq rhs
  | .FNE => !lhs.eq rhs
  | .FGT => fp.lt rhs lhs
  | .FGE => fp.lt rhs lhs || lhs.eq rhs
  | .FLT => fp.lt lhs rhs
  | .FLE => fp.lt lhs rhs || lhs.eq rhs
  | _ => false

def precomputeCmp (lhs rhs : Operand) (comparison : Comparison) : Option Bool :=
  match lhs.value, rhs.value with
  | .intImmediate a, .intImmediate b =>
    if isInt comparison then some (compareInts comparison a b) else none
  | .fpImmediate a, .fpImmediate b =>
    if isInt comparison then none else some (compareFps fp comparison a b)
  | _, _ => none

def isImmediate (operand : Operand) : Bool :=
  match operand.value with
  | .intImmediate _ | .fpImmediate _ => true
  | _ => false

def precomputeSelect (instr : Instruction) : Option (Option Operand) :=
  match (instr.getOperand 1).value with
  | .comparison comparison =>
    if isImmediate (instr.getOperand 0) && isImmediate (instr.getOperand 2) then
      (precomputeCmp fp (instr.getOperand 0) (instr.getOperand 2) comparison).map fun result ↦
        some (if result then instr.getOperand 3 else instr.getOperand 4)
    else some none
  | _ => none

def precomputeExtend (instr : Instruction) : Option Operand :=
  match (instr.getOperand 0).value with
  | .intImmediate _ => some ((instr.getOperand 0).withType (instr.getOperand 1).type)
  | _ => none

def precomputeItof (instr : Instruction) : Option Operand :=
  match (instr.getOperand 0).value with
  | .intImmediate value =>
    some ⟨.fpImmediate (fp.ofSigned value.toBits), (instr.getOperand 1).type⟩
  | _ => none

def precomputeSqrt (instr : Instruction) : Option Operand :=
  match (instr.getOperand 0).value with
  | .fpImmediate value => some ⟨.fpImmediate (fp.sqrt value), (instr.getOperand 0).type⟩
  | _ => none

def precomputeResult (instr : Instruction) : Option (Option Operand) :=
  match instr.opcode with
  | .ADD => precomputeBinaryIntOperation instr fun lhs rhs ↦ some (lhs.add rhs)
  | .SUB => precomputeBinaryIntOperation instr fun lhs rhs ↦ some (lhs.sub rhs)
  | .MUL => precomputeBinaryIntOperation instr fun lhs rhs ↦ some (lhs.mul rhs)
  | .SDIV | .UDIV => precomputeBinaryIntOperation instr LargeInt.div
  | .SREM | .UREM => precomputeBinaryIntOperation instr LargeInt.mod
  | .FADD => precomputeBinaryFpOperation instr fp.add
  | .FSUB => precomputeBinaryFpOperation instr fp.sub
  | .FMUL => precomputeBinaryFpOperation instr fp.mul
  | .FDIV => precomputeBinaryFpOperation instr fp.div
  | .AND => precomputeBinaryIntOperation instr fun lhs rhs ↦ some (lhs.and rhs)
  | .OR => precomputeBinaryIntOperation instr fun lhs rhs ↦ some (lhs.or rhs)
  | .XOR => precomputeBinaryIntOperation instr fun lhs rhs ↦ some (lhs.xor rhs)
  | .LSHL => precomputeBinaryIntOperation instr precomputeLshl
  | .LSHR => precomputeBinaryIntOperation instr precomputeLshr
  | .ASHR => precomputeBinaryIntOperation instr precomputeAshr
  | .SELECT => precomputeSelect fp instr
  | .SEXTEND | .UEXTEND => some (precomputeExtend instr)
  | .UTOF | .STOF => some (precomputeItof fp instr)
  | .SQRT => some (precomputeSqrt fp instr)
  | _ => some none

end Precomputing

end Banjo.Passes
