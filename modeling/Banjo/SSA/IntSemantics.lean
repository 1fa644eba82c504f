import Banjo.SSA.Instruction

/-!
# Integer instructions on numbers of `w` bits

What the machine computes for the integer instructions and comparisons. Divisions by zero trap, and
a shift is by less than the width.
-/

namespace Banjo.SSA

variable {w : ℕ}

namespace Opcode

def isDivision (opcode : Opcode) : Bool := opcode ∈ [SDIV, SREM, UDIV, UREM]

/-- The operands of the opcode are read with a sign. -/
def isSigned (opcode : Opcode) : Bool := opcode ∈ [SDIV, SREM]

def evalInt (opcode : Opcode) (x y : BitVec w) : Option (BitVec w) :=
  match opcode with
  | .ADD => some (x + y)
  | .SUB => some (x - y)
  | .MUL => some (x * y)
  | .AND => some (x &&& y)
  | .OR => some (x ||| y)
  | .XOR => some (x ^^^ y)
  | .SDIV => if y = 0 then none else some (x.sdiv y)
  | .SREM => if y = 0 then none else some (x.srem y)
  | .UDIV => if y = 0 then none else some (x / y)
  | .UREM => if y = 0 then none else some (x % y)
  | .LSHL => if y.toNat < w then some (x <<< y.toNat) else none
  | .LSHR => if y.toNat < w then some (x >>> y.toNat) else none
  | .ASHR => if y.toNat < w then some (x.sshiftRight y.toNat) else none
  | _ => none

variable {x y : BitVec w}

theorem evalInt_sdiv (h : y ≠ 0) : SDIV.evalInt x y = some (x.sdiv y) := if_neg h

theorem evalInt_srem (h : y ≠ 0) : SREM.evalInt x y = some (x.srem y) := if_neg h

theorem evalInt_udiv (h : y ≠ 0) : UDIV.evalInt x y = some (x / y) := if_neg h

theorem evalInt_urem (h : y ≠ 0) : UREM.evalInt x y = some (x % y) := if_neg h

theorem evalInt_lshl (h : y.toNat < w) : LSHL.evalInt x y = some (x <<< y.toNat) := if_pos h

theorem evalInt_lshr (h : y.toNat < w) : LSHR.evalInt x y = some (x >>> y.toNat) := if_pos h

theorem evalInt_ashr (h : y.toNat < w) : ASHR.evalInt x y = some (x.sshiftRight y.toNat) := if_pos h

end Opcode

namespace Comparison

/-- The comparison as an integer instruction makes it. -/
def holdsInt (comparison : Comparison) (x y : BitVec w) : Bool :=
  match comparison with
  | .EQ => x = y
  | .NE => x ≠ y
  | .UGT => y.ult x
  | .UGE => y.ule x
  | .ULT => x.ult y
  | .ULE => x.ule y
  | .SGT => y.slt x
  | .SGE => y.sle x
  | .SLT => x.slt y
  | .SLE => x.sle y
  | _ => false

end Comparison

end Banjo.SSA
