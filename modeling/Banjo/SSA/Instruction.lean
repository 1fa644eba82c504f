import Banjo.Utils.LargeInt

/-!
# SSA instructions

The values, operands and instructions of the SSA form. A `VirtualRegister` is a number, and the
pointers of the source (to blocks, functions, globals and structures) are numbers that identify
what they point to. The operands of an instruction that are branch targets are kept apart from the
others: `JMP` has one target, `CJMP` and `FCJMP` have the three operands of their condition and
then two targets.
-/

open List

namespace Banjo

/-- The bits of a `double`. -/
structure Double where
  bits : BitVec 64
  deriving DecidableEq, Repr

namespace Double

def isZero (d : Double) : Bool := d.bits &&& 0x7FFFFFFFFFFFFFFF#64 = 0#64

def isNaN (d : Double) : Bool := 0x7FF0000000000000#64 < d.bits &&& 0x7FFFFFFFFFFFFFFF#64

/-- `==` on doubles: the two zeros are equal, a NaN equals nothing. -/
def eq (a b : Double) : Bool := !a.isNaN && !b.isNaN && (a = b || (a.isZero && b.isZero))

end Double

namespace SSA

abbrev VirtualRegister := ℕ

/-- A `BasicBlockIter`: the identity of a block. -/
abbrev BlockId := ℕ

abbrev FuncId := ℕ

abbrev GlobalId := ℕ

abbrev StructId := ℕ

inductive Primitive where
  | VOID | I8 | I16 | I32 | I64 | U8 | U16 | U32 | U64 | F32 | F64 | ADDR
  deriving DecidableEq, Repr

inductive TypeKind where
  | primitive (primitive : Primitive)
  | struct_ (struct_ : StructId)
  deriving DecidableEq, Repr

structure SSAType where
  kind : TypeKind
  arrayLength : ℕ := 1
  deriving DecidableEq, Repr

instance : Coe Primitive SSAType := ⟨fun primitive ↦ ⟨.primitive primitive, 1⟩⟩

/-- `is_floating_point`. -/
def SSAType.isFloatingPoint (type : SSAType) : Bool :=
  type.kind ∈ [.primitive .F32, .primitive .F64] && type.arrayLength = 1

inductive Comparison where
  | EQ | NE | UGT | UGE | ULT | ULE | SGT | SGE | SLT | SLE
  | FEQ | FNE | FGT | FGE | FLT | FLE
  deriving DecidableEq, Repr

inductive Opcode where
  | ALLOCA | LOAD | STORE | LOADARG
  | ADD | SUB | MUL | SDIV | SREM | UDIV | UREM
  | FADD | FSUB | FMUL | FDIV
  | AND | OR | XOR | LSHL | LSHR | ASHR
  | JMP | CJMP | FCJMP | SELECT | CALL | RET
  | UEXTEND | SEXTEND | TRUNCATE | FPROMOTE | FDEMOTE | UTOF | STOF | FTOU | FTOS
  | MEMBERPTR | OFFSETPTR | COPY | SQRT
  deriving DecidableEq, Repr

/-- The alternatives of the variant inside an operand, without the branch targets. -/
inductive Value where
  | intImmediate (immediate : LargeInt)
  | fpImmediate (immediate : Double)
  | register (reg : VirtualRegister)
  | func (func : FuncId)
  | global (global : GlobalId)
  | externFunc (func : FuncId)
  | externGlobal (global : GlobalId)
  | comparison (comparison : Comparison)
  | type
  | undef
  deriving DecidableEq, Repr

namespace Value

/-- `==` on operands, which compares the variants and so compares doubles as doubles. -/
def eq : Value → Value → Bool
  | .fpImmediate a, .fpImmediate b => a.eq b
  | a, b => a = b

def isRegister : Value → Bool
  | .register _ => true
  | _ => false

/-- Values that compare equal are the same, or zeros of different sign. -/
theorem eq_or_zero_of_eq {a b : Value} (h : a.eq b = true) :
    a = b ∨ ∃ x y, a = .fpImmediate x ∧ b = .fpImmediate y ∧ x.isZero ∧ y.isZero := by
  cases a with
  | fpImmediate x =>
    cases b with
    | fpImmediate y =>
      simp only [eq, Double.eq, Bool.and_eq_true, Bool.or_eq_true, decide_eq_true_eq] at h
      rcases h.2 with rfl | hzero
      · exact Or.inl rfl
      · exact Or.inr ⟨x, y, rfl, rfl, hzero⟩
    | _ => simp [eq] at h
  | _ => exact Or.inl (by simpa [eq] using h)

end Value

structure Operand where
  value : Value
  type : SSAType := Primitive.VOID
  deriving DecidableEq, Repr

namespace Operand

/-- The register an operand reads. -/
def uses (operand : Operand) : List VirtualRegister :=
  match operand.value with
  | .register reg => [reg]
  | _ => []

def withType (operand : Operand) (type : SSAType) : Operand := { operand with type }

theorem mem_uses {operand : Operand} {reg : VirtualRegister} :
    reg ∈ operand.uses ↔ operand.value = .register reg := by
  unfold uses
  split
  · rename_i r hr
    rw [mem_singleton, hr, Value.register.injEq]
    exact eq_comm
  · rename_i hr
    exact iff_of_false not_mem_nil (hr reg)

end Operand

structure BranchTarget where
  block : BlockId
  args : List Operand
  deriving DecidableEq, Repr

inductive Attribute where
  | NONE | ARG_STORE | SAVE_ARG | VARIADIC
  deriving DecidableEq, Repr

structure Instruction where
  opcode : Opcode
  dest : Option VirtualRegister := none
  operands : List Operand := []
  targets : List BranchTarget := []
  attr : Attribute := .NONE
  attrData : ℕ := 0
  deriving DecidableEq, Repr

namespace Instruction

def isBranching (instr : Instruction) : Bool :=
  instr.opcode = .JMP || instr.opcode = .CJMP || instr.opcode = .FCJMP

def isCondBranch (instr : Instruction) : Bool := instr.opcode = .CJMP || instr.opcode = .FCJMP

def mightAccessMemory (instr : Instruction) : Bool :=
  instr.opcode = .LOAD || instr.opcode = .STORE || instr.opcode = .CALL || instr.opcode = .COPY

/-- The instructions a block may end in. -/
def isTerminator (instr : Instruction) : Bool := instr.isBranching || instr.opcode = .RET

/-- `get_operand`. -/
def getOperand (instr : Instruction) (i : ℕ) : Operand :=
  instr.operands.getD i ⟨.undef, Primitive.VOID⟩

/-- The registers `iter_regs` visits. -/
def uses (instr : Instruction) : List VirtualRegister :=
  instr.operands.flatMap Operand.uses ++
    instr.targets.flatMap fun target ↦ target.args.flatMap Operand.uses

variable {instr : Instruction} {reg : VirtualRegister}

theorem mem_uses_of_operand {operand : Operand}
    (h : operand ∈ instr.operands) (hreg : operand.value = .register reg) : reg ∈ instr.uses :=
  mem_append_left _ (mem_flatMap.mpr ⟨operand, h, Operand.mem_uses.mpr hreg⟩)

theorem mem_uses_of_arg {target : BranchTarget} {arg : Operand} (h : target ∈ instr.targets)
    (harg : arg ∈ target.args) (hreg : arg.value = .register reg) : reg ∈ instr.uses :=
  mem_append_right _ (mem_flatMap.mpr ⟨target, h,
    mem_flatMap.mpr ⟨arg, harg, Operand.mem_uses.mpr hreg⟩⟩)

theorem mem_uses_of_getOperand {i : ℕ}
    (h : (instr.getOperand i).value = .register reg) : reg ∈ instr.uses := by
  rw [getOperand, getD_eq_getElem?_getD] at h
  cases hget : instr.operands[i]? with
  | none =>
    rw [hget] at h
    cases h
  | some operand =>
    rw [hget, Option.getD_some] at h
    exact mem_uses_of_operand (mem_of_getElem? hget) h

end Instruction

end SSA

end Banjo
