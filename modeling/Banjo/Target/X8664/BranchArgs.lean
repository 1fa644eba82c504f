import Banjo.Target.X8664.AddrMemAccess

/-!
# The arguments of branches on x86-64

`move_branch_args` moves the arguments of a branch into registers of their own, one for each
parameter of the target, and `emit_block_prologue` moves those into the parameters. No parameter is
written before all arguments were read. The moves are as wide as the operands can be: a value of
five to seven bytes is moved with its lower four.
-/

open List Option BitVec Function

namespace Banjo.Target.X8664

open SSA
open Codegen (StackSlotID)
open Emit (Condition)

/-! ## Code -/

/-- A register of the lowered function: one of those addresses are made of, the one
`block_arg_tmps` has for a parameter, or the one `create_reg` returns for its argument. -/
inductive BranchReg where
  | lower (reg : LowerReg)
  | argTmp (param : VirtualRegister)
  | argSrc (param : VirtualRegister)
  deriving DecidableEq, Repr

inductive BranchSource where
  | register (reg : BranchReg)
  | intImmediate (immediate : LargeInt)
  | fpConst (value : Double)
  | stackSlot (slot : StackSlotID)
  | addr (addr : AddrOperand)
  | symbol (symbol : Value) (reloc : Relocation)
  | symbolDeref (symbol : Value) (reloc : Relocation)
  deriving DecidableEq, Repr

structure BranchInstr where
  opcode : Mcode.Opcode
  size : ℕ
  dst : BranchReg
  src : BranchSource
  deriving DecidableEq, Repr

inductive BranchItem where
  | instr (instr : BranchInstr)
  | jcc (condition : Condition) (target : BlockId)
  | jmp (target : BlockId)
  deriving DecidableEq, Repr

/-! ## Lowering -/

/-- What lowering knows of the function and the target. `loads` are the addresses of the `LOAD`s
whose result is used once. -/
structure BranchContext where
  layout : SSA.DataLayout
  slots : VirtualRegister → Option StackSlotID
  loads : VirtualRegister → Option AddrComponents
  params : BlockId → List (VirtualRegister × SSAType)
  unix : Bool
  darwin : Bool
  largeCodeModel : Bool

def getMoveOpcode (type : SSAType) : Mcode.Opcode :=
  if type = Primitive.F32 then .MOVSS else if type = Primitive.F64 then .MOVSD else .MOV

def moveOpcodeOfSize (size : ℕ) : Mcode.Opcode := if size = 4 then .MOVSS else .MOVSD

def zeroOpcodeOfSize (size : ℕ) : Mcode.Opcode := if size = 4 then .XORPS else .XORPD

section Lowering

variable (ctx : BranchContext)

def symbolReloc (symbol : Value) : Relocation :=
  match ctx.unix, symbol with
  | true, .externFunc _ => .PLT
  | true, .externGlobal _ => .GOT
  | _, _ => .NONE

def isFunc : Value → Bool
  | .func _ | .externFunc _ => true
  | _ => false

/-- `lower_symbol_as_operand`. -/
def lowerSymbolAsOperand (tmp : BranchReg) (symbol : Value) : List BranchInstr × BranchSource :=
  let reloc := symbolReloc ctx symbol
  if ctx.darwin ∧ isFunc symbol then ([], .symbol symbol reloc)
  else if ctx.largeCodeModel then ([⟨.MOV, 8, tmp, .symbol symbol reloc⟩], .register tmp)
  else if reloc = .NONE then ([⟨.LEA, 8, tmp, .symbolDeref symbol reloc⟩], .register tmp)
  else ([⟨.MOV, 8, tmp, .symbolDeref symbol reloc⟩], .register tmp)

/-- `lower_as_operand`, without `allow_addrs`. -/
def lowerAsOperand (tmp : BranchReg) (value : SSA.Operand) :
    Option (List BranchInstr × BranchSource) :=
  let size := ctx.layout.size value.type
  match value.value with
  | .intImmediate immediate =>
    if size = 8 ∧ 2 ^ 32 ≤ immediate.toBits.toNat then
      some ([⟨.MOV, 8, tmp, .intImmediate immediate⟩], .register tmp)
    else some ([], .intImmediate immediate)
  | .fpImmediate immediate =>
    if immediate.isZero then
      some ([⟨zeroOpcodeOfSize size, size, tmp, .register tmp⟩], .register tmp)
    else some ([⟨moveOpcodeOfSize size, size, tmp, .fpConst immediate⟩], .register tmp)
  | .register reg =>
    match ctx.slots reg with
    | some slot => some ([⟨.LEA, size, tmp, .stackSlot slot⟩], .register tmp)
    | none => some ([], .register (.lower (.vreg reg)))
  | symbol => if isSymbol symbol then some (lowerSymbolAsOperand ctx tmp symbol) else none

/-- A round of the loop of `move_branch_args`. -/
def moveBranchArg (param : VirtualRegister) (arg : SSA.Operand) : Option (List BranchInstr) :=
  let size := ctx.layout.size arg.type
  let dst := BranchReg.argTmp param
  let move := do
    let (first, src) ← lowerAsOperand ctx (.argSrc param) arg
    some (first ++ [⟨getMoveOpcode arg.type, size, dst, src⟩])
  match arg.value with
  | .intImmediate immediate =>
    if immediate = 0 then some [⟨.XOR, size, dst, .register dst⟩] else move
  | .fpImmediate immediate =>
    if immediate.isZero then some [⟨.XORPS, size, dst, .register dst⟩] else move
  | _ => move

/-- The loop of `move_branch_args`. -/
def moveArgs : List (VirtualRegister × SSAType) → List SSA.Operand → Option (List BranchInstr)
  | _, [] => some []
  | [], _ :: _ => none
  | (param, _) :: params, arg :: args => do
    let first ← moveBranchArg ctx param arg
    let rest ← moveArgs params args
    some (first ++ rest)

def moveBranchArgs (target : BranchTarget) : Option (List BranchInstr) :=
  moveArgs ctx (ctx.params target.block) target.args

/-- `emit_block_prologue`. -/
def emitBlockPrologue (params : List (VirtualRegister × SSAType)) : List BranchInstr :=
  params.map fun (param, type) ↦ {
    opcode := getMoveOpcode type
    size := if ctx.layout.size type = 8 then 8 else 4
    dst := .lower (.vreg param)
    src := .register (.argTmp param) }

/-- `lower_as_move` into a register. -/
def lowerAsMove (dst tmp : BranchReg) (value : SSA.Operand) : Option (List BranchInstr) :=
  let size := ctx.layout.size value.type
  match value.value with
  | .intImmediate immediate =>
    if immediate = 0 then some [⟨.XOR, min size 4, dst, .register dst⟩]
    else some [⟨.MOV, size, dst, .intImmediate immediate⟩]
  | .fpImmediate immediate =>
    if immediate.isZero then some [⟨zeroOpcodeOfSize size, size, dst, .register dst⟩]
    else some [⟨moveOpcodeOfSize size, size, dst, .fpConst immediate⟩]
  | .register reg =>
    match ctx.slots reg with
    | some slot => some [⟨.LEA, size, dst, .stackSlot slot⟩]
    | none =>
      let opcode := if value.type.isFloatingPoint then moveOpcodeOfSize size else .MOV
      some [⟨opcode, size, dst, .register (.lower (.vreg reg))⟩]
  | _ => do
    let (first, src) ← lowerAsOperand ctx tmp value
    some (first ++ [⟨.MOV, size, dst, src⟩])

/-- What an address needs, between the moves of a branch. -/
def ofAddrInstr (instr : AddrInstr) : BranchInstr where
  opcode := instr.opcode
  size := 8
  dst := .lower instr.dst
  src :=
    match instr.src with
    | .register reg => .register (.lower reg)
    | .intImmediate value => .intImmediate ⟨BitVec.ofNat 64 value, false⟩
    | .addr addr => .addr addr

/-- `lower_as_operand` with `allow_addrs`: the result of a `LOAD` is read where it was loaded. -/
def lowerAsOperandOrAddr (tmp : BranchReg) (value : SSA.Operand) :
    Option (List BranchInstr × BranchSource) :=
  match value.value with
  | .register reg =>
    match ctx.slots reg, ctx.loads reg with
    | none, some components => do
      let (first, addr) ← lowerAddrMemAccess ctx.unix ctx.slots components
      some (first.map ofAddrInstr, .addr addr)
    | _, _ => lowerAsOperand ctx tmp value
  | _ => lowerAsOperand ctx tmp value

/-- `append_mov_and_operation` of a comparison, into a new register. -/
def appendComparison (opcode : Mcode.Opcode) (lhs rhs : SSA.Operand) :
    Option (List BranchInstr × BranchInstr) := do
  let dst := BranchReg.lower (.tmp 3)
  let move ← lowerAsMove ctx dst (.lower (.tmp 4)) lhs
  let (first, src) ← lowerAsOperandOrAddr ctx (.lower (.tmp 5)) rhs
  some (move ++ first, ⟨opcode, ctx.layout.size lhs.type, dst, src⟩)

def lowerCondition : Comparison → Condition
  | .EQ | .FEQ => .E
  | .NE | .FNE => .NE
  | .UGT | .FGT => .A
  | .UGE | .FGE => .AE
  | .ULT | .FLT => .B
  | .ULE | .FLE => .BE
  | .SGT => .G
  | .SGE => .GE
  | .SLT => .L
  | .SLE => .LE

def invertComparison : Comparison → Comparison
  | .EQ => .NE
  | .NE => .EQ
  | .UGT => .ULE
  | .UGE => .ULT
  | .ULT => .UGE
  | .ULE => .UGT
  | .SGT => .SLE
  | .SGE => .SLT
  | .SLT => .SGE
  | .SLE => .SGT
  | .FEQ => .FNE
  | .FNE => .FEQ
  | .FGT => .FLE
  | .FGE => .FLT
  | .FLT => .FGE
  | .FLE => .FGT

variable (next : Option BlockId)

/-- The end of a block: a jump unless the target follows. -/
def jumpTo (target : BlockId) : List BranchItem := if some target = next then [] else [.jmp target]

/-- `lower_jmp`. -/
def lowerJmp (target : BranchTarget) : Option (List BranchItem) := do
  let moves ← moveBranchArgs ctx target
  some (moves.map .instr ++ jumpTo next target.block)

/-- `lower_cond_branch`. -/
def lowerCondBranch (opcode : Mcode.Opcode) (lhs : SSA.Operand) (comparison : Comparison)
    (rhs : SSA.Operand) (targetTrue targetFalse : BranchTarget) : Option (List BranchItem) := do
  let movesTrue ← moveBranchArgs ctx targetTrue
  let movesFalse ← moveBranchArgs ctx targetFalse
  let (first, compare) ← appendComparison ctx opcode lhs rhs
  if some targetTrue.block = next then
    some (movesFalse.map .instr ++ first.map .instr ++ [.instr compare,
      .jcc (lowerCondition (invertComparison comparison)) targetFalse.block] ++
      movesTrue.map .instr)
  else
    some (movesTrue.map .instr ++ first.map .instr ++ [.instr compare,
      .jcc (lowerCondition comparison) targetTrue.block] ++ movesFalse.map .instr ++
      jumpTo next targetFalse.block)

/-- The comparison opcode of `lower_cjmp` and `lower_fcjmp`. -/
def comparisonOpcode (instr : SSA.Instruction) : Mcode.Opcode :=
  if instr.opcode = .CJMP then .CMP
  else if (instr.getOperand 0).type = Primitive.F64 then .UCOMISD
  else .UCOMISS

end Lowering

/-! ## What the code does -/

structure Flags where
  zero : Bool
  carry : Bool
  sign : Bool
  overflow : Bool
  deriving DecidableEq, Repr

/-- Whether a conditional jump is taken. -/
def holdsCondition (flags : Flags) : Condition → Bool
  | .E => flags.zero
  | .NE => !flags.zero
  | .A => !flags.carry && !flags.zero
  | .AE => !flags.carry
  | .B => flags.carry
  | .BE => flags.carry || flags.zero
  | .G => !flags.zero && flags.sign == flags.overflow
  | .GE => flags.sign == flags.overflow
  | .L => flags.sign != flags.overflow
  | .LE => flags.zero || flags.sign != flags.overflow

theorem holdsCondition_invert (flags : Flags) (comparison : Comparison) :
    holdsCondition flags (lowerCondition (invertComparison comparison))
      = !holdsCondition flags (lowerCondition comparison) := by
  obtain ⟨zero, carry, sign, overflow⟩ := flags
  cases comparison <;> revert zero carry sign overflow <;> decide

/-- A machine that also has constants of 32 bits, and flags after comparisons and operations. -/
structure BranchMachine extends AddrMachine where
  toFloat : Double → BitVec 32
  compareFlags : Mcode.Opcode → ℕ → BitVec 64 → BitVec 64 → Flags
  resultFlags : Mcode.Opcode → ℕ → BitVec 64 → Flags

structure BranchState where
  regs : BranchReg → BitVec 64
  flags : Flags

/-- The lowest 32 bits, without the others. -/
def low32 (word : BitVec 64) : BitVec 64 := (word.setWidth 32).setWidth 64

/-- The lowest `n` bits of a word in place of those of another. -/
def replaceLow (n : ℕ) (old word : BitVec 64) : BitVec 64 :=
  ((old >>> n) <<< n) ||| (word.setWidth n).setWidth 64

/-- A register that is written with an operand of a size. Writing 32 bits clears the others, and any
size the encoder does not know is written as 32 bits. -/
def writeSized (size : ℕ) (old word : BitVec 64) : BitVec 64 :=
  if size = 8 then word
  else if size = 1 then replaceLow 8 old word
  else if size = 2 then replaceLow 16 old word
  else low32 word

namespace BranchMachine

variable (B : BranchMachine)

/-- The registers of addresses. -/
def lowerRegs (regs : BranchReg → BitVec 64) : LowerReg → BitVec 64 := fun reg ↦ regs (.lower reg)

def slotAddr (regs : BranchReg → BitVec 64) (slot : StackSlotID) : BitVec 64 :=
  regs (.lower .rsp) + (B.frame slot).signExtend 64

/-- The constant as an operand of a size. -/
def fpWord (size : ℕ) (value : Double) : BitVec 64 :=
  if size = 4 then (B.toFloat value).setWidth 64 else value.bits

/-- What an operand of a size reads. -/
def source (regs : BranchReg → BitVec 64) (size : ℕ) : BranchSource → BitVec 64
  | .register reg => regs reg
  | .intImmediate immediate => immediate.toBits
  | .fpConst value => B.fpWord size value
  | .stackSlot slot => B.load (B.slotAddr regs slot)
  | .addr addr => B.load (B.addr (lowerRegs regs) addr)
  | .symbol symbol reloc => B.symbol symbol reloc
  | .symbolDeref symbol reloc => B.load (B.symbol symbol reloc)

/-- The address of an operand. -/
def address (regs : BranchReg → BitVec 64) : BranchSource → BitVec 64
  | .stackSlot slot => B.slotAddr regs slot
  | .addr addr => B.addr (lowerRegs regs) addr
  | .symbolDeref symbol reloc => B.symbol symbol reloc
  | _ => 0

/-- What an instruction writes. `MOVSS` from a register leaves the upper part of the other alone. -/
def written (regs : BranchReg → BitVec 64) (instr : BranchInstr) : BitVec 64 :=
  let old := regs instr.dst
  let word := B.source regs instr.size instr.src
  match instr.opcode, instr.src with
  | .MOV, _ => writeSized instr.size old word
  | .MOVSS, .register _ => replaceLow 32 old word
  | .MOVSS, _ => low32 word
  | .MOVSD, _ => word
  | .LEA, src => writeSized instr.size old (B.address regs src)
  | .IMUL, _ => writeSized instr.size old (old * word)
  | .XOR, _ => writeSized instr.size old (old ^^^ word)
  | .XORPS, _ | .XORPD, _ => old ^^^ word
  | _, _ => old

def exec (st : BranchState) (instr : BranchInstr) : BranchState where
  regs := Function.update st.regs instr.dst (B.written st.regs instr)
  flags :=
    match instr.opcode with
    | .CMP | .UCOMISS | .UCOMISD =>
      B.compareFlags instr.opcode instr.size (st.regs instr.dst)
        (B.source st.regs instr.size instr.src)
    | .XOR | .IMUL =>
      B.resultFlags instr.opcode instr.size (B.written st.regs instr)
    | _ => st.flags

/-- Instructions that do not change the flags. -/
def keepsFlags (opcode : Mcode.Opcode) : Bool :=
  opcode ∉ [.CMP, .UCOMISS, .UCOMISD, .XOR, .IMUL]

def execAll (st : BranchState) (code : List BranchInstr) : BranchState := code.foldl B.exec st

/-- Runs the end of a block. `none` is the end of the code. -/
def run : BranchState → List BranchItem → BranchState × Option BlockId
  | st, [] => (st, none)
  | st, .instr instr :: rest => run (B.exec st instr) rest
  | st, .jcc condition target :: rest =>
    if holdsCondition st.flags condition then (st, some target) else run st rest
  | st, .jmp target :: _ => (st, some target)

variable (st : BranchState)

@[simp] theorem execAll_nil : B.execAll st [] = st := rfl

variable (instr : BranchInstr)

@[simp] theorem execAll_cons (code : List BranchInstr) :
    B.execAll st (instr :: code) = B.execAll (B.exec st instr) code := rfl

@[simp] theorem execAll_append (st : BranchState) (first second : List BranchInstr) :
    B.execAll st (first ++ second) = B.execAll (B.execAll st first) second := foldl_append

/-- Instructions before the rest of the items run first. -/
@[simp] theorem run_instrs (st : BranchState) (code : List BranchInstr) (rest : List BranchItem) :
    B.run st (code.map .instr ++ rest) = B.run (B.execAll st code) rest := by
  induction code generalizing st with
  | nil => rfl
  | cons instr code ih => exact ih (B.exec st instr)

theorem exec_regs_self :
    (B.exec st instr).regs instr.dst = B.written st.regs instr := update_self _ _ _

variable {reg : BranchReg}

theorem exec_regs_of_ne {st : BranchState} {instr : BranchInstr}
    (h : reg ≠ instr.dst) : (B.exec st instr).regs reg = st.regs reg := update_of_ne h _ _

variable {code : List BranchInstr}

theorem execAll_flags (h : ∀ instr ∈ code, keepsFlags instr.opcode = true) (st : BranchState) :
    (B.execAll st code).flags = st.flags := by
  induction code generalizing st with
  | nil => rfl
  | cons instr code ih =>
    rw [execAll_cons, ih fun i hi ↦ h i (mem_cons_of_mem _ hi)]
    have hinstr := h instr mem_cons_self
    unfold exec
    split
    · simp_all [keepsFlags]
    · simp_all [keepsFlags]
    · simp_all [keepsFlags]
    · simp_all [keepsFlags]
    · simp_all [keepsFlags]
    · rfl

/-- What no instruction writes is kept. -/
theorem execAll_regs_of_ne (h : ∀ instr ∈ code, instr.dst ≠ reg) (st : BranchState) :
    (B.execAll st code).regs reg = st.regs reg := by
  induction code generalizing st with
  | nil => rfl
  | cons instr code ih =>
    rw [execAll_cons, ih fun i hi ↦ h i (mem_cons_of_mem _ hi)]
    exact exec_regs_of_ne B (h instr mem_cons_self).symm

end BranchMachine

/-! ## Widths -/

section Widths

variable {n m size : ℕ} {old word : BitVec 64}

theorem setWidth_low32 (h : n ≤ 32) : (low32 word).setWidth n = word.setWidth n := by
  rw [low32, setWidth_setWidth_of_le, setWidth_setWidth_of_le _ h]
  omega

@[simp] theorem low32_low32 : low32 (low32 word) = low32 word := by
  rw [low32, setWidth_low32 le_rfl, low32]

theorem setWidth_replaceLow (h : n ≤ m) (hm : m ≤ 64) :
    (replaceLow m old word).setWidth n = word.setWidth n := by
  apply eq_of_getLsbD_eq
  intro i hi
  have him : i < m := by omega
  have hi64 : i < 64 := by omega
  simp [replaceLow, hi, him, hi64]

/-- A word that was written with a size has its lower bits, up to four bytes or up to eight. -/
theorem setWidth_writeSized (h : size ≤ 4 ∨ size = 8) :
    (writeSized size old word).setWidth (8 * size) = word.setWidth (8 * size) := by
  unfold writeSized
  by_cases h8 : size = 8
  · rw [if_pos h8]
  by_cases h1 : size = 1
  · rw [if_neg h8, if_pos h1]
    exact setWidth_replaceLow (by omega) (by omega)
  by_cases h2 : size = 2
  · rw [if_neg h8, if_neg h1, if_pos h2]
    exact setWidth_replaceLow (by omega) (by omega)
  rw [if_neg h8, if_neg h1, if_neg h2]
  exact setWidth_low32 (by omega)

theorem writeSized_of_between (h : 4 < size) (h8 : size < 8) :
    writeSized size old word = low32 word := by
  rw [writeSized, if_neg (by omega), if_neg (by omega), if_neg (by omega)]

end Widths

/-! ## What is moved -/

section Moves

open BranchMachine

variable {ctx : BranchContext} {B : BranchMachine} {M : WordMachine} {size : ℕ}
  {old word : BitVec 64} {regs : BranchReg → BitVec 64} {st : BranchState} {arg : SSA.Operand}

/-- The words the operands of branches stand for. -/
def argWord (ctx : BranchContext) (B : BranchMachine) (M : WordMachine)
    (regs : BranchReg → BitVec 64) (arg : SSA.Operand) : BitVec 64 :=
  match arg.value with
  | .intImmediate immediate => immediate.toBits
  | .fpImmediate immediate => B.fpWord (ctx.layout.size arg.type) immediate
  | .register reg =>
    match ctx.slots reg with
    | some slot => B.slotAddr regs slot
    | none => regs (.lower (.vreg reg))
  | symbol => M.symbol symbol

/-- The word that an operand that is a symbol is lowered to. -/
def symbolWord (ctx : BranchContext) (B : BranchMachine) (symbol : Value) : BitVec 64 :=
  let reloc := symbolReloc ctx symbol
  if ctx.darwin ∧ isFunc symbol ∨ ctx.largeCodeModel ∨ reloc = .NONE then B.symbol symbol reloc
  else B.load (B.symbol symbol reloc)

/-- The word that is moved for an operand: floating-point zeros lose their sign. -/
def loweredWord (ctx : BranchContext) (B : BranchMachine) (regs : BranchReg → BitVec 64)
    (arg : SSA.Operand) : BitVec 64 :=
  match arg.value with
  | .intImmediate immediate => immediate.toBits
  | .fpImmediate immediate =>
    if immediate.isZero then 0 else B.fpWord (ctx.layout.size arg.type) immediate
  | .register reg =>
    match ctx.slots reg with
    | some slot => B.slotAddr regs slot
    | none => regs (.lower (.vreg reg))
  | symbol => symbolWord ctx B symbol

/-- The operands of well-typed branches: integers have the types of integers, the addresses of slots
and of symbols are words, and what a register has fits in one. -/
structure ArgTyped (ctx : BranchContext) (arg : SSA.Operand) : Prop where
  size : ctx.layout.size arg.type ≤ 8
  value : match arg.value with
    | .intImmediate _ => ctx.layout.size arg.type ≤ 4 ∨ ctx.layout.size arg.type = 8
    | .fpImmediate _ => arg.type = Primitive.F32 ∨ arg.type = Primitive.F64
    | .register reg => (ctx.slots reg).isSome = true → ctx.layout.size arg.type = 8
    | symbol => isSymbol symbol = true ∧ ctx.layout.size arg.type = 8

/-- The sizes of floating-point numbers. -/
structure FloatSizes (layout : SSA.DataLayout) : Prop where
  f32 : layout.size Primitive.F32 = 4
  f64 : layout.size Primitive.F64 = 8

/-- The part of a word that reaches a parameter. -/
def passed (size : ℕ) (word : BitVec 64) : BitVec 64 := if size = 8 then word else low32 word

theorem setWidth_passed (h : size ≤ 4 ∨ size = 8) :
    (passed size word).setWidth (8 * size) = word.setWidth (8 * size) := by
  unfold passed
  by_cases h8 : size = 8
  · rw [if_pos h8]
  · rw [if_neg h8]
    exact setWidth_low32 (by omega)

theorem passed_writeSized (h : size ≤ 8) :
    (passed size (writeSized size old word)).setWidth (8 * size)
      = (passed size word).setWidth (8 * size) := by
  by_cases hfull : size ≤ 4 ∨ size = 8
  · rw [setWidth_passed hfull, setWidth_writeSized hfull, setWidth_passed hfull]
  · rw [writeSized_of_between (by omega) (by omega), passed, if_neg (by omega), low32_low32, passed,
      if_neg (by omega)]

theorem low32_setWidth (x : BitVec 32) : low32 (x.setWidth 64) = x.setWidth 64 := by
  rw [low32, setWidth_setWidth_of_le x (by decide : 32 ≤ 64), setWidth_eq]

/-- Zeros that were computed are words of zeros. -/
@[simp] theorem written_zeroOpcode (B : BranchMachine) (regs : BranchReg → BitVec 64)
    (reg : BranchReg) (n m : ℕ) :
    B.written regs ⟨zeroOpcodeOfSize n, m, reg, .register reg⟩ = 0 := by
  unfold zeroOpcodeOfSize
  by_cases h : n = 4
  · simp [h, written, source]
  · simp [h, written, source]

variable (n : ℕ)

@[simp] theorem keepsFlags_zeroOpcode : keepsFlags (zeroOpcodeOfSize n) = true := by
  unfold zeroOpcodeOfSize
  by_cases h : n = 4
  · rw [if_pos h]
    rfl
  · rw [if_neg h]
    rfl

@[simp] theorem keepsFlags_moveOpcode : keepsFlags (moveOpcodeOfSize n) = true := by
  unfold moveOpcodeOfSize
  by_cases h : n = 4
  · rw [if_pos h]
    rfl
  · rw [if_neg h]
    rfl

@[simp] theorem keepsFlags_mov : keepsFlags .MOV = true := rfl

@[simp] theorem keepsFlags_lea : keepsFlags .LEA = true := rfl

/-- An operand that is an SSA register, the register that was written for it, or no register. -/
def OperandOf (tmp : BranchReg) : BranchSource → Prop
  | .register reg => reg = tmp ∨ ∃ vreg, reg = .lower (.vreg vreg)
  | .intImmediate _ | .symbol _ _ => True
  | _ => False

/-- What is loaded for a floating-point constant. -/
theorem written_fpConst (B : BranchMachine) (regs : BranchReg → BitVec 64) (reg : BranchReg)
    (h : size = 4 ∨ size = 8) (value : Double) :
    B.written regs ⟨moveOpcodeOfSize size, size, reg, .fpConst value⟩ = B.fpWord size value := by
  rcases h with rfl | rfl
  · simp [moveOpcodeOfSize, written, source, fpWord, low32_setWidth]
  · simp [moveOpcodeOfSize, written, source]

/-- A register that was moved into, or that was given an address, has that word. -/
theorem execAll_singleton_regs (B : BranchMachine) (st : BranchState) (instr : BranchInstr) :
    (B.execAll st [instr]).regs instr.dst = B.written st.regs instr := update_self _ _ _

/-- What is emitted for a symbol writes the register that is given, and reading the operand gives
the word of the symbol. -/
theorem lowerSymbolAsOperand_spec (ctx : BranchContext) (B : BranchMachine) (tmp : BranchReg)
    (symbol : Value) (size : ℕ) (st : BranchState) :
    (∀ instr ∈ (lowerSymbolAsOperand ctx tmp symbol).1,
      instr.dst = tmp ∧ keepsFlags instr.opcode = true) ∧
      OperandOf tmp (lowerSymbolAsOperand ctx tmp symbol).2 ∧
      B.source (B.execAll st (lowerSymbolAsOperand ctx tmp symbol).1).regs size
        (lowerSymbolAsOperand ctx tmp symbol).2 = symbolWord ctx B symbol := by
  unfold lowerSymbolAsOperand symbolWord
  by_cases hdarwin : ctx.darwin ∧ isFunc symbol
  · simp only [if_pos hdarwin, if_pos (Or.inl hdarwin)]
    exact ⟨by simp, trivial, rfl⟩
  by_cases hlarge : ctx.largeCodeModel
  · simp only [if_neg hdarwin, if_pos hlarge, if_pos (Or.inr (Or.inl hlarge))]
    exact ⟨by simp, Or.inl rfl, execAll_singleton_regs B st _⟩
  by_cases hreloc : symbolReloc ctx symbol = .NONE
  · simp only [if_neg hdarwin, if_neg hlarge, if_pos hreloc, if_pos (Or.inr (Or.inr hreloc))]
    exact ⟨by simp, Or.inl rfl, execAll_singleton_regs B st _⟩
  · have hload : ¬((ctx.darwin ∧ isFunc symbol) ∨ ctx.largeCodeModel ∨
        symbolReloc ctx symbol = .NONE) := by simp [hdarwin, hlarge, hreloc]
    simp only [if_neg hdarwin, if_neg hlarge, if_neg hreloc, if_neg hload]
    exact ⟨by simp, Or.inl rfl, execAll_singleton_regs B st _⟩

/-- What is emitted for an operand writes the register that is given, and reading the operand gives
the lowered word. -/
theorem lowerAsOperand_spec (hsizes : FloatSizes ctx.layout) (ht : ArgTyped ctx arg)
    {tmp : BranchReg} {first : List BranchInstr} {src : BranchSource}
    (h : lowerAsOperand ctx tmp arg = some (first, src)) (st : BranchState) :
    (∀ instr ∈ first, instr.dst = tmp ∧ keepsFlags instr.opcode = true) ∧ OperandOf tmp src ∧
      B.source (B.execAll st first).regs (ctx.layout.size arg.type) src
        = loweredWord ctx B st.regs arg := by
  obtain ⟨value, type⟩ := arg
  have hvalue := ht.value
  have hsymbol {symbol : Value} (h : some (lowerSymbolAsOperand ctx tmp symbol)
      = some (first, src)) : (∀ instr ∈ first, instr.dst = tmp ∧ keepsFlags instr.opcode = true) ∧
      OperandOf tmp src ∧ B.source (B.execAll st first).regs (ctx.layout.size type) src
        = symbolWord ctx B symbol := by
    have hspec := lowerSymbolAsOperand_spec ctx B tmp symbol (ctx.layout.size type) st
    rwa [some.inj h] at hspec
  cases value with
  | intImmediate immediate =>
    simp only [lowerAsOperand] at h
    by_cases hbig : ctx.layout.size type = 8 ∧ 2 ^ 32 ≤ immediate.toBits.toNat
    · rw [if_pos hbig, some.injEq, Prod.mk.injEq] at h
      obtain ⟨rfl, rfl⟩ := h
      exact ⟨by simp, Or.inl rfl, by simp [loweredWord, source, exec, written, writeSized]⟩
    · rw [if_neg hbig, some.injEq, Prod.mk.injEq] at h
      obtain ⟨rfl, rfl⟩ := h
      exact ⟨by simp, trivial, rfl⟩
  | fpImmediate immediate =>
    simp only [lowerAsOperand] at h
    have hsize : ctx.layout.size type = 4 ∨ ctx.layout.size type = 8 := by
      rcases hvalue with rfl | rfl
      · exact Or.inl hsizes.f32
      · exact Or.inr hsizes.f64
    by_cases hzero : immediate.isZero
    · rw [if_pos hzero, some.injEq, Prod.mk.injEq] at h
      obtain ⟨rfl, rfl⟩ := h
      exact ⟨by simp, Or.inl rfl, by simp [loweredWord, hzero, source, exec]⟩
    · rw [if_neg hzero, some.injEq, Prod.mk.injEq] at h
      obtain ⟨rfl, rfl⟩ := h
      exact ⟨by simp, Or.inl rfl, by simp [loweredWord, hzero, source, exec,
        written_fpConst B _ _ hsize]⟩
  | register reg =>
    simp only [lowerAsOperand] at h
    cases hslot : ctx.slots reg with
    | some slot =>
      rw [hslot, some.injEq, Prod.mk.injEq] at h
      obtain ⟨rfl, rfl⟩ := h
      have h8 : ctx.layout.size type = 8 := hvalue (by rw [hslot]; rfl)
      exact ⟨by simp, Or.inl rfl, by simp [loweredWord, hslot, source, exec, written,
        writeSized, h8, address]⟩
    | none =>
      rw [hslot, some.injEq, Prod.mk.injEq] at h
      obtain ⟨rfl, rfl⟩ := h
      exact ⟨by simp, Or.inr ⟨reg, rfl⟩, by simp [loweredWord, hslot, source]⟩
  | comparison _ | type | undef => exact Bool.noConfusion hvalue.1
  | _ => exact hsymbol h

variable {type : SSAType}

/-- The moves that are as wide as a type pass on what they read. -/
theorem passed_written (hsizes : FloatSizes ctx.layout) (hsize : ctx.layout.size type ≤ 8)
    (B : BranchMachine) (regs : BranchReg → BitVec 64) (dst : BranchReg) (src : BranchSource) :
    (passed (ctx.layout.size type)
      (B.written regs ⟨getMoveOpcode type, ctx.layout.size type, dst, src⟩)).setWidth
        (8 * ctx.layout.size type)
      = (passed (ctx.layout.size type) (B.source regs (ctx.layout.size type) src)).setWidth
        (8 * ctx.layout.size type) := by
  unfold getMoveOpcode
  by_cases h32 : type = Primitive.F32
  · subst h32
    rw [if_pos rfl, hsizes.f32, setWidth_passed (by omega), setWidth_passed (by omega)]
    cases src with
    | register reg => exact setWidth_replaceLow le_rfl (by omega)
    | _ => exact setWidth_low32 le_rfl
  by_cases h64 : type = Primitive.F64
  · subst h64
    rw [if_neg h32, if_pos rfl]
    rfl
  rw [if_neg h32, if_neg h64]
  exact passed_writeSized hsize

/-- The prologue writes what was passed on. -/
theorem setWidth_written_prologue (hsizes : FloatSizes ctx.layout)
    (hsize : ctx.layout.size type ≤ 8) (B : BranchMachine) (regs : BranchReg → BitVec 64)
    (dst reg : BranchReg) :
    (B.written regs ⟨getMoveOpcode type, if ctx.layout.size type = 8 then 8 else 4, dst,
      .register reg⟩).setWidth (8 * ctx.layout.size type)
      = (passed (ctx.layout.size type) (regs reg)).setWidth (8 * ctx.layout.size type) := by
  unfold getMoveOpcode
  by_cases h32 : type = Primitive.F32
  · subst h32
    rw [if_pos rfl, hsizes.f32, setWidth_passed (by omega)]
    exact setWidth_replaceLow le_rfl (by omega)
  by_cases h64 : type = Primitive.F64
  · subst h64
    rw [if_neg h32, if_pos rfl, passed, if_pos hsizes.f64, if_pos hsizes.f64]
    rfl
  rw [if_neg h32, if_neg h64, passed]
  by_cases h8 : ctx.layout.size type = 8
  · simp [h8, written, source, writeSized]
  · simp [h8, written, source, writeSized]

/-- A zero that was computed in the register of an argument is passed on. -/
theorem passed_written_xor (hsize : size ≤ 8) (B : BranchMachine) (regs : BranchReg → BitVec 64)
    (reg : BranchReg) :
    (passed size (B.written regs ⟨.XOR, size, reg, .register reg⟩)).setWidth (8 * size) = 0 := by
  have hzero : B.written regs ⟨.XOR, size, reg, .register reg⟩
      = writeSized size (regs reg) 0 := by simp [written, source]
  rw [hzero, passed_writeSized hsize, passed]
  by_cases h8 : size = 8
  · simp [h8]
  · simp [h8, low32]

variable {code : List BranchInstr}

/-- **A round of `move_branch_args`** writes only registers of the argument, and passes on the word
of the argument. -/
theorem moveBranchArg_spec (hsizes : FloatSizes ctx.layout) (ht : ArgTyped ctx arg)
    {param : VirtualRegister} (h : moveBranchArg ctx param arg = some code) (st : BranchState) :
    (∀ instr ∈ code, instr.dst = .argTmp param ∨ instr.dst = .argSrc param) ∧
      (passed (ctx.layout.size arg.type) ((B.execAll st code).regs (.argTmp param))).setWidth
        (8 * ctx.layout.size arg.type)
      = (passed (ctx.layout.size arg.type) (loweredWord ctx B st.regs arg)).setWidth
        (8 * ctx.layout.size arg.type) := by
  have hmove (h : (do
      let (first, src) ← lowerAsOperand ctx (.argSrc param) arg
      some (first ++ [⟨getMoveOpcode arg.type, ctx.layout.size arg.type, .argTmp param, src⟩]))
        = some code) :
      (∀ instr ∈ code, instr.dst = .argTmp param ∨ instr.dst = .argSrc param) ∧
        (passed (ctx.layout.size arg.type) ((B.execAll st code).regs (.argTmp param))).setWidth
          (8 * ctx.layout.size arg.type)
        = (passed (ctx.layout.size arg.type) (loweredWord ctx B st.regs arg)).setWidth
          (8 * ctx.layout.size arg.type) := by
    obtain ⟨⟨first, src⟩, hlower, hcode⟩ := bind_eq_some_iff.mp h
    obtain rfl := some.inj hcode
    obtain ⟨hdst, -, hword⟩ := lowerAsOperand_spec (B := B) hsizes ht hlower st
    constructor
    · intro instr hinstr
      rcases mem_append.mp hinstr with hfirst | hlast
      · exact Or.inr (hdst instr hfirst).1
      · exact Or.inl (by rw [mem_singleton.mp hlast])
    · rw [execAll_append, ← hword, ← passed_written hsizes ht.size B _ (.argTmp param) src]
      exact congrArg (fun word ↦ (passed _ word).setWidth _) (execAll_singleton_regs B _ _)
  obtain ⟨value, type⟩ := arg
  cases value with
  | intImmediate immediate =>
    simp only [moveBranchArg] at h
    by_cases hzero : immediate = 0
    · rw [if_pos hzero] at h
      obtain rfl := some.inj h
      refine ⟨by simp, ?_⟩
      have hword := passed_written_xor ht.size B st.regs (.argTmp param)
      have hregs := execAll_singleton_regs B st
        ⟨.XOR, ctx.layout.size type, .argTmp param, .register (.argTmp param)⟩
      rw [hregs, hword, hzero]
      have hbits : (0 : LargeInt).toBits = 0 := rfl
      by_cases h8 : ctx.layout.size type = 8
      · simp [loweredWord, passed, h8, hbits]
      · simp [loweredWord, passed, h8, hbits, low32]
    · rw [if_neg hzero] at h
      exact hmove h
  | fpImmediate immediate =>
    simp only [moveBranchArg] at h
    by_cases hzero : immediate.isZero
    · rw [if_pos hzero] at h
      obtain rfl := some.inj h
      refine ⟨by simp, ?_⟩
      have hregs := execAll_singleton_regs B st
        ⟨.XORPS, ctx.layout.size type, .argTmp param, .register (.argTmp param)⟩
      rw [hregs]
      simp [loweredWord, hzero, written, source]
    · rw [if_neg hzero] at h
      exact hmove h
  | _ => exact hmove h

/-- The SSA registers and the stack pointer have the same values. -/
structure SameSSA (st st' : BranchState) : Prop where
  vreg : ∀ reg, st'.regs (.lower (.vreg reg)) = st.regs (.lower (.vreg reg))
  rsp : st'.regs (.lower .rsp) = st.regs (.lower .rsp)

theorem SameSSA.trans {st st' st'' : BranchState} (h : SameSSA st st') (h' : SameSSA st' st'') :
    SameSSA st st'' :=
  ⟨fun reg ↦ (h'.vreg reg).trans (h.vreg reg), h'.rsp.trans h.rsp⟩

/-- The lowered word is one of registers no argument is moved into. -/
theorem loweredWord_congr {st' : BranchState} (h : SameSSA st st') :
    loweredWord ctx B st'.regs arg = loweredWord ctx B st.regs arg := by
  simp only [loweredWord, slotAddr, h.vreg, h.rsp]

variable {params : List (VirtualRegister × SSAType)}

/-- **The loop of `move_branch_args`** writes only the registers of the arguments, and passes on
all words they have before it. -/
theorem moveArgs_spec (hsizes : FloatSizes ctx.layout) {args : List SSA.Operand}
    (hnodup : (params.map Prod.fst).Nodup) (htyped : ∀ arg ∈ args, ArgTyped ctx arg)
    (h : moveArgs ctx params args = some code) (st : BranchState) :
    (∀ instr ∈ code, ∃ param ∈ params.map Prod.fst,
      instr.dst = .argTmp param ∨ instr.dst = .argSrc param) ∧
      ∀ pair ∈ params.zip args,
        (passed (ctx.layout.size pair.2.type)
          ((B.execAll st code).regs (.argTmp pair.1.1))).setWidth (8 * ctx.layout.size pair.2.type)
        = (passed (ctx.layout.size pair.2.type) (loweredWord ctx B st.regs pair.2)).setWidth
          (8 * ctx.layout.size pair.2.type) := by
  induction args generalizing params code st with
  | nil =>
    cases params with
    | nil => obtain rfl := some.inj h; exact ⟨by simp, by simp⟩
    | cons param params => obtain rfl := some.inj h; exact ⟨by simp, by simp⟩
  | cons arg args ih =>
    cases params with
    | nil => cases h
    | cons param params =>
      obtain ⟨param, type⟩ := param
      obtain ⟨first, hfirst, hbind⟩ := bind_eq_some_iff.mp h
      obtain ⟨rest, hrest, hcode⟩ := bind_eq_some_iff.mp hbind
      obtain rfl := some.inj hcode
      rw [map_cons, nodup_cons] at hnodup
      obtain ⟨hdst, hword⟩ := moveBranchArg_spec (B := B) hsizes (htyped arg mem_cons_self)
        hfirst st
      obtain ⟨hdsts, hwords⟩ := ih hnodup.2 (fun a ha ↦ htyped a (mem_cons_of_mem _ ha)) hrest
        (B.execAll st first)
      constructor
      · intro instr hinstr
        rcases mem_append.mp hinstr with hinstr | hinstr
        · exact ⟨param, by simp, hdst instr hinstr⟩
        · obtain ⟨other, hother, hreg⟩ := hdsts instr hinstr
          exact ⟨other, mem_cons_of_mem _ hother, hreg⟩
      · intro pair hpair
        rw [execAll_append]
        rcases mem_cons.mp hpair with rfl | hpair
        · -- the rounds for the other parameters leave this register alone
          rw [← hword, execAll_regs_of_ne]
          intro instr hinstr hreg
          obtain ⟨other, hother, hdst⟩ := hdsts instr hinstr
          rcases hdst with hdst | hdst
          · rw [hreg, BranchReg.argTmp.injEq] at hdst
            exact hnodup.1 (hdst ▸ hother)
          · rw [hreg] at hdst
            cases hdst
        · -- the other arguments do not read what this round wrote
          have hkeeps (reg : LowerReg) :
              (B.execAll st first).regs (.lower reg) = st.regs (.lower reg) := by
            refine execAll_regs_of_ne B (fun instr hinstr hreg ↦ ?_) st
            rcases hdst instr hinstr with hdst | hdst <;> (rw [hreg] at hdst; cases hdst)
          rw [hwords pair hpair, loweredWord_congr ⟨fun reg ↦ hkeeps _, hkeeps _⟩]

/-- What a list of instructions writes that are those of `move_branch_args`. -/
theorem moveBranchArgs_keeps (hsizes : FloatSizes ctx.layout) {target : BranchTarget}
    (hnodup : ((ctx.params target.block).map Prod.fst).Nodup)
    (htyped : ∀ arg ∈ target.args, ArgTyped ctx arg)
    (h : moveBranchArgs ctx target = some code) (st : BranchState) (reg : LowerReg) :
    (B.execAll st code).regs (.lower reg) = st.regs (.lower reg) := by
  refine execAll_regs_of_ne B (fun instr hinstr hreg ↦ ?_) st
  obtain ⟨param, -, hdst⟩ := (moveArgs_spec (B := B) hsizes hnodup htyped h st).1 instr hinstr
  rcases hdst with hdst | hdst
  · rw [hreg] at hdst
    cases hdst
  · rw [hreg] at hdst
    cases hdst

/-- **The prologue** writes the parameters, each with what was passed on in its register, and no
other SSA register. -/
theorem emitBlockPrologue_spec (hsizes : FloatSizes ctx.layout)
    (hnodup : (params.map Prod.fst).Nodup) (hfits : ∀ param ∈ params, ctx.layout.size param.2 ≤ 8)
    (st : BranchState) :
    (∀ param ∈ params,
      ((B.execAll st (emitBlockPrologue ctx params)).regs (.lower (.vreg param.1))).setWidth
        (8 * ctx.layout.size param.2)
      = (passed (ctx.layout.size param.2) (st.regs (.argTmp param.1))).setWidth
        (8 * ctx.layout.size param.2)) ∧
      ∀ reg ∉ params.map Prod.fst,
        (B.execAll st (emitBlockPrologue ctx params)).regs (.lower (.vreg reg))
          = st.regs (.lower (.vreg reg)) := by
  have hdst (params : List (VirtualRegister × SSAType)) :
      ∀ instr ∈ emitBlockPrologue ctx params, ∃ param ∈ params.map Prod.fst,
        instr.dst = .lower (.vreg param) := by
    intro instr hinstr
    obtain ⟨param, hparam, rfl⟩ := mem_map.mp hinstr
    exact ⟨param.1, mem_map_of_mem hparam, rfl⟩
  have hkeeps (params : List (VirtualRegister × SSAType)) (st : BranchState)
      (reg : VirtualRegister) (hreg : reg ∉ params.map Prod.fst) :
      (B.execAll st (emitBlockPrologue ctx params)).regs (.lower (.vreg reg))
        = st.regs (.lower (.vreg reg)) := by
    refine execAll_regs_of_ne B (fun instr hinstr heq ↦ ?_) st
    obtain ⟨param, hparam, hparamDst⟩ := hdst params instr hinstr
    rw [heq, BranchReg.lower.injEq, LowerReg.vreg.injEq] at hparamDst
    exact hreg (hparamDst ▸ hparam)
  refine ⟨?_, fun reg hreg ↦ hkeeps params st reg hreg⟩
  induction params generalizing st with
  | nil => simp
  | cons first params ih =>
    rw [map_cons, nodup_cons] at hnodup
    intro param hparam
    have hcons : emitBlockPrologue ctx (first :: params)
        = ⟨getMoveOpcode first.2, if ctx.layout.size first.2 = 8 then 8 else 4,
            .lower (.vreg first.1), .register (.argTmp first.1)⟩ ::
          emitBlockPrologue ctx params := rfl
    rw [hcons, execAll_cons]
    rcases mem_cons.mp hparam with rfl | hparam
    · rw [hkeeps params _ _ hnodup.1,
        ← setWidth_written_prologue hsizes (hfits param mem_cons_self) B st.regs
          (.lower (.vreg param.1)) (.argTmp param.1)]
      exact congrArg (BitVec.setWidth _) (update_self _ _ _)
    · rw [ih hnodup.2 (fun p hp ↦ hfits p (mem_cons_of_mem _ hp)) _ param hparam]
      exact congrArg (fun word ↦ (passed _ word).setWidth _) (exec_regs_of_ne B nofun)

end Moves

/-! ## Comparisons -/

section Comparisons

open BranchMachine

variable {ctx : BranchContext} {B : BranchMachine} {st : BranchState}

/-- The instruction reads no register of an argument, and writes a new one. -/
structure OnLower (instr : BranchInstr) : Prop where
  dst : ∃ index, instr.dst = .lower (.tmp index)
  src : ∀ reg, instr.src = .register reg → ∃ lower, reg = .lower lower

variable {regs regs' : BranchReg → BitVec 64} {src : BranchSource}

theorem source_congr (h : ∀ reg, regs' (.lower reg) = regs (.lower reg))
    (hsrc : ∀ reg, src = .register reg → ∃ lower, reg = .lower lower) (size : ℕ) :
    B.source regs' size src = B.source regs size src := by
  have hlower : lowerRegs regs' = lowerRegs regs := funext h
  cases src with
  | register reg =>
    obtain ⟨lower, rfl⟩ := hsrc reg rfl
    exact h lower
  | _ => simp only [source, slotAddr, hlower, h]

theorem address_congr (h : ∀ reg, regs' (.lower reg) = regs (.lower reg)) (src : BranchSource) :
    B.address regs' src = B.address regs src := by
  have hlower : lowerRegs regs' = lowerRegs regs := funext h
  cases src with
  | _ => simp only [address, slotAddr, hlower, h]

variable {st' : BranchState}

/-- An instruction that reads no register of an argument does the same when only those differ. -/
theorem exec_congr (h : ∀ reg, st'.regs (.lower reg) = st.regs (.lower reg))
    {instr : BranchInstr} (hinstr : OnLower instr) (reg : LowerReg) :
    (B.exec st' instr).regs (.lower reg) = (B.exec st instr).regs (.lower reg) := by
  obtain ⟨index, hdst⟩ := hinstr.dst
  have hwritten : B.written st'.regs instr = B.written st.regs instr := by
    have hold : st'.regs instr.dst = st.regs instr.dst := by rw [hdst, h]
    simp only [written, hold, source_congr h hinstr.src, address_congr h]
  by_cases hreg : BranchReg.lower reg = instr.dst
  · rw [hreg, exec_regs_self, exec_regs_self, hwritten]
  · rw [exec_regs_of_ne B hreg, exec_regs_of_ne B hreg, h]

variable {code : List BranchInstr}

theorem execAll_congr (hcode : ∀ instr ∈ code, OnLower instr)
    (h : ∀ reg, st'.regs (.lower reg) = st.regs (.lower reg)) (reg : LowerReg) :
    (B.execAll st' code).regs (.lower reg) = (B.execAll st code).regs (.lower reg) := by
  induction code generalizing st st' with
  | nil => exact h reg
  | cons instr code ih =>
    exact ih (fun i hi ↦ hcode i (mem_cons_of_mem _ hi))
      (exec_congr h (hcode instr mem_cons_self))

/-- Comparisons, which only make flags. -/
def isComparison (opcode : Mcode.Opcode) : Bool := opcode ∈ [.CMP, .UCOMISS, .UCOMISD]

variable {compare : BranchInstr}

/-- **A comparison after moves of arguments has the outcome it has before them.** -/
theorem flags_congr (hcode : ∀ instr ∈ code, OnLower instr) (hcompare : OnLower compare)
    (hopcode : isComparison compare.opcode = true)
    (h : ∀ reg, st'.regs (.lower reg) = st.regs (.lower reg)) :
    (B.execAll st' (code ++ [compare])).flags = (B.execAll st (code ++ [compare])).flags := by
  have hregs := execAll_congr (B := B) hcode h
  obtain ⟨index, hdst⟩ := hcompare.dst
  have hopcodes : compare.opcode = .CMP ∨ compare.opcode = .UCOMISS ∨
    compare.opcode = .UCOMISD := by
    simpa [isComparison] using hopcode
  rw [execAll_append, execAll_append]
  simp only [execAll_cons, execAll_nil, exec]
  rw [source_congr hregs hcompare.src, hdst, hregs]
  rcases hopcodes with hop | hop | hop <;> simp only [hop]

theorem onLower_lowerSymbolAsOperand (ctx : BranchContext) (index : ℕ) (symbol : Value) :
    (∀ instr ∈ (lowerSymbolAsOperand ctx (.lower (.tmp index)) symbol).1, OnLower instr) ∧
      ∀ reg, (lowerSymbolAsOperand ctx (.lower (.tmp index)) symbol).2 = .register reg →
        ∃ lower, reg = .lower lower := by
  unfold lowerSymbolAsOperand
  by_cases hdarwin : ctx.darwin ∧ isFunc symbol
  · simp only [if_pos hdarwin]
    exact ⟨by simp, nofun⟩
  by_cases hlarge : ctx.largeCodeModel
  · simp only [if_neg hdarwin, if_pos hlarge]
    refine ⟨fun instr hinstr ↦ ?_, by simp⟩
    rw [mem_singleton.mp hinstr]
    exact ⟨⟨index, rfl⟩, nofun⟩
  by_cases hreloc : symbolReloc ctx symbol = .NONE
  · simp only [if_neg hdarwin, if_neg hlarge, if_pos hreloc]
    refine ⟨fun instr hinstr ↦ ?_, by simp⟩
    rw [mem_singleton.mp hinstr]
    exact ⟨⟨index, rfl⟩, nofun⟩
  · simp only [if_neg hdarwin, if_neg hlarge, if_neg hreloc]
    refine ⟨fun instr hinstr ↦ ?_, by simp⟩
    rw [mem_singleton.mp hinstr]
    exact ⟨⟨index, rfl⟩, nofun⟩

variable {arg : SSA.Operand} {first : List BranchInstr} {index : ℕ}

/-- The operand `lower_as_operand` returns, and what it emits, with a new register. -/
theorem onLower_lowerAsOperand
    (h : lowerAsOperand ctx (.lower (.tmp index)) arg = some (first, src)) :
    (∀ instr ∈ first, OnLower instr) ∧
      ∀ reg, src = .register reg → ∃ lower, reg = .lower lower := by
  have hone (instr : BranchInstr) (hinstr : OnLower instr)
      (h : some ([instr], BranchSource.register (.lower (.tmp index))) = some (first, src)) :
      (∀ instr ∈ first, OnLower instr) ∧
        ∀ reg, src = .register reg → ∃ lower, reg = .lower lower := by
    obtain ⟨rfl, rfl⟩ := Prod.mk.inj (some.inj h)
    exact ⟨by simpa using hinstr, by simp⟩
  have hsymbol (symbol : Value) (h : (if isSymbol symbol then
      some (lowerSymbolAsOperand ctx (.lower (.tmp index)) symbol) else none) = some (first, src)) :
      (∀ instr ∈ first, OnLower instr) ∧
        ∀ reg, src = .register reg → ∃ lower, reg = .lower lower := by
    by_cases hsymbol : isSymbol symbol = true
    · rw [if_pos hsymbol] at h
      have hspec := onLower_lowerSymbolAsOperand ctx index symbol
      rwa [some.inj h] at hspec
    · rw [if_neg hsymbol] at h
      cases h
  obtain ⟨value, type⟩ := arg
  cases value with
  | intImmediate immediate =>
    simp only [lowerAsOperand] at h
    by_cases hbig : ctx.layout.size type = 8 ∧ 2 ^ 32 ≤ immediate.toBits.toNat
    · rw [if_pos hbig] at h
      exact hone _ ⟨⟨index, rfl⟩, by simp⟩ h
    · rw [if_neg hbig, some.injEq, Prod.mk.injEq] at h
      obtain ⟨rfl, rfl⟩ := h
      exact ⟨by simp, nofun⟩
  | fpImmediate immediate =>
    simp only [lowerAsOperand] at h
    by_cases hzero : immediate.isZero
    · rw [if_pos hzero] at h
      exact hone _ ⟨⟨index, rfl⟩, by simp⟩ h
    · rw [if_neg hzero] at h
      exact hone _ ⟨⟨index, rfl⟩, by simp⟩ h
  | register reg =>
    simp only [lowerAsOperand] at h
    cases hslot : ctx.slots reg with
    | some slot =>
      rw [hslot] at h
      exact hone _ ⟨⟨index, rfl⟩, by simp⟩ h
    | none =>
      rw [hslot, some.injEq, Prod.mk.injEq] at h
      obtain ⟨rfl, rfl⟩ := h
      exact ⟨by simp, by simp⟩
  | _ =>
    simp only [lowerAsOperand] at h
    exact hsymbol _ h

/-- `lower_as_move` into a new register. -/
theorem onLower_lowerAsMove {other : ℕ}
    (h : lowerAsMove ctx (.lower (.tmp index)) (.lower (.tmp other)) arg = some code) :
    ∀ instr ∈ code, OnLower instr := by
  have hone (instr : BranchInstr) (hinstr : OnLower instr) (h : some [instr] = some code) :
      ∀ instr ∈ code, OnLower instr := by
    obtain rfl := some.inj h
    simpa using hinstr
  have hsymbol (h : (do
      let (first, src) ← lowerAsOperand ctx (.lower (.tmp other)) arg
      some (first ++ [⟨.MOV, ctx.layout.size arg.type, .lower (.tmp index), src⟩])) = some code) :
      ∀ instr ∈ code, OnLower instr := by
    obtain ⟨⟨first, src⟩, hlower, hcode⟩ := bind_eq_some_iff.mp h
    obtain rfl := some.inj hcode
    obtain ⟨hfirst, hsrc⟩ := onLower_lowerAsOperand hlower
    intro instr hinstr
    rcases mem_append.mp hinstr with hinstr | hinstr
    · exact hfirst instr hinstr
    · rw [mem_singleton.mp hinstr]
      exact ⟨⟨index, rfl⟩, hsrc⟩
  obtain ⟨value, type⟩ := arg
  cases value with
  | intImmediate immediate =>
    simp only [lowerAsMove] at h
    by_cases hzero : immediate = 0
    · rw [if_pos hzero] at h
      exact hone _ ⟨⟨index, rfl⟩, by simp⟩ h
    · rw [if_neg hzero] at h
      exact hone _ ⟨⟨index, rfl⟩, by simp⟩ h
  | fpImmediate immediate =>
    simp only [lowerAsMove] at h
    by_cases hzero : immediate.isZero
    · rw [if_pos hzero] at h
      exact hone _ ⟨⟨index, rfl⟩, by simp⟩ h
    · rw [if_neg hzero] at h
      exact hone _ ⟨⟨index, rfl⟩, by simp⟩ h
  | register reg =>
    simp only [lowerAsMove] at h
    cases hslot : ctx.slots reg with
    | some slot =>
      rw [hslot] at h
      exact hone _ ⟨⟨index, rfl⟩, by simp⟩ h
    | none =>
      rw [hslot] at h
      exact hone _ ⟨⟨index, rfl⟩, by simp⟩ h
  | _ => exact hsymbol h

/-- What an address needs is computed in new registers. -/
theorem lowerAddrMemAccess_dst {unix : Bool} {slots : VirtualRegister → Option StackSlotID}
    {addr : AddrComponents} {first : List AddrInstr} {operand : AddrOperand}
    (h : lowerAddrMemAccess unix slots addr = some (first, operand)) :
    ∀ instr ∈ first, ∃ index, instr.dst = .tmp index := by
  have hsymbol (symbol : Value) :
      ∀ instr ∈ (lowerSymbolBase unix symbol).1, ∃ index, instr.dst = .tmp index := by
    cases unix with
    | false => simp [lowerSymbolBase]
    | true =>
      cases symbol with
      | externGlobal id => simp [lowerSymbolBase]
      | _ => simp [lowerSymbolBase]
  have hbase {first : List AddrInstr} {operand : AddrOperand}
      (h : lowerAddrBase unix slots addr = some (first, operand)) :
      ∀ instr ∈ first, ∃ index, instr.dst = .tmp index := by
    obtain ⟨⟨value, type⟩, constOffset, regOffset⟩ := addr
    have hother (symbol : Value) (h : (if isSymbol symbol then
        let base := lowerSymbolBase unix symbol
        if constOffset ≠ 0 then
          some (base.1 ++ [⟨.LEA, .tmp 1, .addr { base := base.2 }⟩], ({
            base := .register (.tmp 1)
            offsetConst := .imm (constOffset.toBits.setWidth 32) } : AddrOperand))
        else some (base.1, { base := base.2 })
      else none) = some (first, operand)) :
        ∀ instr ∈ first, ∃ index, instr.dst = .tmp index := by
      by_cases hs : isSymbol symbol = true
      · rw [if_pos hs] at h
        by_cases hoffset : constOffset ≠ 0
        · simp only [if_pos hoffset] at h
          obtain ⟨rfl, rfl⟩ := Prod.mk.inj (some.inj h)
          intro instr hinstr
          rcases mem_append.mp hinstr with hinstr | hinstr
          · exact hsymbol symbol instr hinstr
          · exact ⟨1, by rw [mem_singleton.mp hinstr]⟩
        · simp only [if_neg hoffset] at h
          obtain ⟨rfl, rfl⟩ := Prod.mk.inj (some.inj h)
          exact hsymbol symbol
      · rw [if_neg hs] at h
        cases h
    cases value with
    | register reg =>
      simp only [lowerAddrBase] at h
      cases hslot : slots reg with
      | none =>
        rw [hslot] at h
        obtain ⟨rfl, rfl⟩ := Prod.mk.inj (some.inj h)
        simp
      | some slot =>
        rw [hslot] at h
        by_cases hnegative : constOffset.negative = true
        · simp only [if_pos hnegative] at h
          cases h
        · simp only [if_neg hnegative] at h
          obtain ⟨rfl, rfl⟩ := Prod.mk.inj (some.inj h)
          simp
    | _ =>
      simp only [lowerAddrBase] at h
      exact hother _ h
  obtain ⟨⟨before, base⟩, hlower, hcode⟩ := bind_eq_some_iff.mp h
  have hbefore := hbase hlower
  cases hoffset : addr.regOffset with
  | none =>
    rw [hoffset] at hcode
    obtain ⟨rfl, rfl⟩ := Prod.mk.inj (some.inj hcode)
    exact hbefore
  | some offset =>
    rw [hoffset] at hcode
    cases hscale : scaleOf offset.scale with
    | some scale =>
      simp only [hscale] at hcode
      obtain ⟨rfl, rfl⟩ := Prod.mk.inj (some.inj hcode)
      exact hbefore
    | none =>
      simp only [hscale] at hcode
      obtain ⟨rfl, rfl⟩ := Prod.mk.inj (some.inj hcode)
      intro instr hinstr
      rcases mem_append.mp hinstr with hinstr | hinstr
      · exact hbefore instr hinstr
      · refine ⟨2, ?_⟩
        rcases mem_cons.mp hinstr with rfl | hinstr
        · rfl
        · rw [mem_singleton.mp hinstr]

/-- **The code of a comparison** reads no register of an argument and writes new ones. -/
theorem onLower_appendComparison {opcode : Mcode.Opcode} {lhs rhs : SSA.Operand}
    (h : appendComparison ctx opcode lhs rhs = some (first, compare)) :
    (∀ instr ∈ first, OnLower instr) ∧ OnLower compare ∧ compare.opcode = opcode := by
  obtain ⟨move, hmove, hbind⟩ := bind_eq_some_iff.mp h
  obtain ⟨⟨second, src⟩, hrhs, hcode⟩ := bind_eq_some_iff.mp hbind
  obtain ⟨rfl, rfl⟩ := Prod.mk.inj (some.inj hcode)
  have hsecond : (∀ instr ∈ second, OnLower instr) ∧
      ∀ reg, src = .register reg → ∃ lower, reg = .lower lower := by
    obtain ⟨value, type⟩ := rhs
    cases value with
    | register reg =>
      simp only [lowerAsOperandOrAddr] at hrhs
      cases hslot : ctx.slots reg with
      | some slot =>
        rw [hslot] at hrhs
        exact onLower_lowerAsOperand hrhs
      | none =>
        cases hload : ctx.loads reg with
        | none =>
          rw [hslot, hload] at hrhs
          exact onLower_lowerAsOperand hrhs
        | some components =>
          rw [hslot, hload] at hrhs
          obtain ⟨⟨instrs, addr⟩, haddr, hcode⟩ := bind_eq_some_iff.mp hrhs
          obtain ⟨rfl, rfl⟩ := Prod.mk.inj (some.inj hcode)
          refine ⟨fun instr hinstr ↦ ?_, nofun⟩
          obtain ⟨addrInstr, hmem, rfl⟩ := mem_map.mp hinstr
          obtain ⟨index, hdst⟩ := lowerAddrMemAccess_dst haddr addrInstr hmem
          refine ⟨⟨index, congrArg BranchReg.lower hdst⟩, fun reg hreg ↦ ?_⟩
          obtain ⟨opcode, dst, src⟩ := addrInstr
          cases src with
          | register lower => exact ⟨lower, (BranchSource.register.inj hreg).symm⟩
          | _ => cases hreg
    | _ =>
      simp only [lowerAsOperandOrAddr] at hrhs
      exact onLower_lowerAsOperand hrhs
  refine ⟨fun instr hinstr ↦ ?_, ⟨⟨3, rfl⟩, hsecond.2⟩, rfl⟩
  rcases mem_append.mp hinstr with hinstr | hinstr
  · exact onLower_lowerAsMove hmove instr hinstr
  · exact hsecond.1 instr hinstr

end Comparisons

/-! ## Edges -/

section Edges

open BranchMachine

variable {ctx : BranchContext} {B : BranchMachine} {M : WordMachine} {st : BranchState}

/-- The lowering of the branch at the end of a block. -/
def lowerBranch (ctx : BranchContext) (next : Option BlockId) (instr : SSA.Instruction) :
    Option (List BranchItem) :=
  match instr.opcode, instr.targets with
  | .JMP, [target] => lowerJmp ctx next target
  | .CJMP, [targetTrue, targetFalse] | .FCJMP, [targetTrue, targetFalse] =>
    match (instr.getOperand 1).value with
    | .comparison comparison =>
      lowerCondBranch ctx next (comparisonOpcode instr) (instr.getOperand 0) comparison
        (instr.getOperand 2) targetTrue targetFalse
    | _ => none
  | _, _ => none

/-- The edge a branch takes: that of the outcome of the comparison, when it is made before any
argument is moved. -/
def takenEdge (ctx : BranchContext) (B : BranchMachine) (instr : SSA.Instruction)
    (st : BranchState) : Option BranchTarget :=
  match instr.opcode, instr.targets with
  | .JMP, [target] => some target
  | .CJMP, [targetTrue, targetFalse] | .FCJMP, [targetTrue, targetFalse] =>
    match (instr.getOperand 1).value with
    | .comparison comparison => do
      let (first, compare) ← appendComparison ctx (comparisonOpcode instr) (instr.getOperand 0)
        (instr.getOperand 2)
      some (if holdsCondition (B.execAll st (first ++ [compare])).flags (lowerCondition comparison)
        then targetTrue else targetFalse)
    | _ => none
  | _, _ => none

/-- The arguments of an edge have the types of the parameters, which are distinct. -/
structure EdgeTyped (ctx : BranchContext) (target : BranchTarget) : Prop where
  nodup : ((ctx.params target.block).map Prod.fst).Nodup
  length : (ctx.params target.block).length = target.args.length
  types : ∀ pair ∈ (ctx.params target.block).zip target.args, pair.2.type = pair.1.2
  args : ∀ arg ∈ target.args, ArgTyped ctx arg

/-- The state after the prologue of a target. -/
def arrive (ctx : BranchContext) (B : BranchMachine) (target : BranchTarget) (st : BranchState) :
    BranchState :=
  B.execAll st (emitBlockPrologue ctx (ctx.params target.block))

/-- **All arguments are assigned at once**: the parameters of the target have the values the
arguments had, and all other SSA registers what they had. -/
structure Assigned (ctx : BranchContext) (B : BranchMachine) (M : WordMachine)
    (target : BranchTarget) (st st' : BranchState) : Prop where
  params : ∀ pair ∈ (ctx.params target.block).zip target.args,
    (st'.regs (.lower (.vreg pair.1.1))).setWidth (8 * ctx.layout.size pair.2.type)
      = (argWord ctx B M st.regs pair.2).setWidth (8 * ctx.layout.size pair.2.type)
  others : ∀ reg ∉ (ctx.params target.block).map Prod.fst,
    st'.regs (.lower (.vreg reg)) = st.regs (.lower (.vreg reg))

/-- The code of a branch takes the edge of its comparison and assigns the arguments. -/
def ImplementsBranch (ctx : BranchContext) (B : BranchMachine) (M : WordMachine)
    (next : Option BlockId) (instr : SSA.Instruction) (code : List BranchItem) (st : BranchState) :
    Prop :=
  ∃ target, takenEdge ctx B instr st = some target ∧
    ((B.run st code).2 = some target.block ∨ (B.run st code).2 = none ∧ next = some target.block) ∧
    Assigned ctx B M target st (arrive ctx B target (B.run st code).1)

/-- An argument that is moved as it is: no floating-point zero with a sign, no value of five to
seven bytes of which more than four are used, and no symbol whose address is not loaded from where
it is. -/
def ArgPasses (ctx : BranchContext) (B : BranchMachine) (M : WordMachine)
    (regs : BranchReg → BitVec 64) (arg : SSA.Operand) : Prop :=
  match arg.value with
  | .intImmediate _ => True
  | .fpImmediate immediate => immediate.isZero = true → immediate.bits = 0
  | .register reg =>
    4 < ctx.layout.size arg.type → ctx.layout.size arg.type < 8 →
      (low32 (regs (.lower (.vreg reg)))).setWidth (8 * ctx.layout.size arg.type)
        = (regs (.lower (.vreg reg))).setWidth (8 * ctx.layout.size arg.type)
  | symbol =>
    match symbolReloc ctx symbol with
    | .PLT => ctx.darwin = false → ctx.largeCodeModel = false →
        B.load (M.symbol symbol) = M.symbol symbol
    | .GOT => ctx.largeCodeModel = true → B.symbol symbol .GOT = M.symbol symbol
    | .NONE => True

/-- What is assumed of the machine: symbols are linked, and the sign of a zero is kept by constants
of 32 bits. -/
structure MachineOk (ctx : BranchContext) (B : BranchMachine) (M : WordMachine) : Prop where
  sizes : FloatSizes ctx.layout
  linked : B.Linked M
  toFloat_zero : ∀ value : Double, value.isZero = true → (B.toFloat value = 0 ↔ value.bits = 0)

variable {arg : SSA.Operand}

theorem fpWord_eq_zero_iff (hsizes : FloatSizes ctx.layout)
    (htoFloat : ∀ value : Double, value.isZero = true → (B.toFloat value = 0 ↔ value.bits = 0))
    {value : Double} (hvalue : arg.value = .fpImmediate value) (ht : ArgTyped ctx arg)
    (hzero : value.isZero = true) :
    0 = (B.fpWord (ctx.layout.size arg.type) value).setWidth (8 * ctx.layout.size arg.type)
      ↔ value.bits = 0 := by
  have htype := ht.value
  rw [hvalue] at htype
  rcases htype with h32 | h64
  · rw [h32, hsizes.f32, fpWord, if_pos rfl, ← htoFloat value hzero,
      setWidth_setWidth_of_le _ (by decide : 8 * 4 ≤ 64), setWidth_eq]
    exact eq_comm
  · rw [h64, hsizes.f64, fpWord, if_neg (by decide), setWidth_eq]
    exact eq_comm

/-- The word of a symbol is its address unless it is loaded from elsewhere. -/
theorem symbolWord_eq_iff (hok : MachineOk ctx B M) (symbol : Value) :
    symbolWord ctx B symbol = M.symbol symbol ↔
      match symbolReloc ctx symbol with
      | .PLT => ctx.darwin = false → ctx.largeCodeModel = false →
          B.load (M.symbol symbol) = M.symbol symbol
      | .GOT => ctx.largeCodeModel = true → B.symbol symbol .GOT = M.symbol symbol
      | .NONE => True := by
  unfold symbolWord
  cases hreloc : symbolReloc ctx symbol with
  | NONE => simpa using hok.linked.plain symbol
  | GOT =>
    have hfunc : isFunc symbol = false := by
      cases symbol <;> cases hunix : ctx.unix <;> simp_all [symbolReloc, isFunc]
    cases hlarge : ctx.largeCodeModel with
    | true => simp [hfunc]
    | false => simpa [hfunc] using hok.linked.got symbol
  | PLT =>
    have hfunc : isFunc symbol = true := by
      cases symbol <;> cases hunix : ctx.unix <;> simp_all [symbolReloc, isFunc]
    cases hdarwin : ctx.darwin with
    | true => simpa [hfunc] using hok.linked.plt symbol
    | false =>
      cases hlarge : ctx.largeCodeModel with
      | true => simpa using hok.linked.plt symbol
      | false => simp [hok.linked.plt symbol]

/-- What is passed on is the value of the argument exactly when it passes. -/
theorem passed_eq_argWord_iff (hok : MachineOk ctx B M)
    (ht : ArgTyped ctx arg) (regs : BranchReg → BitVec 64) :
    (passed (ctx.layout.size arg.type) (loweredWord ctx B regs arg)).setWidth
        (8 * ctx.layout.size arg.type)
      = (argWord ctx B M regs arg).setWidth (8 * ctx.layout.size arg.type)
      ↔ ArgPasses ctx B M regs arg := by
  have hsymbol {symbol : Value} (h8 : ctx.layout.size arg.type = 8) :
      (passed (ctx.layout.size arg.type) (symbolWord ctx B symbol)).setWidth
          (8 * ctx.layout.size arg.type)
        = (M.symbol symbol).setWidth (8 * ctx.layout.size arg.type)
        ↔ symbolWord ctx B symbol = M.symbol symbol := by
    rw [h8, passed, if_pos rfl, setWidth_eq, setWidth_eq]
  have hvalue := ht.value
  cases hv : arg.value with
  | intImmediate immediate =>
    rw [hv] at hvalue
    rw [setWidth_passed hvalue]
    simp [loweredWord, argWord, ArgPasses, hv]
  | fpImmediate immediate =>
    rw [hv] at hvalue
    have hsize : ctx.layout.size arg.type ≤ 4 ∨ ctx.layout.size arg.type = 8 := by
      rcases hvalue with h | h
      · exact Or.inl (by rw [h, hok.sizes.f32])
      · exact Or.inr (by rw [h, hok.sizes.f64])
    rw [setWidth_passed hsize]
    cases hzero : immediate.isZero with
    | true =>
      have hiff := fpWord_eq_zero_iff hok.sizes hok.toFloat_zero hv ht hzero
      simpa [loweredWord, argWord, ArgPasses, hv, hzero] using hiff
    | false => simp [loweredWord, argWord, ArgPasses, hv, hzero]
  | register reg =>
    rw [hv] at hvalue
    cases hslot : ctx.slots reg with
    | some slot =>
      have h8 : ctx.layout.size arg.type = 8 := hvalue (by rw [hslot]; rfl)
      simp [loweredWord, argWord, ArgPasses, hv, hslot, passed, h8]
    | none =>
      by_cases hfull : ctx.layout.size arg.type ≤ 4 ∨ ctx.layout.size arg.type = 8
      · rw [setWidth_passed hfull]
        simp only [loweredWord, argWord, ArgPasses, hv, hslot, true_iff]
        omega
      · have hsize := ht.size
        have hbetween : 4 < ctx.layout.size arg.type ∧ ctx.layout.size arg.type < 8 := by omega
        simp only [loweredWord, argWord, ArgPasses, hv, hslot, passed]
        rw [if_neg (by omega)]
        exact ⟨fun h _ _ ↦ h, fun h ↦ h hbetween.1 hbetween.2⟩
  | comparison _ | type | undef =>
    rw [hv] at hvalue
    exact Bool.noConfusion hvalue.1
  | _ =>
    rw [hv] at hvalue
    simp only [loweredWord, argWord, ArgPasses, hv]
    rw [hsymbol hvalue.2, symbolWord_eq_iff hok]

variable {target : BranchTarget}

theorem EdgeTyped.size_le (h : EdgeTyped ctx target) {param : VirtualRegister × SSAType}
    (hparam : param ∈ ctx.params target.block) : ctx.layout.size param.2 ≤ 8 := by
  obtain ⟨i, hi, rfl⟩ := mem_iff_getElem.mp hparam
  have hi' : i < target.args.length := h.length ▸ hi
  have hpair : ((ctx.params target.block)[i], target.args[i])
      ∈ (ctx.params target.block).zip target.args :=
    mem_iff_getElem.mpr ⟨i, by simp [hi, hi'], by simp⟩
  rw [← h.types _ hpair]
  exact (h.args _ (getElem_mem hi')).size

variable {moves : List BranchInstr}

/-- **An edge**: when the moves of its arguments run from a state with the SSA registers of the
branch, and their results are kept until the target, the target's prologue assigns the arguments
exactly when each of them passes. -/
theorem assigned_iff (hok : MachineOk ctx B M) (hedge : EdgeTyped ctx target)
    (hmoves : moveBranchArgs ctx target = some moves) {before after : BranchState}
    (hbefore : SameSSA st before) (hafter : SameSSA st after)
    (htmps : ∀ param, after.regs (.argTmp param) = (B.execAll before moves).regs (.argTmp param)) :
    Assigned ctx B M target st (arrive ctx B target after) ↔
      ∀ arg ∈ target.args, ArgPasses ctx B M st.regs arg := by
  obtain ⟨-, hwords⟩ := moveArgs_spec (B := B) hok.sizes hedge.nodup hedge.args hmoves before
  obtain ⟨hparams, hothers⟩ := emitBlockPrologue_spec (B := B) hok.sizes hedge.nodup
    (fun param hparam ↦ hedge.size_le hparam) after
  have hpair {pair : (VirtualRegister × SSAType) × SSA.Operand}
      (h : pair ∈ (ctx.params target.block).zip target.args) :
      ((arrive ctx B target after).regs (.lower (.vreg pair.1.1))).setWidth
          (8 * ctx.layout.size pair.2.type)
        = (argWord ctx B M st.regs pair.2).setWidth (8 * ctx.layout.size pair.2.type)
      ↔ ArgPasses ctx B M st.regs pair.2 := by
    have hparam := hparams pair.1 (of_mem_zip h).1
    rw [← hedge.types pair h, htmps, hwords pair h, loweredWord_congr hbefore] at hparam
    rw [arrive, hparam]
    exact passed_eq_argWord_iff hok (hedge.args _ (of_mem_zip h).2) st.regs
  constructor
  · intro h arg harg
    obtain ⟨i, hi, rfl⟩ := mem_iff_getElem.mp harg
    have hi' : i < (ctx.params target.block).length := hedge.length ▸ hi
    have hmem : ((ctx.params target.block)[i], target.args[i])
        ∈ (ctx.params target.block).zip target.args :=
      mem_iff_getElem.mpr ⟨i, by simp [hi, hi'], by simp⟩
    exact (hpair hmem).mp (h.params _ hmem)
  · intro h
    refine ⟨fun pair hmem ↦ (hpair hmem).mpr (h _ (of_mem_zip hmem).2), fun reg hreg ↦ ?_⟩
    rw [arrive, hothers reg hreg, hafter.vreg]

/-- Moves of arguments keep the SSA registers. -/
theorem sameSSA_moves (hok : MachineOk ctx B M) (hedge : EdgeTyped ctx target)
    (hmoves : moveBranchArgs ctx target = some moves) (st : BranchState) :
    SameSSA st (B.execAll st moves) :=
  ⟨fun _ ↦ moveBranchArgs_keeps hok.sizes hedge.nodup hedge.args hmoves st _,
    moveBranchArgs_keeps hok.sizes hedge.nodup hedge.args hmoves st _⟩

/-- New registers are no others. -/
theorem execAll_onLower {code : List BranchInstr} (h : ∀ instr ∈ code, OnLower instr)
    (st : BranchState) :
    SameSSA st (B.execAll st code) ∧
      ∀ param, (B.execAll st code).regs (.argTmp param) = st.regs (.argTmp param) := by
  have hkeeps {reg : BranchReg} (hreg : ∀ index, reg ≠ .lower (.tmp index)) :
      (B.execAll st code).regs reg = st.regs reg := by
    refine execAll_regs_of_ne B (fun instr hinstr heq ↦ ?_) st
    obtain ⟨index, hdst⟩ := (h instr hinstr).dst
    exact hreg index (heq.symm.trans hdst)
  exact ⟨⟨fun _ ↦ hkeeps nofun, hkeeps nofun⟩, fun _ ↦ hkeeps nofun⟩

/-- The moves for an edge, the comparison and the jump. -/
theorem run_jcc (moves first rest : List BranchInstr) (tail : List BranchItem)
    (compare : BranchInstr) (condition : Condition) (target : BlockId) (st : BranchState) :
    B.run st (moves.map .instr ++ first.map .instr ++
      [.instr compare, .jcc condition target] ++ (rest.map .instr ++ tail))
      = if holdsCondition (B.execAll (B.execAll st moves) (first ++ [compare])).flags condition then
          (B.execAll (B.execAll st moves) (first ++ [compare]), some target)
        else B.run (B.execAll (B.execAll (B.execAll st moves) (first ++ [compare])) rest) tail := by
  rw [List.append_assoc, List.append_assoc, run_instrs, run_instrs, execAll_append]
  by_cases h : holdsCondition
      (B.execAll (B.execAll (B.execAll st moves) first) [compare]).flags condition = true
  · rw [if_pos h]
    exact if_pos h
  · rw [if_neg h]
    exact (if_neg h).trans (run_instrs B _ rest tail)

/-- The end of a block arrives at the target. -/
theorem run_jumpTo (next : Option BlockId) (target : BlockId) (st : BranchState) :
    (B.run st (jumpTo next target)).1 = st ∧
      ((B.run st (jumpTo next target)).2 = some target ∨
        (B.run st (jumpTo next target)).2 = none ∧ next = some target) := by
  unfold jumpTo
  by_cases h : some target = next
  · rw [if_pos h]
    exact ⟨rfl, Or.inr ⟨rfl, h.symm⟩⟩
  · rw [if_neg h]
    exact ⟨rfl, Or.inl rfl⟩

/-- The end of a block after the moves for its last edge. -/
theorem run_moves_jumpTo (moves : List BranchInstr) (next : Option BlockId) (target : BlockId)
    (st : BranchState) :
    (B.run st (moves.map .instr ++ jumpTo next target)).1 = B.execAll st moves ∧
      ((B.run st (moves.map .instr ++ jumpTo next target)).2 = some target ∨
        (B.run st (moves.map .instr ++ jumpTo next target)).2 = none ∧ next = some target) := by
  rw [run_instrs]
  exact run_jumpTo next target _

variable {next : Option BlockId}

/-- **A conditional branch**: whichever of its edges is moved first, it takes the edge of the
comparison as it is before the moves, with the arguments of that edge. -/
theorem run_condBranch (hok : MachineOk ctx B M) {near far : BranchTarget}
    (hnear : EdgeTyped ctx near) (hfar : EdgeTyped ctx far) {movesNear movesFar : List BranchInstr}
    (hmovesNear : moveBranchArgs ctx near = some movesNear)
    (hmovesFar : moveBranchArgs ctx far = some movesFar) {opcode : Mcode.Opcode}
    (hopcode : isComparison opcode = true) {lhs rhs : SSA.Operand} {first : List BranchInstr}
    {compare : BranchInstr} (hcompare : appendComparison ctx opcode lhs rhs = some (first, compare))
    (condition : Condition) {tail : List BranchItem}
    (htail : tail = jumpTo next far.block ∨ tail = [] ∧ next = some far.block)
    (st : BranchState) :
    let taken := if holdsCondition (B.execAll st (first ++ [compare])).flags condition
      then near else far
    let result := B.run st (movesNear.map .instr ++ first.map .instr ++
      [.instr compare, .jcc condition near.block] ++ (movesFar.map .instr ++ tail))
    (result.2 = some taken.block ∨ result.2 = none ∧ next = some taken.block) ∧
      (Assigned ctx B M taken st (arrive ctx B taken result.1) ↔
        ∀ arg ∈ taken.args, ArgPasses ctx B M st.regs arg) := by
  obtain ⟨hfirst, hlast, hop⟩ := onLower_appendComparison hcompare
  have hcode : ∀ instr ∈ first ++ [compare], OnLower instr := by
    intro instr hinstr
    rcases mem_append.mp hinstr with hinstr | hinstr
    · exact hfirst instr hinstr
    · rwa [mem_singleton.mp hinstr]
  have hflags := flags_congr (B := B) hfirst hlast (hop ▸ hopcode)
    (fun reg ↦ moveBranchArgs_keeps (B := B) hok.sizes hnear.nodup hnear.args hmovesNear st reg)
  have hmoved := sameSSA_moves hok hnear hmovesNear st
  obtain ⟨hsame, htmps⟩ := execAll_onLower (B := B) hcode (B.execAll st movesNear)
  intro taken result
  by_cases h : holdsCondition (B.execAll st (first ++ [compare])).flags condition = true
  · have htaken : taken = near := if_pos h
    have hresult : result
        = (B.execAll (B.execAll st movesNear) (first ++ [compare]), some near.block) := by
      rw [← hflags] at h
      exact (run_jcc ..).trans (if_pos h)
    rw [htaken, hresult]
    exact ⟨Or.inl rfl, assigned_iff hok hnear hmovesNear ⟨fun _ ↦ rfl, rfl⟩ (hmoved.trans hsame)
      htmps⟩
  · have htaken : taken = far := if_neg h
    have hresult : result = B.run (B.execAll (B.execAll (B.execAll st movesNear)
        (first ++ [compare])) movesFar) tail := by
      rw [← hflags] at h
      exact (run_jcc ..).trans (if_neg h)
    rw [htaken, hresult]
    have hbefore := hmoved.trans hsame
    have hafter := hbefore.trans (sameSSA_moves hok hfar hmovesFar _)
    have hassigned := assigned_iff hok hfar hmovesFar hbefore hafter fun _ ↦ rfl
    rcases htail with rfl | ⟨rfl, hnext⟩
    · obtain ⟨hstate, hblock⟩ := run_jumpTo (B := B) next far.block (B.execAll (B.execAll
        (B.execAll st movesNear) (first ++ [compare])) movesFar)
      rw [hstate]
      exact ⟨hblock, hassigned⟩
    · exact ⟨Or.inr ⟨rfl, hnext⟩, hassigned⟩

variable {code : List BranchItem}

theorem implementsBranch_iff_of_taken {instr : SSA.Instruction}
    (htaken : takenEdge ctx B instr st = some target)
    (h : ((B.run st code).2 = some target.block ∨
        (B.run st code).2 = none ∧ next = some target.block) ∧
      (Assigned ctx B M target st (arrive ctx B target (B.run st code).1) ↔
        ∀ arg ∈ target.args, ArgPasses ctx B M st.regs arg)) :
    ImplementsBranch ctx B M next instr code st ↔
      ∀ target, takenEdge ctx B instr st = some target →
        ∀ arg ∈ target.args, ArgPasses ctx B M st.regs arg := by
  constructor
  · rintro ⟨other, hother, -, hassigned⟩ target' htarget'
    obtain rfl := some.inj (hother.symm.trans htaken)
    obtain rfl := some.inj (htarget'.symm.trans htaken)
    exact h.2.mp hassigned
  · exact fun hpasses ↦ ⟨target, htaken, h.1, h.2.mpr (hpasses target htaken)⟩

theorem implementsBranch_jmp (hok : MachineOk ctx B M) (hedge : EdgeTyped ctx target)
    (hcode : lowerJmp ctx next target = some code) (st : BranchState) :
    ((B.run st code).2 = some target.block ∨ (B.run st code).2 = none ∧ next = some target.block) ∧
      (Assigned ctx B M target st (arrive ctx B target (B.run st code).1) ↔
        ∀ arg ∈ target.args, ArgPasses ctx B M st.regs arg) := by
  obtain ⟨moves, hmoves, hcode⟩ := bind_eq_some_iff.mp hcode
  obtain rfl := some.inj hcode
  obtain ⟨hstate, hblock⟩ := run_moves_jumpTo (B := B) moves next target.block st
  rw [hstate]
  exact ⟨hblock, assigned_iff hok hedge hmoves ⟨fun _ ↦ rfl, rfl⟩
    (sameSSA_moves hok hedge hmoves st) fun _ ↦ rfl⟩

theorem implementsBranch_condBranch (hok : MachineOk ctx B M)
    {targetTrue targetFalse : BranchTarget} (htrue : EdgeTyped ctx targetTrue)
    (hfalse : EdgeTyped ctx targetFalse) {opcode : Mcode.Opcode}
    (hopcode : isComparison opcode = true) {lhs rhs : SSA.Operand} {comparison : Comparison}
    {next : Option BlockId} {code : List BranchItem}
    (hcode : lowerCondBranch ctx next opcode lhs comparison rhs targetTrue targetFalse = some code)
    (st : BranchState) :
    ∃ first compare, appendComparison ctx opcode lhs rhs = some (first, compare) ∧
      ∃ taken, taken = (if holdsCondition (B.execAll st (first ++ [compare])).flags
          (lowerCondition comparison) then targetTrue else targetFalse) ∧
        ((B.run st code).2 = some taken.block ∨
          (B.run st code).2 = none ∧ next = some taken.block) ∧
        (Assigned ctx B M taken st (arrive ctx B taken (B.run st code).1) ↔
          ∀ arg ∈ taken.args, ArgPasses ctx B M st.regs arg) := by
  obtain ⟨movesTrue, hmovesTrue, hbind⟩ := bind_eq_some_iff.mp hcode
  obtain ⟨movesFalse, hmovesFalse, hbind⟩ := bind_eq_some_iff.mp hbind
  obtain ⟨⟨first, compare⟩, hcompare, hcode⟩ := bind_eq_some_iff.mp hbind
  refine ⟨first, compare, hcompare, ?_⟩
  by_cases hnext : some targetTrue.block = next
  · -- the false edge is the jump, and its condition is the inverted one
    simp only [if_pos hnext] at hcode
    obtain rfl := some.inj hcode
    have hrun := run_condBranch hok hfalse htrue hmovesFalse hmovesTrue hopcode hcompare
      (lowerCondition (invertComparison comparison)) (Or.inr ⟨rfl, hnext.symm⟩) st
    simp only [holdsCondition_invert, List.append_nil] at hrun
    refine ⟨_, ?_, hrun⟩
    cases holdsCondition (B.execAll st (first ++ [compare])).flags (lowerCondition comparison) <;>
      rfl
  · simp only [if_neg hnext] at hcode
    obtain rfl := some.inj hcode
    have hrun := run_condBranch hok htrue hfalse hmovesTrue hmovesFalse hopcode hcompare
      (lowerCondition comparison) (Or.inl (Eq.refl (jumpTo next targetFalse.block))) st
    rw [← List.append_assoc] at hrun
    exact ⟨_, rfl, hrun⟩

theorem isComparison_comparisonOpcode (instr : SSA.Instruction) :
    isComparison (comparisonOpcode instr) = true := by
  unfold comparisonOpcode
  by_cases hcjmp : instr.opcode = .CJMP
  · rw [if_pos hcjmp]
    rfl
  by_cases hwide : (instr.getOperand 0).type = Primitive.F64
  · rw [if_neg hcjmp, if_pos hwide]
    rfl
  · rw [if_neg hcjmp, if_neg hwide]
    rfl

/-- **Branches assign their arguments at once**, to the parameters of the edge that the comparison
takes, when each of them passes: no move loses a part of it. -/
theorem implementsBranch_iff (hok : MachineOk ctx B M) {instr : SSA.Instruction}
    (htyped : ∀ target ∈ instr.targets, EdgeTyped ctx target) {next : Option BlockId}
    {code : List BranchItem} (hcode : lowerBranch ctx next instr = some code) (st : BranchState) :
    ImplementsBranch ctx B M next instr code st ↔
      ∀ target, takenEdge ctx B instr st = some target →
        ∀ arg ∈ target.args, ArgPasses ctx B M st.regs arg := by
  have hcond {targetTrue targetFalse : BranchTarget} {comparison : Comparison}
      (htargets : instr.targets = [targetTrue, targetFalse])
      (hcode : lowerCondBranch ctx next (comparisonOpcode instr) (instr.getOperand 0) comparison
        (instr.getOperand 2) targetTrue targetFalse = some code)
      (htaken : ∀ first compare, appendComparison ctx (comparisonOpcode instr)
        (instr.getOperand 0) (instr.getOperand 2) = some (first, compare) →
          takenEdge ctx B instr st = some (if holdsCondition
            (B.execAll st (first ++ [compare])).flags (lowerCondition comparison)
            then targetTrue else targetFalse)) :
      ImplementsBranch ctx B M next instr code st ↔
        ∀ target, takenEdge ctx B instr st = some target →
          ∀ arg ∈ target.args, ArgPasses ctx B M st.regs arg := by
    rw [htargets] at htyped
    obtain ⟨first, compare, hcompare, taken, rfl, hrun⟩ := implementsBranch_condBranch hok
      (htyped _ (by simp)) (htyped _ (by simp)) (isComparison_comparisonOpcode instr) hcode st
    exact implementsBranch_iff_of_taken (htaken first compare hcompare) hrun
  obtain ⟨opcode, dest, operands, targets, attr, attrData⟩ := instr
  unfold lowerBranch at hcode
  split at hcode
  · -- JMP
    rename_i target hopcode htargets
    simp only at hopcode htargets
    subst hopcode htargets
    exact implementsBranch_iff_of_taken rfl
      (implementsBranch_jmp hok (htyped target (by simp)) hcode st)
  · -- CJMP
    rename_i targetTrue targetFalse hopcode htargets
    simp only at hopcode htargets
    subst hopcode htargets
    split at hcode
    · rename_i comparison hcomparison
      refine hcond rfl hcode fun first compare hcompare ↦ ?_
      simp only [takenEdge, hcomparison, hcompare]
      rfl
    · cases hcode
  · -- FCJMP
    rename_i targetTrue targetFalse hopcode htargets
    simp only at hopcode htargets
    subst hopcode htargets
    split at hcode
    · rename_i comparison hcomparison
      refine hcond rfl hcode fun first compare hcompare ↦ ?_
      simp only [takenEdge, hcomparison, hcompare]
      rfl
    · cases hcode
  · cases hcode

end Edges

/-! ## Examples -/

section Examples

def exampleContext : BranchContext where
  layout := ⟨fun type ↦ if type = Primitive.F32 then 4 else 8, fun _ _ ↦ 0⟩
  slots := fun _ ↦ none
  loads := fun _ ↦ none
  params := fun block ↦
    if block = 1 then [(0, Primitive.U64), (1, Primitive.U64)]
    else if block = 2 then [(2, Primitive.F64)]
    else []
  unix := false
  darwin := false
  largeCodeModel := false

def exampleMachine : BranchMachine where
  symbol := fun _ _ ↦ 0
  load := fun _ ↦ 0
  frame := fun _ ↦ 0
  toFloat := fun value ↦ if value.bits = 0 then 0 else 0x80000000
  compareFlags := fun _ _ x y ↦ {
    zero := x = y
    carry := x.ult y
    sign := (x - y).msb
    overflow := (x - y).msb != x.slt y }
  resultFlags := fun _ _ result ↦ ⟨result = 0, false, result.msb, false⟩

def exampleState : BranchState where
  regs := fun reg ↦ if reg = .lower (.vreg 0) then 3 else 5
  flags := ⟨false, false, false, false⟩

theorem machineOk_example :
    MachineOk exampleContext exampleMachine ⟨exampleContext.layout, fun _ ↦ 0⟩ where
  sizes := ⟨rfl, rfl⟩
  linked := ⟨fun _ ↦ rfl, fun _ ↦ rfl, fun _ ↦ rfl⟩
  toFloat_zero := by
    intro value _
    simp [exampleMachine]

/-- `cjmp %0 ult %1, @1(%1, %0), @3`, in a loop that swaps its parameters. -/
def swapBranch : SSA.Instruction where
  opcode := .CJMP
  operands := [⟨.register 0, Primitive.U64⟩, ⟨.comparison .ULT, Primitive.VOID⟩,
    ⟨.register 1, Primitive.U64⟩]
  targets := [⟨1, [⟨.register 1, Primitive.U64⟩, ⟨.register 0, Primitive.U64⟩]⟩, ⟨3, []⟩]

theorem argTyped_register (reg : VirtualRegister) :
    ArgTyped exampleContext ⟨.register reg, Primitive.U64⟩ :=
  ⟨le_refl 8, fun h ↦ Bool.noConfusion h⟩

theorem implementsBranch_iff_swap :
    ImplementsBranch exampleContext exampleMachine ⟨exampleContext.layout, fun _ ↦ 0⟩ (some 3)
        swapBranch ((lowerBranch exampleContext (some 3) swapBranch).getD []) exampleState ↔
      ∀ target, takenEdge exampleContext exampleMachine swapBranch exampleState = some target →
        ∀ arg ∈ target.args, ArgPasses exampleContext exampleMachine
          ⟨exampleContext.layout, fun _ ↦ 0⟩ exampleState.regs arg := by
  refine implementsBranch_iff machineOk_example (fun target htarget ↦ ?_) rfl exampleState
  simp only [swapBranch, mem_cons, not_mem_nil, or_false] at htarget
  rcases htarget with rfl | rfl
  · refine ⟨by decide, rfl, by decide, fun arg harg ↦ ?_⟩
    simp only [mem_cons, not_mem_nil, or_false] at harg
    rcases harg with rfl | rfl
    · exact argTyped_register 1
    · exact argTyped_register 0
  · exact ⟨by decide, rfl, by decide, fun _ h ↦ absurd h not_mem_nil⟩

/-- `jmp @2(-0.0)`. -/
def negativeZeroBranch : SSA.Instruction where
  opcode := .JMP
  targets := [⟨2, [⟨.fpImmediate ⟨0x8000000000000000⟩, Primitive.F64⟩]⟩]

/-- The parameter of a target does not get the sign of a negative zero. -/
theorem not_implementsBranch : ¬∀ (ctx : BranchContext) (B : BranchMachine) (M : WordMachine)
    (instr : SSA.Instruction) (next : Option BlockId) (code : List BranchItem) (st : BranchState),
    MachineOk ctx B M → (∀ target ∈ instr.targets, EdgeTyped ctx target) →
      lowerBranch ctx next instr = some code → ImplementsBranch ctx B M next instr code st := by
  intro h
  obtain ⟨target, htaken, -, hassigned⟩ := h exampleContext exampleMachine
    ⟨exampleContext.layout, fun _ ↦ 0⟩ negativeZeroBranch none
    ((lowerBranch exampleContext none negativeZeroBranch).getD []) exampleState
    machineOk_example (by
      intro target htarget
      obtain rfl := mem_singleton.mp htarget
      refine ⟨by decide, rfl, by decide, fun arg harg ↦ ?_⟩
      obtain rfl := mem_singleton.mp harg
      exact ⟨by decide, Or.inr rfl⟩) rfl
  obtain rfl := some.inj htaken
  have hparam := hassigned.params ((2, Primitive.F64),
    ⟨.fpImmediate ⟨0x8000000000000000⟩, Primitive.F64⟩) (by decide)
  exact absurd hparam (by decide)

end Examples

end Banjo.Target.X8664
