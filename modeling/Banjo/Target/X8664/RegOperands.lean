import Banjo.Target.RegEffects
import Banjo.Target.X8664.RegAnalyzer

/-!
# Which operands the register analyzer of x86-64 lists

`get_operands` has a case for every opcode that the lowerer emits but `SAR`, the shift of a signed
number to the right, and lists nothing for it.
-/

open List

namespace Banjo.Target.X8664.Mcode

open Codegen X8664Register RegAnalyzer

/-! ## What instructions read and write -/

/-- The registers in which a call is given arguments and in which it returns. -/
structure CallRegs where
  args : List PhysicalReg := []
  results : List PhysicalReg := []
  deriving DecidableEq, Repr

def Address.regs (addr : Address) : List Register :=
  (match addr.base with
    | .register reg => [reg]
    | .symbol _ => [])
  ++ (addr.offsetReg.map Prod.fst).toList

def Operand.shape (operand : Operand) : Shape :=
  match operand.value with
  | .register reg => .register reg
  | .addr addr => .address addr.regs
  | _ => .other

/-- Both operands are the same register. -/
def sameRegister : List Shape → Bool
  | .register dst :: .register src :: _ => dst = src
  | _ => false

/-- What is done to the operands. -/
def roles : Opcode → List Role
  | .MOV | .MOVSS | .MOVSD | .MOVAPS | .MOVUPS | .MOVD | .MOVQ | .MOVSX | .MOVZX | .LEA
  | .CVTSS2SD | .CVTSD2SS | .CVTSI2SS | .CVTSI2SD | .CVTSS2SI | .CVTSD2SI
  | .SQRTSS | .SQRTSD => [.write, .read]
  | .ADD | .SUB | .IMUL | .AND | .OR | .XOR | .SHL | .SHR | .SAR
  | .CMOVE | .CMOVNE | .CMOVA | .CMOVAE | .CMOVB | .CMOVBE | .CMOVG | .CMOVGE | .CMOVL | .CMOVLE
  | .ADDSS | .ADDSD | .SUBSS | .SUBSD | .MULSS | .MULSD | .DIVSS | .DIVSD | .XORPS | .XORPD
  | .MINSS | .MINSD | .MAXSS | .MAXSD => [.readWrite, .read]
  | .CMP | .UCOMISS | .UCOMISD => [.read, .read]
  | .PUSH | .DIV | .IDIV | .CALL => [.read]
  | .POP => [.write]
  | .CWD | .CDQ | .CQO | .JMP | .JE | .JNE | .JA | .JAE | .JB | .JBE | .JG | .JGE | .JL | .JLE
  | .RET => []

/-- The registers of an instruction without an operand. A division of a byte has both halves of its
dividend in `RAX`. -/
def implicitEffect (call : CallRegs) (instr : Instruction) : Effect :=
  match instr.opcode with
  | .CWD | .CDQ | .CQO => ⟨[.fromPhysical RAX], [.fromPhysical RDX]⟩
  | .DIV | .IDIV =>
    let regs := if (instr.operands[0]?.map Operand.size).getD 0 ≠ 1 then [RAX, RDX] else [RAX]
    ⟨regs.map .fromPhysical, regs.map .fromPhysical⟩
  | .CALL => ⟨call.args.map .fromPhysical, call.results.map .fromPhysical⟩
  | _ => {}

/-- A move of a register to itself does nothing, and a register combined with itself by `XOR` is
cleared without being read. -/
def effect (call : CallRegs) (instr : Instruction) : Effect :=
  let shapes := instr.operands.map Operand.shape
  match instr.opcode with
  | .MOV | .MOVSS | .MOVSD | .MOVAPS | .MOVUPS | .MOVD | .MOVQ =>
    if sameRegister shapes then {} else effectOf [.write, .read] shapes
  | .XOR | .XORPS | .XORPD =>
    if sameRegister shapes then effectOf [.write] shapes else effectOf [.readWrite, .read] shapes
  | opcode => effectOf (roles opcode) shapes ++ implicitEffect call instr

/-- The operands of an instruction the lowerer emits: a register is combined with itself but no
memory is, a shift is one of a register, and the arguments of a call are put into their registers
after the call before it. -/
structure Emitted (call : CallRegs) (before : List Instruction) (instr : Instruction) : Prop where
  combined : instr.opcode = .XOR ∨ instr.opcode = .XORPS ∨ instr.opcode = .XORPD →
    instr.operands[0]? = instr.operands[1]? → sameRegister (instr.operands.map Operand.shape) = true
  shift : instr.opcode = .SAR → ∃ reg size src rest,
    instr.operands = ⟨.register reg, size⟩ :: src :: rest
  pop : instr.opcode = .POP → ∃ reg size, instr.operands = [⟨.register reg, size⟩]
  args : instr.opcode = .CALL → ∀ reg ∈ call.args,
    ∃ prev ∈ before.reverse.takeWhile (·.opcode ≠ .CALL),
      prev.operands[0]?.bind Operand.getPhysicalReg = some reg
  results : instr.opcode = .CALL → call.results ⊆ [RAX, XMM0]

/-! ## Operands that are listed -/

section Operands

theorem collectAddrRegs_eq (addr : Address) : collectAddrRegs addr = addr.regs.map (⟨·, .USE⟩) := by
  obtain ⟨base, offsetConst, offsetReg⟩ := addr
  cases base <;> cases offsetReg <;> rfl

/-- The usage that lists a role. -/
def usageOf : Role → RegUsage
  | .read => .USE
  | .write => .DEF
  | .readWrite => .USE_DEF

theorem lists_collectRegs (operand : Operand) (role : Role) :
    Lists (collectRegs (some operand) (usageOf role)) (operand.shape.effect role) := by
  obtain ⟨value, size⟩ := operand
  cases value with
  | register reg =>
    cases role
    case read => exact ⟨by simp [collectRegs, usageOf, Operand.shape, Shape.effect], nofun⟩
    case write => exact ⟨nofun, by simp [collectRegs, usageOf, Operand.shape, Shape.effect]⟩
    case readWrite =>
      constructor <;> simp [collectRegs, usageOf, Operand.shape, Shape.effect]
  | addr addr =>
    have hregs : collectRegs (some ⟨.addr addr, size⟩) (usageOf role) = addr.regs.map (⟨·, .USE⟩) :=
      collectAddrRegs_eq addr
    rw [hregs]
    exact ⟨fun reg hreg ↦ Or.inl (mem_map_of_mem hreg), nofun⟩
  | immediate value => exact .nil _
  | stackSlot slot => exact .nil _

theorem lists_one (operands : List Operand) (role : Role) :
    Lists (collectRegs operands[0]? (usageOf role))
      (effectOf [role] (operands.map Operand.shape)) := by
  cases operands with
  | nil => exact .nil _
  | cons operand rest => exact (lists_collectRegs operand role).append (.nil _)

theorem lists_two (operands : List Operand) (role role' : Role) :
    Lists (collectRegs operands[0]? (usageOf role) ++ collectRegs operands[1]? (usageOf role'))
      (effectOf [role, role'] (operands.map Operand.shape)) := by
  cases operands with
  | nil => exact .nil _
  | cons operand rest =>
    cases rest with
    | nil => exact (lists_collectRegs operand role).append_append (.nil _)
    | cons operand' rest =>
      exact (lists_collectRegs operand role).append_append
        ((lists_collectRegs operand' role').append (.nil _))

end Operands

/-! ## Instructions that are listed -/

section Instructions

variable {volatileRegs : List PhysicalReg} {instrs : List Instruction} {index : ℕ}
  {instr : Instruction} {call : CallRegs}

variable (operands : List Operand)

/-- The test for a register that is moved to itself. -/
theorem sameRegister_eq :
    sameRegister (operands.map Operand.shape)
      = match operands[0]?.bind Operand.getRegister, operands[1]?.bind Operand.getRegister with
        | some dst, some src => decide (src = dst)
        | _, _ => false := by
  match operands with
  | [] => rfl
  | [⟨value, size⟩] => cases value <;> rfl
  | ⟨dst, dstSize⟩ :: ⟨src, srcSize⟩ :: rest =>
    cases dst with
    | register a =>
      cases src with
      | register b => exact decide_eq_decide.mpr eq_comm
      | addr addr => rfl
      | immediate value => rfl
      | stackSlot slot => rfl
    | addr addr => rfl
    | immediate value => rfl
    | stackSlot slot => rfl

theorem lists_callRegs {before : List Instruction} (hemitted : Emitted call before instr)
    (hcall : instr.opcode = .CALL) :
    Lists (callRegs volatileRegs before) (implicitEffect call instr) := by
  have heffect : implicitEffect call instr
      = ⟨call.args.map .fromPhysical, call.results.map .fromPhysical⟩ := by
    rw [implicitEffect, hcall]
  rw [heffect]
  constructor
  · intro reg hreg
    obtain ⟨arg, harg, rfl⟩ := mem_map.mp hreg
    obtain ⟨prev, hprev, hdest⟩ := hemitted.args hcall arg harg
    refine Or.inl (mem_append_left _ (mem_append_right _ ?_))
    exact mem_filterMap.mpr ⟨prev, hprev, by rw [hdest]; rfl⟩
  · intro reg hreg
    obtain ⟨result, hresult, rfl⟩ := mem_map.mp hreg
    refine Or.inl (mem_append_right _ ?_)
    have hmem := hemitted.results hcall hresult
    simpa using hmem

/-- The listed destination of a square root is read, too. -/
theorem lists_root :
    Lists (collectRegs operands[0]? .USE_DEF ++ collectRegs operands[1]? .USE)
      (effectOf [.write, .read] (operands.map Operand.shape)) := by
  cases operands with
  | nil => exact .nil _
  | cons operand rest =>
    have hfirst := (lists_collectRegs operand .readWrite).of_readWrite
    cases rest with
    | nil => exact hfirst.append_append (.nil _)
    | cons operand' rest =>
      exact hfirst.append_append ((lists_collectRegs operand' .read).append (.nil _))

theorem lists_move :
    Lists (if sameRegister (operands.map Operand.shape) then []
        else collectRegs operands[0]? .DEF ++ collectRegs operands[1]? .USE)
      (if sameRegister (operands.map Operand.shape) then {}
        else effectOf [.write, .read] (operands.map Operand.shape)) := by
  by_cases hsame : sameRegister (operands.map Operand.shape) = true
  · rw [if_pos hsame, if_pos hsame]
    exact .nil _
  · rw [if_neg hsame, if_neg hsame]
    exact lists_two operands .write .read

/-- A register combined with itself is listed once where its two sizes are the same, and as both a
register that is written and one that is read where they are not. -/
theorem lists_combined {operands : List Operand}
    (h : operands[0]? = operands[1]? → sameRegister (operands.map Operand.shape) = true) :
    Lists (if operands[0]? = operands[1]? then
          ((operands[0]?.bind Operand.getRegister).map (⟨·, .DEF⟩)).toList
        else collectRegs operands[0]? .USE_DEF ++ collectRegs operands[1]? .USE)
      (if sameRegister (operands.map Operand.shape) then
          effectOf [.write] (operands.map Operand.shape)
        else effectOf [.readWrite, .read] (operands.map Operand.shape)) := by
  by_cases hsame : sameRegister (operands.map Operand.shape) = true
  · rw [if_pos hsame]
    match operands, hsame with
    | ⟨.register dst, size⟩ :: ⟨.register src, size'⟩ :: rest, hsame =>
      have hdst : effectOf [.write] ((⟨.register dst, size⟩ :: ⟨.register src, size'⟩ :: rest :
          List Operand).map Operand.shape) = { writes := [dst] } := rfl
      rw [hdst]
      by_cases heq : (⟨.register dst, size⟩ : Operand) = ⟨.register src, size'⟩
      · cases heq
        exact ⟨nofun, by simp [Operand.getRegister]⟩
      · exact ⟨nofun, by simp [heq, collectRegs]⟩
  · rw [if_neg hsame, if_neg fun heq ↦ hsame (h heq)]
    exact lists_two operands .readWrite .read

theorem lists_division (call : CallRegs) (operands : List Operand) :
    Lists (collectRegs operands[0]? .USE ++ [⟨.fromPhysical RAX, .USE_DEF⟩]
        ++ if (operands[0]?.map Operand.size).getD 0 ≠ 1 then
          [⟨.fromPhysical RDX, .USE_DEF⟩] else [])
      (effectOf [.read] (operands.map Operand.shape) ++ implicitEffect call ⟨.DIV, operands⟩) := by
  rw [append_assoc]
  refine (lists_one operands .read).append_append ?_
  rw [implicitEffect]
  by_cases hsize : (operands[0]?.map Operand.size).getD 0 ≠ 1
  · simp only [if_pos hsize]
    constructor <;> simp
  · simp only [if_neg hsize]
    constructor <;> simp

/-- Everything but a shift of a signed number is listed. -/
theorem lists_getOperands (hget : instrs[index]? = some instr)
    (hemitted : Emitted call (instrs.take index) instr) (hsar : instr.opcode ≠ .SAR) :
    Lists (getOperands volatileRegs instrs index) (effect call instr) := by
  rw [getOperands, hget]
  obtain ⟨opcode, operands⟩ := instr
  have htwo : ∀ role role', Lists (collectRegs operands[0]? (usageOf role) ++
      collectRegs operands[1]? (usageOf role'))
        (effectOf [role, role'] (operands.map Operand.shape) ++ {}) :=
    fun role role' ↦ (lists_two operands role role').append (.nil _)
  cases opcode
  case MOV | MOVSS | MOVSD | MOVAPS | MOVUPS | MOVD | MOVQ =>
    have hmove := lists_move operands
    simp only [sameRegister_eq] at hmove
    simp only [effect, sameRegister_eq]
    exact hmove
  case XOR => exact lists_combined (hemitted.combined (Or.inl rfl))
  case XORPS => exact lists_combined (hemitted.combined (Or.inr (Or.inl rfl)))
  case XORPD => exact lists_combined (hemitted.combined (Or.inr (Or.inr rfl)))
  case MOVSX | MOVZX | LEA | CVTSS2SD | CVTSD2SS | CVTSI2SS | CVTSI2SD | CVTSS2SI | CVTSD2SI =>
    exact htwo .write .read
  case ADD | SUB | IMUL | AND | OR | SHL | SHR | CMOVE | CMOVNE | CMOVA | CMOVAE | CMOVB | CMOVBE
      | CMOVG | CMOVGE | CMOVL | CMOVLE | ADDSS | ADDSD | SUBSS | SUBSD | MULSS | MULSD | DIVSS
      | DIVSD | MINSS | MINSD | MAXSS | MAXSD =>
    exact htwo .readWrite .read
  case SQRTSS | SQRTSD => exact (lists_root operands).append (.nil _)
  case CMP | UCOMISS | UCOMISD => exact htwo .read .read
  case PUSH => exact (lists_one operands .read).append (.nil _)
  case CALL =>
    exact ((lists_one operands .read).mono (subset_append_right _ _)).append
      ((lists_callRegs hemitted rfl).mono (subset_append_left _ _))
  case POP =>
    obtain ⟨reg, size, rfl⟩ := hemitted.pop rfl
    constructor <;> simp [effect, roles, effectOf, Operand.shape, Shape.effect, implicitEffect,
      Operand.getRegister]
  case CWD | CDQ | CQO =>
    constructor <;> simp [effect, roles, effectOf, implicitEffect]
  case DIV | IDIV => exact lists_division call operands
  case SAR => exact absurd rfl hsar
  all_goals exact .nil _

/-- Nothing is listed for the shift. -/
theorem not_lists_sar (hget : instrs[index]? = some instr)
    (hemitted : Emitted call (instrs.take index) instr) (hsar : instr.opcode = .SAR) :
    ¬Lists (getOperands volatileRegs instrs index) (effect call instr) := by
  intro h
  obtain ⟨reg, size, src, rest, hoperands⟩ := hemitted.shift hsar
  have hops : getOperands volatileRegs instrs index = [] := by
    rw [getOperands, hget]
    simp only [hsar]
  have hmem : reg ∈ (effect call instr).writes := by
    rw [effect, hsar, hoperands]
    exact mem_append_left _ mem_cons_self
  rcases h.writes reg hmem with hlisted | hlisted
  · rw [hops] at hlisted
    cases hlisted
  · rw [hops] at hlisted
    cases hlisted

end Instructions

end Banjo.Target.X8664.Mcode
