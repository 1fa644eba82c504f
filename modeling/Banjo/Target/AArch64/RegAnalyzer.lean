import Banjo.Target.RegEffects

/-!
# The register analyzer of AArch64

`AArch64RegAnalyzer`: which operands an instruction has. A register that is listed twice is merged
into one entry. `MOVK` is listed like the moves that replace the whole register, though it keeps all
but 16 of its bits, and a call is listed without the registers it returns in.
-/

open List

namespace Banjo.Target.AArch64

open Codegen

/-- `AArch64Opcode`. -/
inductive Opcode where
  | MOV | MOVZ | MOVK | LDR | LDRB | LDRH | STR | STRB | STRH | LDP | STP
  | ADD | SUB | MUL | MADD | MSUB | SDIV | UDIV | AND | ORR | EOR | LSL | LSR | ASR | CSEL
  | FMOV | FADD | FSUB | FMUL | FDIV | FCVT | SCVTF | UCVTF | FCVTZS | FCVTZU | FCSEL | CMP | FCMP
  | B | BR | B_EQ | B_NE | B_HS | B_LO | B_HI | B_LS | B_GE | B_LT | B_GT | B_LE
  | BL | BLR | RET | ADRP | UXTB | UXTH | SXTB | SXTH | SXTW
  deriving DecidableEq, Repr

/-- What is added to the base of an address; `write` leaves the sum in the base. -/
inductive Offset where
  | none
  | imm (offset : ℤ) (write : Bool)
  | stackAddr (slot : StackSlotID) (offset : ℕ)
  | register (reg : Register) (shift : ℕ)
  | symbol (id : ℕ)
  deriving DecidableEq, Repr

/-- `AArch64Address`. -/
structure Address where
  base : Register
  offset : Offset := .none
  deriving DecidableEq, Repr

/-- What an operand is, as far as the analyzer looks at it. -/
inductive Value where
  | register (reg : Register)
  | addr (addr : Address)
  | stackSlot (slot : StackSlotID)
  | other
  deriving DecidableEq, Repr

structure Operand where
  value : Value
  size : ℕ := 0
  deriving DecidableEq, Repr

structure Instruction where
  opcode : Opcode
  operands : List Operand := []
  deriving DecidableEq, Repr

def Operand.getRegister (operand : Operand) : Option Register :=
  match operand.value with
  | .register reg => some reg
  | _ => none

def Operand.getPhysicalReg (operand : Operand) : Option PhysicalReg :=
  match operand.value with
  | .register (.fromPhysical reg) => some reg
  | _ => none

namespace RegAnalyzer

/-- A register that is there already gets both usages. -/
def insertReg (reg : Register) (usage : RegUsage) : List RegOp → List RegOp
  | [] => [⟨reg, usage⟩]
  | existing :: rest =>
    if existing.reg ≠ reg then existing :: insertReg reg usage rest
    else if existing.usage ≠ usage then { existing with usage := .USE_DEF } :: rest
    else existing :: rest

def collectAddrRegs (addr : Address) (ops : List RegOp) : List RegOp :=
  let ops := insertReg addr.base .USE ops
  match addr.offset with
  | .register reg _ => insertReg reg .USE ops
  | _ => ops

def collectRegs (operand : Option Operand) (usage : RegUsage) (ops : List RegOp) : List RegOp :=
  match operand.map Operand.value with
  | some (.register reg) => insertReg reg usage ops
  | some (.addr addr) => collectAddrRegs addr ops
  | _ => ops

def isCall (opcode : Opcode) : Bool := opcode = .BL ∨ opcode = .BLR

/-- The part for calls: the registers a call clobbers, and those written since the last one. -/
def callRegs (volatileRegs : List PhysicalReg) (before : List Instruction) : List RegOp :=
  volatileRegs.map (⟨.fromPhysical ·, .KILL⟩)
  ++ (before.reverse.takeWhile fun prev ↦ !isCall prev.opcode).filterMap fun prev ↦
    (prev.operands[0]?.bind Operand.getPhysicalReg).map (⟨.fromPhysical ·, .USE⟩)

/-- The usages the operands of an opcode are collected with. -/
def usages : Opcode → List RegUsage
  | .MOV | .FMOV | .MOVZ | .MOVK | .LDR | .LDRB | .LDRH | .FCVT | .SCVTF | .UCVTF | .FCVTZS
  | .FCVTZU | .ADRP | .UXTB | .UXTH | .SXTB | .SXTH | .SXTW => [.DEF, .USE]
  | .STR | .STRB | .STRH | .CMP | .FCMP => [.USE, .USE]
  | .LDP => [.DEF, .DEF, .USE]
  | .STP => [.USE, .USE, .USE]
  | .ADD | .SUB | .MUL | .SDIV | .UDIV | .AND | .ORR | .EOR | .LSL | .LSR | .ASR | .CSEL | .FADD
  | .FSUB | .FMUL | .FDIV | .FCSEL => [.DEF, .USE, .USE]
  | .MADD | .MSUB => [.DEF, .USE, .USE, .USE]
  | .B | .BR | .B_EQ | .B_NE | .B_HS | .B_LO | .B_HI | .B_LS | .B_GE | .B_LT | .B_GT | .B_LE
  | .BLR => [.USE]
  | .BL | .RET => []

/-- One `collect_regs` after the other. -/
def collectAll : List RegUsage → List Operand → List RegOp → List RegOp
  | [], _, ops => ops
  | _ :: _, [], ops => ops
  | usage :: usages, operand :: operands, ops =>
    collectAll usages operands (collectRegs (some operand) usage ops)

/-- A move of a register to the same register. -/
def movesItself (instr : Instruction) : Bool :=
  match instr.opcode, instr.operands[0]?.bind Operand.getRegister,
    instr.operands[1]?.bind Operand.getRegister with
  | .MOV, some dst, some src | .FMOV, some dst, some src => src = dst
  | _, _, _ => false

/-- `get_operands`. -/
def getOperands (volatileRegs : List PhysicalReg) (instrs : List Instruction) (index : ℕ) :
    List RegOp :=
  match instrs[index]? with
  | none => []
  | some instr =>
    let ops := if isCall instr.opcode then callRegs volatileRegs (instrs.take index) else []
    if movesItself instr then ops
    else collectAll (usages instr.opcode) instr.operands ops

end RegAnalyzer

/-! ## What instructions read and write -/

def Address.regs (addr : Address) : List Register :=
  match addr.offset with
  | .register reg _ => [addr.base, reg]
  | _ => [addr.base]

def Operand.shape (operand : Operand) : Shape :=
  match operand.value with
  | .register reg => .register reg
  | .addr addr => .address addr.regs
  | _ => .other

/-- What is done to the operands. -/
def roles : Opcode → List Role
  | .MOV | .FMOV | .MOVZ | .LDR | .LDRB | .LDRH | .FCVT | .SCVTF | .UCVTF | .FCVTZS | .FCVTZU
  | .ADRP | .UXTB | .UXTH | .SXTB | .SXTH | .SXTW => [.write, .read]
  | .MOVK => [.readWrite, .read]
  | .STR | .STRB | .STRH | .CMP | .FCMP => [.read, .read]
  | .LDP => [.write, .write, .read]
  | .STP => [.read, .read, .read]
  | .ADD | .SUB | .MUL | .SDIV | .UDIV | .AND | .ORR | .EOR | .LSL | .LSR | .ASR | .CSEL | .FADD
  | .FSUB | .FMUL | .FDIV | .FCSEL => [.write, .read, .read]
  | .MADD | .MSUB => [.write, .read, .read, .read]
  | .B | .BR | .B_EQ | .B_NE | .B_HS | .B_LO | .B_HI | .B_LS | .B_GE | .B_LT | .B_GT | .B_LE
  | .BLR => [.read]
  | .BL | .RET => []

/-- Both operands are the same register. -/
def sameRegister : List Shape → Bool
  | .register dst :: .register src :: _ => dst = src
  | _ => false

/-- A move of a register to itself does nothing, and a call reads its arguments and writes what it
returns. -/
def effect (args results : List PhysicalReg) (instr : Instruction) : Effect :=
  let shapes := instr.operands.map Operand.shape
  match instr.opcode with
  | .MOV | .FMOV => if sameRegister shapes then {} else effectOf [.write, .read] shapes
  | .BL | .BLR => effectOf (roles instr.opcode) shapes ++
      ⟨args.map .fromPhysical, results.map .fromPhysical⟩
  | opcode => effectOf (roles opcode) shapes

/-- The operands of an instruction the lowerer emits: `MOVK` is one of a register and an immediate,
a call is one of a symbol or of a virtual register, and its arguments are put into their registers
after the call before it. Only the prologue has addresses that are written. -/
structure Emitted (args : List PhysicalReg) (before : List Instruction) (instr : Instruction) :
    Prop where
  kept : instr.opcode = .MOVK → ∃ reg size element shift,
    instr.operands = [⟨.register reg, size⟩, ⟨.other, element⟩, ⟨.other, shift⟩]
  target : instr.opcode = .BLR → ∃ target size, instr.operands = [⟨target, size⟩] ∧
    ((∃ reg, target = .register (.fromVirtual reg)) ∨ ∃ slot, target = .stackSlot slot)
  args : RegAnalyzer.isCall instr.opcode = true → ∀ reg ∈ args,
    ∃ prev ∈ before.reverse.takeWhile fun prev ↦ !RegAnalyzer.isCall prev.opcode,
      prev.operands[0]?.bind Operand.getPhysicalReg = some reg
  writeback : ∀ operand ∈ instr.operands, ∀ addr, operand.value = .addr addr →
    ∀ offset, addr.offset ≠ .imm offset true

/-! ## Operands that are listed -/

section Operands

open RegAnalyzer

variable {ops ops' ops'' : List RegOp}

/-- Every entry stays, or is one for both usages. -/
def Grows (ops ops' : List RegOp) : Prop := ∀ op ∈ ops, op ∈ ops' ∨ ⟨op.reg, .USE_DEF⟩ ∈ ops'

theorem Grows.refl (ops : List RegOp) : Grows ops ops := fun _ h ↦ Or.inl h

theorem Grows.trans (h : Grows ops ops') (h' : Grows ops' ops'') : Grows ops ops'' := by
  intro op hop
  rcases h op hop with hmem | hmem
  · exact h' op hmem
  · exact (h' _ hmem).elim Or.inr Or.inr

theorem Grows.lists {effect : Effect} (h : Grows ops ops') (hlists : Lists ops effect) :
    Lists ops' effect := by
  constructor
  · intro reg hreg
    rcases hlists.reads reg hreg with hmem | hmem
    · exact h _ hmem
    · exact Or.inr ((h _ hmem).elim id id)
  · intro reg hreg
    rcases hlists.writes reg hreg with hmem | hmem
    · exact h _ hmem
    · exact Or.inr ((h _ hmem).elim id id)

variable (reg : Register) (usage : RegUsage)

theorem grows_insertReg (ops : List RegOp) : Grows ops (insertReg reg usage ops) := by
  induction ops with
  | nil => exact fun _ h ↦ absurd h not_mem_nil
  | cons existing rest ih =>
    rw [insertReg]
    by_cases hreg : existing.reg ≠ reg
    · rw [if_pos hreg]
      intro op hop
      rcases mem_cons.mp hop with rfl | hop
      · exact Or.inl mem_cons_self
      · exact (ih op hop).imp (mem_cons_of_mem _) (mem_cons_of_mem _)
    · rw [if_neg hreg]
      by_cases husage : existing.usage ≠ usage
      · rw [if_pos husage]
        intro op hop
        rcases mem_cons.mp hop with rfl | hop
        · exact Or.inr mem_cons_self
        · exact Or.inl (mem_cons_of_mem _ hop)
      · rw [if_neg husage]
        exact Grows.refl _

theorem mem_of_mem_insertReg {reg : Register} {usage : RegUsage} {op : RegOp}
    (h : op ∈ insertReg reg usage ops) (hne : op.reg ≠ reg) : op ∈ ops := by
  induction ops with
  | nil =>
    obtain rfl := mem_singleton.mp h
    exact absurd rfl hne
  | cons existing rest ih =>
    rw [insertReg] at h
    by_cases hreg : existing.reg ≠ reg
    · rw [if_pos hreg] at h
      rcases mem_cons.mp h with rfl | h
      · exact mem_cons_self
      · exact mem_cons_of_mem _ (ih h)
    · rw [if_neg hreg] at h
      rw [not_not] at hreg
      by_cases husage : existing.usage ≠ usage
      · rw [if_pos husage] at h
        rcases mem_cons.mp h with rfl | h
        · exact absurd hreg hne
        · exact mem_cons_of_mem _ h
      · rwa [if_neg husage] at h

theorem mem_insertReg (ops : List RegOp) :
    ⟨reg, usage⟩ ∈ insertReg reg usage ops ∨ ⟨reg, .USE_DEF⟩ ∈ insertReg reg usage ops := by
  induction ops with
  | nil => exact Or.inl mem_cons_self
  | cons existing rest ih =>
    rw [insertReg]
    by_cases hreg : existing.reg ≠ reg
    · rw [if_pos hreg]
      exact ih.imp (mem_cons_of_mem _) (mem_cons_of_mem _)
    · rw [if_neg hreg]
      rw [not_not] at hreg
      subst hreg
      by_cases husage : existing.usage ≠ usage
      · rw [if_pos husage]
        exact Or.inr mem_cons_self
      · rw [if_neg husage]
        rw [not_not] at husage
        subst husage
        exact Or.inl mem_cons_self

theorem collectAddrRegs_spec (addr : Address) (ops : List RegOp) :
    Grows ops (collectAddrRegs addr ops) ∧ Lists (collectAddrRegs addr ops)
      { reads := addr.regs } := by
  have hbase := grows_insertReg addr.base .USE ops
  have hmem := mem_insertReg addr.base .USE ops
  have hplain : Grows ops (insertReg addr.base .USE ops) ∧
      Lists (insertReg addr.base .USE ops) { reads := [addr.base] } := by
    refine ⟨hbase, fun reg hreg ↦ ?_, nofun⟩
    obtain rfl := mem_singleton.mp hreg
    exact hmem
  obtain ⟨base, offset⟩ := addr
  cases offset with
  | register reg shift =>
    have hgrows := grows_insertReg reg .USE (insertReg base .USE ops)
    refine ⟨hplain.1.trans hgrows, fun found hfound ↦ ?_, nofun⟩
    rcases mem_cons.mp hfound with rfl | hfound
    · exact (hgrows.lists hplain.2).reads _ mem_cons_self
    · obtain rfl := mem_singleton.mp hfound
      exact mem_insertReg _ _ _
  | none => exact hplain
  | imm offset write => exact hplain
  | stackAddr slot offset => exact hplain
  | symbol id => exact hplain

/-- The usage that lists a role. -/
def usageOf : Role → RegUsage
  | .read => .USE
  | .write => .DEF
  | .readWrite => .USE_DEF

theorem collectRegs_spec (operand : Operand) (role : Role) (ops : List RegOp) :
    Grows ops (collectRegs (some operand) (usageOf role) ops) ∧
      Lists (collectRegs (some operand) (usageOf role) ops) (operand.shape.effect role) := by
  obtain ⟨value, size⟩ := operand
  cases value with
  | register reg =>
    refine ⟨grows_insertReg reg _ ops, ?_⟩
    have hmem := mem_insertReg reg (usageOf role) ops
    cases role
    case read => exact ⟨fun _ h ↦ mem_singleton.mp h ▸ hmem, nofun⟩
    case write => exact ⟨nofun, fun _ h ↦ mem_singleton.mp h ▸ hmem⟩
    case readWrite =>
      have hboth := hmem.elim id id
      constructor
      · intro found hfound
        obtain rfl := mem_singleton.mp hfound
        exact Or.inr hboth
      · intro found hfound
        obtain rfl := mem_singleton.mp hfound
        exact Or.inr hboth
  | addr addr =>
    cases role <;> exact collectAddrRegs_spec addr ops
  | stackSlot slot => exact ⟨Grows.refl ops, .nil _⟩
  | other => exact ⟨Grows.refl ops, .nil _⟩

/-- Whatever has been collected stays, and every operand is listed with its role. -/
theorem collectAll_spec (roles : List Role) (operands : List Operand) (ops : List RegOp) :
    Grows ops (collectAll (roles.map usageOf) operands ops) ∧
      Lists (collectAll (roles.map usageOf) operands ops)
        (effectOf roles (operands.map Operand.shape)) := by
  induction roles generalizing operands ops with
  | nil => exact ⟨Grows.refl ops, .nil _⟩
  | cons role roles ih =>
    cases operands with
    | nil => exact ⟨Grows.refl ops, .nil _⟩
    | cons operand operands =>
      obtain ⟨hgrows, hlists⟩ := collectRegs_spec operand role ops
      obtain ⟨hgrows', hlists'⟩ := ih operands (collectRegs (some operand) (usageOf role) ops)
      exact ⟨hgrows.trans hgrows', (hgrows'.lists hlists).append hlists'⟩

end Operands

/-! ## Instructions that are listed -/

section Instructions

open RegAnalyzer

variable {volatileRegs args results : List PhysicalReg} {instrs : List Instruction} {index : ℕ}
  {instr : Instruction}

theorem movesItself_eq (opcode : Opcode) (operands : List Operand)
    (hmove : opcode = .MOV ∨ opcode = .FMOV) :
    movesItself ⟨opcode, operands⟩ = sameRegister (operands.map Operand.shape) := by
  have hcomm (a b : Register) : decide (a = b) = decide (b = a) := by simp [eq_comm]
  obtain _ | ⟨⟨dst, dstSize⟩, _ | ⟨⟨src, srcSize⟩, rest⟩⟩ := operands
  · rcases hmove with rfl | rfl <;> rfl
  · rcases hmove with rfl | rfl <;> cases dst <;> rfl
  · cases dst with
    | register a =>
      cases src with
      | register b => rcases hmove with rfl | rfl <;> exact hcomm b a
      | _ => rcases hmove with rfl | rfl <;> rfl
    | _ => rcases hmove with rfl | rfl <;> rfl

theorem movesItself_of_ne {opcode : Opcode} (hmov : opcode ≠ .MOV) (hfmov : opcode ≠ .FMOV)
    (operands : List Operand) : movesItself ⟨opcode, operands⟩ = false := by
  rw [movesItself]
  cases opcode
  case MOV => exact absurd rfl hmov
  case FMOV => exact absurd rfl hfmov
  all_goals rfl

theorem lists_callRegs (hemitted : Emitted args (instrs.take index) instr)
    (hcall : isCall instr.opcode = true) :
    Lists (callRegs volatileRegs (instrs.take index)) { reads := args.map .fromPhysical } := by
  refine ⟨fun reg hreg ↦ ?_, nofun⟩
  obtain ⟨arg, harg, rfl⟩ := mem_map.mp hreg
  obtain ⟨prev, hprev, hdest⟩ := hemitted.args hcall arg harg
  refine Or.inl (mem_append_right _ (mem_filterMap.mpr ⟨prev, hprev, ?_⟩))
  rw [hdest]
  rfl

variable (hget : instrs[index]? = some instr)

include hget

theorem getOperands_of_get :
    getOperands volatileRegs instrs index
      = if movesItself instr then
          if isCall instr.opcode then callRegs volatileRegs (instrs.take index) else []
        else collectAll (usages instr.opcode) instr.operands
          (if isCall instr.opcode then callRegs volatileRegs (instrs.take index) else []) := by
  rw [getOperands, hget]

theorem getOperands_call (hcall : isCall instr.opcode = true) :
    getOperands volatileRegs instrs index
      = collectAll ((roles instr.opcode).map usageOf) instr.operands
          (callRegs volatileRegs (instrs.take index)) := by
  obtain ⟨opcode, operands⟩ := instr
  have hopcode : opcode = .BL ∨ opcode = .BLR := of_decide_eq_true hcall
  rw [getOperands_of_get hget]
  rcases hopcode with rfl | rfl
  · rfl
  · rfl

/-- Everything but `MOVK` and the results of calls is listed. -/
theorem lists_call (hemitted : Emitted args (instrs.take index) instr)
    (hcall : isCall instr.opcode = true) :
    Lists (getOperands volatileRegs instrs index) (effect args [] instr) := by
  have heffect : effect args [] instr = effectOf (roles instr.opcode)
    (instr.operands.map Operand.shape)
      ++ { reads := args.map .fromPhysical } := by
    have hopcode : instr.opcode = .BL ∨ instr.opcode = .BLR := of_decide_eq_true hcall
    rcases hopcode with h | h <;> rw [effect, h] <;> rfl
  rw [getOperands_call hget hcall, heffect]
  obtain ⟨hgrows, hlists⟩ := collectAll_spec (roles instr.opcode) instr.operands
    (callRegs volatileRegs (instrs.take index))
  exact hlists.append (hgrows.lists (lists_callRegs hemitted hcall))

theorem lists_plain (hcall : isCall instr.opcode = false) (hkept : instr.opcode ≠ .MOVK) :
    Lists (getOperands volatileRegs instrs index) (effect args results instr) := by
  rw [getOperands_of_get hget, hcall]
  obtain ⟨opcode, operands⟩ := instr
  have hlists := (collectAll_spec (roles opcode) operands []).2
  by_cases hmove : opcode = .MOV ∨ opcode = .FMOV
  · have hroles : effect args results ⟨opcode, operands⟩
        = if sameRegister (operands.map Operand.shape) then {}
          else effectOf (roles opcode) (operands.map Operand.shape) := by
      rcases hmove with rfl | rfl <;> rfl
    have husages : usages opcode = (roles opcode).map usageOf := by
      rcases hmove with rfl | rfl <;> rfl
    rw [movesItself_eq opcode operands hmove, hroles]
    by_cases hsame : sameRegister (operands.map Operand.shape) = true
    · rw [if_pos hsame, if_pos hsame]
      exact .nil _
    · rw [if_neg hsame, if_neg hsame, husages]
      exact hlists
  · rw [not_or] at hmove
    rw [movesItself_of_ne hmove.1 hmove.2]
    cases opcode
    case MOV => exact absurd rfl hmove.1
    case FMOV => exact absurd rfl hmove.2
    case MOVK => exact absurd rfl hkept
    case BL => cases hcall
    case BLR => cases hcall
    all_goals exact hlists

/-! ## Instructions that are not -/

variable (hemitted : Emitted args (instrs.take index) instr)

include hemitted

theorem not_lists_movk (hkept : instr.opcode = .MOVK) :
    ¬Lists (getOperands volatileRegs instrs index) (effect args results instr) := by
  intro h
  obtain ⟨reg, size, element, shift, hoperands⟩ := hemitted.kept hkept
  obtain ⟨opcode, operands⟩ := instr
  obtain rfl : opcode = .MOVK := hkept
  obtain rfl : operands = [⟨.register reg, size⟩, ⟨.other, element⟩, ⟨.other, shift⟩] := hoperands
  have hops : getOperands volatileRegs instrs index = [⟨reg, .DEF⟩] := getOperands_of_get hget
  have hlisted := h.reads reg mem_cons_self
  rw [hops] at hlisted
  simp at hlisted

variable (hcall : isCall instr.opcode = true)

include hcall

/-- A register that is not virtual is listed by a call as clobbered or as an argument. -/
theorem usage_of_mem_call {reg : PhysicalReg} {usage : RegUsage}
    (h : ⟨.fromPhysical reg, usage⟩ ∈ getOperands volatileRegs instrs index) :
    usage = .KILL ∨ usage = .USE := by
  have hcallRegs : ⟨.fromPhysical reg, usage⟩ ∈ callRegs volatileRegs (instrs.take index) →
      usage = .KILL ∨ usage = .USE := by
    intro hmem
    rcases mem_append.mp hmem with hmem | hmem
    · obtain ⟨found, -, heq⟩ := mem_map.mp hmem
      exact Or.inl (congrArg RegOp.usage heq).symm
    · obtain ⟨prev, -, heq⟩ := mem_filterMap.mp hmem
      obtain ⟨found, -, heq⟩ := Option.map_eq_some_iff.mp heq
      exact Or.inr (congrArg RegOp.usage heq).symm
  rw [getOperands_call hget hcall] at h
  obtain ⟨opcode, operands⟩ := instr
  have hopcode : opcode = .BL ∨ opcode = .BLR := of_decide_eq_true hcall
  rcases hopcode with rfl | rfl
  · exact hcallRegs h
  · obtain ⟨target, size, hoperands, htarget⟩ := hemitted.target rfl
    obtain rfl : operands = [⟨target, size⟩] := hoperands
    rcases htarget with ⟨virtual, rfl⟩ | ⟨slot, rfl⟩
    · exact hcallRegs (mem_of_mem_insertReg h nofun)
    · exact hcallRegs h

theorem not_lists_results (hresults : results ≠ []) :
    ¬Lists (getOperands volatileRegs instrs index) (effect args results instr) := by
  intro h
  obtain ⟨reg, rest, rfl⟩ := exists_cons_of_ne_nil hresults
  have hmem : .fromPhysical reg ∈ (effect args (reg :: rest) instr).writes := by
    have hopcode : instr.opcode = .BL ∨ instr.opcode = .BLR := of_decide_eq_true hcall
    rcases hopcode with hopcode | hopcode <;> rw [effect, hopcode] <;>
      exact mem_append_right _ mem_cons_self
  rcases h.writes _ hmem with hlisted | hlisted
  · exact absurd (usage_of_mem_call hget hemitted hcall hlisted) (by decide)
  · exact absurd (usage_of_mem_call hget hemitted hcall hlisted) (by decide)

end Instructions

end Banjo.Target.AArch64
