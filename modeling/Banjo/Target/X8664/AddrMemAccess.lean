import Banjo.Target.X8664.Encoder
import Banjo.Target.X8664.LoadFolding

/-!
# The operands that addresses are lowered to

`lower_addr_mem_access` makes one operand of the components of an address: a base, an offset of 32
bits that is extended by its sign, and an index with one of four scales. Any other scale is
multiplied first, and a symbol with an offset is loaded into a register first, but an offset that
has more than 32 bits loses them.
-/

open List Option Function

namespace Banjo.Target.X8664

open SSA
open Codegen (StackSlotID)
open Encoder (Scale ConstOffset Frame)

/-! ## Operands -/

/-- A register of a function that is lowered: that of an SSA register, one `create_tmp_reg` returns,
or `RSP`. -/
inductive LowerReg where
  | vreg (reg : VirtualRegister)
  | tmp (index : ℕ)
  | rsp
  deriving DecidableEq, Repr

inductive Relocation where
  | NONE | GOT | PLT
  deriving DecidableEq, Repr

inductive AddrBase where
  | register (reg : LowerReg)
  | symbol (symbol : Value) (reloc : Relocation)
  deriving DecidableEq, Repr

/-- `X8664Address`. -/
structure AddrOperand where
  base : AddrBase
  offsetConst : ConstOffset := .imm 0
  offsetReg : Option (LowerReg × Scale) := none
  deriving DecidableEq, Repr

inductive AddrSource where
  | register (reg : LowerReg)
  | intImmediate (value : ℕ)
  | addr (addr : AddrOperand)
  deriving DecidableEq, Repr

structure AddrInstr where
  opcode : Mcode.Opcode
  dst : LowerReg
  src : AddrSource
  deriving DecidableEq, Repr

/-! ## Lowering -/

/-- `is_symbol`. -/
def isSymbol : Value → Bool
  | .func _ | .global _ | .externFunc _ | .externGlobal _ => true
  | _ => false

/-- The base for a symbol, and what is emitted before it. -/
def lowerSymbolBase (unix : Bool) (symbol : Value) : List AddrInstr × AddrBase :=
  match unix, symbol with
  | true, .externFunc _ => ([], .symbol symbol .PLT)
  | true, .externGlobal _ =>
    ([⟨.MOV, .tmp 0, .addr { base := .symbol symbol .GOT }⟩], .register (.tmp 0))
  | _, _ => ([], .symbol symbol .NONE)

/-- The operand before an index is added. The offset from a stack slot must not be negative. -/
def lowerAddrBase (unix : Bool) (slots : VirtualRegister → Option StackSlotID)
    (addr : AddrComponents) : Option (List AddrInstr × AddrOperand) :=
  match addr.base.value with
  | .register reg =>
    match slots reg with
    | some slot =>
      if addr.constOffset.negative then none
      else some ([], {
        base := .register .rsp
        offsetConst := .stack slot (addr.constOffset.magnitude.setWidth 32) })
    | none => some ([], {
        base := .register (.vreg reg)
        offsetConst := .imm (addr.constOffset.toBits.setWidth 32) })
  | symbol =>
    if isSymbol symbol then
      let (first, base) := lowerSymbolBase unix symbol
      if addr.constOffset ≠ 0 then
        some (first ++ [⟨.LEA, .tmp 1, .addr { base }⟩], {
          base := .register (.tmp 1)
          offsetConst := .imm (addr.constOffset.toBits.setWidth 32) })
      else some (first, { base })
    else none

def scaleOf (scale : ℕ) : Option Scale :=
  if scale = 1 then some .one
  else if scale = 2 then some .two
  else if scale = 4 then some .four
  else if scale = 8 then some .eight
  else none

/-- `lower_addr_mem_access`: what is emitted and the operand. -/
def lowerAddrMemAccess (unix : Bool) (slots : VirtualRegister → Option StackSlotID)
    (addr : AddrComponents) : Option (List AddrInstr × AddrOperand) := do
  let (first, operand) ← lowerAddrBase unix slots addr
  match addr.regOffset with
  | none => some (first, operand)
  | some offset =>
    match scaleOf offset.scale with
    | some scale => some (first, { operand with offsetReg := some (.vreg offset.reg, scale) })
    | none => some (first ++ [⟨.MOV, .tmp 2, .register (.vreg offset.reg)⟩,
        ⟨.IMUL, .tmp 2, .intImmediate offset.scale⟩],
        { operand with offsetReg := some (.tmp 2, .one) })

/-! ## What operands mean -/

/-- The addresses of symbols and of what the linker puts in their place, and what is in memory. -/
structure AddrMachine where
  symbol : Value → Relocation → BitVec 64
  load : BitVec 64 → BitVec 64
  frame : Frame

def Scale.factor : Scale → BitVec 64
  | .one => 1
  | .two => 2
  | .four => 4
  | .eight => 8

namespace AddrMachine

variable (A : AddrMachine)

def base (regs : LowerReg → BitVec 64) : AddrBase → BitVec 64
  | .register reg => regs reg
  | .symbol symbol reloc => A.symbol symbol reloc

def addr (regs : LowerReg → BitVec 64) (operand : AddrOperand) : BitVec 64 :=
  A.base regs operand.base + (Encoder.offsetOf A.frame operand.offsetConst).signExtend 64 +
    match operand.offsetReg with
    | some (reg, scale) => Scale.factor scale * regs reg
    | none => 0

def value (regs : LowerReg → BitVec 64) : AddrSource → BitVec 64
  | .register reg => regs reg
  | .intImmediate value => BitVec.ofNat 64 value
  | .addr operand => A.load (A.addr regs operand)

def result (regs : LowerReg → BitVec 64) (instr : AddrInstr) : BitVec 64 :=
  match instr.opcode, instr.src with
  | .MOV, src => A.value regs src
  | .LEA, .addr operand => A.addr regs operand
  | .IMUL, src => A.value regs src * regs instr.dst
  | _, _ => regs instr.dst

def exec (regs : LowerReg → BitVec 64) (instrs : List AddrInstr) : LowerReg → BitVec 64 :=
  instrs.foldl (fun regs instr ↦ update regs instr.dst (A.result regs instr)) regs

/-- A symbol is at its own address, and the table the linker makes has that address. -/
structure Linked (M : WordMachine) : Prop where
  plain : ∀ symbol, A.symbol symbol .NONE = M.symbol symbol
  plt : ∀ symbol, A.symbol symbol .PLT = M.symbol symbol
  got : ∀ symbol, A.load (A.symbol symbol .GOT) = M.symbol symbol

/-- The registers have the values of the SSA registers, of which those of `ALLOCA`s are addresses of
stack slots. -/
structure Represents (slots : VirtualRegister → Option StackSlotID)
    (env : VirtualRegister → BitVec 64) (regs : LowerReg → BitVec 64) : Prop where
  vreg : ∀ reg, slots reg = none → regs (.vreg reg) = env reg
  slot : ∀ reg slot, slots reg = some slot → env reg = regs .rsp + (A.frame slot).signExtend 64

end AddrMachine

/-! ## Offsets that are kept -/

/-- The offset is that of its lower 32 bits. -/
def FitsInt (offset : LargeInt) : Prop :=
  (offset.toBits.setWidth 32).signExtend 64 = offset.toBits

instance (offset : LargeInt) : Decidable (FitsInt offset) := inferInstanceAs (Decidable (_ = _))

/-- From a stack slot the sum of both offsets has 32 bits, and the second is not negative. -/
def FitsSlot (slotOffset : BitVec 32) (offset : LargeInt) : Prop :=
  offset.negative = false ∧ (slotOffset + offset.toBits.setWidth 32).signExtend 64
    = slotOffset.signExtend 64 + offset.toBits

instance (slotOffset : BitVec 32) (offset : LargeInt) : Decidable (FitsSlot slotOffset offset) :=
  inferInstanceAs (Decidable (_ ∧ _))

/-- An offset from a base that can be one of an address. -/
def FitsBase (frame : Frame) (slots : VirtualRegister → Option StackSlotID) (offset : LargeInt) :
    Value → Prop
  | .register reg =>
    match slots reg with
    | some slot => FitsSlot (frame slot) offset
    | none => FitsInt offset
  | symbol => isSymbol symbol = true ∧ FitsInt offset

/-! ## The address of an operand -/

section Operands

variable {A : AddrMachine} {M : WordMachine} {slots : VirtualRegister → Option StackSlotID}
  {env : VirtualRegister → BitVec 64} {regs : LowerReg → BitVec 64} {unix : Bool}

open AddrMachine

@[simp] theorem exec_nil : A.exec regs [] = regs := rfl

variable (first : List AddrInstr)

@[simp] theorem exec_append (second : List AddrInstr) :
    A.exec regs (first ++ second) = A.exec (A.exec regs first) second := foldl_append

@[simp] theorem exec_singleton (instr : AddrInstr) :
    A.exec regs [instr] = update regs instr.dst (A.result regs instr) := rfl

variable {operand : AddrOperand}

theorem addr_of_offsetReg_none (h : operand.offsetReg = none) :
    A.addr regs operand
      = A.base regs operand.base + (Encoder.offsetOf A.frame
        operand.offsetConst).signExtend 64 := by
  simp [addr, h]

theorem addr_base (base : AddrBase) : A.addr regs { base } = A.base regs base := by
  simp [addr_of_offsetReg_none, Encoder.offsetOf]

theorem addr_with_offsetReg (h : operand.offsetReg = none) (reg : LowerReg)
    (scale : Scale) : A.addr regs { operand with offsetReg := some (reg, scale) }
      = A.addr regs operand + Scale.factor scale * regs reg := by
  rw [addr_of_offsetReg_none h]
  rfl

/-- What is emitted for a symbol gives its address, and leaves the other registers alone. -/
theorem lowerSymbolBase_spec (hlinked : A.Linked M) (regs : LowerReg → BitVec 64) (unix : Bool)
    (symbol : Value) :
    A.base (A.exec regs (lowerSymbolBase unix symbol).1) (lowerSymbolBase unix symbol).2
      = M.symbol symbol ∧
    (∀ reg, A.exec regs (lowerSymbolBase unix symbol).1 (.vreg reg) = regs (.vreg reg)) ∧
    (lowerSymbolBase unix symbol).2 ≠ .register (.tmp 2) := by
  have hplain : A.base (A.exec regs []) (.symbol symbol .NONE) = M.symbol symbol ∧
      (∀ reg, A.exec regs [] (.vreg reg) = regs (.vreg reg)) ∧
      AddrBase.symbol symbol .NONE ≠ .register (.tmp 2) :=
    ⟨hlinked.plain symbol, fun _ ↦ rfl, nofun⟩
  cases unix with
  | false => exact hplain
  | true =>
    cases symbol with
    | externFunc func => exact ⟨hlinked.plt _, fun _ ↦ rfl, nofun⟩
    | externGlobal global =>
      refine ⟨?_, fun _ ↦ rfl, by simp [lowerSymbolBase]⟩
      have hload : A.value regs (.addr { base := .symbol (.externGlobal global) .GOT })
          = M.symbol (.externGlobal global) := by
        rw [AddrMachine.value, addr_base]
        exact hlinked.got _
      exact hload
    | _ => exact hplain

/-- What is known of an operand without an index. -/
structure BaseSpec (A : AddrMachine) (regs : LowerReg → BitVec 64) (word : BitVec 64)
    (fits : Prop) (first : List AddrInstr) (operand : AddrOperand) : Prop where
  offsetReg : operand.offsetReg = none
  base : operand.base ≠ .register (.tmp 2)
  keeps : ∀ reg, A.exec regs first (.vreg reg) = regs (.vreg reg)
  addr_iff : A.addr (A.exec regs first) operand = word ↔ fits

theorem add_signExtend_iff (word : BitVec 64) (offset : LargeInt) :
    word + (offset.toBits.setWidth 32).signExtend 64 = word + offset.toBits ↔ FitsInt offset :=
  add_right_inj word

variable {addr : AddrComponents}

theorem lowerAddrBase_register (hrep : A.Represents slots env regs)
    {reg : VirtualRegister} (hbase : addr.base.value = .register reg) :
    match lowerAddrBase unix slots addr with
    | none => ¬FitsBase A.frame slots addr.constOffset addr.base.value
    | some (first, operand) => BaseSpec A regs (M.value env addr.base + addr.constOffset.toBits)
        (FitsBase A.frame slots addr.constOffset addr.base.value) first operand := by
  have hvalue : M.value env addr.base = env reg := by rw [WordMachine.value, hbase]
  rw [lowerAddrBase, hbase, hvalue, FitsBase]
  cases hslot : slots reg with
  | none =>
    simp only [hslot]
    refine ⟨rfl, by simp, fun _ ↦ rfl, ?_⟩
    rw [addr_of_offsetReg_none rfl, ← hrep.vreg reg hslot]
    exact add_signExtend_iff _ _
  | some slot =>
    simp only [hslot]
    by_cases hnegative : addr.constOffset.negative = true
    · rw [if_pos hnegative]
      exact fun hfits ↦ absurd (hnegative.symm.trans hfits.1) (by decide)
    · rw [if_neg hnegative]
      rw [Bool.not_eq_true] at hnegative
      refine ⟨rfl, by simp, fun _ ↦ rfl, ?_⟩
      rw [addr_of_offsetReg_none rfl, hrep.slot reg slot hslot, FitsSlot, and_iff_right hnegative,
        LargeInt.toBits_of_not_negative hnegative, add_assoc]
      exact add_right_inj _

theorem value_of_isSymbol {operand : Operand} (h : isSymbol operand.value = true) :
    M.value env operand = M.symbol operand.value := by
  rw [WordMachine.value]
  cases hvalue : operand.value <;> rw [hvalue] at h
  case register => cases h
  case intImmediate => cases h

theorem lowerAddrBase_symbol (hlinked : A.Linked M)
    (hbase : ∀ reg, addr.base.value ≠ .register reg) :
    match lowerAddrBase unix slots addr with
    | none => ¬FitsBase A.frame slots addr.constOffset addr.base.value
    | some (first, operand) => BaseSpec A regs (M.value env addr.base + addr.constOffset.toBits)
        (FitsBase A.frame slots addr.constOffset addr.base.value) first operand := by
  have hlower : lowerAddrBase unix slots addr
      = if isSymbol addr.base.value then
          let (first, base) := lowerSymbolBase unix addr.base.value
          if addr.constOffset ≠ 0 then
            some (first ++ [⟨.LEA, .tmp 1, .addr { base }⟩], {
              base := .register (.tmp 1)
              offsetConst := .imm (addr.constOffset.toBits.setWidth 32) })
          else some (first, { base })
        else none := by
    rw [lowerAddrBase]
    cases hvalue : addr.base.value
    case register reg => exact absurd hvalue (hbase reg)
    all_goals rfl
  have hfits : FitsBase A.frame slots addr.constOffset addr.base.value
      ↔ isSymbol addr.base.value = true ∧ FitsInt addr.constOffset := by
    cases hvalue : addr.base.value
    case register reg => exact absurd hvalue (hbase reg)
    all_goals rfl
  rw [hlower, hfits]
  by_cases hsymbol : isSymbol addr.base.value = true
  · rw [if_pos hsymbol, and_iff_right hsymbol, value_of_isSymbol hsymbol]
    obtain ⟨haddr, hkeeps, htmp⟩ := lowerSymbolBase_spec hlinked regs unix addr.base.value
    generalize lowerSymbolBase unix addr.base.value = lowered at haddr hkeeps htmp ⊢
    obtain ⟨first, base⟩ := lowered
    by_cases hzero : addr.constOffset = 0
    · rw [hzero]
      refine ⟨rfl, htmp, hkeeps, iff_of_true ?_ (by decide)⟩
      rw [addr_base, haddr]
      simp
    · simp only [ne_eq, hzero, not_false_eq_true, if_true]
      refine ⟨rfl, by simp, fun reg ↦ ?_, ?_⟩
      · rw [exec_append, exec_singleton, update_of_ne (by simp), hkeeps]
      · have hload : A.base (A.exec regs (first ++ [⟨.LEA, .tmp 1, .addr { base }⟩]))
            (.register (.tmp 1)) = M.symbol addr.base.value := by
          have hupdate : ∀ word, A.base (update (A.exec regs first) (.tmp 1) word)
              (.register (.tmp 1)) = word := fun word ↦ by simp [AddrMachine.base]
          rw [exec_append, exec_singleton, hupdate]
          exact (addr_base base).trans haddr
        rw [addr_of_offsetReg_none rfl, hload]
        exact add_signExtend_iff _ _
  · rw [if_neg hsymbol]
    exact fun h ↦ hsymbol h.1

theorem lowerAddrBase_spec (hlinked : A.Linked M) (hrep : A.Represents slots env regs)
    (unix : Bool) (addr : AddrComponents) :
    match lowerAddrBase unix slots addr with
    | none => ¬FitsBase A.frame slots addr.constOffset addr.base.value
    | some (first, operand) => BaseSpec A regs (M.value env addr.base + addr.constOffset.toBits)
        (FitsBase A.frame slots addr.constOffset addr.base.value) first operand := by
  by_cases hreg : ∃ reg, addr.base.value = .register reg
  · obtain ⟨reg, hreg⟩ := hreg
    exact lowerAddrBase_register hrep hreg
  · exact lowerAddrBase_symbol hlinked fun reg heq ↦ hreg ⟨reg, heq⟩

theorem factor_scaleOf {scale : ℕ} {found : Scale} (h : scaleOf scale = some found) :
    Scale.factor found = BitVec.ofNat 64 scale := by
  rw [scaleOf] at h
  split_ifs at h with h1 h2 h4 h8
  · obtain rfl := some.inj h
    rw [h1]
    rfl
  · obtain rfl := some.inj h
    rw [h2]
    rfl
  · obtain rfl := some.inj h
    rw [h4]
    rfl
  · obtain rfl := some.inj h
    rw [h8]
    rfl

/-- A scale that no operand has is multiplied in a register of its own. -/
theorem exec_multiply (reg : VirtualRegister) (scale : ℕ) :
    A.exec regs (first ++ [⟨.MOV, .tmp 2, .register (.vreg reg)⟩,
        ⟨.IMUL, .tmp 2, .intImmediate scale⟩])
      = update (A.exec regs first) (.tmp 2)
          (BitVec.ofNat 64 scale * A.exec regs first (.vreg reg)) := by
  rw [exec_append]
  simp [AddrMachine.exec, result, AddrMachine.value]

theorem addr_update_tmp (hoffset : operand.offsetReg = none)
    (hbase : operand.base ≠ .register (.tmp 2)) (word : BitVec 64) :
    A.addr (update regs (.tmp 2) word) operand = A.addr regs operand := by
  rw [addr_of_offsetReg_none hoffset, addr_of_offsetReg_none hoffset]
  cases hvalue : operand.base with
  | register reg =>
    have hne : reg ≠ .tmp 2 := fun heq ↦ hbase (by rw [hvalue, heq])
    simp [AddrMachine.base, hne]
  | symbol symbol reloc => rfl

/-- There is an operand, and it has this address after what is emitted. -/
def LowersTo (A : AddrMachine) (unix : Bool) (slots : VirtualRegister → Option StackSlotID)
    (regs : LowerReg → BitVec 64) (addr : AddrComponents) (word : BitVec 64) : Prop :=
  ∃ first operand, lowerAddrMemAccess unix slots addr = some (first, operand) ∧
    A.addr (A.exec regs first) operand = word

theorem lowersTo_iff (hlinked : A.Linked M) (hrep : A.Represents slots env regs)
    (hindex : ∀ offset ∈ addr.regOffset, slots offset.reg = none) :
    LowersTo A unix slots regs addr (addr.eval M env) ↔
      FitsBase A.frame slots addr.constOffset addr.base.value := by
  have hspec := lowerAddrBase_spec hlinked hrep unix addr
  rw [LowersTo, lowerAddrMemAccess, AddrComponents.eval]
  cases hlower : lowerAddrBase unix slots addr with
  | none =>
    rw [hlower] at hspec
    refine iff_of_false ?_ hspec
    rintro ⟨first, operand, h, -⟩
    cases h
  | some lowered =>
    obtain ⟨first, operand⟩ := lowered
    rw [hlower] at hspec
    have hcancel : ∀ (index : BitVec 64) {regs' : LowerReg → BitVec 64} {operand' : AddrOperand},
        A.addr regs' operand' = A.addr (A.exec regs first) operand + index →
        (A.addr regs' operand' = M.value env addr.base + addr.constOffset.toBits + index ↔
          FitsBase A.frame slots addr.constOffset addr.base.value) := by
      intro index regs' operand' haddr
      rw [haddr, add_left_inj]
      exact hspec.addr_iff
    have hsome : ∀ (out : List AddrInstr × AddrOperand) (word : BitVec 64),
        (∃ first operand, some out = some (first, operand) ∧
          A.addr (A.exec regs first) operand = word) ↔ A.addr (A.exec regs out.1) out.2 = word := by
      intro out word
      simp [Prod.ext_iff]
    simp only [bind_eq_bind, bind_some]
    cases hoffset : addr.regOffset with
    | none =>
      simp only [hsome]
      exact hcancel 0 (by simp)
    | some offset =>
      have hreg : A.exec regs first (.vreg offset.reg) = env offset.reg := by
        rw [hspec.keeps, hrep.vreg _ (hindex offset hoffset)]
      cases hscale : scaleOf offset.scale with
      | some scale =>
        simp only [hscale, hsome]
        refine hcancel _ ?_
        rw [addr_with_offsetReg hspec.offsetReg, hreg, factor_scaleOf hscale]
      | none =>
        simp only [hscale, hsome]
        refine hcancel _ ?_
        rw [addr_with_offsetReg hspec.offsetReg, exec_multiply, hreg,
          addr_update_tmp hspec.offsetReg hspec.base, update_self]
        exact congrArg _ (one_mul _)

end Operands

/-! ## Chains of pointer instructions -/

/-- The constants of a chain from its last instruction on, and the operand it starts from. One
register is an index, and a second one ends the chain. -/
def chain (layout : DataLayout) (instrs : List Instruction) :
    ℕ → Bool → Operand → List LargeInt × Operand
  | 0, _, operand => ([], operand)
  | fuel + 1, indexed, operand =>
    match operand.value with
    | .register reg =>
      match getProducer instrs reg with
      | none => ([], operand)
      | some position =>
        let producer := instrAt instrs position
        match producer.opcode with
        | .OFFSETPTR =>
          match (producer.getOperand 1).value with
          | .intImmediate immediate =>
            let (offsets, start) := chain layout instrs fuel indexed (producer.getOperand 0)
            (⟨BitVec.ofNat 64 (layout.size (producer.getOperand 2).type), false⟩ * immediate ::
              offsets, start)
          | .register _ =>
            if indexed then ([], operand)
            else chain layout instrs fuel true (producer.getOperand 0)
          | _ => ([], operand)
        | .MEMBERPTR =>
          match (producer.getOperand 2).value with
          | .intImmediate index =>
            let (offsets, start) := chain layout instrs fuel indexed (producer.getOperand 1)
            (⟨BitVec.ofNat 64 (layout.memberOffset (producer.getOperand 0).type
              index.toBits.toNat), false⟩ :: offsets, start)
          | _ => ([], operand)
        | _ => ([], operand)
    | _ => ([], operand)

/-- The sum of the constants of a chain fits beside what the chain starts from. -/
def ChainFits (frame : Frame) (slots : VirtualRegister → Option StackSlotID) (layout : DataLayout)
    (instrs : List Instruction) (operand : Operand) : Prop :=
  let (offsets, start) := chain layout instrs (instrs.length + 1) false operand
  FitsBase frame slots (offsets.foldl (· + ·) 0) start.value

section Chains

variable {layout : DataLayout} {instrs : List Instruction}

variable {addr out : AddrComponents} {counts counts' : UseCounts} {fuel : ℕ}

/-- The components are the start of the chain and the sum of its constants. -/
theorem collectFrom_chain (h : InOrder instrs)
    (hout : collectFrom layout instrs fuel addr counts = some (out, counts')) :
    out.base = (chain layout instrs fuel addr.regOffset.isSome addr.base).2 ∧
    out.constOffset = (chain layout instrs fuel addr.regOffset.isSome addr.base).1.foldl (· + ·)
      addr.constOffset := by
  induction fuel generalizing addr counts with
  | zero => cases hout
  | succ fuel ih =>
    have hend : some (addr, counts) = some (out, counts') →
        out.base = addr.base ∧ out.constOffset = addr.constOffset := by
      intro heq
      rw [some.injEq, Prod.mk.injEq] at heq
      rw [heq.1]
      exact ⟨rfl, rfl⟩
    rw [collectFrom] at hout
    rw [chain]
    cases hbase : addr.base.value <;> simp only [hbase] at hout ⊢
    case register reg =>
      cases hp : getProducer instrs reg with
      | none =>
        rw [hp] at hout
        exact hend hout
      | some p =>
        rw [hp] at hout
        have hmem := mem_of_getElem? (getProducer_spec hp).1
        cases hopcode : (instrAt instrs p).opcode <;> simp only [hopcode] at hout ⊢
        case OFFSETPTR =>
          cases hoffset : ((instrAt instrs p).getOperand 1).value <;> simp only [hoffset] at hout ⊢
          case intImmediate immediate => exact ih hout
          case register offset =>
            cases hreg : addr.regOffset with
            | none =>
              simp only [hreg] at hout
              exact ih hout
            | some found =>
              simp only [hreg] at hout
              exact hend hout
          all_goals exact hend hout
        case MEMBERPTR =>
          obtain ⟨index, hindex⟩ := h.members hmem hopcode
          simp only [hindex] at hout ⊢
          exact ih hout
        all_goals exact hend hout
    all_goals exact hend hout

/-- The index is the register of one of the instructions. -/
theorem collectFrom_regOffset (h : InOrder instrs) {P : VirtualRegister → Prop}
    (hP : ∀ a ∈ instrs, a.opcode = .OFFSETPTR →
      ∀ reg, (a.getOperand 1).value = .register reg → P reg)
    (haddr : ∀ offset ∈ addr.regOffset, P offset.reg)
    (hout : collectFrom layout instrs fuel addr counts = some (out, counts')) :
    ∀ offset ∈ out.regOffset, P offset.reg := by
  induction fuel generalizing addr counts with
  | zero => cases hout
  | succ fuel ih =>
    rcases collectFrom_cases h layout fuel addr counts with
      heq | ⟨reg, p, addr', -, hp, hfollow, heq⟩
    · rw [heq, some.injEq, Prod.mk.injEq] at hout
      rw [← hout.1]
      exact haddr
    · rw [heq] at hout
      refine ih ?_ hout
      have hmem := mem_of_getElem? (getProducer_spec hp).1
      cases hfollow with
      | const => exact haddr
      | member => exact haddr
      | reg hopcode hoffset _ =>
        intro offset hsome
        obtain rfl := some.inj hsome
        exact hP _ hmem hopcode _ hoffset

end Chains

/-! ## An offset of 2 GiB -/

/-- `%1 = offsetptr %0, offset, i8; %2 = load i8, %1`. -/
def offsetLoad (offset : LargeInt) : List Instruction :=
  [{ opcode := .OFFSETPTR, dest := some 1,
     operands := [⟨.register 0, Primitive.ADDR⟩, ⟨.intImmediate offset, Primitive.I64⟩,
       ⟨.type, Primitive.I8⟩] },
   { opcode := .LOAD, dest := some 2,
     operands := [⟨.type, Primitive.I8⟩, ⟨.register 1, Primitive.ADDR⟩] }]

/-- A run of the block from zeros. -/
def offsetStates (offset : LargeInt) (k : ℕ) : BlockState where
  env reg := if reg = 1 ∧ 1 ≤ k then offset.toBits else 0
  mem _ := 0

variable (offset : LargeInt)

theorem trace_offsetLoad : globals.Trace (offsetLoad offset) (offsetStates offset) := by
  intro k instr hk
  rcases k with _ | _ | k
  · obtain rfl := some.inj hk
    refine ⟨fun reg hreg ↦ ?_, fun reg word hreg hword ↦ ?_, fun mem hmem ↦ some.inj hmem⟩
    · have hne : reg ≠ 1 := fun heq ↦ hreg (by rw [heq])
      simp [offsetStates, hne]
    · obtain rfl := some.inj hreg
      have hword : (0 : BitVec 64) + 1 * offset.toBits = word := some.inj hword
      rw [zero_add, one_mul] at hword
      exact hword
  · obtain rfl := some.inj hk
    refine ⟨fun reg hreg ↦ ?_, fun reg word hreg hword ↦ ?_, fun mem hmem ↦ some.inj hmem⟩
    · simp [offsetStates]
    · obtain rfl := some.inj hreg
      have hword : Memory.ofBytes [0] = word := some.inj hword
      rw [← hword]
      rfl
  · cases hk

/-- Symbols are at their addresses, and so is what the linker puts there. -/
def plainMachine : AddrMachine where
  symbol value _ := globals.symbol value
  load addr := addr
  frame _ := 0

theorem plainMachine_linked : plainMachine.Linked globals :=
  ⟨fun _ ↦ rfl, fun _ ↦ rfl, fun _ ↦ rfl⟩

/-- The registers at the load. -/
def offsetRegs (offset : LargeInt) : LowerReg → BitVec 64
  | .vreg 1 => offset.toBits
  | _ => 0

theorem offsetRegs_represents :
    plainMachine.Represents (fun _ ↦ none) (offsetStates offset 1).env (offsetRegs offset) where
  vreg reg _ := by
    by_cases h : reg = 1
    · rw [h]
      rfl
    · simp [offsetStates, h, offsetRegs]
  slot _ _ h := by cases h

theorem offsetLoad_noIndex : ∀ a ∈ offsetLoad offset, a.opcode = .OFFSETPTR →
    ∀ reg, (a.getOperand 1).value = .register reg → (none : Option StackSlotID) = none :=
  fun _ _ _ _ _ ↦ rfl

end Banjo.Target.X8664
