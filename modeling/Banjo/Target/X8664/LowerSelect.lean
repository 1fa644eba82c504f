import Banjo.SSA.IntSemantics
import Banjo.Target.X8664.BranchArgs

/-!
# Selections on x86-64

`lower_select` compares, moves both values and overwrites one of them with a conditional move. All
moves are as wide as the compared operands, or 32 bits, whatever the type of the values; for
floating-point numbers only a maximum and a minimum are lowered.
-/

open List Option

namespace Banjo.Target.X8664

open SSA
open Emit (Condition)

/-! ## Lowering -/

/-- The instructions of a selection. Those for operands only write new registers. -/
inductive SelectItem where
  | operand (instr : BranchInstr)
  | mov (instr : BranchInstr)
  | cmp (size : ℕ) (lhs rhs : BranchSource)
  | cmovcc (condition : Condition) (size : ℕ) (dst src : BranchReg)
  | max (size : ℕ) (dst : BranchReg) (src : BranchSource)
  | min (size : ℕ) (dst : BranchReg) (src : BranchSource)
  deriving DecidableEq, Repr

/-- The operands of a `SELECT`. -/
structure Select where
  dest : VirtualRegister
  lhs : SSA.Operand
  comparison : Comparison
  rhs : SSA.Operand
  valTrue : SSA.Operand
  valFalse : SSA.Operand

section Lowering

variable (ctx : BranchContext) (select : Select)

/-- The size of all moves. -/
def Select.moveSize : ℕ := max (ctx.layout.size select.lhs.type) 4

/-- A maximum or a minimum of the compared operands. -/
def lowerMinMax (item : ℕ → BranchReg → BranchSource → SelectItem) : Option (List SelectItem) := do
  let size := select.moveSize ctx
  let dst := BranchReg.lower (.vreg select.dest)
  let (first, lhs) ← lowerAsOperand ctx (.lower (.tmp 5)) select.lhs
  let (second, rhs) ← lowerAsOperand ctx (.lower (.tmp 6)) select.rhs
  some (first.map .operand ++ [.mov ⟨moveOpcodeOfSize size, size, dst, lhs⟩] ++
    second.map .operand ++ [item size dst rhs])

/-- `lower_select`. For a selection of floating-point operands that is not a maximum or a minimum an
error is printed and nothing is emitted. -/
def lowerSelect : Option (List SelectItem) :=
  let size := select.moveSize ctx
  let dst := BranchReg.lower (.vreg select.dest)
  let tmp := BranchReg.lower (.tmp 3)
  if select.lhs.type.isFloatingPoint then
    if select.lhs.value.eq select.valTrue.value ∧ select.rhs.value.eq select.valFalse.value then
      match select.comparison with
      | .FGT => lowerMinMax ctx select .max
      | .FLT => lowerMinMax ctx select .min
      | _ => some []
    else some []
  else do
    let (first, lhs) ← lowerAsOperand ctx (.lower (.tmp 5)) select.lhs
    let (second, rhs) ← lowerAsOperand ctx (.lower (.tmp 6)) select.rhs
    let (third, valTrue) ← lowerAsOperand ctx (.lower (.tmp 7)) select.valTrue
    let (fourth, valFalse) ← lowerAsOperand ctx (.lower (.tmp 8)) select.valFalse
    some (first.map .operand ++ second.map .operand ++
      [.cmp (ctx.layout.size select.lhs.type) lhs rhs] ++ third.map .operand ++
      [.mov ⟨.MOV, size, tmp, valTrue⟩] ++ fourth.map .operand ++
      [.mov ⟨.MOV, size, dst, valFalse⟩, .cmovcc (lowerCondition select.comparison) size dst tmp])

end Lowering

/-! ## What the code does -/

/-- The flags after a comparison. -/
def cmpFlags {w : ℕ} (x y : BitVec w) : Flags where
  zero := x = y
  carry := x.ult y
  sign := (x - y).msb
  overflow := x.ssubOverflow y

/-- The signs of an overflow decide the order of signed numbers. -/
theorem sign_bne_overflow {w : ℕ} (x y : BitVec w) :
    ((x - y).msb != x.ssubOverflow y) = x.slt y := by
  rw [BitVec.slt_eq_decide]
  cases h : x.ssubOverflow y with
  | true =>
    rw [BitVec.ssubOverflow_eq] at h
    simp only [BitVec.msb_eq_toInt, Bool.or_eq_true, Bool.and_eq_true, Bool.not_eq_true',
      decide_eq_true_eq, decide_eq_false_iff_not] at h
    rw [BitVec.msb_eq_toInt]
    rcases h with ⟨⟨hx, hy⟩, hsub⟩ | ⟨⟨hx, hy⟩, hsub⟩
    · have hlt : ¬x.toInt < y.toInt := by omega
      rw [decide_eq_true hsub, decide_eq_false hlt]
      rfl
    · have hlt : x.toInt < y.toInt := by omega
      rw [decide_eq_false hsub, decide_eq_true hlt]
      rfl
  | false =>
    rw [BitVec.msb_eq_toInt, BitVec.toInt_sub_of_not_ssubOverflow (by simp [h])]
    have hiff : x.toInt - y.toInt < 0 ↔ x.toInt < y.toInt := by omega
    simp [hiff]

/-- Comparisons of integers. -/
def isIntComparison (comparison : Comparison) : Bool :=
  comparison ∈ [.EQ, .NE, .UGT, .UGE, .ULT, .ULE, .SGT, .SGE, .SLT, .SLE]

/-- **The conditions read comparisons of integers off the flags.** -/
theorem holdsCondition_cmpFlags {w : ℕ} (x y : BitVec w) {comparison : Comparison}
    (h : isIntComparison comparison = true) :
    holdsCondition (cmpFlags x y) (lowerCondition comparison) = comparison.holdsInt x y := by
  have hsigned := sign_bne_overflow x y
  have hsame : ((x - y).msb == x.ssubOverflow y) = !x.slt y := by
    rw [← hsigned]
    cases (x - y).msb <;> cases x.ssubOverflow y <;> rfl
  cases comparison with
  | EQ => rfl
  | NE => simp [holdsCondition, lowerCondition, cmpFlags, Comparison.holdsInt]
  | ULT => rfl
  | UGE => simp [holdsCondition, lowerCondition, cmpFlags, Comparison.holdsInt,
      BitVec.ule_eq_not_ult]
  | ULE =>
    simp only [holdsCondition, lowerCondition, cmpFlags, Comparison.holdsInt]
    rw [Bool.eq_iff_iff]
    simp only [Bool.or_eq_true, decide_eq_true_eq, BitVec.ult_eq_decide, BitVec.ule_eq_decide,
      BitVec.toNat_eq]
    omega
  | UGT =>
    simp only [holdsCondition, lowerCondition, cmpFlags, Comparison.holdsInt]
    rw [Bool.eq_iff_iff]
    simp only [Bool.and_eq_true, Bool.not_eq_true', decide_eq_false_iff_not, decide_eq_true_eq,
      BitVec.ult_eq_decide, BitVec.toNat_eq]
    omega
  | SLT => simpa [holdsCondition, lowerCondition, cmpFlags, Comparison.holdsInt] using hsigned
  | SGE =>
    simp only [holdsCondition, lowerCondition, cmpFlags, Comparison.holdsInt]
    rw [hsame, BitVec.sle_eq_not_slt]
  | SLE =>
    simp only [holdsCondition, lowerCondition, cmpFlags, Comparison.holdsInt]
    rw [hsigned, Bool.eq_iff_iff]
    simp only [Bool.or_eq_true, decide_eq_true_eq, BitVec.slt_eq_decide, BitVec.sle_eq_decide,
      ← BitVec.toInt_inj]
    omega
  | SGT =>
    simp only [holdsCondition, lowerCondition, cmpFlags, Comparison.holdsInt]
    rw [hsame, Bool.eq_iff_iff]
    simp only [Bool.and_eq_true, Bool.not_eq_true', decide_eq_false_iff_not, decide_eq_true_eq,
      BitVec.slt_eq_decide, ← BitVec.toInt_inj]
    omega
  | _ => cases h

/-- A machine that also compares floating-point numbers. -/
structure SelectMachine extends BranchMachine where
  fpLess : (n : ℕ) → BitVec n → BitVec n → Bool
  fpEq : (n : ℕ) → BitVec n → BitVec n → Bool

/-- Immediates, which are no first operand of a comparison. -/
def BranchSource.isImmediate : BranchSource → Bool
  | .intImmediate _ | .symbol _ _ => true
  | _ => false

/-- Whether a register is, or can be, one of the class that is wanted. `floats` are the SSA
registers of floating-point numbers. -/
def classOk (floats : VirtualRegister → Bool) (sse : Bool) : BranchReg → Bool
  | .lower (.vreg reg) => floats reg == sse
  | _ => true

def sourceOk (floats : VirtualRegister → Bool) (sse : Bool) : BranchSource → Bool
  | .register reg => classOk floats sse reg
  | _ => true

/-- Whether there is such an instruction. -/
def SelectItem.isOk (floats : VirtualRegister → Bool) : SelectItem → Bool
  | .operand _ => true
  | .mov instr =>
    classOk floats (instr.opcode ≠ .MOV) instr.dst && sourceOk floats
      (instr.opcode ≠ .MOV) instr.src
  | .cmp _ lhs rhs => !lhs.isImmediate && sourceOk floats false lhs && sourceOk floats false rhs
  | .cmovcc _ _ dst src => classOk floats false dst && classOk floats false src
  | .max _ dst src | .min _ dst src => classOk floats true dst && sourceOk floats true src

/-- The register an item writes. -/
def SelectItem.dst : SelectItem → Option BranchReg
  | .operand instr | .mov instr => some instr.dst
  | .cmp _ _ _ => none
  | .cmovcc _ _ dst _ | .max _ dst _ | .min _ dst _ => some dst

namespace SelectMachine

variable (S : SelectMachine)

/-- A maximum is its second operand unless the first one is greater, and a minimum is unless the
first one is less. -/
def exec (st : BranchState) : SelectItem → BranchState
  | .operand instr | .mov instr => S.toBranchMachine.exec st instr
  | .cmp size lhs rhs => { st with
      flags := cmpFlags ((S.source st.regs size lhs).setWidth (8 * size))
        ((S.source st.regs size rhs).setWidth (8 * size)) }
  | .cmovcc condition size dst src => { st with
      regs := Function.update st.regs dst (writeSized size (st.regs dst)
        (if holdsCondition st.flags condition then st.regs src else st.regs dst)) }
  | .max size dst src =>
    let old := st.regs dst
    let word := S.source st.regs size src
    { st with regs := Function.update st.regs dst (replaceLow (8 * size) old
        (if S.fpLess _ (word.setWidth (8 * size)) (old.setWidth (8 * size)) then old else word)) }
  | .min size dst src =>
    let old := st.regs dst
    let word := S.source st.regs size src
    { st with regs := Function.update st.regs dst (replaceLow (8 * size) old
        (if S.fpLess _ (old.setWidth (8 * size)) (word.setWidth (8 * size)) then old else word)) }

def run (st : BranchState) (items : List SelectItem) : BranchState := items.foldl S.exec st

variable (st : BranchState)

@[simp] theorem run_nil : S.run st [] = st := rfl

@[simp] theorem run_cons (item : SelectItem) (items : List SelectItem) :
    S.run st (item :: items) = S.run (S.exec st item) items := rfl

@[simp] theorem run_append (first second : List SelectItem) :
    S.run st (first ++ second) = S.run (S.run st first) second := foldl_append

@[simp] theorem run_operands (code : List BranchInstr) :
    S.run st (code.map .operand) = S.execAll st code := by
  induction code generalizing st with
  | nil => rfl
  | cons instr code ih => exact ih (S.toBranchMachine.exec st instr)

/-- What a comparison of floating-point numbers means. -/
def holdsFp (comparison : Comparison) {n : ℕ} (x y : BitVec n) : Bool :=
  match comparison with
  | .FEQ => S.fpEq n x y
  | .FNE => !S.fpEq n x y
  | .FGT => S.fpLess n y x
  | .FGE => S.fpLess n y x || S.fpEq n x y
  | .FLT => S.fpLess n x y
  | .FLE => S.fpLess n x y || S.fpEq n x y
  | _ => false

end SelectMachine

/-! ## What is selected -/

section Selections

open BranchMachine SelectMachine

variable (ctx : BranchContext) (S : SelectMachine) (floats : VirtualRegister → Bool)
  (select : Select) (regs : BranchReg → BitVec 64)

/-- The word of an operand. A symbol stands for what its operand reads. -/
def operandWord (arg : SSA.Operand) : BitVec 64 :=
  argWord ctx S.toBranchMachine ⟨ctx.layout, symbolWord ctx S.toBranchMachine⟩ regs arg

/-- Whether the comparison holds. -/
def Select.outcome : Bool :=
  let size := ctx.layout.size select.lhs.type
  let x := (operandWord ctx S regs select.lhs).setWidth (8 * size)
  let y := (operandWord ctx S regs select.rhs).setWidth (8 * size)
  if select.lhs.type.isFloatingPoint then S.holdsFp select.comparison x y
  else select.comparison.holdsInt x y

def Select.selected : SSA.Operand :=
  if select.outcome ctx S regs then select.valTrue else select.valFalse

/-- **The result is the selected value**, at the full width of its type. -/
structure Selects (items : List SelectItem) (st : BranchState) : Prop where
  isOk : ∀ item ∈ items, item.isOk floats = true
  yields : ∃ item ∈ items, item.dst = some (.lower (.vreg select.dest))
  dest : ((S.run st items).regs (.lower (.vreg select.dest))).setWidth
      (8 * ctx.layout.size select.valTrue.type)
    = (operandWord ctx S st.regs (select.selected ctx S st.regs)).setWidth
      (8 * ctx.layout.size select.valTrue.type)
  others : ∀ reg ≠ select.dest,
    (S.run st items).regs (.lower (.vreg reg)) = st.regs (.lower (.vreg reg))

/-- An operand that is lowered to an immediate. -/
def keptImmediate (arg : SSA.Operand) : Bool :=
  match arg.value with
  | .intImmediate immediate =>
    !(ctx.layout.size arg.type = 8 && decide (2 ^ 32 ≤ immediate.toBits.toNat))
  | .fpImmediate _ | .register _ => false
  | symbol => ctx.darwin && isFunc symbol

/-- When the result is right. For integers: the first compared operand is no immediate, the values
are no floating-point numbers, and the selected one has no bits above the moves. For floating-point
numbers: a maximum or a minimum, and the selected value is no negative zero. -/
def SelectPasses : Prop :=
  let selected := select.selected ctx S regs
  if select.lhs.type.isFloatingPoint then
    select.lhs.value.eq select.valTrue.value = true ∧
      select.rhs.value.eq select.valFalse.value = true ∧
      (select.comparison = .FGT ∨ select.comparison = .FLT) ∧
      ∀ value, selected.value = .fpImmediate value → value.isZero = true → value.bits = 0
  else
    keptImmediate ctx select.lhs = false ∧ select.valTrue.type.isFloatingPoint = false ∧
      (4 < ctx.layout.size select.valTrue.type → select.moveSize ctx = 4 →
        (low32 (operandWord ctx S regs selected)).setWidth
            (8 * ctx.layout.size select.valTrue.type)
          = (operandWord ctx S regs selected).setWidth (8 * ctx.layout.size select.valTrue.type))

/-- Operands of a well-typed `SELECT`. A value that is compared and selected has one type. -/
structure SelectTyped : Prop where
  args : ∀ arg ∈ [select.lhs, select.rhs, select.valTrue, select.valFalse], ArgTyped ctx arg ∧
    (∀ reg, arg.value = .register reg → floats reg = arg.type.isFloatingPoint ∧ reg ≠ select.dest) ∧
    (arg.type.isFloatingPoint = true →
      (∃ reg, arg.value = .register reg) ∨ ∃ value, arg.value = .fpImmediate value)
  dest : floats select.dest = select.valTrue.type.isFloatingPoint
  size : ctx.layout.size select.lhs.type ≤ 4 ∨ ctx.layout.size select.lhs.type = 8
  rhs : select.rhs.type = select.lhs.type
  valFalse : select.valFalse.type = select.valTrue.type
  same : select.lhs.type.isFloatingPoint = true →
    select.lhs.value.eq select.valTrue.value = true →
    select.rhs.value.eq select.valFalse.value = true → select.lhs.type = select.valTrue.type
  int : select.lhs.type.isFloatingPoint = false → isIntComparison select.comparison = true

/-- What is assumed of the machine: comparisons do not see the sign of a zero, which constants
keep. -/
structure SelectOk : Prop where
  sizes : FloatSizes ctx.layout
  toFloat_zero : ∀ value : Double, value.isZero = true → (S.toFloat value = 0 ↔ value.bits = 0)
  fpLess_zero : ∀ (value : Double) (size : ℕ) (y : BitVec (8 * size)), value.isZero = true →
    S.fpLess _ ((S.fpWord size value).setWidth (8 * size)) y = S.fpLess _ 0 y ∧
      S.fpLess _ y ((S.fpWord size value).setWidth (8 * size)) = S.fpLess _ y 0

end Selections

/-! ## Operands -/

section Operands

open BranchMachine SelectMachine

variable {ctx : BranchContext} {B : BranchMachine} {floats : VirtualRegister → Bool}
  {arg : SSA.Operand} {first : List BranchInstr} {src : BranchSource} {index : ℕ}

theorem eq_f32_or_f64 {type : SSAType} (h : type.isFloatingPoint = true) :
    type = Primitive.F32 ∨ type = Primitive.F64 := by
  obtain ⟨kind, length⟩ := type
  simp only [SSAType.isFloatingPoint, Bool.and_eq_true, decide_eq_true_eq, mem_cons,
    not_mem_nil, or_false] at h
  obtain ⟨hkind, rfl⟩ := h
  rcases hkind with rfl | rfl
  · exact Or.inl rfl
  · exact Or.inr rfl

theorem FloatSizes.size_eq (hsizes : FloatSizes ctx.layout) {type : SSAType}
    (h : type.isFloatingPoint = true) : ctx.layout.size type = 4 ∨ ctx.layout.size type = 8 := by
  rcases eq_f32_or_f64 h with rfl | rfl
  · exact Or.inl hsizes.f32
  · exact Or.inr hsizes.f64

/-- Operands are read alike in states that agree on them. -/
theorem source_of_operandOf {tmp : BranchReg} (h : OperandOf tmp src) {st st' : BranchState}
    (htmp : st'.regs tmp = st.regs tmp)
    (hvreg : ∀ reg, st'.regs (.lower (.vreg reg)) = st.regs (.lower (.vreg reg))) (n m : ℕ) :
    B.source st'.regs n src = B.source st.regs m src := by
  cases src with
  | register reg =>
    rcases h with rfl | ⟨vreg, rfl⟩
    · exact htmp
    · exact hvreg vreg
  | intImmediate immediate => rfl
  | symbol symbol reloc => rfl
  | _ => exact h.elim

/-- The lowered word of a register is one of that register. -/
theorem loweredWord_congr_of {regs regs' : BranchReg → BitVec 64}
    (hreg : ∀ reg, arg.value = .register reg →
      regs' (.lower (.vreg reg)) = regs (.lower (.vreg reg)))
    (hrsp : regs' (.lower .rsp) = regs (.lower .rsp)) :
    loweredWord ctx B regs' arg = loweredWord ctx B regs arg := by
  obtain ⟨value, type⟩ := arg
  cases value with
  | register reg => simp only [loweredWord, slotAddr, hrsp, hreg reg rfl]
  | _ => rfl

/-- What is known after the code for an operand. -/
structure OperandStage (ctx : BranchContext) (B : BranchMachine) (index : ℕ) (arg : SSA.Operand)
    (src : BranchSource) (st st' : BranchState) : Prop where
  regs : ∀ reg, reg ≠ .lower (.tmp index) → st'.regs reg = st.regs reg
  flags : st'.flags = st.flags
  operand : OperandOf (.lower (.tmp index)) src
  source : ∀ n, B.source st'.regs n src = loweredWord ctx B st.regs arg

theorem OperandStage.sameSSA {st st' : BranchState} (h : OperandStage ctx B index arg src st st') :
    SameSSA st st' :=
  ⟨fun _ ↦ h.regs _ nofun, h.regs _ nofun⟩

theorem operandStage (hsizes : FloatSizes ctx.layout) (ht : ArgTyped ctx arg)
    (h : lowerAsOperand ctx (.lower (.tmp index)) arg = some (first, src)) (st : BranchState) :
    OperandStage ctx B index arg src st (B.execAll st first) := by
  obtain ⟨hcode, hoperand, hsource⟩ := lowerAsOperand_spec (B := B) hsizes ht h st
  refine ⟨fun reg hreg ↦ ?_, execAll_flags B (fun i hi ↦ (hcode i hi).2) st, hoperand, fun n ↦ ?_⟩
  · exact execAll_regs_of_ne B (fun i hi heq ↦ hreg (heq.symm.trans (hcode i hi).1)) st
  · exact (source_of_operandOf hoperand rfl (fun _ ↦ rfl) n _).trans hsource

/-- The class of an operand, and whether it is an immediate. -/
theorem lowerAsOperand_sourceOk {sse : Bool}
    (h : lowerAsOperand ctx (.lower (.tmp index)) arg = some (first, src))
    (hfloats : ∀ reg, arg.value = .register reg → floats reg = sse) :
    sourceOk floats sse src = true ∧ src.isImmediate = keptImmediate ctx arg := by
  have hsymbol (symbol : Value) (h : (if isSymbol symbol then
      some (lowerSymbolAsOperand ctx (.lower (.tmp index)) symbol) else none) = some (first, src)) :
      sourceOk floats sse src = true ∧ src.isImmediate = (ctx.darwin && isFunc symbol) := by
    by_cases hs : isSymbol symbol = true
    · rw [if_pos hs, some.injEq] at h
      unfold lowerSymbolAsOperand at h
      by_cases hdarwin : ctx.darwin = true ∧ isFunc symbol = true
      · simp only [if_pos hdarwin, Prod.mk.injEq] at h
        obtain ⟨-, rfl⟩ := h
        simp [sourceOk, BranchSource.isImmediate, hdarwin]
      · have hfalse : (ctx.darwin && isFunc symbol) = false := by
          rw [Bool.and_eq_false_iff]
          by_contra hboth
          simp only [not_or, Bool.not_eq_false] at hboth
          exact hdarwin hboth
        simp only [if_neg hdarwin] at h
        by_cases hlarge : ctx.largeCodeModel = true
        · simp only [if_pos hlarge, Prod.mk.injEq] at h
          obtain ⟨-, rfl⟩ := h
          exact ⟨rfl, hfalse.symm⟩
        · simp only [if_neg hlarge] at h
          by_cases hreloc : symbolReloc ctx symbol = .NONE
          · simp only [if_pos hreloc, Prod.mk.injEq] at h
            obtain ⟨-, rfl⟩ := h
            exact ⟨rfl, hfalse.symm⟩
          · simp only [if_neg hreloc, Prod.mk.injEq] at h
            obtain ⟨-, rfl⟩ := h
            exact ⟨rfl, hfalse.symm⟩
    · rw [if_neg hs] at h
      cases h
  obtain ⟨value, type⟩ := arg
  cases value with
  | intImmediate immediate =>
    simp only [lowerAsOperand] at h
    by_cases hbig : ctx.layout.size type = 8 ∧ 2 ^ 32 ≤ immediate.toBits.toNat
    · rw [if_pos hbig, some.injEq, Prod.mk.injEq] at h
      obtain ⟨-, rfl⟩ := h
      refine ⟨rfl, ?_⟩
      simp only [BranchSource.isImmediate, keptImmediate, decide_eq_true hbig.1,
        decide_eq_true hbig.2, Bool.and_self, Bool.not_true]
    · rw [if_neg hbig, some.injEq, Prod.mk.injEq] at h
      obtain ⟨-, rfl⟩ := h
      refine ⟨rfl, ?_⟩
      simp only [BranchSource.isImmediate, keptImmediate]
      rw [eq_comm, Bool.not_eq_true', Bool.and_eq_false_iff]
      simp only [decide_eq_false_iff_not]
      exact not_and_or.mp hbig
  | fpImmediate immediate =>
    simp only [lowerAsOperand] at h
    by_cases hzero : immediate.isZero
    · rw [if_pos hzero, some.injEq, Prod.mk.injEq] at h
      obtain ⟨-, rfl⟩ := h
      exact ⟨rfl, rfl⟩
    · rw [if_neg hzero, some.injEq, Prod.mk.injEq] at h
      obtain ⟨-, rfl⟩ := h
      exact ⟨rfl, rfl⟩
  | register reg =>
    simp only [lowerAsOperand] at h
    cases hslot : ctx.slots reg with
    | some slot =>
      rw [hslot, some.injEq, Prod.mk.injEq] at h
      obtain ⟨-, rfl⟩ := h
      exact ⟨rfl, rfl⟩
    | none =>
      rw [hslot, some.injEq, Prod.mk.injEq] at h
      obtain ⟨-, rfl⟩ := h
      exact ⟨by simp [sourceOk, classOk, hfloats reg rfl], rfl⟩
  | _ => exact hsymbol _ h

/-- The lowered word is that of the operand unless a zero loses its sign. -/
theorem loweredWord_eq_iff (hsizes : FloatSizes ctx.layout)
    (htoFloat : ∀ value : Double, value.isZero = true → (B.toFloat value = 0 ↔ value.bits = 0))
    (ht : ArgTyped ctx arg) (regs : BranchReg → BitVec 64) :
    (loweredWord ctx B regs arg).setWidth (8 * ctx.layout.size arg.type)
      = (argWord ctx B ⟨ctx.layout, symbolWord ctx B⟩ regs arg).setWidth
        (8 * ctx.layout.size arg.type) ↔
      ∀ value, arg.value = .fpImmediate value → value.isZero = true → value.bits = 0 := by
  cases hv : arg.value with
  | fpImmediate value =>
    cases hzero : value.isZero with
    | true =>
      have hiff := fpWord_eq_zero_iff hsizes htoFloat hv ht hzero
      simpa [loweredWord, argWord, hv, hzero] using hiff
    | false => simp [loweredWord, argWord, hv, hzero]
  | _ => simp [loweredWord, argWord, hv]

theorem loweredWord_of_eq {other : SSA.Operand} (h : arg.value.eq other.value = true)
    (htype : arg.type = other.type) (regs : BranchReg → BitVec 64) :
    loweredWord ctx B regs arg = loweredWord ctx B regs other := by
  rcases Value.eq_or_zero_of_eq h with hvalue | ⟨x, y, hx, hy, hxzero, hyzero⟩
  · have heq : arg = other := by
      cases arg
      cases other
      simp_all
    rw [heq]
  · simp [loweredWord, hx, hy, hxzero, hyzero]

end Operands

/-! ## Selections of compared integers -/

section Integers

open BranchMachine SelectMachine

variable {ctx : BranchContext} {S : SelectMachine} {floats : VirtualRegister → Bool}
  {select : Select} {st : BranchState}

theorem moveSize_eq
    (h : ctx.layout.size select.lhs.type ≤ 4 ∨ ctx.layout.size select.lhs.type = 8) :
    select.moveSize ctx = 4 ∨ select.moveSize ctx = 8 := by
  rcases h with h | h
  · exact Or.inl (max_eq_right h)
  · exact Or.inr (by rw [Select.moveSize, h]; rfl)

/-- Moves of four or eight bytes replace the whole register. -/
theorem writeSized_eq_passed {size : ℕ} (h : size = 4 ∨ size = 8) (old word : BitVec 64) :
    writeSized size old word = passed size word := by
  rcases h with rfl | rfl <;> rfl

theorem passed_passed (size : ℕ) (word : BitVec 64) :
    passed size (passed size word) = passed size word := by
  unfold passed
  by_cases h : size = 8
  · simp only [if_pos h]
  · simp only [if_neg h, low32_low32]

/-- The items for compared integers. -/
def integerItems (ctx : BranchContext) (select : Select)
    (first second third fourth : List BranchInstr) (lhs rhs valTrue valFalse : BranchSource) :
    List SelectItem :=
  first.map .operand ++ second.map .operand ++
    [.cmp (ctx.layout.size select.lhs.type) lhs rhs] ++ third.map .operand ++
    [.mov ⟨.MOV, select.moveSize ctx, .lower (.tmp 3), valTrue⟩] ++ fourth.map .operand ++
    [.mov ⟨.MOV, select.moveSize ctx, .lower (.vreg select.dest), valFalse⟩,
      .cmovcc (lowerCondition select.comparison) (select.moveSize ctx)
        (.lower (.vreg select.dest)) (.lower (.tmp 3))]

variable {first second third fourth : List BranchInstr} {lhs rhs valTrue valFalse : BranchSource}
  (h1 : lowerAsOperand ctx (.lower (.tmp 5)) select.lhs = some (first, lhs))
  (h2 : lowerAsOperand ctx (.lower (.tmp 6)) select.rhs = some (second, rhs))
  (h3 : lowerAsOperand ctx (.lower (.tmp 7)) select.valTrue = some (third, valTrue))
  (h4 : lowerAsOperand ctx (.lower (.tmp 8)) select.valFalse = some (fourth, valFalse))

include h1 h2 h3 h4

/-- **A compared selection** leaves the value of the comparison in its result, cut off at the size
of the moves. -/
theorem run_integerItems (hsizes : FloatSizes ctx.layout)
    (ht : ∀ arg ∈ [select.lhs, select.rhs, select.valTrue, select.valFalse], ArgTyped ctx arg)
    (hsize : select.moveSize ctx = 4 ∨ select.moveSize ctx = 8)
    (hcomparison : isIntComparison select.comparison = true)
    (st : BranchState) :
    (∀ reg ≠ select.dest, (S.run st (integerItems ctx select first second third fourth lhs rhs
        valTrue valFalse)).regs (.lower (.vreg reg)) = st.regs (.lower (.vreg reg))) ∧
      (S.run st (integerItems ctx select first second third fourth lhs rhs
        valTrue valFalse)).regs (.lower (.vreg select.dest))
      = passed (select.moveSize ctx) (loweredWord ctx S.toBranchMachine st.regs
          (if select.comparison.holdsInt
            ((loweredWord ctx S.toBranchMachine st.regs select.lhs).setWidth
              (8 * ctx.layout.size select.lhs.type))
            ((loweredWord ctx S.toBranchMachine st.regs select.rhs).setWidth
              (8 * ctx.layout.size select.lhs.type))
            then select.valTrue else select.valFalse)) := by
  obtain ⟨s1, hs1⟩ : ∃ s1, s1 = S.execAll st first := ⟨_, rfl⟩
  obtain ⟨s2, hs2⟩ : ∃ s2, s2 = S.execAll s1 second := ⟨_, rfl⟩
  obtain ⟨s3, hs3⟩ : ∃ s3, s3 = S.exec s2 (.cmp (ctx.layout.size select.lhs.type) lhs rhs) :=
    ⟨_, rfl⟩
  obtain ⟨s4, hs4⟩ : ∃ s4, s4 = S.execAll s3 third := ⟨_, rfl⟩
  obtain ⟨s5, hs5⟩ : ∃ s5, s5 = S.toBranchMachine.exec s4
    ⟨.MOV, select.moveSize ctx, .lower (.tmp 3), valTrue⟩ := ⟨_, rfl⟩
  obtain ⟨s6, hs6⟩ : ∃ s6, s6 = S.execAll s5 fourth := ⟨_, rfl⟩
  obtain ⟨s7, hs7⟩ : ∃ s7, s7 = S.toBranchMachine.exec s6
    ⟨.MOV, select.moveSize ctx, .lower (.vreg select.dest), valFalse⟩ := ⟨_, rfl⟩
  have hrun : S.run st (integerItems ctx select first second third fourth lhs rhs valTrue valFalse)
      = S.exec s7 (.cmovcc (lowerCondition select.comparison) (select.moveSize ctx)
        (.lower (.vreg select.dest)) (.lower (.tmp 3))) := by
    simp only [integerItems, run_append, run_operands, run_cons, run_nil]
    rw [← hs1, ← hs2, ← hs3, ← hs4, hs7, hs6, hs5]
    rfl
  have stage1 : OperandStage ctx S.toBranchMachine 5 select.lhs lhs st s1 :=
    hs1 ▸ operandStage hsizes (ht _ (by simp)) h1 st
  have stage2 : OperandStage ctx S.toBranchMachine 6 select.rhs rhs s1 s2 :=
    hs2 ▸ operandStage hsizes (ht _ (by simp)) h2 s1
  have stage3 : OperandStage ctx S.toBranchMachine 7 select.valTrue valTrue s3 s4 :=
    hs4 ▸ operandStage hsizes (ht _ (by simp)) h3 s3
  have stage4 : OperandStage ctx S.toBranchMachine 8 select.valFalse valFalse s5 s6 :=
    hs6 ▸ operandStage hsizes (ht _ (by simp)) h4 s5
  -- the comparison reads both operands, and no later instruction changes its flags
  have hx (n : ℕ) : S.source s2.regs n lhs = loweredWord ctx S.toBranchMachine st.regs select.lhs :=
    (source_of_operandOf stage1.operand (stage2.regs _ (by simp)) stage2.sameSSA.vreg n n).trans
      (stage1.source n)
  have hy (n : ℕ) : S.source s2.regs n rhs = loweredWord ctx S.toBranchMachine st.regs select.rhs :=
    (stage2.source n).trans (loweredWord_congr stage1.sameSSA)
  have hsame3 : SameSSA st s3 := by
    have hregs : s3.regs = s2.regs := by rw [hs3]; rfl
    have hsame := stage1.sameSSA.trans stage2.sameSSA
    exact ⟨fun reg ↦ by rw [hregs, hsame.vreg], by rw [hregs, hsame.rsp]⟩
  have hflags : holdsCondition s7.flags (lowerCondition select.comparison)
      = select.comparison.holdsInt
          ((loweredWord ctx S.toBranchMachine st.regs select.lhs).setWidth
            (8 * ctx.layout.size select.lhs.type))
          ((loweredWord ctx S.toBranchMachine st.regs select.rhs).setWidth
            (8 * ctx.layout.size select.lhs.type)) := by
    have h7 : s7.flags = s6.flags := by rw [hs7]; rfl
    have h5 : s5.flags = s4.flags := by rw [hs5]; rfl
    have h3 : s3.flags = cmpFlags
        ((S.source s2.regs (ctx.layout.size select.lhs.type) lhs).setWidth
          (8 * ctx.layout.size select.lhs.type))
        ((S.source s2.regs (ctx.layout.size select.lhs.type) rhs).setWidth
          (8 * ctx.layout.size select.lhs.type)) := by rw [hs3]; rfl
    rw [h7, stage4.flags, h5, stage3.flags, h3, hx, hy]
    exact holdsCondition_cmpFlags _ _ hcomparison
  -- both values are read before the result is written
  have hsame5 : SameSSA st s5 := by
    have hkeep (reg : BranchReg) (hreg : reg ≠ .lower (.tmp 3)) : s5.regs reg = s4.regs reg := by
      rw [hs5]
      exact exec_regs_of_ne _ hreg
    refine (hsame3.trans stage3.sameSSA).trans ⟨fun reg ↦ hkeep _ nofun, hkeep _ nofun⟩
  have htrue : s7.regs (.lower (.tmp 3)) = passed (select.moveSize ctx)
      (loweredWord ctx S.toBranchMachine st.regs select.valTrue) := by
    have h7 : s7.regs (.lower (.tmp 3)) = s6.regs (.lower (.tmp 3)) := by
      rw [hs7]
      exact exec_regs_of_ne _ nofun
    have h5 : s5.regs (.lower (.tmp 3)) = writeSized (select.moveSize ctx)
        (s4.regs (.lower (.tmp 3))) (S.source s4.regs (select.moveSize ctx) valTrue) := by
      rw [hs5]
      exact exec_regs_self _ s4 _
    rw [h7, stage4.regs _ (by simp), h5, writeSized_eq_passed hsize, stage3.source,
      loweredWord_congr hsame3]
  have hfalse : s7.regs (.lower (.vreg select.dest)) = passed (select.moveSize ctx)
      (loweredWord ctx S.toBranchMachine st.regs select.valFalse) := by
    have h7 : s7.regs (.lower (.vreg select.dest)) = writeSized (select.moveSize ctx)
        (s6.regs (.lower (.vreg select.dest)))
        (S.source s6.regs (select.moveSize ctx) valFalse) := by
      rw [hs7]
      exact exec_regs_self _ s6 _
    rw [h7, writeSized_eq_passed hsize, stage4.source, loweredWord_congr hsame5]
  constructor
  · intro reg hreg
    have hne : BranchReg.lower (.vreg reg) ≠ .lower (.vreg select.dest) := by simpa using hreg
    have h7 : s7.regs (.lower (.vreg reg)) = s6.regs (.lower (.vreg reg)) := by
      rw [hs7]
      exact exec_regs_of_ne _ hne
    rw [hrun]
    refine (Function.update_of_ne hne _ _).trans ?_
    rw [h7, (hsame5.trans stage4.sameSSA).vreg]
  · rw [hrun]
    refine (Function.update_self _ _ _).trans ?_
    rw [writeSized_eq_passed hsize, hflags]
    cases select.comparison.holdsInt
        ((loweredWord ctx S.toBranchMachine st.regs select.lhs).setWidth
          (8 * ctx.layout.size select.lhs.type))
        ((loweredWord ctx S.toBranchMachine st.regs select.rhs).setWidth
          (8 * ctx.layout.size select.lhs.type)) with
    | true => simp only [if_true, htrue, passed_passed]
    | false => simp only [Bool.false_eq_true, if_false, hfalse, passed_passed]

/-- The result of a compared selection is right exactly when it passes. -/
theorem selects_integerItems_iff (hok : SelectOk ctx S) (htyped : SelectTyped ctx floats select)
    (hint : select.lhs.type.isFloatingPoint = false)
    (st : BranchState) :
    Selects ctx S floats select
        (integerItems ctx select first second third fourth lhs rhs valTrue valFalse) st ↔
      SelectPasses ctx S select st.regs := by
  have hsize := moveSize_eq htyped.size
  have hargs := htyped.args
  have hnofp {arg : SSA.Operand} (harg : ArgTyped ctx arg)
    (hfp : arg.type.isFloatingPoint = false) :
      loweredWord ctx S.toBranchMachine st.regs arg = operandWord ctx S st.regs arg := by
    have hvalue := harg.value
    cases hv : arg.value with
    | fpImmediate value =>
      rw [hv] at hvalue
      rcases hvalue with h | h <;> (rw [h] at hfp; cases hfp)
    | _ => simp [loweredWord, operandWord, argWord, hv]
  obtain ⟨hothers, hdest⟩ := run_integerItems (S := S) h1 h2 h3 h4 hok.sizes
    (fun arg harg ↦ (hargs arg harg).1) hsize (htyped.int hint) st
  have hoks : (∀ item ∈ integerItems ctx select first second third fourth lhs rhs valTrue valFalse,
      item.isOk floats = true) ↔
      keptImmediate ctx select.lhs = false ∧ select.valTrue.type.isFloatingPoint = false := by
    have hlhs : sourceOk floats false lhs = true ∧ lhs.isImmediate = keptImmediate ctx select.lhs :=
      lowerAsOperand_sourceOk h1 fun reg hreg ↦ ((hargs _ (by simp)).2.1 reg hreg).1.trans hint
    have hrhs : sourceOk floats false rhs = true ∧ rhs.isImmediate = keptImmediate ctx select.rhs :=
      lowerAsOperand_sourceOk h2 fun reg hreg ↦
        ((hargs _ (by simp)).2.1 reg hreg).1.trans (htyped.rhs ▸ hint)
    constructor
    · intro h
      have hcmp := h (.cmp (ctx.layout.size select.lhs.type) lhs rhs) (by simp [integerItems])
      have hcmov := h (.cmovcc (lowerCondition select.comparison) (select.moveSize ctx)
        (.lower (.vreg select.dest)) (.lower (.tmp 3))) (by simp [integerItems])
      simp only [SelectItem.isOk, classOk, Bool.and_eq_true, Bool.not_eq_true', beq_iff_eq]
        at hcmp hcmov
      exact ⟨hlhs.2.symm.trans hcmp.1.1, htyped.dest.symm.trans hcmov.1⟩
    · rintro ⟨hkept, hfp⟩ item hitem
      have htrue : sourceOk floats false valTrue = true ∧
          valTrue.isImmediate = keptImmediate ctx select.valTrue :=
        lowerAsOperand_sourceOk h3 fun reg hreg ↦ ((hargs _ (by simp)).2.1 reg hreg).1.trans hfp
      have hfalse : sourceOk floats false valFalse = true ∧
          valFalse.isImmediate = keptImmediate ctx select.valFalse :=
        lowerAsOperand_sourceOk h4 fun reg hreg ↦
          ((hargs _ (by simp)).2.1 reg hreg).1.trans (htyped.valFalse ▸ hfp)
      have hdst := htyped.dest.trans hfp
      simp only [integerItems, mem_append, List.mem_map, List.mem_cons, List.not_mem_nil,
        or_false] at hitem
      rcases hitem with
        (((((⟨i, -, rfl⟩ | ⟨i, -, rfl⟩) | rfl) | ⟨i, -, rfl⟩) | rfl) | ⟨i, -, rfl⟩) | rfl | rfl
      · rfl
      · rfl
      · simp [SelectItem.isOk, hlhs, hrhs, hkept]
      · rfl
      · simp [SelectItem.isOk, classOk, htrue]
      · rfl
      · simp [SelectItem.isOk, classOk, hfalse, hdst]
      · simp [SelectItem.isOk, classOk, hdst]
  have hselected : (if select.comparison.holdsInt
      ((loweredWord ctx S.toBranchMachine st.regs select.lhs).setWidth
        (8 * ctx.layout.size select.lhs.type))
      ((loweredWord ctx S.toBranchMachine st.regs select.rhs).setWidth
        (8 * ctx.layout.size select.lhs.type))
      then select.valTrue else select.valFalse) = select.selected ctx S st.regs := by
    rw [hnofp (hargs _ (by simp)).1 hint, hnofp (hargs _ (by simp)).1 (htyped.rhs ▸ hint)]
    simp [Select.selected, Select.outcome, hint]
  rw [hselected] at hdest
  have hword (hfp : select.valTrue.type.isFloatingPoint = false) :
      loweredWord ctx S.toBranchMachine st.regs (select.selected ctx S st.regs)
        = operandWord ctx S st.regs (select.selected ctx S st.regs) := by
    unfold Select.selected
    cases select.outcome ctx S st.regs with
    | true => exact hnofp (hargs _ (by simp)).1 hfp
    | false => exact hnofp (hargs _ (by simp)).1 (htyped.valFalse ▸ hfp)
  have hpassed (word : BitVec 64) (n : ℕ) :
      (passed (select.moveSize ctx) word).setWidth (8 * n) = word.setWidth (8 * n) ↔
        (4 < n → select.moveSize ctx = 4 →
          (low32 word).setWidth (8 * n) = word.setWidth (8 * n)) := by
    rcases hsize with h4 | h8
    · rw [h4, passed, if_neg (by decide)]
      by_cases hn : n ≤ 4
      · exact iff_of_true (setWidth_low32 (by omega)) (by omega)
      · exact ⟨fun h _ _ ↦ h, fun h ↦ h (by omega) rfl⟩
    · rw [h8, passed, if_pos rfl]
      exact iff_of_true rfl (by omega)
  simp only [SelectPasses, hint, Bool.false_eq_true, if_false]
  constructor
  · intro h
    obtain ⟨hkept, hfp⟩ := hoks.mp h.isOk
    have hresult := h.dest
    rw [hdest, hword hfp, hpassed] at hresult
    exact ⟨hkept, hfp, hresult⟩
  · rintro ⟨hkept, hfp, hwide⟩
    refine ⟨hoks.mpr ⟨hkept, hfp⟩, ⟨.cmovcc (lowerCondition select.comparison)
      (select.moveSize ctx) (.lower (.vreg select.dest)) (.lower (.tmp 3)),
      by simp [integerItems], rfl⟩, ?_, hothers⟩
    rw [hdest, hword hfp, hpassed]
    exact hwide

end Integers

/-! ## Selections of compared floating-point numbers -/

section Floats

open BranchMachine SelectMachine

variable {ctx : BranchContext} {S : SelectMachine} {floats : VirtualRegister → Bool}
  {select : Select} {st : BranchState}

/-- A comparison does not see whether an operand lost the sign of a zero. -/
theorem fpLess_lowered (hok : SelectOk ctx S) {arg : SSA.Operand} {n : ℕ}
    (hn : n = ctx.layout.size arg.type) (regs : BranchReg → BitVec 64) (y : BitVec (8 * n)) :
    S.fpLess _ ((loweredWord ctx S.toBranchMachine regs arg).setWidth (8 * n)) y
        = S.fpLess _ ((operandWord ctx S regs arg).setWidth (8 * n)) y ∧
      S.fpLess _ y ((loweredWord ctx S.toBranchMachine regs arg).setWidth (8 * n))
        = S.fpLess _ y ((operandWord ctx S regs arg).setWidth (8 * n)) := by
  subst hn
  cases hv : arg.value with
  | fpImmediate value =>
    cases hzero : value.isZero with
    | true =>
      have hless := hok.fpLess_zero value _ y hzero
      simp only [loweredWord, operandWord, argWord, hv, hzero, if_true, hless.1, hless.2]
      simp
    | false => simp [loweredWord, operandWord, argWord, hv, hzero]
  | _ => simp [loweredWord, operandWord, argWord, hv]

/-- Moves of floating-point numbers between registers keep the number. -/
theorem setWidth_written_move {size : ℕ} (h : size = 4 ∨ size = 8) (B : BranchMachine)
    (regs : BranchReg → BitVec 64) (dst reg : BranchReg) :
    (B.written regs ⟨moveOpcodeOfSize size, size, dst, .register reg⟩).setWidth (8 * size)
      = (regs reg).setWidth (8 * size) := by
  rcases h with rfl | rfl
  · exact setWidth_replaceLow le_rfl (by decide)
  · rfl

/-- Floating-point operands are in registers. -/
theorem lowerAsOperand_register {arg : SSA.Operand} {index : ℕ} {first : List BranchInstr}
    {src : BranchSource} (h : lowerAsOperand ctx (.lower (.tmp index)) arg = some (first, src))
    (hvalue : (∃ reg, arg.value = .register reg) ∨ ∃ value, arg.value = .fpImmediate value) :
    ∃ reg, src = .register reg := by
  obtain ⟨value, type⟩ := arg
  rcases hvalue with ⟨reg, rfl⟩ | ⟨value, rfl⟩
  · simp only [lowerAsOperand] at h
    cases hslot : ctx.slots reg with
    | some slot =>
      rw [hslot, some.injEq, Prod.mk.injEq] at h
      exact ⟨_, h.2.symm⟩
    | none =>
      rw [hslot, some.injEq, Prod.mk.injEq] at h
      exact ⟨_, h.2.symm⟩
  · simp only [lowerAsOperand] at h
    by_cases hzero : value.isZero
    · rw [if_pos hzero, some.injEq, Prod.mk.injEq] at h
      exact ⟨_, h.2.symm⟩
    · rw [if_neg hzero, some.injEq, Prod.mk.injEq] at h
      exact ⟨_, h.2.symm⟩

/-- A maximum or a minimum keeps its first operand when the comparison holds. -/
structure IsMinMax (S : SelectMachine) (floats : VirtualRegister → Bool) (comparison : Comparison)
    (item : ℕ → BranchReg → BranchSource → SelectItem) : Prop where
  exec : ∀ (st : BranchState) (size : ℕ) (dst : BranchReg) (src : BranchSource),
    S.exec st (item size dst src) = { st with
      regs := Function.update st.regs dst (replaceLow (8 * size) (st.regs dst)
        (if S.holdsFp comparison ((st.regs dst).setWidth (8 * size))
          ((S.source st.regs size src).setWidth (8 * size))
          then st.regs dst else S.source st.regs size src)) }
  isOk : ∀ (size : ℕ) (dst : BranchReg) (src : BranchSource),
    (item size dst src).isOk floats = (classOk floats true dst && sourceOk floats true src)
  dst : ∀ (size : ℕ) (dst : BranchReg) (src : BranchSource), (item size dst src).dst = some dst

theorem isMinMax_max : IsMinMax S floats .FGT .max :=
  ⟨fun _ _ _ _ ↦ rfl, fun _ _ _ ↦ rfl, fun _ _ _ ↦ rfl⟩

theorem isMinMax_min : IsMinMax S floats .FLT .min :=
  ⟨fun _ _ _ _ ↦ rfl, fun _ _ _ ↦ rfl, fun _ _ _ ↦ rfl⟩

variable {item : ℕ → BranchReg → BranchSource → SelectItem}

/-- **A maximum or a minimum** leaves the operand the comparison selects in its result, with the
sign of a zero that is an immediate lost. -/
theorem run_minMax (hok : SelectOk ctx S) (htyped : SelectTyped ctx floats select)
    (hfp : select.lhs.type.isFloatingPoint = true)
    (hcomparison : select.comparison = .FGT ∨ select.comparison = .FLT)
    (hitem : IsMinMax S floats select.comparison item) {items : List SelectItem}
    (hitems : lowerMinMax ctx select item = some items) (hdest : floats select.dest = true)
    (st : BranchState) :
    (∀ item ∈ items, item.isOk floats = true) ∧
      (∃ item ∈ items, item.dst = some (.lower (.vreg select.dest))) ∧
      (∀ reg ≠ select.dest,
        (S.run st items).regs (.lower (.vreg reg)) = st.regs (.lower (.vreg reg))) ∧
      ((S.run st items).regs (.lower (.vreg select.dest))).setWidth
          (8 * ctx.layout.size select.lhs.type)
        = (loweredWord ctx S.toBranchMachine st.regs (if select.outcome ctx S st.regs
            then select.lhs else select.rhs)).setWidth (8 * ctx.layout.size select.lhs.type) := by
  have hargs := htyped.args
  have hrhsFp : select.rhs.type.isFloatingPoint = true := by rw [htyped.rhs, hfp]
  have hn := hok.sizes.size_eq hfp
  have hmove : select.moveSize ctx = ctx.layout.size select.lhs.type := max_eq_left (by omega)
  obtain ⟨⟨first, lhs⟩, h1, hbind⟩ := bind_eq_some_iff.mp hitems
  obtain ⟨⟨second, rhs⟩, h2, hcode⟩ := bind_eq_some_iff.mp hbind
  obtain rfl := Option.some.inj hcode
  have hlhsOk : sourceOk floats true lhs = true ∧ lhs.isImmediate = keptImmediate ctx select.lhs :=
    lowerAsOperand_sourceOk h1 fun reg hreg ↦ ((hargs _ (by simp)).2.1 reg hreg).1.trans hfp
  have hrhsOk : sourceOk floats true rhs = true ∧ rhs.isImmediate = keptImmediate ctx select.rhs :=
    lowerAsOperand_sourceOk h2 fun reg hreg ↦ ((hargs _ (by simp)).2.1 reg hreg).1.trans hrhsFp
  obtain ⟨lhsReg, rfl⟩ := lowerAsOperand_register h1 ((hargs _ (by simp)).2.2 hfp)
  obtain ⟨s1, hs1⟩ : ∃ s1, s1 = S.execAll st first := ⟨_, rfl⟩
  obtain ⟨s2, hs2⟩ : ∃ s2, s2 = S.toBranchMachine.exec s1
    ⟨moveOpcodeOfSize (ctx.layout.size select.lhs.type), ctx.layout.size select.lhs.type,
      .lower (.vreg select.dest), .register lhsReg⟩ := ⟨_, rfl⟩
  obtain ⟨s3, hs3⟩ : ∃ s3, s3 = S.execAll s2 second := ⟨_, rfl⟩
  have stage1 : OperandStage ctx S.toBranchMachine 5 select.lhs (.register lhsReg) st s1 :=
    hs1 ▸ operandStage hok.sizes (hargs _ (by simp)).1 h1 st
  have stage2 : OperandStage ctx S.toBranchMachine 6 select.rhs rhs s2 s3 :=
    hs3 ▸ operandStage hok.sizes (hargs _ (by simp)).1 h2 s2
  have hkeep2 {reg : BranchReg} (hreg : reg ≠ .lower (.vreg select.dest)) :
      s2.regs reg = s1.regs reg := by
    rw [hs2]
    exact exec_regs_of_ne _ hreg
  have hx : (s3.regs (.lower (.vreg select.dest))).setWidth (8 * ctx.layout.size select.lhs.type)
      = (loweredWord ctx S.toBranchMachine st.regs select.lhs).setWidth
        (8 * ctx.layout.size select.lhs.type) := by
    have hsource : s1.regs lhsReg = loweredWord ctx S.toBranchMachine st.regs select.lhs :=
      stage1.source 0
    rw [stage2.regs (.lower (.vreg select.dest)) (by simp), ← hsource, hs2]
    exact (congrArg (BitVec.setWidth _) (exec_regs_self _ s1 _)).trans
      (setWidth_written_move hn _ _ _ _)
  have hy : S.source s3.regs (ctx.layout.size select.lhs.type) rhs
      = loweredWord ctx S.toBranchMachine st.regs select.rhs := by
    refine (stage2.source _).trans (loweredWord_congr_of (fun reg hreg ↦ ?_) ?_)
    · have hne := ((hargs _ (by simp)).2.1 reg hreg).2
      rw [hkeep2 (by simpa using hne), stage1.sameSSA.vreg]
    · rw [hkeep2 (by simp), stage1.sameSSA.rsp]
  have houtcome : S.holdsFp select.comparison
      ((loweredWord ctx S.toBranchMachine st.regs select.lhs).setWidth
        (8 * ctx.layout.size select.lhs.type))
      ((loweredWord ctx S.toBranchMachine st.regs select.rhs).setWidth
        (8 * ctx.layout.size select.lhs.type)) = select.outcome ctx S st.regs := by
    have hrhsSize : ctx.layout.size select.lhs.type = ctx.layout.size select.rhs.type := by
      rw [htyped.rhs]
    simp only [Select.outcome, hfp, if_true]
    rcases hcomparison with hc | hc
    · simp only [hc, holdsFp]
      rw [(fpLess_lowered hok hrhsSize st.regs _).1, (fpLess_lowered hok rfl st.regs _).2]
    · simp only [hc, holdsFp]
      rw [(fpLess_lowered hok rfl st.regs _).1, (fpLess_lowered hok hrhsSize st.regs _).2]
  have hrun : S.run st (first.map .operand ++ [.mov ⟨moveOpcodeOfSize (select.moveSize ctx),
      select.moveSize ctx, .lower (.vreg select.dest), .register lhsReg⟩] ++ second.map .operand ++
      [item (select.moveSize ctx) (.lower (.vreg select.dest)) rhs])
      = S.exec s3 (item (ctx.layout.size select.lhs.type) (.lower (.vreg select.dest)) rhs) := by
    simp only [run_append, run_operands, run_cons, run_nil, hmove]
    rw [← hs1, hs3, hs2]
    rfl
  rw [hrun, hitem.exec]
  refine ⟨fun i hi ↦ ?_, ⟨_, List.mem_append_right _ (List.mem_singleton.mpr rfl),
    hitem.dst _ _ _⟩, fun reg hreg ↦ ?_, ?_⟩
  · simp only [mem_append, List.mem_map, List.mem_singleton] at hi
    rcases hi with ((⟨i, -, rfl⟩ | rfl) | ⟨i, -, rfl⟩) | rfl
    · rfl
    · have hopcode : moveOpcodeOfSize (select.moveSize ctx) ≠ .MOV := by
        unfold moveOpcodeOfSize
        by_cases h : select.moveSize ctx = 4 <;> simp [h]
      simp [SelectItem.isOk, hopcode, classOk, hdest, hlhsOk]
    · rfl
    · simp [hitem.isOk, classOk, hdest, hrhsOk]
  · have hne : BranchReg.lower (.vreg reg) ≠ .lower (.vreg select.dest) := by simpa using hreg
    refine (Function.update_of_ne hne _ _).trans ?_
    rw [stage2.sameSSA.vreg, hkeep2 hne, stage1.sameSSA.vreg]
  · simp only [Function.update_self]
    rw [setWidth_replaceLow le_rfl (by omega), hx, hy, houtcome]
    cases select.outcome ctx S st.regs with
    | true => exact hx
    | false => rfl

/-- The result of a maximum or a minimum is right exactly when no sign of a zero is lost. -/
theorem selects_minMax_iff (hok : SelectOk ctx S) (htyped : SelectTyped ctx floats select)
    (hfp : select.lhs.type.isFloatingPoint = true)
    (hlhs : select.lhs.value.eq select.valTrue.value = true)
    (hrhs : select.rhs.value.eq select.valFalse.value = true)
    (hcomparison : select.comparison = .FGT ∨ select.comparison = .FLT)
    (hitem : IsMinMax S floats select.comparison item) {items : List SelectItem}
    (hitems : lowerMinMax ctx select item = some items) (st : BranchState) :
    Selects ctx S floats select items st ↔
      ∀ value, (select.selected ctx S st.regs).value = .fpImmediate value →
        value.isZero = true → value.bits = 0 := by
  have hargs := htyped.args
  have htype := htyped.same hfp hlhs hrhs
  have hdest : floats select.dest = true := by rw [htyped.dest, ← htype, hfp]
  obtain ⟨hisOk, hyields, hothers, hresult⟩ :=
    run_minMax hok htyped hfp hcomparison hitem hitems hdest st
  have hvalues : loweredWord ctx S.toBranchMachine st.regs (if select.outcome ctx S st.regs
      then select.lhs else select.rhs)
      = loweredWord ctx S.toBranchMachine st.regs (select.selected ctx S st.regs) := by
    unfold Select.selected
    cases select.outcome ctx S st.regs with
    | true => exact loweredWord_of_eq hlhs htype st.regs
    | false =>
      exact loweredWord_of_eq hrhs (htyped.rhs.trans (htype.trans htyped.valFalse.symm)) st.regs
  have hselected : ArgTyped ctx (select.selected ctx S st.regs) ∧
      (select.selected ctx S st.regs).type = select.valTrue.type := by
    unfold Select.selected
    cases select.outcome ctx S st.regs with
    | true => exact ⟨(hargs _ (by simp)).1, rfl⟩
    | false => exact ⟨(hargs _ (by simp)).1, htyped.valFalse⟩
  have hiff := loweredWord_eq_iff hok.sizes hok.toFloat_zero hselected.1 st.regs
  rw [hselected.2] at hiff
  rw [hvalues, htype] at hresult
  constructor
  · exact fun h ↦ hiff.mp (hresult.symm.trans h.dest)
  · exact fun h ↦ ⟨hisOk, hyields, hresult.trans (hiff.mpr h), hothers⟩

theorem not_selects_nil : ¬Selects ctx S floats select [] st := by
  intro h
  obtain ⟨item, hitem, -⟩ := h.yields
  cases hitem

end Floats

/-! ## Examples -/

section Examples

/-- The context of a function whose types of 32 bits have that size. -/
def selectContext : BranchContext := { exampleContext with
  layout := ⟨fun type ↦ if type = Primitive.F32 ∨ type = Primitive.U32 then 4 else 8, fun _ _ ↦ 0⟩ }

def selectMachine : SelectMachine := { exampleMachine with
  fpLess := fun _ _ _ ↦ false
  fpEq := fun _ x y ↦ x = y }

theorem selectOk_example : SelectOk selectContext selectMachine where
  sizes := ⟨rfl, rfl⟩
  toFloat_zero := machineOk_example.toFloat_zero
  fpLess_zero := fun _ _ _ _ ↦ ⟨rfl, rfl⟩

/-- `select u64 %0, ult, u64 %1, u64 %0, u64 %1`. -/
def selectLess : Select where
  dest := 2
  lhs := ⟨.register 0, Primitive.U64⟩
  comparison := .ULT
  rhs := ⟨.register 1, Primitive.U64⟩
  valTrue := ⟨.register 0, Primitive.U64⟩
  valFalse := ⟨.register 1, Primitive.U64⟩

/-- `select u32 %0, eq, u32 %1, u64 %2, u64 %3`. -/
def selectWide : Select where
  dest := 4
  lhs := ⟨.register 0, Primitive.U32⟩
  comparison := .EQ
  rhs := ⟨.register 1, Primitive.U32⟩
  valTrue := ⟨.register 2, Primitive.U64⟩
  valFalse := ⟨.register 3, Primitive.U64⟩

end Examples

end Banjo.Target.X8664
