import Banjo.Codegen.RegAllocTermination
import Banjo.Target.X8664.CallingConvs

/-!
# The register analyzer of x86-64

`X8664RegAnalyzer`: which operands an instruction has, which registers belong to a class and which
are suggested for a bundle. A suggestion comes from a move of which the first or the last
instruction of a range is one; its class is not looked at, and neither is whether the move is one
of the register or of what it points to.
-/

open List Option

namespace Banjo.Target.X8664.Mcode

open Codegen X8664Register

/-- `X8664Opcode`. -/
inductive Opcode where
  | MOV | PUSH | POP | ADD | SUB | IMUL | DIV | IDIV | AND | OR | XOR | SHL | SHR | SAR
  | CWD | CDQ | CQO | JMP | CMP
  | JE | JNE | JA | JAE | JB | JBE | JG | JGE | JL | JLE
  | CMOVE | CMOVNE | CMOVA | CMOVAE | CMOVB | CMOVBE | CMOVG | CMOVGE | CMOVL | CMOVLE
  | CALL | RET | LEA | MOVSX | MOVZX | MOVSS | MOVSD | MOVAPS | MOVUPS | MOVD | MOVQ
  | ADDSS | ADDSD | SUBSS | SUBSD | MULSS | MULSD | DIVSS | DIVSD | XORPS | XORPD
  | MINSS | MINSD | MAXSS | MAXSD | SQRTSS | SQRTSD | UCOMISS | UCOMISD
  | CVTSS2SD | CVTSD2SS | CVTSI2SS | CVTSI2SD | CVTSS2SI | CVTSD2SI
  deriving DecidableEq, Repr

/-- The base of an address: a register or a symbol, by its number. -/
inductive Base where
  | register (reg : Register)
  | symbol (id : ℕ)
  deriving DecidableEq, Repr

/-- `X8664Address`; the register of the offset comes with its scale. -/
structure Address where
  base : Base
  offsetConst : ℤ := 0
  offsetReg : Option (Register × ℕ) := none
  deriving DecidableEq, Repr

/-- What an operand is, as far as the analyzer looks at it. -/
inductive Value where
  | register (reg : Register)
  | addr (addr : Address)
  | immediate (value : ℤ)
  | stackSlot (slot : StackSlotID)
  deriving DecidableEq, Repr

structure Operand where
  value : Value
  size : ℕ
  deriving DecidableEq, Repr

namespace Operand

def getRegister (operand : Operand) : Option Register :=
  match operand.value with
  | .register reg => some reg
  | _ => none

def getPhysicalReg (operand : Operand) : Option PhysicalReg :=
  match operand.value with
  | .register (.fromPhysical reg) => some reg
  | _ => none

def getVirtualReg (operand : Operand) : Option VirtualReg :=
  match operand.value with
  | .register (.fromVirtual reg) => some reg
  | _ => none

end Operand

structure Instruction where
  opcode : Opcode
  operands : List Operand := []
  deriving DecidableEq, Repr

namespace RegAnalyzer

def generalPurposeRegs : List PhysicalReg := [0, 1, 2, 8, 9, 10, 11, 3, 4, 5, 12, 13, 14, 15]

def sseRegs : List PhysicalReg := (range 16).map (XMM0 + ·)

/-- `X8664RegClass`: `GENERAL_PURPOSE` is `0` and `SSE` is `1`. -/
def getCandidates : RegClass → List PhysicalReg
  | 0 => generalPurposeRegs
  | 1 => sseRegs
  | _ => []

def isMoveOpcode : Opcode → Bool
  | .MOV | .MOVSS | .MOVSD | .MOVAPS | .MOVUPS => true
  | _ => false

/-! ## Operands -/

def collectAddrRegs (addr : Address) : List RegOp :=
  (match addr.base with
    | .register reg => [⟨reg, .USE⟩]
    | .symbol _ => [])
  ++ match addr.offsetReg with
    | some (reg, _) => [⟨reg, .USE⟩]
    | none => []

def collectRegs (operand : Option Operand) (usage : RegUsage) : List RegOp :=
  match operand.map Operand.value with
  | some (.register reg) => [⟨reg, usage⟩]
  | some (.addr addr) => collectAddrRegs addr
  | _ => []

/-- The part for `CALL`: the registers it clobbers, those written since the last call, and the
ones it returns in. -/
def callRegs (volatileRegs : List PhysicalReg) (before : List Instruction) : List RegOp :=
  volatileRegs.map (⟨.fromPhysical ·, .KILL⟩)
  ++ (before.reverse.takeWhile (·.opcode ≠ .CALL)).filterMap (fun prev ↦
    (prev.operands[0]?.bind Operand.getPhysicalReg).map (⟨.fromPhysical ·, .USE⟩))
  ++ [⟨.fromPhysical RAX, .DEF⟩, ⟨.fromPhysical XMM0, .DEF⟩]

def getOperands (volatileRegs : List PhysicalReg) (instrs : List Instruction) (index : ℕ) :
    List RegOp :=
  match instrs[index]? with
  | none => []
  | some instr =>
    let fst := instr.operands[0]?
    let snd := instr.operands[1]?
    match instr.opcode with
    | .MOV | .MOVSS | .MOVSD | .MOVAPS | .MOVUPS | .MOVD | .MOVQ =>
      let same := match fst.bind Operand.getRegister, snd.bind Operand.getRegister with
        | some dst, some src => decide (src = dst)
        | _, _ => false
      if same then [] else collectRegs fst .DEF ++ collectRegs snd .USE
    | .MOVSX | .MOVZX | .LEA | .CVTSS2SD | .CVTSD2SS | .CVTSI2SS | .CVTSI2SD | .CVTSS2SI
    | .CVTSD2SI => collectRegs fst .DEF ++ collectRegs snd .USE
    | .PUSH => collectRegs fst .USE
    | .CALL => callRegs volatileRegs (instrs.take index) ++ collectRegs fst .USE
    | .POP => ((fst.bind Operand.getRegister).map (⟨·, .DEF⟩)).toList
    | .ADD | .SUB | .IMUL | .AND | .OR | .SHL | .SHR
    | .CMOVE | .CMOVNE | .CMOVA | .CMOVAE | .CMOVB | .CMOVBE | .CMOVG | .CMOVGE | .CMOVL | .CMOVLE
    | .ADDSS | .ADDSD | .SUBSS | .SUBSD | .MULSS | .MULSD | .DIVSS | .DIVSD
    | .MINSS | .MINSD | .MAXSS | .MAXSD | .SQRTSS | .SQRTSD =>
      collectRegs fst .USE_DEF ++ collectRegs snd .USE
    | .CWD | .CDQ | .CQO => [⟨.fromPhysical RAX, .USE⟩, ⟨.fromPhysical RDX, .DEF⟩]
    | .DIV | .IDIV =>
      collectRegs fst .USE ++ [⟨.fromPhysical RAX, .USE_DEF⟩]
      ++ if (fst.map Operand.size).getD 0 ≠ 1 then [⟨.fromPhysical RDX, .USE_DEF⟩] else []
    | .CMP | .UCOMISS | .UCOMISD => collectRegs fst .USE ++ collectRegs snd .USE
    | .XOR | .XORPS | .XORPD =>
      -- a register combined with itself is set to zero, whatever it was
      if fst = snd then ((fst.bind Operand.getRegister).map (⟨·, .DEF⟩)).toList
      else collectRegs fst .USE_DEF ++ collectRegs snd .USE
    | _ => []

/-! ## Classes and suggestions -/

/-- The class that an instruction gives to the register it writes. -/
def classOf : Opcode → RegClass
  | .MOVSS | .MOVSD | .MOVAPS | .MOVUPS
  | .ADDSS | .ADDSD | .SUBSS | .SUBSD | .MULSS | .MULSD | .DIVSS | .DIVSD | .XORPS | .XORPD
  | .MINSS | .MINSD | .MAXSS | .MAXSD | .SQRTSS | .SQRTSD | .UCOMISS | .UCOMISD
  | .CVTSS2SD | .CVTSD2SS | .CVTSI2SS | .CVTSI2SD => 1
  | _ => 0

/-- `assign_reg_classes` over the instructions of a function; the first class stays. -/
def assignRegClasses (instrs : List Instruction) (reg : VirtualReg) : Option RegClass :=
  (instrs.find? fun instr ↦ instr.operands[0]?.bind Operand.getVirtualReg = some reg).map
    fun instr ↦ classOf instr.opcode

def suggestFor (func : RegAllocFunc Instruction) (range : LiveRange) : List PhysicalReg :=
  let instrs := (func.blocks[range.block]?.map RegAllocBlock.instrs).getD []
  let suggest (point : RegAllocPoint) (operand : ℕ) : List PhysicalReg :=
    match instrs[point.instr]? with
    | some instr =>
      if isMoveOpcode instr.iter.opcode then
        (instr.iter.operands[operand]?.bind Operand.getPhysicalReg).toList
      else []
    | none => []
  suggest range.start 1 ++ suggest range.end_ 0

def suggestRegs (func : RegAllocFunc Instruction) (bundle : Bundle) : List PhysicalReg :=
  bundle.segments.flatMap fun segment ↦ suggestFor func segment.range

def isMoveFrom (instr : Instruction) (reg : VirtualReg) : Bool :=
  isMoveOpcode instr.opcode && instr.operands[1]?.bind Operand.getVirtualReg = some reg

end RegAnalyzer

/-- `X8664RegAnalyzer`, for functions of a calling convention with these volatile registers. -/
def regAnalyzer (volatileRegs : List PhysicalReg) : TargetRegAnalyzer Instruction where
  getOperands := RegAnalyzer.getOperands volatileRegs
  getCandidates := RegAnalyzer.getCandidates
  suggestRegs := RegAnalyzer.suggestRegs
  isMoveFrom := RegAnalyzer.isMoveFrom

theorem regAnalyzer_separates (volatileRegs : List PhysicalReg) :
    (regAnalyzer volatileRegs).Separates where
  nodup c := by
    have hgeneral : RegAnalyzer.generalPurposeRegs.Nodup := by decide
    have hsse : RegAnalyzer.sseRegs.Nodup := by decide
    exact match c with
    | 0 => hgeneral
    | 1 => hsse
    | _ + 2 => nodup_nil
  disjoint c c' reg hc hc' := by
    have hdisjoint : ∀ reg ∈ RegAnalyzer.generalPurposeRegs, reg ∉ RegAnalyzer.sseRegs := by decide
    match c, c', hc, hc' with
    | 0, 0, _, _ => rfl
    | 1, 1, _, _ => rfl
    | 0, 1, hc, hc' => exact absurd hc' (hdisjoint reg hc)
    | 1, 0, hc, hc' => exact absurd hc (hdisjoint reg hc')

/-! ## A value that is returned -/

section Returned

open RegAllocPass

def movImmediate (reg : VirtualReg) : Instruction :=
  ⟨.MOV, [⟨.register (.fromVirtual reg), 8⟩, ⟨.immediate 0, 8⟩]⟩

def returned : List Instruction :=
  [movImmediate 0, ⟨.MOV, [⟨.register (.fromPhysical RAX), 8⟩, ⟨.register (.fromVirtual 0), 8⟩]⟩]

def returnedSource : List (MBlock Instruction) := [⟨returned, [], []⟩]

def returnedLiveness : LivenessAnalysis where
  regRanges := [(.fromPhysical RAX, [⟨0, ⟨1, 1⟩, ⟨1, 1⟩⟩]), (.fromVirtual 0, [⟨0, ⟨0, 1⟩, ⟨1, 0⟩⟩])]
  killPoints := []

def returnedBundle : Bundle where
  segments := [⟨0, 0, ⟨0, 1⟩, ⟨1, 0⟩⟩]
  regClass := 0

def returnedStart : Context Instruction where
  func := reserveFixedRanges (createRegAllocFunc (regAnalyzer []) returnedSource) returnedLiveness
  bundles := [returnedBundle]
  allocs := []
  stackSlots := 0

/-- The operands that are virtual registers. -/
theorem eq_of_mem_opsAt_returned {b i : ℕ} {reg : VirtualReg} {usage : RegUsage}
    (h : ⟨.fromVirtual reg, usage⟩ ∈ returnedStart.func.opsAt b i) :
    b = 0 ∧ reg = 0 ∧ (i = 0 ∧ usage = .DEF ∨ i = 1 ∧ usage = .USE) := by
  match b, i, h with
  | 0, 0, h =>
    have hops : returnedStart.func.opsAt 0 0 = [⟨.fromVirtual 0, .DEF⟩] := by decide
    simpa [hops] using h
  | 0, 1, h =>
    have hops : returnedStart.func.opsAt 0 1
        = [⟨.fromPhysical RAX, .DEF⟩, ⟨.fromVirtual 0, .USE⟩] := by decide
    simpa [hops] using h
  | 0, i + 2, h => exact absurd h not_mem_nil
  | b + 1, i, h => exact absurd h not_mem_nil

theorem no_endless_run_returned : ¬∃ run : ℕ → Context Instruction, run 0 = returnedStart ∧
    ∀ n, KeepingStep (regAnalyzer []) (run n) (run (n + 1)) := by
  have hlive : LivenessAnalysis.compute (createRegAllocFunc (regAnalyzer []) returnedSource)
      = some returnedLiveness := by decide +kernel
  have hbundles : createBundles (RegAnalyzer.assignRegClasses returned) returnedLiveness.regRanges
      = some [returnedBundle] := by decide
  have hclass : RegAnalyzer.assignRegClasses returned 0 = some 0 := by decide
  refine no_endless_run (regAnalyzer_separates []) hlive hbundles
    (show initContext _ _ _ _ 0 = _ from ?_) ?_ ?_
  · rw [initContext, hbundles]
    rfl
  · intro b i reg usage hop c hc
    obtain ⟨rfl, rfl, hat⟩ := eq_of_mem_opsAt_returned hop
    obtain rfl := some.inj (hclass.symm.trans hc)
    obtain ⟨rfl, rfl⟩ | ⟨rfl, rfl⟩ := hat
    · decide
    · decide
  · intro b i reg usage hop c hc range hrange
    obtain ⟨rfl, rfl, hat⟩ := eq_of_mem_opsAt_returned hop
    obtain rfl := some.inj (hclass.symm.trans hc)
    obtain ⟨rfl, rfl⟩ | ⟨rfl, rfl⟩ := hat
    · cases hrange
      decide
    · cases hrange
      decide

end Returned

/-! ## Sixteen pointers to floats -/

section FloatLoads

open RegAllocPass

def loadFloat (dst : Register) (pointer : VirtualReg) : Instruction :=
  ⟨.MOVSS, [⟨.register dst, 4⟩, ⟨.addr { base := .register (.fromVirtual pointer) }, 4⟩]⟩

/-- Sixteen pointers, a float, and a load through each of the pointers into a register of its
own. -/
def floatLoads : List Instruction :=
  (range 16).map movImmediate ++ [loadFloat (.fromVirtual 16) 0]
    ++ (range 16).map fun i ↦ loadFloat (.fromPhysical (XMM0 + i)) i

def floatLoadsSource : List (MBlock Instruction) := [⟨floatLoads, [], []⟩]

def floatLoadsFunc : RegAllocFunc Instruction :=
  createRegAllocFunc (regAnalyzer []) floatLoadsSource

/-- A pointer is written by its move and read by its load. -/
def floatLoadsLiveness : LivenessAnalysis where
  regRanges := (((range 16).reverse.flatMap fun i ↦
    [(.fromPhysical (XMM0 + i), [⟨0, ⟨17 + i, 1⟩, ⟨17 + i, 1⟩⟩]),
      (.fromVirtual i, [⟨0, ⟨i, 1⟩, ⟨17 + i, 0⟩⟩])])) ++
    [(.fromVirtual 16, [⟨0, ⟨16, 1⟩, ⟨16, 1⟩⟩])]
  killPoints := []

theorem compute_floatLoads : LivenessAnalysis.compute floatLoadsFunc = some floatLoadsLiveness := by
  decide +kernel

def pointerBundle (i : ℕ) : Bundle where
  segments := [⟨i, 0, ⟨i, 1⟩, ⟨17 + i, 0⟩⟩]
  regClass := 0

/-- The bundle of the float. -/
def floatBundle : Bundle where
  segments := [⟨16, 0, ⟨16, 1⟩, ⟨16, 1⟩⟩]
  regClass := 1

/-- What the float is cut into. -/
def floatFragment (slot : StackSlotID) : Bundle :=
  { floatBundle with evictable := false, dstStackSlot := some slot }

/-- The function with the registers that are written reserved. -/
def floatLoadsReserved : RegAllocFunc Instruction :=
  reserveFixedRanges floatLoadsFunc floatLoadsLiveness

/-- The first pointers have their registers. -/
def pointerAllocs (n : ℕ) : List Alloc :=
  (range n).map fun i ↦ ⟨XMM0 + (15 - i), pointerBundle (15 - i)⟩

/-- The loop after `n` iterations: the pointers take the registers of the floats, the float is cut,
and its fragment is cut again and again. -/
def floatLoadsRun (n : ℕ) : Context Instruction :=
  if n ≤ 16 then
    { func := floatLoadsReserved
      bundles := ((range 16).reverse.drop n).map pointerBundle ++ [floatBundle]
      allocs := pointerAllocs n
      stackSlots := 0 }
  else
    { func := floatLoadsReserved
      bundles := [floatFragment (n - 17)]
      allocs := pointerAllocs 16
      stackSlots := n - 16 }

theorem initContext_floatLoads : initContext (regAnalyzer []) floatLoadsFunc floatLoadsLiveness
    (RegAnalyzer.assignRegClasses floatLoads) 0 = some (floatLoadsRun 0) := by
  have hcreate : createBundles (RegAnalyzer.assignRegClasses floatLoads)
      floatLoadsLiveness.regRanges
        = some ((range 16).reverse.map pointerBundle ++ [floatBundle]) := by
    decide
  have hcoalesce : coalesceBundles (regAnalyzer []) floatLoadsReserved
      ((range 16).reverse.map pointerBundle ++ [floatBundle])
        = (range 16).reverse.map pointerBundle ++ [floatBundle] := by
    decide +kernel
  simp only [initContext, hcreate, Option.bind_eq_bind, Option.bind_some, Option.pure_def]
  rw [← floatLoadsReserved, hcoalesce]
  rfl

/-- A pointer takes the register that its load writes. -/
theorem step_pointer {n : ℕ} (hn : n < 16) :
    Step (regAnalyzer []) (floatLoadsRun n) (floatLoadsRun (n + 1)) := by
  have hlist : ∀ n < 16, ((range 16).reverse.drop n).map pointerBundle ++ [floatBundle]
      = pointerBundle (15 - n) ::
        (((range 16).reverse.drop (n + 1)).map pointerBundle ++ [floatBundle]) := by
    decide
  have htop : ∀ n < 16, RegAllocPass.IsTop (((range 16).reverse.drop n).map
    pointerBundle ++ [floatBundle])
      (pointerBundle (15 - n)) := by
    unfold RegAllocPass.IsTop
    decide
  have hsuggested : ∀ n < 16, (RegAnalyzer.suggestRegs floatLoadsReserved
      (pointerBundle (15 - n))).find? (isAllocPossible ⟨floatLoadsReserved, [], pointerAllocs n, 0⟩
        (pointerBundle (15 - n))) = some (XMM0 + (15 - n)) := by
    decide
  have hallocs : pointerAllocs (n + 1)
      = pointerAllocs n ++ [⟨XMM0 + (15 - n), pointerBundle (15 - n)⟩] := by
    rw [pointerAllocs, range_succ, map_append]
    rfl
  rw [floatLoadsRun, floatLoadsRun, if_pos hn.le, if_pos (Nat.succ_le_of_lt hn), hallocs]
  exact .assign (hlist n hn) (htop n hn) (hsuggested n hn)

theorem spilledBundles_float (slot : StackSlotID) {bundle : Bundle}
    (hsegments : bundle.segments = floatBundle.segments)
    (hclass : bundle.regClass = floatBundle.regClass) :
    spilledBundles floatLoadsReserved slot bundle = [floatFragment slot] := by
  have hops : floatLoadsReserved.opsAt 0 16 =
    [⟨.fromVirtual 16, .DEF⟩, ⟨.fromVirtual 0, .USE⟩] := by
    decide
  rw [spilledBundles_eq_opsAt, hsegments, hclass]
  simp [floatBundle, floatFragment, hops, spilledBundle]

/-- No register is left for the float, and the pointers are of the other class. -/
theorem step_float (slots : ℕ) {bundle : Bundle}
    (hsegments : bundle.segments = floatBundle.segments)
    (hclass : bundle.regClass = floatBundle.regClass) :
    Step (regAnalyzer []) ⟨floatLoadsReserved, [bundle], pointerAllocs 16, slots⟩
      ⟨floatLoadsReserved, [floatFragment slots], pointerAllocs 16, slots + 1⟩ := by
  have himpossible : RegAnalyzer.sseRegs.find?
      (isAllocPossible ⟨floatLoadsReserved, [], pointerAllocs 16, 0⟩ floatBundle) = none := by
    decide
  have hsuggested : RegAnalyzer.suggestRegs floatLoadsReserved floatBundle = [] := by
    decide
  have hpointers : ∀ alloc ∈ pointerAllocs 16, alloc.bundle.regClass = 0 := by
    decide
  have hstep : Step (regAnalyzer []) ⟨floatLoadsReserved, [bundle], pointerAllocs 16, slots⟩
      (spill ⟨floatLoadsReserved, [], pointerAllocs 16, slots⟩ bundle) := by
    refine .spill rfl ?_ ?_ fun _ ↦ evictFirst_eq_none_iff.mpr fun alloc halloc ↦ ?_
    · have h : RegAnalyzer.suggestRegs floatLoadsReserved bundle = [] := by
        rw [RegAnalyzer.suggestRegs, hsegments]
        exact hsuggested
      simp only [regAnalyzer, h, find?_nil]
    · rw [hclass]
      refine Eq.trans ?_ himpossible
      congr 1
      funext reg
      rw [isAllocPossible, isAllocPossible, hsegments]
    · simp [canEvict, hpointers alloc halloc, hclass, floatBundle]
  rw [spill] at hstep
  dsimp only at hstep
  rwa [spilledBundles_float slots hsegments hclass, nil_append] at hstep

theorem step_floatLoadsRun (n : ℕ) :
    Step (regAnalyzer []) (floatLoadsRun n) (floatLoadsRun (n + 1)) := by
  rcases Nat.lt_trichotomy n 16 with hn | rfl | hn
  · exact step_pointer hn
  · exact step_float 0 rfl rfl
  · obtain ⟨slot, rfl⟩ : ∃ slot, n = slot + 17 := ⟨n - 17, by omega⟩
    have hrun : ∀ k, floatLoadsRun (k + 17)
        = ⟨floatLoadsReserved, [floatFragment k], pointerAllocs 16, k + 1⟩ := by
      intro k
      rw [floatLoadsRun, if_neg (by omega), Nat.add_sub_cancel, show k + 17 - 16 = k + 1 by omega]
    rw [hrun, show slot + 17 + 1 = slot + 1 + 17 by omega, hrun]
    exact step_float (slot + 1) rfl rfl

/-- Everywhere there are far fewer reserved registers and operands than candidates, and the loop
goes on for ever. -/
theorem endless_floatLoads :
    LivenessAnalysis.compute (createRegAllocFunc (regAnalyzer []) floatLoadsSource)
      = some floatLoadsLiveness ∧
    (∃ start, initContext (regAnalyzer []) (createRegAllocFunc (regAnalyzer []) floatLoadsSource)
        floatLoadsLiveness (RegAnalyzer.assignRegClasses floatLoads) 0 = some start ∧
      (∀ c < 2, ∀ block ∈ start.func.blocks, ∀ instr ∈ block.instrs,
        (block.reservedSegments.filter fun reserved ↦ reserved.range.intersects
            ⟨0, ⟨instr.index, 0⟩, ⟨instr.index, 1⟩⟩).length + instr.regs.length
          < (RegAnalyzer.getCandidates c).length) ∧
      ∃ run : ℕ → Context Instruction, run 0 = start ∧
        ∀ n, Step (regAnalyzer []) (run n) (run (n + 1))) := by
  have hroom : ∀ c < 2, ∀ block ∈ floatLoadsReserved.blocks, ∀ instr ∈ block.instrs,
      (block.reservedSegments.filter fun reserved ↦ reserved.range.intersects
          ⟨0, ⟨instr.index, 0⟩, ⟨instr.index, 1⟩⟩).length + instr.regs.length
        < (RegAnalyzer.getCandidates c).length := by
    decide
  exact ⟨compute_floatLoads, floatLoadsRun 0, initContext_floatLoads, hroom, floatLoadsRun, rfl,
    step_floatLoadsRun⟩

end FloatLoads

end Banjo.Target.X8664.Mcode
