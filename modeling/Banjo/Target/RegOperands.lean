import Banjo.Target.AArch64.RegAnalyzer
import Banjo.Target.X8664.RegOperands

/-!
# Which operands the register analyzers list

Both analyzers list what every other instruction reads and writes, for any operands the lowerers
give it.
-/

namespace Banjo.Target

open Codegen

/-- **What instructions read and write is listed**, except by the x86-64 analyzer for `SAR` and by
that of AArch64 for `MOVK` and for the results of calls. -/
theorem lists_getOperands_iff (volatileRegs : List PhysicalReg) :
    (∀ (call : X8664.Mcode.CallRegs) (instrs : List X8664.Mcode.Instruction) (index : ℕ)
      (instr : X8664.Mcode.Instruction),
      instrs[index]? = some instr → X8664.Mcode.Emitted call (instrs.take index) instr →
      (Lists (X8664.Mcode.RegAnalyzer.getOperands volatileRegs instrs index)
        (X8664.Mcode.effect call instr) ↔ instr.opcode ≠ .SAR)) ∧
    (∀ (args results : List PhysicalReg) (instrs : List AArch64.Instruction) (index : ℕ)
      (instr : AArch64.Instruction),
      instrs[index]? = some instr → AArch64.Emitted args (instrs.take index) instr →
      (Lists (AArch64.RegAnalyzer.getOperands volatileRegs instrs index)
        (AArch64.effect args results instr) ↔
        instr.opcode ≠ .MOVK ∧ (AArch64.RegAnalyzer.isCall instr.opcode = true →
          results = []))) := by
  constructor
  · intro call instrs index instr hget hemitted
    exact ⟨fun h hsar ↦ X8664.Mcode.not_lists_sar hget hemitted hsar h,
      X8664.Mcode.lists_getOperands hget hemitted⟩
  · intro args results instrs index instr hget hemitted
    constructor
    · refine fun h ↦ ⟨fun hkept ↦ AArch64.not_lists_movk hget hemitted hkept h, fun hcall ↦ ?_⟩
      by_contra hresults
      exact AArch64.not_lists_results hget hemitted hcall hresults h
    · rintro ⟨hkept, hresults⟩
      cases hcall : AArch64.RegAnalyzer.isCall instr.opcode with
      | false => exact AArch64.lists_plain hget hcall hkept
      | true =>
        obtain rfl := hresults hcall
        exact AArch64.lists_call hget hemitted hcall

section Examples

open X8664.Mcode in
/-- `add %0, [%1 + 4 * %2]`. -/
def addIndexed : X8664.Mcode.Instruction :=
  ⟨.ADD, [⟨.register (.fromVirtual 0), 8⟩,
    ⟨.addr { base := .register (.fromVirtual 1), offsetReg := some (.fromVirtual 2, 4) }, 8⟩]⟩

/-- `madd w0, w1, w2, w0`, whose destination is read, too. -/
def multiplyAdd : AArch64.Instruction :=
  ⟨.MADD, [⟨.register (.fromVirtual 0), 4⟩, ⟨.register (.fromVirtual 1), 4⟩,
    ⟨.register (.fromVirtual 2), 4⟩, ⟨.register (.fromVirtual 0), 4⟩]⟩

theorem lists_getOperands_iff_examples :
    (Lists (X8664.Mcode.RegAnalyzer.getOperands [] [addIndexed] 0)
      (X8664.Mcode.effect {} addIndexed) ↔ addIndexed.opcode ≠ .SAR) ∧
    (Lists (AArch64.RegAnalyzer.getOperands [] [multiplyAdd] 0) (AArch64.effect [] [] multiplyAdd) ↔
      multiplyAdd.opcode ≠ .MOVK ∧
        (AArch64.RegAnalyzer.isCall multiplyAdd.opcode = true → ([] : List PhysicalReg) = [])) :=
  ⟨(lists_getOperands_iff []).1 {} [addIndexed] 0 addIndexed rfl
      ⟨by decide, nofun, nofun, nofun, nofun⟩,
    (lists_getOperands_iff []).2 [] [] [multiplyAdd] 0 multiplyAdd rfl
      ⟨nofun, nofun, nofun, by
        intro operand hoperand addr haddr
        simp only [multiplyAdd, List.mem_cons, List.not_mem_nil, or_false] at hoperand
        rcases hoperand with rfl | rfl | rfl | rfl <;> cases haddr⟩⟩

/-- `sar %0, 1` changes `%0`, of which nothing is listed. -/
theorem not_lists_getOperands : ¬(
    (∀ (volatileRegs : List PhysicalReg) (call : X8664.Mcode.CallRegs)
      (instrs : List X8664.Mcode.Instruction) (index : ℕ) (instr : X8664.Mcode.Instruction),
      instrs[index]? = some instr → X8664.Mcode.Emitted call (instrs.take index) instr →
      Lists (X8664.Mcode.RegAnalyzer.getOperands volatileRegs instrs index)
        (X8664.Mcode.effect call instr)) ∧
    (∀ (volatileRegs args results : List PhysicalReg)
      (instrs : List AArch64.Instruction) (index : ℕ)
      (instr : AArch64.Instruction),
      instrs[index]? = some instr → AArch64.Emitted args (instrs.take index) instr →
      Lists (AArch64.RegAnalyzer.getOperands volatileRegs instrs index)
        (AArch64.effect args results instr))) := by
  rintro ⟨hall, -⟩
  have hemitted : X8664.Mcode.Emitted {} [] ⟨.SAR, [⟨.register (.fromVirtual 0), 4⟩,
      ⟨.immediate 1, 1⟩]⟩ :=
    ⟨by decide, fun _ ↦ ⟨_, _, _, _, rfl⟩, nofun, nofun, nofun⟩
  have hlists := hall [] {} [_] 0 _ rfl hemitted
  exact absurd hlists (X8664.Mcode.not_lists_sar rfl hemitted rfl)

end Examples

end Banjo.Target
