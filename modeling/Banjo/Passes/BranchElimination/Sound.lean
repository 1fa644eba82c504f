import Banjo.Passes.BranchElimination.Found
import Banjo.SSA.Checker

/-!
# Branch elimination preserves behaviour

The loop visits states `(func, b)`; where each of them is `Clean`, every rewriting is an
`Elimination` and the loop ends: a rewriting removes blocks, and between two of them the loop moves
down the list.
-/

open List Option

namespace Banjo.Passes.BranchElimination

open SSA

/-- What the loop relies on without a test at the head of its body. The graph has no node of an
unreachable block and answers with its first one. -/
def Clean (func : Function) (b : BlockId) : Prop :=
  (¬func.Reachable b → ∀ node ∈ (ControlFlowGraph.ofFunction func).nodes.head?,
    node.successors.length ≠ 2) ∧
  ∀ d, findDiamond (.ofFunction func) func b = some (some d) → d.Clean func b

variable {func func' : Function} {b : BlockId}

/-! ## One round -/

/-- An unreachable block is passed over. -/
theorem findDiamond_of_not_reachable (hwf : func.WellFormed) (hclean : Clean func b)
    (hb : ¬func.Reachable b) : findDiamond (.ofFunction func) func b = some none := by
  obtain ⟨entry, _, hentry, -⟩ := Function.find_entry hwf.nonempty
  have hnodes : (ControlFlowGraph.ofFunction func).nodes ≠ [] := by
    intro hnil
    have hmem := ((ControlFlowGraph.blocksInPostOrder_spec hwf).1 entry).mpr (.entry hentry)
    rw [map_eq_nil_iff.mp hnil] at hmem
    exact not_mem_nil hmem
  have hmissing : (ControlFlowGraph.ofFunction func).nodes.find? (fun node ↦ node.block = b)
      = none := by
    rw [find?_eq_none]
    intro node hnode
    obtain ⟨c, hc, rfl⟩ := mem_map.mp hnode
    rw [decide_eq_true_eq]
    rintro rfl
    exact hb (((ControlFlowGraph.blocksInPostOrder_spec hwf).1 _).mp hc)
  obtain ⟨node, rest, hcons⟩ := exists_cons_of_ne_nil hnodes
  have hhead : (ControlFlowGraph.ofFunction func).nodes.head? = some node := by
    rw [hcons, head?_cons]
  have hnode : (ControlFlowGraph.ofFunction func).getNode b = some node := by
    rw [ControlFlowGraph.getNode, hmissing, hhead]
    rfl
  rw [findDiamond, hnode]
  exact if_pos (hclean.1 hb node hhead)

/-- What a round does to a clean state. -/
theorem round_cases (hwf : func.WellFormed) (hclean : Clean func b) :
    findDiamond (.ofFunction func) func b = some none ∨ ∃ d func',
      findDiamond (.ofFunction func) func b = some (some d) ∧
      eliminate (.ofFunction func) func b d = some func' ∧
      ∃ E : Elimination func func', E.b = b := by
  by_cases hb : func.Reachable b
  · rcases findDiamond_cases hwf hb with hcontinue | ⟨d, hd, hfound⟩
    · exact Or.inl hcontinue
    · obtain ⟨func', hfunc', E⟩ := hfound.eliminate_cases hwf hb (hclean.2 d hd)
      exact Or.inr ⟨d, func', hd, hfunc', E⟩
  · exact Or.inl (findDiamond_of_not_reachable hwf hclean hb)

/-! ## The loop ends -/

/-- The blocks the loop has not been at, those of later rounds included. -/
def remaining (func : Function) (b : BlockId) : ℕ :=
  func.ids.length * func.ids.length + (func.ids.length - func.ids.idxOf b)

theorem remaining_next {next : BlockId} (hwf : func.WellFormed) (h : func.nextBlock b = some next) :
    next ∈ func.ids ∧ remaining func next < remaining func b := by
  rw [Function.nextBlock] at h
  obtain ⟨hlt, hget⟩ := List.getElem?_eq_some_iff.mp h
  have hindex : func.ids.idxOf next = func.ids.idxOf b + 1 := by
    rw [← hget]
    exact hwf.nodup.idxOf_getElem _ hlt
  refine ⟨hget ▸ List.getElem_mem hlt, ?_⟩
  rw [remaining, remaining, hindex]
  omega

theorem remaining_elimination (E : Elimination func func') (hb : E.b ∈ func.ids) :
    E.b ∈ func'.ids ∧ remaining func' E.b < remaining func E.b := by
  have hmem : E.b ∈ func'.ids := by
    rw [E.ids, mem_filter, decide_eq_true_eq]
    exact ⟨hb, (Elimination.arm_ne true).symm, (Elimination.arm_ne false).symm,
      fun hmerged ↦ (E.merged_ne hmerged).symm⟩
  have hlength : func'.ids.length < func.ids.length := by
    rw [E.ids, length_filter_lt_length_iff_exists]
    refine ⟨E.arm true, Function.mem_ids_iff.mpr ⟨_, (E.hasArm true).2⟩, ?_⟩
    simp
  have hindex : func.ids.idxOf E.b < func.ids.length := idxOf_lt_length_of_mem hb
  refine ⟨hmem, ?_⟩
  rw [remaining, remaining]
  have hsquare : (func'.ids.length + 1) * (func'.ids.length + 1)
      ≤ func.ids.length * func.ids.length := Nat.mul_self_le_mul_self hlength
  have hexpand : (func'.ids.length + 1) * (func'.ids.length + 1)
      = func'.ids.length * func'.ids.length + 2 * func'.ids.length + 1 := by ring
  omega

/-- **Branch elimination preserves behaviour** where the states its loop goes through are clean:
it ends, leaves every register defined on every path to its uses, and the function shows what it
showed before. -/
theorem runFrom_preserves (fuel : ℕ) (hwf : func.WellFormed) (hb : b ∈ func.ids)
    (hfuel : remaining func b < fuel)
    (hclean : ∀ visit ∈ visitsFrom fuel func b, Clean visit.1 visit.2) :
    ∃ func', runFrom fuel func b = some func' ∧ func'.WellFormed ∧ Equivalent func func' := by
  induction fuel generalizing func b with
  | zero => exact absurd hfuel (Nat.not_lt_zero _)
  | succ fuel ih =>
    rw [visitsFrom, forall_mem_cons] at hclean
    obtain ⟨hhere, hclean⟩ := hclean
    dsimp only at hhere hclean
    rw [runFrom]
    rcases round_cases hwf hhere with hcontinue | ⟨d, func', hd, hfunc', E, rfl⟩
    · rw [hcontinue] at hclean ⊢
      cases hnext : func.nextBlock b with
      | none => exact ⟨func, rfl, hwf, Equivalent.refl func⟩
      | some next =>
        obtain ⟨hmem, hlt⟩ := remaining_next hwf hnext
        rw [hnext] at hclean
        exact ih hwf hmem (by omega) hclean
    · obtain ⟨hmem, hlt⟩ := remaining_elimination E hb
      simp only [hd, hfunc'] at hclean ⊢
      obtain ⟨func'', hrun, hwf'', heq⟩ := ih (E.wellFormed hwf) hmem (by omega) hclean
      exact ⟨func'', hrun, hwf'', (E.equivalent hwf).trans heq⟩

theorem run_preserves (hwf : func.WellFormed)
    (hclean : ∀ visit ∈ visits func, Clean visit.1 visit.2) :
    ∃ func', run func = some func' ∧ func'.WellFormed ∧ Equivalent func func' := by
  obtain ⟨entry, block, hentry, hfind⟩ := Function.find_entry hwf.nonempty
  rw [visits, hentry] at hclean
  rw [run, hentry]
  refine runFrom_preserves _ hwf (Function.mem_ids_iff.mpr ⟨block, hfind⟩) ?_ hclean
  rw [remaining, maxRounds, Function.ids, length_map]
  have hexpand : (func.blocks.length + 1) * (func.blocks.length + 1)
      = func.blocks.length * func.blocks.length + 2 * func.blocks.length + 1 := by ring
  omega

/-! ## A diamond -/

def imm (magnitude : BitVec 64) : Operand := ⟨.intImmediate ⟨magnitude, false⟩, Primitive.I64⟩

def reg (r : VirtualRegister) : Operand := ⟨.register r, Primitive.I64⟩

/-- Two arms that pass arguments to a block that returns. -/
def diamond (params : List VirtualRegister) (args0 args1 returned : List Operand) : Function where
  blocks :=
    [(0, { instrs := [{ opcode := .CJMP
                        operands := [imm 1, ⟨.comparison .EQ, Primitive.VOID⟩, imm 2]
                        targets := [⟨1, []⟩, ⟨2, []⟩] }] }),
     (1, { instrs := [{ opcode := .JMP, targets := [⟨3, args0⟩] }] }),
     (2, { instrs := [{ opcode := .JMP, targets := [⟨3, args1⟩] }] }),
     (3, { instrs := [{ opcode := .RET, operands := returned }], paramRegs := params })]
  lastVirtualReg := 2

/-- The diamond in one block. -/
def straight (dst : VirtualRegister) (arg0 arg1 : Operand) (returned : List Operand) :
    Function where
  blocks :=
    [(0, { instrs := [{ opcode := .SELECT
                        dest := some dst
                        operands :=
                          [imm 1, ⟨.comparison .EQ, Primitive.VOID⟩, imm 2, arg0, arg1] },
                      { opcode := .RET, operands := returned }] })]
  lastVirtualReg := 2

theorem run_preserves_diamond : ∃ func', run (diamond [0] [imm 10] [imm 20] [reg 0]) = some func' ∧
    func'.WellFormed ∧ Equivalent (diamond [0] [imm 10] [imm 20] [reg 0]) func' := by
  have hvisits : visits (diamond [0] [imm 10] [imm 20] [reg 0])
      = [(diamond [0] [imm 10] [imm 20] [reg 0], 0),
        (straight 0 (imm 10) (imm 20) [reg 0], 0)] := by
    decide
  refine run_preserves (Function.wellFormed_of_check (fun _ ↦ []) (by decide)) ?_
  rw [hvisits, forall_mem_cons, forall_mem_cons]
  refine ⟨⟨fun h ↦ absurd (.entry rfl) h, fun d hd ↦ ?_⟩,
    ⟨fun h ↦ absurd (.entry rfl) h, fun d hd ↦ ?_⟩, fun _ h ↦ absurd h not_mem_nil⟩
  · have hfound : findDiamond (.ofFunction (diamond [0] [imm 10] [imm 20] [reg 0]))
        (diamond [0] [imm 10] [imm 20] [reg 0]) 0 = some (some ⟨{
          opcode := .CJMP
          operands := [imm 1, ⟨.comparison .EQ, Primitive.VOID⟩, imm 2]
          targets := [⟨1, []⟩, ⟨2, []⟩] }, 1, 2, ⟨3, [imm 10]⟩, ⟨3, [imm 20]⟩, 0⟩) := by
      decide
    obtain rfl := some.inj (some.inj (hfound.symm.trans hd))
    refine ⟨by decide, by decide, ?_, ?_, ?_, fun _ ↦ ⟨by decide, ?_⟩⟩
    · intro block _ arg harg r hr
      obtain rfl := mem_singleton.mp harg
      cases hr
    · intro block _ arg harg r hr
      obtain rfl := mem_singleton.mp harg
      cases hr
    · intro i arg0 arg1 h0 h1 heq
      rcases i with _ | i
      · obtain rfl := some.inj h0
        obtain rfl := some.inj h1
        exact absurd heq (by decide)
      · cases h0
    · intro join hjoin i r hr hi
      obtain rfl := some.inj hjoin
      rcases i with _ | i
      · exact absurd rfl hi
      · cases hr
  · have hfound : findDiamond (.ofFunction (straight 0 (imm 10) (imm 20) [reg 0]))
        (straight 0 (imm 10) (imm 20) [reg 0]) 0 = some none := by
      decide
    rw [hfound] at hd
    cases hd

/-- A parameter of a merged join block that is passed the same argument on both arms is read and
no longer defined. -/
theorem not_run_preserves_equalArgument : ¬∀ func : Function, func.WellFormed →
    ∃ func', run func = some func' ∧ func'.WellFormed ∧ Equivalent func func' := by
  intro h
  obtain ⟨func', hrun, hwf', -⟩ := h (diamond [0, 1] [imm 7, imm 10] [imm 7, imm 20] [reg 0, reg 1])
    (Function.wellFormed_of_check (fun _ ↦ []) (by decide))
  have hstraight : run (diamond [0, 1] [imm 7, imm 10] [imm 7, imm 20] [reg 0, reg 1])
      = some (straight 1 (imm 10) (imm 20) [reg 0, reg 1]) := by
    decide
  obtain rfl := some.inj (hstraight.symm.trans hrun)
  have hselect : Reaches paths (straight 1 (imm 10) (imm 20) [reg 0, reg 1]) ()
      ⟨0, [{ opcode := .RET, operands := [reg 0, reg 1] }],
        Env.bindDest (fun _ ↦ none) (some 1) (), ()⟩ :=
    ⟨_, ⟨0, _, rfl, rfl, rfl⟩, .single (.op (fun r hr ↦ absurd hr not_mem_nil)
      (@Machine.Executes.select _ _ paths _ _ _ _ _ _ _ _ _ true rfl rfl rfl trivial))⟩
  exact hwf'.allDefined ⟨_, hselect, .undefined fun hdefines ↦ hdefines 0 (by decide) rfl⟩

end Banjo.Passes.BranchElimination
