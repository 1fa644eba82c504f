import Banjo.SSA.WellFormed
import Mathlib.Data.List.Pairwise

/-!
# A checker for well-formed functions

`check known func` walks each block once. `known b` names registers that are to be defined whenever
`b` is entered; the walk makes sure that every jump to `b` has them defined, so that by induction
on paths no undefined register is read.
-/

open List Option Function

namespace Banjo.SSA

open Relation

variable {func : Function}

namespace Instruction

def isCompare (operand : Operand) : Bool :=
  match operand.value with
  | .comparison _ => true
  | _ => false

theorem exists_of_isCompare {operand : Operand} (h : isCompare operand = true) :
    ∃ c, operand.value = .comparison c := by
  unfold isCompare at h
  split at h
  · rename_i c hc
    exact ⟨c, hc⟩
  · cases h

/-- As many operands as asked for, a comparison between the first and the third. -/
def compares (instr : Instruction) (count : ℕ) : Bool :=
  instr.operands.length = count && (instr.operands[1]?.map isCompare).getD false

theorem exists_of_compares {instr : Instruction} {count : ℕ} (h : instr.compares count = true) :
    instr.operands.length = count ∧
      ∃ cmp c, instr.operands[1]? = some cmp ∧ cmp.value = .comparison c := by
  rw [compares, Bool.and_eq_true, decide_eq_true_eq] at h
  refine ⟨h.1, ?_⟩
  cases hcmp : instr.operands[1]? with
  | none => simp [hcmp] at h
  | some cmp =>
    rw [hcmp, map_some, getD_some] at h
    obtain ⟨c, hc⟩ := exists_of_isCompare h.2
    exact ⟨cmp, c, rfl, hc⟩

/-- `Shaped` as a test. -/
def isShaped (instr : Instruction) : Bool :=
  match instr.opcode with
  | .JMP => instr.dest.isNone && instr.operands.isEmpty && instr.targets.length = 1
  | .CJMP | .FCJMP => instr.dest.isNone && instr.compares 3 && instr.targets.length = 2
  | .RET => instr.dest.isNone && instr.targets.isEmpty
  | .SELECT => instr.compares 5 && instr.targets.isEmpty
  | _ => instr.targets.isEmpty

theorem shaped_of_isShaped {instr : Instruction} (h : instr.isShaped = true) : instr.Shaped := by
  rw [isShaped] at h
  rw [Shaped]
  have hcond : (instr.dest.isNone && instr.compares 3 && decide (instr.targets.length = 2)) = true →
      instr.dest = none ∧ (∃ lhs cmp rhs c, instr.operands = [lhs, cmp, rhs] ∧
        cmp.value = .comparison c) ∧ ∃ trueTarget falseTarget,
          instr.targets = [trueTarget, falseTarget] := by
    intro h
    rw [Bool.and_eq_true, Bool.and_eq_true, isNone_iff_eq_none, decide_eq_true_eq] at h
    obtain ⟨hlength, cmp, c, hcmp, hc⟩ := exists_of_compares h.1.2
    obtain ⟨lhs, cmp', rhs, hoperands⟩ := List.length_eq_three.mp hlength
    rw [hoperands, getElem?_cons_succ, getElem?_cons_zero, some.injEq] at hcmp
    exact ⟨h.1.1, ⟨lhs, cmp', rhs, c, hoperands, hcmp ▸ hc⟩, List.length_eq_two.mp h.2⟩
  split at h <;> rename_i hopcode <;> try simp only [hopcode]
  · rw [Bool.and_eq_true, Bool.and_eq_true, isNone_iff_eq_none, List.isEmpty_iff,
      decide_eq_true_eq] at h
    exact ⟨h.1.1, h.1.2, List.length_eq_one_iff.mp h.2⟩
  · exact hcond h
  · exact hcond h
  · rw [Bool.and_eq_true, isNone_iff_eq_none, List.isEmpty_iff] at h
    exact h
  · rw [Bool.and_eq_true, List.isEmpty_iff] at h
    obtain ⟨hlength, cmp, c, hcmp, hc⟩ := exists_of_compares h.1
    refine ⟨?_, h.2⟩
    obtain ⟨lhs, operands, hoperands⟩ := exists_cons_of_length_eq_add_one hlength
    rw [hoperands, List.length_cons, Nat.succ.injEq] at hlength
    obtain ⟨cmp', operands, rfl⟩ := exists_cons_of_length_eq_add_one hlength
    obtain ⟨rhs, trueVal, falseVal, rfl⟩ := List.length_eq_three.mp (Nat.succ.inj hlength)
    rw [hoperands, getElem?_cons_succ, getElem?_cons_zero, some.injEq] at hcmp
    exact ⟨lhs, cmp', rhs, trueVal, falseVal, c, hoperands, hcmp ▸ hc⟩
  · exact List.isEmpty_iff.mp h

end Instruction

namespace Function

/-- Walk the instructions of a block with the registers that are defined. -/
def checkUses (known : BlockId → List VirtualRegister) :
    List Instruction → List VirtualRegister → Bool
  | [], _ => true
  | instr :: rest, defined =>
    instr.uses.all (· ∈ defined) &&
    instr.targets.all (fun target ↦ (known target.block).all (· ∈ defined)) &&
    checkUses known rest (instr.dest.toList ++ defined)

def checkTarget (func : Function) (target : BranchTarget) : Bool :=
  match func.find target.block with
  | some block => target.args.length = block.paramRegs.length
  | none => false

def checkBlock (known : BlockId → List VirtualRegister) (func : Function)
    (entry : BlockId × BasicBlock) : Bool :=
  (match entry.2.instrs.getLast? with
  | some last => last.isTerminator && entry.2.instrs.dropLast.all fun instr ↦ !instr.isTerminator
  | none => false) &&
  (entry.2.instrs.all fun instr ↦ instr.isShaped && instr.targets.all func.checkTarget) &&
  checkUses known entry.2.instrs (entry.2.paramRegs ++ known entry.1) &&
  entry.2.defs.all (· < func.lastVirtualReg)

def check (known : BlockId → List VirtualRegister) (func : Function) : Bool :=
  (match func.blocks with
  | (entry, block) :: _ => (known entry).isEmpty && block.paramRegs.isEmpty
  | [] => false) &&
  decide func.ids.Nodup &&
  decide (func.blocks.flatMap fun entry ↦ entry.2.defs).Nodup &&
  func.blocks.all (checkBlock known func)

/-! ## Soundness -/

section Sound

variable {known : BlockId → List VirtualRegister}

/-- What a walk has seen is defined. -/
def Walked (known : BlockId → List VirtualRegister) (func : Function) (c : Config Unit Unit) :
    Prop :=
  ∃ block defined, func.find c.block = some block ∧ c.rest <:+ block.instrs ∧
    checkUses known c.rest defined = true ∧ ∀ reg ∈ defined, c.env reg ≠ none

theorem checkUses_cons {instr : Instruction} {rest : List Instruction}
    {defined : List VirtualRegister} (h : checkUses known (instr :: rest) defined = true) :
    (∀ reg ∈ instr.uses, reg ∈ defined) ∧
    (∀ target ∈ instr.targets, ∀ reg ∈ known target.block, reg ∈ defined) ∧
    checkUses known rest (instr.dest.toList ++ defined) = true := by
  simpa only [checkUses, Bool.and_eq_true, List.all_eq_true, decide_eq_true_eq, and_assoc] using h

theorem checkTarget_spec {target : BranchTarget} (h : func.checkTarget target = true) :
    ∃ block, func.find target.block = some block ∧ target.args.length = block.paramRegs.length := by
  rw [checkTarget] at h
  split at h
  · rename_i block hblock
    exact ⟨block, hblock, of_decide_eq_true h⟩
  · cases h

/-- What `checkBlock` finds out about a block. -/
theorem checkBlock_spec {b : BlockId} {block : BasicBlock}
    (h : checkBlock known func (b, block) = true) :
    block.Shaped ∧ (∀ instr ∈ block.instrs, ∀ target ∈ instr.targets,
      ∃ next, func.find target.block = some next ∧ target.args.length = next.paramRegs.length) ∧
    checkUses known block.instrs (block.paramRegs ++ known b) = true ∧
    ∀ reg ∈ block.defs, reg < func.lastVirtualReg := by
  simp only [checkBlock, Bool.and_eq_true, List.all_eq_true, decide_eq_true_eq] at h
  obtain ⟨⟨⟨hlast, hinstrs⟩, huses⟩, hbelow⟩ := h
  refine ⟨⟨?_, fun instr hinstr ↦ Instruction.shaped_of_isShaped (hinstrs instr hinstr).1⟩,
    fun instr hinstr target ht ↦ checkTarget_spec ((hinstrs instr hinstr).2 target ht),
    huses, hbelow⟩
  cases hget : block.instrs.getLast? with
  | none => simp [hget] at hlast
  | some last =>
    rw [hget] at hlast
    simp only [Bool.and_eq_true, List.all_eq_true, Bool.not_eq_true'] at hlast
    exact ⟨block.instrs.dropLast, last, (List.dropLast_append_getLast? last hget).symm, hlast⟩

theorem Walked.step (hcheck : ∀ b block, func.find b = some block →
    checkBlock known func (b, block) = true) {c c' : Config Unit Unit} (h : Walked known func c)
    (hstep : Step paths func c c') : Walked known func c' := by
  obtain ⟨block, defined, hfind, hsuffix, hcheckUses, hdefined⟩ := h
  obtain ⟨-, hargs, -, -⟩ := checkBlock_spec (hcheck _ _ hfind)
  cases hstep with
  | @op b instr rest env w w' v _ _ =>
    obtain ⟨-, -, hrest⟩ := checkUses_cons hcheckUses
    refine ⟨block, _, hfind, (suffix_cons _ _).trans hsuffix, hrest, fun reg hreg ↦ ?_⟩
    dsimp only
    cases hdest : instr.dest with
    | none =>
      rw [hdest] at hreg
      exact hdefined reg hreg
    | some dst =>
      rw [hdest, toList_some, singleton_append, mem_cons] at hreg
      by_cases hdst : reg = dst
      · rw [hdst, Env.bindDest, update_self]
        exact some_ne_none v
      · rw [Env.bindDest, update_of_ne hdst]
        exact hdefined reg (hreg.resolve_left hdst)
  | @branch b instr rest env w target next _ htakes hnext =>
    have ht := htakes.mem_targets
    obtain ⟨-, hknown, -⟩ := checkUses_cons hcheckUses
    obtain ⟨next', hnext', hlength⟩ := hargs instr (hsuffix.subset mem_cons_self) target ht
    obtain rfl := some.inj (hnext.symm.trans hnext')
    refine ⟨next, _, hnext, suffix_rfl, (checkBlock_spec (hcheck _ _ hnext)).2.2.1,
      fun reg hreg ↦ Env.bindParams_ne_none ?_ ?_⟩
    · rw [length_map, hlength]
    · rcases mem_append.mp hreg with hreg | hreg
      · exact Or.inl hreg
      · exact Or.inr (hdefined reg (hknown target ht reg hreg))

/-- **A function the checker accepts is well formed.** -/
theorem wellFormed_of_check (known : BlockId → List VirtualRegister) (h : check known func = true) :
    func.WellFormed := by
  simp only [check, Bool.and_eq_true, decide_eq_true_eq] at h
  obtain ⟨⟨⟨hentry, hnodup⟩, hdefs⟩, hblocks⟩ := h
  have hmem : ∀ {b block}, func.find b = some block → (b, block) ∈ func.blocks := by
    intro b block hfind
    obtain ⟨front, rest, hblocks, -⟩ := lookup_eq_some_iff.mp hfind
    rw [hblocks]
    exact mem_append_right _ mem_cons_self
  have hcheck : ∀ b block, func.find b = some block → checkBlock known func (b, block) = true :=
    fun b block hfind ↦ all_eq_true.mp hblocks _ (hmem hfind)
  rw [nodup_flatMap] at hdefs
  refine ⟨hnodup, ?_, ?_, ?_, ?_, ?_, ?_, ?_⟩
  · intro hnil
    rw [hnil] at hentry
    cases hentry
  · exact fun hblock ↦ (checkBlock_spec (hcheck _ _ hblock.2)).1
  · exact fun hblock ↦ (checkBlock_spec (hcheck _ _ hblock.2)).2.1
  · exact fun hblock ↦ hdefs.1 _ (hmem hblock.2)
  · intro b c block block' hblock hblock' hne
    have hpairwise : func.blocks.Pairwise fun x y ↦ x.2.defs.Disjoint y.2.defs := hdefs.2
    have hsymm : Std.Symm fun x y : BlockId × BasicBlock ↦ x.2.defs.Disjoint y.2.defs :=
      ⟨fun _ _ hdisjoint _ hx hy ↦ hdisjoint hy hx⟩
    exact hpairwise.forall (hmem hblock.2) (hmem hblock'.2) fun heq ↦ hne (congrArg Prod.fst heq)
  · exact fun hblock ↦ (checkBlock_spec (hcheck _ _ hblock.2)).2.2.2
  · rintro ⟨c, hreach, hshow⟩
    have hwalked : Walked known func c := by
      refine hreach.induction (P := Walked known func) ?_ fun _ _ _ h hstep ↦ h.step hcheck hstep
      intro b block hfirst hfind
      refine ⟨block, _, hfind, suffix_rfl, (checkBlock_spec (hcheck _ _ hfind)).2.2.1, ?_⟩
      obtain ⟨first, rest, hcons⟩ := exists_cons_of_ne_nil (ne_nil_of_mem (hmem hfind))
      obtain rfl : first.1 = b := by simpa [entry, ids, hcons] using hfirst
      have hblock : first.2 = block := by
        rw [find, hcons, lookup_cons_self, some.injEq] at hfind
        exact hfind
      simp only [hcons, Bool.and_eq_true, List.isEmpty_iff] at hentry
      intro reg hreg
      rw [hentry.1, List.append_nil, ← hblock, hentry.2] at hreg
      exact absurd hreg List.not_mem_nil
    obtain ⟨_, defined, -, -, huses, hdefined⟩ := hwalked
    cases hshow with
    | undefined hnot =>
      exact hnot fun reg hreg ↦ hdefined reg ((checkUses_cons huses).1 reg hreg)

end Sound

end Function

end Banjo.SSA
