import Banjo.Codegen.Liveness
import Mathlib.Algebra.Order.BigOperators.Group.Finset

/-!
# The live-in and live-out sets

The loop over the blocks terminates, because a pass that reports a change makes the sets larger and
all of them stay among the registers of the function. Where it stops the data-flow inclusions hold
at every block reachable from the entry: the live-in registers of a successor are live-out, the
collected uses are live-in, and so is every live-out register without a collected definition.
-/

open List Function

namespace Banjo.Codegen

namespace LivenessAnalysis

variable {Instr : Type} {func : RegAllocFunc Instr}

/-! ## What is collected -/

/-- All operands of a block, in the order they are visited. -/
def blockOps (block : RegAllocBlock Instr) : List RegOp := block.instrs.flatMap RegAllocInstr.regs

theorem collectUsesAndDefs_eq (block : RegAllocBlock Instr) :
    collectUsesAndDefs block = (blockOps block).foldl collectOp {} := by
  rw [collectUsesAndDefs, blockOps, foldl_flatMap]

variable {r : Register}

theorem mem_defs_collectOp {liveness : BlockLiveness} {op : RegOp} :
    r ∈ (collectOp liveness op).defs ↔ r ∈ liveness.defs ∨ op = ⟨r, .DEF⟩ := by
  obtain ⟨reg, usage⟩ := op
  simp only [collectOp, RegOp.mk.injEq]
  split_ifs with hdef huse
  · rw [Finset.mem_insert]
    constructor
    · rintro (rfl | h)
      · exact Or.inr ⟨rfl, hdef⟩
      · exact Or.inl h
    · rintro (h | ⟨rfl, -⟩)
      · exact Or.inr h
      · exact Or.inl rfl
  · exact ⟨Or.inl, fun h ↦ h.resolve_right fun ⟨_, hu⟩ ↦ hdef hu⟩
  · exact ⟨Or.inl, fun h ↦ h.resolve_right fun ⟨_, hu⟩ ↦ hdef hu⟩

theorem uses_subset_collectOp (liveness : BlockLiveness) (op : RegOp) :
    liveness.uses ⊆ (collectOp liveness op).uses := by
  simp only [collectOp]
  split_ifs
  · exact Finset.Subset.refl _
  · exact Finset.subset_insert _ _
  · exact Finset.Subset.refl _

theorem mem_defs_foldl {ops : List RegOp} : ∀ {liveness : BlockLiveness} {r : Register},
    r ∈ (ops.foldl collectOp liveness).defs ↔ r ∈ liveness.defs ∨ ⟨r, .DEF⟩ ∈ ops := by
  induction ops with
  | nil => simp
  | cons op ops ih =>
    intro liveness r
    rw [foldl_cons, ih, mem_defs_collectOp, List.mem_cons, or_assoc, eq_comm (a := op)]

theorem uses_subset_foldl {ops : List RegOp} : ∀ {liveness : BlockLiveness},
    liveness.uses ⊆ (ops.foldl collectOp liveness).uses := by
  induction ops with
  | nil => intro liveness; exact Finset.Subset.refl _
  | cons op ops ih => intro liveness; exact (uses_subset_collectOp _ op).trans ih

/-- The collected definitions are the `DEF` operands of the block. -/
theorem mem_defs_iff {block : RegAllocBlock Instr} :
    r ∈ (collectUsesAndDefs block).defs ↔ ⟨r, .DEF⟩ ∈ blockOps block := by
  rw [collectUsesAndDefs_eq, mem_defs_foldl]
  simp

/-- A `USE` operand with no `DEF` of its register listed before it is collected. -/
theorem mem_uses_of_ops {block : RegAllocBlock Instr} {front back : List RegOp}
    (hops : blockOps block = front ++ ⟨r, .USE⟩ :: back) (hfront : ⟨r, .DEF⟩ ∉ front) :
    r ∈ (collectUsesAndDefs block).uses := by
  rw [collectUsesAndDefs_eq, hops, foldl_append, foldl_cons]
  refine uses_subset_foldl ?_
  have hr : r ∉ (front.foldl collectOp {}).defs := by
    rw [mem_defs_foldl]
    simpa using hfront
  simp [collectOp, hr]

/-! ## One block -/

variable {st : ℕ → BlockLiveness}

theorem mem_outs_updateLiveness {b : ℕ} {r : Register} :
    r ∈ (updateLiveness func st b).outs ↔
      r ∈ (st b).outs ∨ ∃ s ∈ succsOf func b, r ∈ (st s).ins := by
  have hfold : ∀ (succs : List ℕ) (outs : Finset Register),
      r ∈ succs.foldl (fun outs succ ↦ outs ∪ (st succ).ins) outs ↔
        r ∈ outs ∨ ∃ s ∈ succs, r ∈ (st s).ins := by
    intro succs
    induction succs with
    | nil => simp
    | cons s succs ih =>
      intro outs
      rw [foldl_cons, ih, Finset.mem_union, or_assoc]
      simp
  exact hfold _ _

theorem mem_ins_updateLiveness {b : ℕ} {r : Register} :
    r ∈ (updateLiveness func st b).ins ↔ r ∈ (st b).ins ∨ r ∈ (st b).uses ∨
      (r ∈ (updateLiveness func st b).outs ∧ r ∉ (st b).defs) := by
  simp only [updateLiveness, Finset.mem_union, Finset.mem_filter, or_assoc]

theorem outs_subset_updateLiveness (func : RegAllocFunc Instr) (st : ℕ → BlockLiveness) (b : ℕ) :
    (st b).outs ⊆ (updateLiveness func st b).outs :=
  fun _ hr ↦ mem_outs_updateLiveness.mpr (Or.inl hr)

theorem ins_subset_updateLiveness (func : RegAllocFunc Instr) (st : ℕ → BlockLiveness) (b : ℕ) :
    (st b).ins ⊆ (updateLiveness func st b).ins :=
  fun _ hr ↦ mem_ins_updateLiveness.mpr (Or.inl hr)

variable {b : ℕ}

/-- A block whose sets keep their sizes keeps the sets. -/
theorem updateLiveness_eq_self (hins : (updateLiveness func st b).ins.card = (st b).ins.card)
    (houts : (updateLiveness func st b).outs.card = (st b).outs.card) :
    updateLiveness func st b = st b := by
  have hi : (st b).ins = (updateLiveness func st b).ins :=
    Finset.eq_of_subset_of_card_le (ins_subset_updateLiveness func st b) hins.le
  have ho : (st b).outs = (updateLiveness func st b).outs :=
    Finset.eq_of_subset_of_card_le (outs_subset_updateLiveness func st b) houts.le
  rw [show st b = ⟨(st b).defs, (st b).uses, (st b).ins, (st b).outs⟩ from rfl]
  rw [hi, ho]
  rfl

/-! ## One pass -/

/-- The state of `computePass` after one more block. -/
def passStep (func : RegAllocFunc Instr) (acc : (ℕ → BlockLiveness) × Bool) (b : ℕ) :
    (ℕ → BlockLiveness) × Bool :=
  (update acc.1 b (updateLiveness func acc.1 b),
    acc.2 || ((updateLiveness func acc.1 b).ins.card ≠ (acc.1 b).ins.card ||
      (updateLiveness func acc.1 b).outs.card ≠ (acc.1 b).outs.card))

theorem computePass_eq (indices : List ℕ) (st : ℕ → BlockLiveness) :
    computePass func indices st = indices.foldl (passStep func) (st, false) := rfl

variable {indices : List ℕ}

/-- A pass that reports no change found every block closed and left it alone. -/
theorem foldl_passStep_unchanged : ∀ {acc : (ℕ → BlockLiveness) × Bool},
    (indices.foldl (passStep func) acc).2 = false →
    acc.2 = false ∧ (indices.foldl (passStep func) acc).1 = acc.1 ∧
      ∀ b ∈ indices, updateLiveness func acc.1 b = acc.1 b := by
  induction indices with
  | nil => exact fun h ↦ ⟨h, rfl, by simp⟩
  | cons b indices ih =>
    intro acc h
    rw [foldl_cons] at h ⊢
    obtain ⟨hflag, hsame, hclosed⟩ := ih h
    simp only [passStep, Bool.or_eq_false_iff, decide_eq_false_iff_not, not_not, ne_eq] at hflag
    obtain ⟨hacc, hins, houts⟩ := hflag
    have hb : updateLiveness func acc.1 b = acc.1 b := updateLiveness_eq_self hins houts
    have hstep : (passStep func acc b).1 = acc.1 := by
      simp only [passStep, hb, update_eq_self]
    rw [hstep] at hsame hclosed
    refine ⟨hacc, hsame, ?_⟩
    intro c hc
    rcases mem_cons.mp hc with rfl | hc
    · exact hb
    · exact hclosed c hc

/-- The total size of the live-in and live-out sets of the blocks. -/
def totalSize (func : RegAllocFunc Instr) (st : ℕ → BlockLiveness) : ℕ :=
  ∑ b ∈ Finset.range func.blocks.length, ((st b).ins.card + (st b).outs.card)

theorem totalSize_update (st : ℕ → BlockLiveness) (hb : b < func.blocks.length)
    (new : BlockLiveness) :
    totalSize func (update st b new) + ((st b).ins.card + (st b).outs.card)
      = totalSize func st + (new.ins.card + new.outs.card) := by
  have hmem : b ∈ Finset.range func.blocks.length := Finset.mem_range.mpr hb
  rw [totalSize, totalSize, ← Finset.add_sum_erase _ _ hmem,
    ← Finset.add_sum_erase _ (fun b ↦ (st b).ins.card + (st b).outs.card) hmem, update_self]
  have hrest : ∑ x ∈ (Finset.range func.blocks.length).erase b,
      ((update st b new x).ins.card + (update st b new x).outs.card)
      = ∑ x ∈ (Finset.range func.blocks.length).erase b, ((st x).ins.card + (st x).outs.card) := by
    refine Finset.sum_congr rfl fun x hx ↦ ?_
    rw [update_of_ne (Finset.ne_of_mem_erase hx)]
  rw [hrest]
  omega

/-- A pass never shrinks the sets, and makes them larger when it reports a change. -/
theorem totalSize_foldl_passStep :
    (∀ b ∈ indices, b < func.blocks.length) → ∀ (acc : (ℕ → BlockLiveness) × Bool),
    totalSize func acc.1 + (if (indices.foldl (passStep func) acc).2 && !acc.2 then 1 else 0)
      ≤ totalSize func (indices.foldl (passStep func) acc).1 := by
  induction indices with
  | nil => intro _ acc; simp
  | cons b indices ih =>
    intro hindices acc
    rw [foldl_cons]
    have hrest := ih (fun c hc ↦ hindices c (mem_cons_of_mem _ hc)) (passStep func acc b)
    have hsize := totalSize_update acc.1 (hindices b mem_cons_self)
      (updateLiveness func acc.1 b)
    have hins := Finset.card_le_card (ins_subset_updateLiveness func acc.1 b)
    have houts := Finset.card_le_card (outs_subset_updateLiveness func acc.1 b)
    have hfst : (passStep func acc b).1
        = update acc.1 b (updateLiveness func acc.1 b) := rfl
    rw [hfst] at hrest
    by_cases hchange : (passStep func acc b).2 && !acc.2
    · -- the change is reported at this very block
      have hgrow : (acc.1 b).ins.card + (acc.1 b).outs.card
          < (updateLiveness func acc.1 b).ins.card + (updateLiveness func acc.1 b).outs.card := by
        simp only [passStep, Bool.and_eq_true, Bool.or_eq_true, Bool.not_eq_true',
          decide_eq_true_eq] at hchange
        obtain ⟨hor, hacc⟩ := hchange
        rw [hacc] at hor
        simp only [Bool.false_eq_true, false_or] at hor
        omega
      split_ifs at hrest ⊢ <;> omega
    · have hflag : (passStep func acc b).2 = true → acc.2 = true := by
        intro h
        by_contra hacc
        exact hchange (by simp [h, hacc])
      have hcond : ((indices.foldl (passStep func) (passStep func acc b)).2 && !acc.2) = true →
          ((indices.foldl (passStep func) (passStep func acc b)).2
            && !(passStep func acc b).2) = true := by
        simp only [Bool.and_eq_true, Bool.not_eq_true']
        rintro ⟨h, hacc⟩
        refine ⟨h, ?_⟩
        by_contra hstep
        rw [hflag (by simpa using hstep)] at hacc
        exact Bool.noConfusion hacc
      by_cases hlater : ((indices.foldl (passStep func) (passStep func acc b)).2 && !acc.2) = true
      · rw [if_pos (hcond hlater)] at hrest
        rw [if_pos hlater]
        omega
      · rw [if_neg hlater]
        omega

/-! ## The loop -/

/-- The sets of every block hold registers of the function only. -/
def Bounded (func : RegAllocFunc Instr) (st : ℕ → BlockLiveness) : Prop :=
  ∀ b, (st b).uses ⊆ allRegs func ∧ (st b).ins ⊆ allRegs func ∧ (st b).outs ⊆ allRegs func

theorem Bounded.passStep {acc : (ℕ → BlockLiveness) × Bool} (h : Bounded func acc.1) (b : ℕ) :
    Bounded func (passStep func acc b).1 := by
  intro c
  by_cases hc : c = b
  · subst hc
    have houts : (updateLiveness func acc.1 c).outs ⊆ allRegs func := by
      intro r hr
      rcases mem_outs_updateLiveness.mp hr with hr | ⟨s, -, hr⟩
      · exact (h c).2.2 hr
      · exact (h s).2.1 hr
    have hins : (updateLiveness func acc.1 c).ins ⊆ allRegs func := by
      intro r hr
      rcases mem_ins_updateLiveness.mp hr with hr | hr | ⟨hr, -⟩
      · exact (h c).2.1 hr
      · exact (h c).1 hr
      · exact houts hr
    simp only [LivenessAnalysis.passStep, update_self]
    exact ⟨(h c).1, hins, houts⟩
  · simp only [LivenessAnalysis.passStep, update_of_ne hc]
    exact h c

theorem Bounded.foldl_passStep : ∀ (acc : (ℕ → BlockLiveness) × Bool),
    Bounded func acc.1 → Bounded func (indices.foldl (LivenessAnalysis.passStep func) acc).1 := by
  induction indices with
  | nil => exact fun _ h ↦ h
  | cons b indices ih => exact fun _ h ↦ ih _ (h.passStep b)

theorem Bounded.totalSize_le (h : Bounded func st) :
    totalSize func st ≤ 2 * func.blocks.length * (allRegs func).card := by
  have hblock : ∀ b ∈ Finset.range func.blocks.length,
      (st b).ins.card + (st b).outs.card ≤ 2 * (allRegs func).card := by
    intro b _
    have hins := Finset.card_le_card (h b).2.1
    have houts := Finset.card_le_card (h b).2.2
    omega
  calc totalSize func st
      ≤ (Finset.range func.blocks.length).card * (2 * (allRegs func).card) :=
        Finset.sum_le_card_nsmul _ _ _ hblock
    _ = 2 * func.blocks.length * (allRegs func).card :=
      by rw [Finset.card_range, ← mul_assoc, mul_comm _ 2]

/-- With fuel for every possible growth and one pass more the loop stops. -/
theorem computeLoop_isSome (hindices : ∀ b ∈ indices, b < func.blocks.length) :
    ∀ (fuel : ℕ) (st : ℕ → BlockLiveness), Bounded func st →
      2 * func.blocks.length * (allRegs func).card + 1 ≤ totalSize func st + fuel →
      (computeLoop func indices fuel st).isSome := by
  intro fuel
  induction fuel with
  | zero =>
    intro st hbounded hfuel
    have := hbounded.totalSize_le
    omega
  | succ fuel ih =>
    intro st hbounded hfuel
    have hgrow := totalSize_foldl_passStep hindices (st, false)
    have hbounded' : Bounded func (computePass func indices st).1 :=
      Bounded.foldl_passStep (st, false) hbounded
    rw [computeLoop]
    split
    · rename_i st' hpass
      rw [← computePass_eq, hpass] at hgrow
      rw [hpass] at hbounded'
      refine ih st' hbounded' ?_
      simp only [Bool.not_false, Bool.and_self, if_true] at hgrow
      omega
    · rfl

/-- The uses and definitions the loop works with are the collected ones. -/
theorem foldl_passStep_fixed : ∀ (acc : (ℕ → BlockLiveness) × Bool) (b : ℕ),
    ((indices.foldl (passStep func) acc).1 b).uses = (acc.1 b).uses ∧
      ((indices.foldl (passStep func) acc).1 b).defs = (acc.1 b).defs := by
  induction indices with
  | nil => exact fun _ _ ↦ ⟨rfl, rfl⟩
  | cons c indices ih =>
    intro acc b
    rw [foldl_cons, (ih _ b).1, (ih _ b).2]
    by_cases hb : b = c
    · subst hb
      simp [passStep, updateLiveness]
    · simp [passStep, update_of_ne hb]

/-- Where the loop stops, every block of the order is closed. -/
theorem computeLoop_spec : ∀ {fuel : ℕ} {st result : ℕ → BlockLiveness},
    computeLoop func indices fuel st = some result →
    (∀ b ∈ indices, updateLiveness func result b = result b) ∧
      ∀ b, (result b).uses = (st b).uses ∧ (result b).defs = (st b).defs := by
  intro fuel
  induction fuel with
  | zero => intro st result h; cases h
  | succ fuel ih =>
    intro st result h
    have hfixed : ∀ b, ((computePass func indices st).1 b).uses = (st b).uses ∧
        ((computePass func indices st).1 b).defs = (st b).defs :=
      fun b ↦ foldl_passStep_fixed (st, false) b
    rw [computeLoop] at h
    split at h
    · rename_i st' hpass
      rw [hpass] at hfixed
      obtain ⟨hclosed, hkept⟩ := ih h
      exact ⟨hclosed, fun b ↦ ⟨(hkept b).1.trans (hfixed b).1, (hkept b).2.trans (hfixed b).2⟩⟩
    · rename_i st' hpass
      rw [Option.some.injEq] at h
      subst h
      have hflag : (indices.foldl (passStep func) (st, false)).2 = false := by
        rw [← computePass_eq, hpass]
      obtain ⟨-, hsame, hclosed⟩ := foldl_passStep_unchanged hflag
      rw [← computePass_eq, hpass] at hsame
      dsimp only at hsame hclosed
      subst hsame
      exact ⟨hclosed, fun b ↦ ⟨rfl, rfl⟩⟩

/-! ## The data-flow inclusions -/

/-- A machine function with an entry block whose successor indices name blocks. -/
structure WellFormed (func : RegAllocFunc Instr) : Prop where
  nonempty : 0 < func.blocks.length
  succs : ∀ b, ∀ s ∈ succsOf func b, s < func.blocks.length

theorem WellFormed.of_blocks (hpos : 0 < func.blocks.length)
    (h : ∀ block ∈ func.blocks, ∀ s ∈ block.succs, s < func.blocks.length) : WellFormed func where
  nonempty := hpos
  succs := by
    intro b s hs
    rw [succsOf] at hs
    cases hb : func.blocks[b]? with
    | none =>
      rw [hb] at hs
      exact absurd hs not_mem_nil
    | some block =>
      rw [hb] at hs
      exact h block (mem_of_getElem? hb) s hs

/-- The block is reachable from the entry. -/
def BlockReachable (func : RegAllocFunc Instr) (b : ℕ) : Prop :=
  Relation.ReflTransGen (fun a b ↦ b ∈ succsOf func a) 0 b

theorem mem_blockIndicesPostOrder (h : WellFormed func) :
    b ∈ blockIndicesPostOrder func ↔ BlockReachable func b :=
  PostOrder.postOrder_mem_iff (U := Finset.range func.blocks.length)
    (fun b _ s hs ↦ Finset.mem_range.mpr (h.succs b s hs)) (Finset.mem_range.mpr h.nonempty)
    (by rw [Finset.card_range])

theorem lt_length_of_blockReachable (h : WellFormed func) (hb : BlockReachable func b) :
    b < func.blocks.length := by
  induction hb with
  | refl => exact h.nonempty
  | tail _ hstep _ => exact h.succs _ _ hstep

theorem initialLiveness_bounded (func : RegAllocFunc Instr) :
    Bounded func (initialLiveness func) := by
  intro b
  rw [initialLiveness]
  cases hb : func.blocks[b]? with
  | none => simp
  | some block =>
    have hops : ∀ {ops : List RegOp} (liveness : BlockLiveness),
        (∀ op ∈ ops, op.reg ∈ allRegs func) → liveness.uses ⊆ allRegs func →
        liveness.ins = ∅ → liveness.outs = ∅ →
        (ops.foldl collectOp liveness).uses ⊆ allRegs func ∧
          (ops.foldl collectOp liveness).ins = ∅ ∧ (ops.foldl collectOp liveness).outs = ∅ := by
      intro ops
      induction ops with
      | nil => exact fun _ _ huses hins houts ↦ ⟨huses, hins, houts⟩
      | cons op ops ih =>
        intro liveness hmem huses hins houts
        have hop := hmem op mem_cons_self
        refine ih _ (fun o ho ↦ hmem o (mem_cons_of_mem _ ho)) ?_ ?_ ?_
        · simp only [collectOp]
          split_ifs
          · exact huses
          · exact Finset.insert_subset hop huses
          · exact huses
        · simp only [collectOp]
          split_ifs <;> exact hins
        · simp only [collectOp]
          split_ifs <;> exact houts
    have hregs : ∀ op ∈ blockOps block, op.reg ∈ allRegs func := by
      intro op hop
      obtain ⟨instr, hinstr, hop⟩ := mem_flatMap.mp hop
      rw [allRegs, List.mem_toFinset, List.mem_flatMap]
      exact ⟨block, mem_of_getElem? hb, mem_flatMap.mpr
        ⟨instr, hinstr, mem_map_of_mem hop⟩⟩
    simp only [Option.map_some, Option.getD_some, collectUsesAndDefs_eq]
    obtain ⟨huses, hins, houts⟩ := hops {} hregs (by simp) rfl rfl
    exact ⟨huses, by rw [hins]; simp, by rw [houts]; simp⟩

/-- **Termination.** The loop over the blocks of a well-formed function stops. -/
theorem computeInsAndOuts_isSome (h : WellFormed func) : (computeInsAndOuts func).isSome := by
  refine computeLoop_isSome ?_ _ _ (initialLiveness_bounded func) ?_
  · intro b hb
    rw [mem_reverse, mem_blockIndicesPostOrder h] at hb
    exact lt_length_of_blockReachable h hb
  · rw [maxPasses]
    omega

/-- **The data-flow inclusions** at the blocks reachable from the entry. -/
structure Closed (func : RegAllocFunc Instr) (st : ℕ → BlockLiveness) : Prop where
  succ_ins : ∀ {b s : ℕ} {r : Register}, BlockReachable func b → s ∈ succsOf func b →
    r ∈ (st s).ins → r ∈ (st b).outs
  uses_ins : ∀ {b : ℕ} {block : RegAllocBlock Instr} {r : Register}, BlockReachable func b →
    func.blocks[b]? = some block → r ∈ (collectUsesAndDefs block).uses → r ∈ (st b).ins
  outs_ins : ∀ {b : ℕ} {block : RegAllocBlock Instr} {r : Register}, BlockReachable func b →
    func.blocks[b]? = some block → r ∈ (st b).outs → ⟨r, .DEF⟩ ∉ blockOps block →
    r ∈ (st b).ins

theorem computeInsAndOuts_closed (h : WellFormed func) (hst : computeInsAndOuts func = some st) :
    Closed func st := by
  obtain ⟨hclosed, hkept⟩ := computeLoop_spec hst
  have hmem : ∀ {b}, BlockReachable func b → updateLiveness func st b = st b := fun hb ↦
    hclosed _ (mem_reverse.mpr ((mem_blockIndicesPostOrder h).mpr hb))
  have hinit : ∀ {b : ℕ} {block : RegAllocBlock Instr}, func.blocks[b]? = some block →
      (st b).uses = (collectUsesAndDefs block).uses ∧
        (st b).defs = (collectUsesAndDefs block).defs := by
    intro b block hb
    have := hkept b
    rwa [initialLiveness, hb] at this
  refine { succ_ins := ?_, uses_ins := ?_, outs_ins := ?_ }
  · intro b s r hb hs hr
    rw [← hmem hb]
    exact mem_outs_updateLiveness.mpr (Or.inr ⟨s, hs, hr⟩)
  · intro b block r hb hblock hr
    rw [← hmem hb]
    exact mem_ins_updateLiveness.mpr (Or.inr (Or.inl ((hinit hblock).1 ▸ hr)))
  · intro b block r hb hblock hr hdef
    rw [← hmem hb]
    refine mem_ins_updateLiveness.mpr (Or.inr (Or.inr ⟨?_, ?_⟩))
    · rwa [hmem hb]
    · rwa [(hinit hblock).2, mem_defs_iff]

end LivenessAnalysis

end Banjo.Codegen
