import Banjo.Passes.DeadCodeElimination
import Banjo.Passes.DeadCodeElimination.Simulation

/-!
# Removing unused instructions

The counts are those of the uses that are left, at every point of a sweep. So what is removed
defines a register nothing reads, and removing it is thinning the function by that register.
-/

open List

namespace Banjo.SSA.DeadCodeElimination

variable {func func₀ : Function} {front rest : List (BlockId × BasicBlock)} {b : BlockId}
  {block : BasicBlock} {xs ys : List Instruction} {instr : Instruction} {reg : VirtualRegister}

/-! ## Uses -/

def usesCount (func : Function) (reg : VirtualRegister) : ℕ :=
  (func.instrs.flatMap Instruction.uses).count reg

theorem regUses_eq (func : Function) : regUses func = usesCount func := by
  have hgo : ∀ (instrs : List Instruction) (uses : Uses),
      instrs.foldl addUses uses = fun reg ↦
        uses reg + (instrs.flatMap Instruction.uses).count reg := by
    intro instrs
    induction instrs with
    | nil => exact fun _ ↦ rfl
    | cons instr rest ih =>
      intro uses
      funext reg
      simp only [foldl_cons, ih, addUses, flatMap_cons, count_append, Nat.add_assoc]
  funext reg
  rw [regUses, hgo]
  exact Nat.zero_add _

/-- The function with these instructions in one of its blocks. -/
def place (func : Function) (front : List (BlockId × BasicBlock)) (b : BlockId)
    (block : BasicBlock) (rest : List (BlockId × BasicBlock)) (instrs : List Instruction) :
    Function :=
  { func with blocks := front ++ (b, { block with instrs := instrs }) :: rest }

theorem usesCount_place_remove :
    usesCount (place func front b block rest (xs ++ instr :: ys)) reg
      = usesCount (place func front b block rest (xs ++ ys)) reg + instr.uses.count reg := by
  simp only [usesCount, place, Function.instrs, flatMap_append, flatMap_cons, count_append]
  omega

theorem not_mem_uses_of_usesCount {entry : BlockId × BasicBlock} (hentry : entry ∈ func.blocks)
    (hinstr : instr ∈ entry.2.instrs) (hcount : usesCount func reg = 0) : reg ∉ instr.uses := by
  intro hmem
  refine count_eq_zero.mp hcount (mem_flatMap.mpr ⟨instr, ?_, hmem⟩)
  exact mem_flatMap.mpr ⟨entry, hentry, hinstr⟩

/-! ## One instruction -/

/-- A register nothing reads is dead. -/
theorem dead_singleton (hcount : usesCount func reg = 0) : func.Dead [reg] where
  operands entry hentry instr hinstr _ operand hoperand r hr := by
    rw [mem_singleton]
    rintro rfl
    exact not_mem_uses_of_usesCount hentry hinstr hcount
      (Instruction.mem_uses_of_operand hoperand hr)
  args entry hentry instr hinstr target htarget next _ arg harg _ r hr := by
    rw [mem_singleton]
    rintro rfl
    exact not_mem_uses_of_usesCount hentry hinstr hcount
      (Instruction.mem_uses_of_arg htarget (of_mem_zip harg).1 hr)

/-- Where no parameter is dead, thinning a block filters its instructions. -/
theorem thinBlock_eq {dead : List VirtualRegister} (hstrict : func.Strict)
    (hparams : ∀ entry ∈ func.blocks, ∀ param ∈ entry.2.paramRegs, param ∉ dead)
    (hentry : (b, block) ∈ func.blocks) : func.thinBlock dead block =
      { block with instrs := block.instrs.filter (Instruction.keeps dead) } := by
  have hzip : ∀ {α β : Type} (l : List α) (l' : List β), l.length = l'.length →
      (l.zip l').map Prod.fst = l := fun l l' h ↦ map_fst_zip h.le
  have hregs : block.paramRegs.filter (· ∉ dead) = block.paramRegs :=
    filter_eq_self.mpr fun param hparam ↦ by simpa using hparams _ hentry param hparam
  have htypes : ((block.paramRegs.zip block.paramTypes).filter fun param ↦ param.1 ∉ dead).map
      Prod.snd = block.paramTypes := by
    rw [filter_eq_self.mpr fun param hparam ↦ by
      simpa using hparams _ hentry param.1 (of_mem_zip hparam).1]
    exact map_snd_zip (hstrict.typed _ hentry).le
  have hinstrs : func.thinInstrs dead block.instrs
      = block.instrs.filter (Instruction.keeps dead) := by
    rw [Function.thinInstrs]
    refine (map_congr_left fun instr hmem ↦ ?_).trans (map_id _)
    have hinstr := mem_of_mem_filter hmem
    have htargets : instr.targets.map (func.thinTarget dead) = instr.targets := by
      refine (map_congr_left fun target htarget ↦ ?_).trans (map_id _)
      obtain ⟨next, hnext, hlength⟩ := hstrict.args _ hentry instr hinstr target htarget
      rw [Function.thinTarget, hnext]
      simp only
      rw [filter_eq_self.mpr fun arg harg ↦ by
        simpa using hparams _ (Function.mem_of_find hnext) arg.2 (of_mem_zip harg).2,
        hzip _ _ hlength]
      rfl
    rw [Function.thinInstr, htargets]
    rfl
  rw [Function.thinBlock, hregs, htypes, hinstrs]

/-- In a strict function one instruction defines a register, and no parameter is that register. -/
theorem thin_place (hstrict : (place func front b block rest (xs ++ instr :: ys)).Strict)
    (hcall : instr.opcode ≠ .CALL) (hdest : instr.dest = some reg) :
    (place func front b block rest (xs ++ instr :: ys)).thin [reg]
      = place func front b block rest (xs ++ ys) := by
  have hnodup := hstrict.defsNodup
  have hsplit : (place func front b block rest (xs ++ instr :: ys)).blocks.flatMap
      (fun entry ↦ entry.2.defs)
      = (front.flatMap (fun entry ↦ entry.2.defs) ++ block.paramRegs
          ++ xs.filterMap Instruction.dest) ++ reg :: (ys.filterMap Instruction.dest
          ++ rest.flatMap fun entry ↦ entry.2.defs) := by
    simp [place, BasicBlock.defs, hdest]
  rw [hsplit] at hnodup
  obtain ⟨-, hrest, hdisjoint⟩ := nodup_append.mp hnodup
  rw [nodup_cons, mem_append, not_or] at hrest
  have hbefore : ∀ r ∈ front.flatMap (fun entry ↦ entry.2.defs) ++ block.paramRegs
      ++ xs.filterMap Instruction.dest, r ≠ reg :=
    fun r hr ↦ hdisjoint r hr reg mem_cons_self
  simp only [mem_append] at hbefore
  have hkeeps : ∀ {l : List Instruction}, (∀ r ∈ l.filterMap Instruction.dest, r ≠ reg) →
      l.filter (Instruction.keeps [reg]) = l := by
    intro l hl
    refine filter_eq_self.mpr fun other hother ↦ ?_
    rw [Instruction.keeps]
    cases hd : other.dest with
    | none => exact Bool.or_true _
    | some r =>
      have hne := hl r (mem_filterMap.mpr ⟨other, hother, hd⟩)
      simp [hne]
  have hdefs : ∀ blocks : List (BlockId × BasicBlock),
      (∀ r ∈ blocks.flatMap (fun entry ↦ entry.2.defs), r ≠ reg) →
      ∀ entry ∈ blocks, ∀ r ∈ entry.2.defs, r ≠ reg :=
    fun _ h entry hentry r hr ↦ h r (mem_flatMap.mpr ⟨entry, hentry, hr⟩)
  have hfront := hdefs front fun r hr ↦ hbefore r (Or.inl (Or.inl hr))
  have hafter := hdefs rest fun r hr heq ↦ hrest.1.2 (heq ▸ hr)
  have hparams : ∀ entry ∈ (place func front b block rest (xs ++ instr :: ys)).blocks,
      ∀ param ∈ entry.2.paramRegs, param ∉ [reg] := by
    intro entry hentry param hparam hmem
    rw [mem_singleton] at hmem
    rcases mem_append.mp hentry with hentry | hentry
    · exact hfront entry hentry param (mem_append_left _ hparam) hmem
    · rcases mem_cons.mp hentry with rfl | hentry
      · exact hbefore param (Or.inl (Or.inr hparam)) hmem
      · exact hafter entry hentry param (mem_append_left _ hparam) hmem
  have hblock : ∀ entry ∈ (place func front b block rest (xs ++ instr :: ys)).blocks,
      (place func front b block rest (xs ++ instr :: ys)).thinBlock [reg] entry.2
        = { entry.2 with instrs := entry.2.instrs.filter (Instruction.keeps [reg]) } :=
    fun entry hentry ↦ thinBlock_eq hstrict hparams hentry
  have hothers : ∀ entry ∈ (place func front b block rest (xs ++ instr :: ys)).blocks,
      (∀ r ∈ entry.2.defs, r ≠ reg) →
      (entry.1, (place func front b block rest (xs ++ instr :: ys)).thinBlock [reg] entry.2)
        = entry := by
    intro entry hentry hne
    rw [hblock entry hentry, hkeeps fun r hr ↦ hne r (mem_append_right _ hr)]
  have hmap : (place func front b block rest (xs ++ instr :: ys)).blocks.map (fun entry ↦
      (entry.1, (place func front b block rest (xs ++ instr :: ys)).thinBlock [reg] entry.2))
      = front ++ (b, { block with instrs := xs ++ ys }) :: rest := by
    have hgone : instr.keeps [reg] = false := by simp [Instruction.keeps, hcall, hdest]
    have hys : ∀ r ∈ ys.filterMap Instruction.dest, r ≠ reg :=
      fun r hr heq ↦ hrest.1.1 (heq ▸ hr)
    have hmid : (place func front b block rest (xs ++ instr :: ys)).thinBlock [reg]
        { block with instrs := xs ++ instr :: ys } = { block with instrs := xs ++ ys } := by
      have hfilter : (xs ++ instr :: ys).filter (Instruction.keeps [reg]) = xs ++ ys := by
        rw [filter_append, filter_cons_of_neg (by simp [hgone]),
          hkeeps fun r hr ↦ hbefore r (Or.inr hr), hkeeps hys]
      rw [hblock (b, { block with instrs := xs ++ instr :: ys })
        (mem_append_right _ mem_cons_self), hfilter]
    have hl : front.map (fun entry ↦ (entry.1,
        (place func front b block rest (xs ++ instr :: ys)).thinBlock [reg] entry.2)) = front :=
      (map_congr_left fun entry hentry ↦
        hothers entry (mem_append_left _ hentry) (hfront entry hentry)).trans (map_id _)
    have hr : rest.map (fun entry ↦ (entry.1,
        (place func front b block rest (xs ++ instr :: ys)).thinBlock [reg] entry.2)) = rest :=
      (map_congr_left fun entry hentry ↦
        hothers entry (mem_append_right _ (mem_cons_of_mem _ hentry))
          (hafter entry hentry)).trans (map_id _)
    rw [place, map_append, map_cons]
    exact congrArg₂ (· ++ ·) hl (congrArg₂ List.cons (congrArg (Prod.mk b) hmid) hr)
  rw [Function.thin]
  exact congrArg
    (fun blocks ↦ { place func front b block rest (xs ++ instr :: ys) with blocks }) hmap

/-! ## The sweeps -/

def paramLists (func : Function) : List (BlockId × List VirtualRegister) :=
  func.blocks.map fun entry ↦ (entry.1, entry.2.paramRegs)

/-- What holds of the function at every point: the counts are right, and it is strict and does what
it did at first. -/
structure Kept (func₀ : Function) (uses : Uses) (func : Function) : Prop where
  strict : func.Strict
  refines : Refines func₀ func
  params : paramLists func = paramLists func₀
  uses : uses = usesCount func

theorem Kept.remove {uses : Uses}
    (h : Kept func₀ uses (place func front b block rest (xs ++ instr :: ys)))
    (hcall : instr.opcode ≠ .CALL) (hdest : instr.dest = some reg) (hunused : uses reg = 0) :
    Kept func₀ (dropUses uses instr) (place func front b block rest (xs ++ ys)) := by
  have hdead := dead_singleton ((congrFun h.uses reg).symm.trans hunused)
  have hparams : paramLists (place func front b block rest (xs ++ ys)) = paramLists func₀ := by
    rw [← h.params, paramLists, paramLists, place, place, map_append, map_append]
    rfl
  rw [← thin_place h.strict hcall hdest] at hparams ⊢
  refine ⟨h.strict.thin hdead, h.refines.trans (refines_thin h.strict hdead), hparams,
    funext fun r ↦ ?_⟩
  rw [thin_place h.strict hcall hdest, dropUses, h.uses, usesCount_place_remove]
  exact Nat.add_sub_cancel _ _

/-- A sweep that changes something removes an instruction. -/
theorem sweepInstrs_spec : ∀ (instrs front' : List Instruction) (uses : Uses) (changed : Bool),
    Kept func₀ uses (place func front b block rest (front' ++ instrs)) →
    Kept func₀ (sweepInstrs (uses, changed) instrs).1.1
        (place func front b block rest (front' ++ (sweepInstrs (uses, changed) instrs).2)) ∧
      (sweepInstrs (uses, changed) instrs).2.length ≤ instrs.length ∧
      ((sweepInstrs (uses, changed) instrs).1.2 = true →
        changed = true ∨ (sweepInstrs (uses, changed) instrs).2.length < instrs.length) := by
  intro instrs
  induction instrs with
  | nil => exact fun front' uses changed h ↦ ⟨h, le_rfl, Or.inl⟩
  | cons instr instrs ih =>
    intro front' uses changed h
    rw [append_cons] at h
    obtain ⟨hkept, hle, hchanged⟩ := ih (front' ++ [instr]) uses changed h
    have hvisit : sweepInstrs (uses, changed) (instr :: instrs)
        = visit instr (sweepInstrs (uses, changed) instrs) := rfl
    rw [hvisit]
    generalize sweepInstrs (uses, changed) instrs = state at hkept hle hchanged ⊢
    rw [← append_cons] at hkept
    have hstays : Kept func₀ state.1.1
          (place func front b block rest (front' ++ instr :: state.2)) ∧
        (instr :: state.2).length ≤ (instr :: instrs).length ∧
        (state.1.2 = true → changed = true ∨
          (instr :: state.2).length < (instr :: instrs).length) :=
      ⟨hkept, Nat.succ_le_succ hle, fun h ↦ (hchanged h).imp_right Nat.succ_lt_succ⟩
    rw [visit]
    split_ifs with hcall
    · exact hstays
    · split
      · rename_i reg hdest
        split_ifs with hunused
        · exact ⟨hkept.remove hcall hdest hunused, Nat.le_succ_of_le hle,
            fun _ ↦ Or.inr (Nat.lt_succ_of_le hle)⟩
        · exact hstays
      · exact hstays

/-- How many instructions there are. -/
def instrCount (blocks : List (BlockId × BasicBlock)) : ℕ :=
  (blocks.map fun entry ↦ entry.2.instrs.length).sum

theorem sweepBlocks_spec : ∀ (blocks front : List (BlockId × BasicBlock)) (uses : Uses)
    (changed : Bool), Kept func₀ uses { func with blocks := front ++ blocks } →
    Kept func₀ (sweepBlocks (uses, changed) blocks).1.1
        { func with blocks := front ++ (sweepBlocks (uses, changed) blocks).2 } ∧
      instrCount (sweepBlocks (uses, changed) blocks).2 ≤ instrCount blocks ∧
      ((sweepBlocks (uses, changed) blocks).1.2 = true →
        changed = true ∨ instrCount (sweepBlocks (uses, changed) blocks).2 <
          instrCount blocks) := by
  intro blocks
  induction blocks with
  | nil => exact fun front uses changed h ↦ ⟨h, le_rfl, Or.inl⟩
  | cons entry blocks ih =>
    obtain ⟨b, block⟩ := entry
    intro front uses changed h
    have hplace : Kept func₀ uses (place func front b block blocks ([] ++ block.instrs)) := h
    obtain ⟨hkept, hle, hchanged⟩ := sweepInstrs_spec block.instrs [] uses changed hplace
    rw [sweepBlocks]
    generalize sweepInstrs (uses, changed) block.instrs = swept at hkept hle hchanged ⊢
    obtain ⟨⟨uses', changed'⟩, instrs'⟩ := swept
    dsimp only at hkept hle hchanged ⊢
    rw [nil_append, place, append_cons] at hkept
    obtain ⟨hkept', hle', hchanged'⟩ := ih _ uses' changed' hkept
    generalize sweepBlocks (uses', changed') blocks = others at hkept' hle' hchanged' ⊢
    rw [← append_cons] at hkept'
    refine ⟨hkept', ?_, fun h ↦ ?_⟩
    · simp only [instrCount, map_cons, sum_cons] at hle' ⊢
      omega
    · simp only [instrCount, map_cons, sum_cons] at hle' hchanged' ⊢
      rcases hchanged' h with hc | hlt
      · rcases hchanged hc with hc | hlt
        · exact Or.inl hc
        · right
          omega
      · right
        omega

theorem removeLoop_spec : ∀ (fuel : ℕ) (uses : Uses) (func : Function), Kept func₀ uses func →
    instrCount func.blocks < fuel →
    ∃ func', removeLoop fuel uses func = some func' ∧ func'.Strict ∧ Refines func₀ func' ∧
      paramLists func' = paramLists func₀ := by
  intro fuel
  induction fuel with
  | zero => exact fun _ _ _ hfuel ↦ absurd hfuel (Nat.not_lt_zero _)
  | succ fuel ih =>
    intro uses func h hfuel
    have hblocks : Kept func₀ uses { func with blocks := [] ++ func.blocks } := h
    obtain ⟨hkept, -, hchanged⟩ := sweepBlocks_spec func.blocks [] uses false hblocks
    rw [nil_append] at hkept
    rw [removeLoop]
    generalize sweepBlocks (uses, false) func.blocks = swept at hkept hchanged ⊢
    split_ifs with hc
    · have hless := (hchanged hc).resolve_left Bool.false_ne_true
      exact ih swept.1.1 { func with blocks := swept.2 } hkept
        (hless.trans_le (Nat.le_of_lt_succ hfuel))
    · exact ⟨_, rfl, hkept.strict, hkept.refines, hkept.params⟩

/-- The loop ends with a function that does the same. -/
theorem removeUnusedInstrs_spec (hstrict : func.Strict) {fuel : ℕ}
    (hfuel : instrCount func.blocks < fuel) :
    ∃ func', removeUnusedInstrs func fuel = some func' ∧ func'.Strict ∧ Refines func func' ∧
      paramLists func' = paramLists func :=
  removeLoop_spec fuel (regUses func) func ⟨hstrict, .refl func, rfl, regUses_eq func⟩ hfuel

end Banjo.SSA.DeadCodeElimination
