import Banjo.Codegen.RegAllocFragments

/-!
# The allocation loop ends

A bundle that is not a fragment is given a register or cut into fragments. A fragment that finds no
free register takes the place of a bundle that is not one, which then waits again; this happens
once for each fragment at most. So the loop ends if no fragment is cut again, that is, if a
fragment that finds no free register can always evict: whatever else occupies a register at its
instruction is a fragment or the range of an operand there, and there are registers enough for
these.

The registers a target suggests are tried before those of the class. A bundle with a register of
another class occupies it without being an operand of that class anywhere.
-/

open List Option

namespace Banjo.Codegen

/-- The registers of a class are listed once, and no two classes share one. -/
structure TargetRegAnalyzer.Separates {Instr : Type} (analyzer : TargetRegAnalyzer Instr) :
    Prop where
  nodup : ∀ c, (analyzer.getCandidates c).Nodup
  disjoint : ∀ c c' reg, reg ∈ analyzer.getCandidates c → reg ∈ analyzer.getCandidates c' → c = c'

namespace RegAllocPass

variable {Instr : Type} {analyzer : TargetRegAnalyzer Instr}

/-! ## One iteration -/

/-- The bundle does not take a suggested register that is a candidate of another class. -/
def KeepsClass (analyzer : TargetRegAnalyzer Instr) (ctx : Context Instr) (bundle : Bundle) :
    Prop :=
  ∀ reg, (analyzer.suggestRegs ctx.func bundle).find? (isAllocPossible ctx bundle) = some reg →
    ∀ c, reg ∈ analyzer.getCandidates c → c = bundle.regClass

theorem tryAssign_eq (ctx : Context Instr) (bundle : Bundle) (candidates : List PhysicalReg) :
    tryAssign ctx bundle candidates = (candidates.find? (isAllocPossible ctx bundle)).map
      fun reg ↦ { ctx with allocs := ctx.allocs ++ [⟨reg, bundle⟩] } := by
  induction candidates with
  | nil => rfl
  | cons candidate rest ih =>
    rw [tryAssign, find?_cons]
    split_ifs with h
    · rw [h]
      rfl
    · rw [Bool.not_eq_true] at h
      rw [h, ih]

variable {bundle : Bundle} {ctx : Context Instr}

variable {reg : PhysicalReg}

theorem allocBundle_eq_assign
    (h : (analyzer.suggestRegs ctx.func bundle).find? (isAllocPossible ctx bundle) = some reg) :
    allocBundle analyzer ctx bundle = { ctx with allocs := ctx.allocs ++ [⟨reg, bundle⟩] } := by
  rw [allocBundle, tryAssignSuggestedRegs, tryAssign_eq, h]
  rfl

theorem allocBundle_eq_spill
    (hsuggested : (analyzer.suggestRegs ctx.func bundle).find? (isAllocPossible ctx bundle) = none)
    (hcandidates : (analyzer.getCandidates bundle.regClass).find?
      (isAllocPossible ctx bundle) = none)
    (hevict : tryEvict ctx bundle = none) :
    allocBundle analyzer ctx bundle = spill ctx bundle := by
  rw [allocBundle, tryAssignSuggestedRegs, tryAssignCandidateRegs, tryAssign_eq, tryAssign_eq,
    hsuggested, hcandidates, hevict]
  rfl

theorem evictFirst_eq_none_iff {allocs : List Alloc} :
    evictFirst bundle allocs = none ↔ ∀ alloc ∈ allocs, canEvict bundle alloc = false := by
  induction allocs with
  | nil => simp [evictFirst]
  | cons alloc rest ih =>
    rw [evictFirst, forall_mem_cons]
    split_ifs with hevict
    · simp [hevict]
    · rw [Bool.not_eq_true] at hevict
      rw [map_eq_none_iff, ih]
      exact ⟨fun h ↦ ⟨hevict, h⟩, And.right⟩

/-- The first bundle of the queue is given a suggested register. -/
theorem Step.assign {rest : List Bundle} (hbundles : ctx.bundles = bundle :: rest)
    (htop : IsTop ctx.bundles bundle)
    (h : (analyzer.suggestRegs ctx.func bundle).find? (isAllocPossible ctx bundle) = some reg) :
    Step analyzer ctx { ctx with bundles := rest, allocs := ctx.allocs ++ [⟨reg, bundle⟩] } := by
  have hstep := (.pop htop : Step analyzer ctx _)
  have hassign : allocBundle analyzer { ctx with bundles := ctx.bundles.erase bundle } bundle
      = { ctx with
          bundles := ctx.bundles.erase bundle, allocs := ctx.allocs ++ [⟨reg, bundle⟩] } :=
    allocBundle_eq_assign h
  rw [hassign] at hstep
  simpa only [hbundles, erase_cons_head] using hstep

/-- The only bundle of the queue is cut. -/
theorem Step.spill (hbundles : ctx.bundles = [bundle])
    (hsuggested : (analyzer.suggestRegs ctx.func bundle).find? (isAllocPossible ctx bundle) = none)
    (hcandidates : (analyzer.getCandidates bundle.regClass).find?
      (isAllocPossible ctx bundle) = none)
    (hevict : bundle.evictable = false → evictFirst bundle ctx.allocs = none) :
    Step analyzer ctx (spill { ctx with bundles := [] } bundle) := by
  have htop : IsTop ctx.bundles bundle := by
    rw [hbundles]
    exact ⟨mem_singleton_self _, fun other hother ↦ by rw [mem_singleton.mp hother]⟩
  have hstep := (.pop htop : Step analyzer ctx _)
  rw [hbundles, erase_cons_head, allocBundle_eq_spill] at hstep
  · exact hstep
  · exact hsuggested
  · exact hcandidates
  · rw [tryEvict]
    split_ifs with h
    · rfl
    · rw [Bool.not_eq_true] at h
      rw [hevict h]
      rfl

/-- What one iteration can do. -/
theorem allocBundle_cases (analyzer : TargetRegAnalyzer Instr) (ctx : Context Instr)
    (bundle : Bundle) :
    (∃ reg, ((analyzer.suggestRegs ctx.func bundle).find? (isAllocPossible ctx bundle) = some reg ∨
        reg ∈ analyzer.getCandidates bundle.regClass) ∧
      allocBundle analyzer ctx bundle = { ctx with allocs := ctx.allocs ++ [⟨reg, bundle⟩] }) ∨
    (∃ front alloc back, bundle.evictable = false ∧ ctx.allocs = front ++ alloc :: back ∧
      canEvict bundle alloc = true ∧
      allocBundle analyzer ctx bundle = { ctx with
        allocs := front ++ { alloc with bundle } :: back
        bundles := ctx.bundles ++ [alloc.bundle] }) ∨
    ((∀ reg ∈ analyzer.getCandidates bundle.regClass, isAllocPossible ctx bundle reg = false) ∧
      (bundle.evictable = false → ∀ alloc ∈ ctx.allocs, canEvict bundle alloc = false) ∧
      allocBundle analyzer ctx bundle = spill ctx bundle) := by
  rw [allocBundle, tryAssignSuggestedRegs, tryAssignCandidateRegs, tryAssign_eq, tryAssign_eq]
  rcases hsuggested : (analyzer.suggestRegs ctx.func bundle).find? (isAllocPossible ctx bundle)
    with _ | reg
  · rcases hcandidate : (analyzer.getCandidates bundle.regClass).find?
      (isAllocPossible ctx bundle) with _ | reg
    · have himpossible : ∀ reg ∈ analyzer.getCandidates bundle.regClass,
          isAllocPossible ctx bundle reg = false := by simpa using hcandidate
      rcases hevictable : bundle.evictable with _ | _
      · rcases hevict : evictFirst bundle ctx.allocs with _ | ⟨allocs, evicted⟩
        · exact Or.inr (Or.inr ⟨himpossible, fun _ ↦ evictFirst_eq_none_iff.mp hevict,
            by simp [tryEvict, hevictable, hevict]⟩)
        · obtain ⟨front, alloc, back, hallocs, hcan, rfl, rfl⟩ := evictFirst_spec hevict
          exact Or.inr (Or.inl ⟨front, alloc, back, rfl, hallocs, hcan,
            by simp [tryEvict, hevictable, hevict]⟩)
      · exact Or.inr (Or.inr ⟨himpossible, fun h ↦ Bool.noConfusion h,
          by simp [tryEvict, hevictable]⟩)
    · exact Or.inl ⟨reg, Or.inr (mem_of_find?_eq_some hcandidate), rfl⟩
  · exact Or.inl ⟨reg, Or.inl rfl, rfl⟩

/-! ## The measure -/

section Measure

variable (func : RegAllocFunc Instr)

/-- What a waiting bundle may still cost. -/
def waitingCost (bundle : Bundle) : ℕ :=
  if bundle.evictable then 2 * (spilledBundles func 0 bundle).length + 2 else 2

/-- What an allocated bundle may still cost; a fragment stays where it is. -/
def allocCost (bundle : Bundle) : ℕ :=
  if bundle.evictable then 2 * (spilledBundles func 0 bundle).length + 1 else 0

def cost (ctx : Context Instr) : ℕ :=
  (ctx.bundles.map (waitingCost func)).sum
    + (ctx.allocs.map fun alloc ↦ allocCost func alloc.bundle).sum

theorem allocCost_lt_waitingCost (bundle : Bundle) :
    allocCost func bundle < waitingCost func bundle := by
  rw [allocCost, waitingCost]
  split_ifs <;> omega

variable (slot : StackSlotID)

theorem length_spilledBundles (bundle : Bundle) :
    (spilledBundles func slot bundle).length = (spilledBundles func 0 bundle).length := by
  simpa using congrArg List.length (map_fragmentKey_spilledBundles func slot bundle)

theorem waitingCost_spilledBundles (bundle : Bundle) :
    ((spilledBundles func slot bundle).map (waitingCost func)).sum
      = 2 * (spilledBundles func 0 bundle).length := by
  have hone : ∀ fragment ∈ spilledBundles func slot bundle, waitingCost func fragment = 2 := by
    intro fragment hfragment
    rw [waitingCost, if_neg (by simp [(isFragment_of_mem hfragment).2.2.1])]
  rw [map_congr_left hone, map_const', sum_replicate_nat, length_spilledBundles, Nat.mul_comm]

/-- An iteration that does not cut a fragment costs something. -/
theorem cost_allocBundle (hfunc : ctx.func = func)
    (hspill : (∀ reg ∈ analyzer.getCandidates bundle.regClass,
      isAllocPossible ctx bundle reg = false) →
      (bundle.evictable = false → ∀ alloc ∈ ctx.allocs, canEvict bundle alloc = false) →
      bundle.evictable = true) :
    cost func (allocBundle analyzer ctx bundle) < cost func ctx + waitingCost func bundle := by
  rcases allocBundle_cases analyzer ctx bundle with ⟨reg, -, heq⟩ |
    ⟨front, alloc, back, hfragment, hallocs, hcan, heq⟩ | ⟨himpossible, hevict, heq⟩
  · have hlt := allocCost_lt_waitingCost func bundle
    rw [heq]
    simp only [cost, map_append, map_cons, map_nil, sum_append, sum_cons, sum_nil]
    omega
  · have hevictable : alloc.bundle.evictable = true := by
      rw [canEvict] at hcan
      by_contra hnot
      simp [hnot] at hcan
    rw [heq]
    simp only [cost, hallocs, map_append, map_cons, map_nil, sum_append, sum_cons, sum_nil,
      waitingCost, allocCost, hfragment, hevictable, if_true, Bool.false_eq_true, if_false]
    omega
  · have hevictable := hspill himpossible hevict
    rw [heq, spill]
    simp only [cost, map_append, sum_append, hfunc, waitingCost_spilledBundles]
    rw [waitingCost, if_pos hevictable]
    omega

end Measure

/-! ## Room for fragments -/

/-- How many candidates of a class are reserved somewhere in an instruction. -/
def reservedAt (analyzer : TargetRegAnalyzer Instr) (func : RegAllocFunc Instr) (b i : ℕ)
    (c : RegClass) : ℕ :=
  (analyzer.getCandidates c).countP fun reg ↦
    ((func.blocks[b]?.map RegAllocBlock.reservedSegments).getD []).any fun reserved ↦
      reg = reserved.reg && LiveRange.intersects ⟨b, ⟨i, 0⟩, ⟨i, 1⟩⟩ reserved.range

/-- How many operands of an instruction are registers of a class. -/
def operandsAt (regClasses : VirtualReg → Option RegClass) (func : RegAllocFunc Instr) (b i : ℕ)
    (c : RegClass) : ℕ :=
  (func.opsAt b i).countP fun op ↦
    match op.reg with
    | .fromVirtual reg => regClasses reg = some c
    | .fromPhysical _ => false

/-- At every operand there are fewer reserved registers and register operands than candidates. -/
def Fits (analyzer : TargetRegAnalyzer Instr) (regClasses : VirtualReg → Option RegClass)
    (func : RegAllocFunc Instr) : Prop :=
  ∀ b i reg usage, ⟨.fromVirtual reg, usage⟩ ∈ func.opsAt b i → ∀ c, regClasses reg = some c →
    reservedAt analyzer func b i c + operandsAt regClasses func b i c
      < (analyzer.getCandidates c).length

/-- At every operand there is at most one fragment more than there are operands. -/
def Uncrowded (regClasses : VirtualReg → Option RegClass) (func : RegAllocFunc Instr)
    (bundles : List Bundle) : Prop :=
  ∀ b i reg usage, ⟨.fromVirtual reg, usage⟩ ∈ func.opsAt b i → ∀ c, regClasses reg = some c →
    ∀ range, fragmentRange b i usage = some range →
      crowd func range c bundles ≤ operandsAt regClasses func b i c + 1

/-- The registers of the bundle are of its class, and it is a fragment or made of live ranges. -/
structure Bundle.Formed (regClasses : VirtualReg → Option RegClass) (func : RegAllocFunc Instr)
    (bundle : Bundle) : Prop where
  classes : ∀ s ∈ bundle.segments, regClasses s.reg = some bundle.regClass
  ends : bundle.evictable = true → ∀ s ∈ bundle.segments, s.range.Ends func (.fromVirtual s.reg)
  fragment : bundle.evictable = false → IsFragment func bundle

section Room

variable {regClasses : VirtualReg → Option RegClass} {func : RegAllocFunc Instr}
  {ctx : Context Instr} {usage : RegUsage}

/-- A live range that meets a fragment and does not contain it ends at an operand there. -/
theorem exists_fragment_of_not_contains {bundle : Bundle} {t : Segment} {b i : ℕ}
    {range : LiveRange} (ht : t ∈ bundle.segments) (hends : t.range.Ends func (.fromVirtual t.reg))
    (hrange : fragmentRange b i usage = some range) (hmeets : t.range.intersects range = true)
    (hcontains : t.range.contains range = false) :
    ∃ fragment ∈ spilledBundles func 0 bundle, meets range bundle.regClass fragment = true := by
  obtain ⟨hblock, hstart, hend⟩ := LiveRange.intersects_eq_true_iff.mp hmeets
  have hnot : ¬(t.range.start.value ≤ range.start.value ∧
    range.end_.value ≤ t.range.end_.value) := by
    intro h
    rw [LiveRange.contains_eq_true_iff.mpr ⟨hblock, h⟩] at hcontains
    exact Bool.noConfusion hcontains
  have hstages := hends.start.imp id And.left
  have hstages' := hends.end_.imp id And.left
  cases usage with
  | KILL => cases hrange
  | DEF =>
    cases hrange
    exact absurd ⟨hstart, hend⟩ hnot
  | USE =>
    cases hrange
    exact absurd ⟨hstart, hend⟩ hnot
  | USE_DEF =>
    cases hrange
    simp only [RegAllocPoint.value] at hstart hend hnot hblock
    subst hblock
    by_cases hat : t.range.start.stage = 1 ∧ t.range.start.instr = i
    · -- it starts at the definition
      obtain ⟨-, hdef⟩ := hends.start.resolve_left (by omega)
      refine ⟨_, mem_spilledBundles.mpr ⟨t, ht, i, by omega, by omega, .DEF, hat.2 ▸ hdef, rfl⟩, ?_⟩
      simp [meets, LiveRange.intersects]
    · -- it ends at the use
      have hinstr : t.range.end_.instr = i := by omega
      obtain ⟨-, huse⟩ := hends.end_.resolve_left (by omega)
      refine ⟨_, mem_spilledBundles.mpr ⟨t, ht, i, by omega, by omega, .USE,
        hinstr ▸ huse, rfl⟩, ?_⟩
      simp [meets, LiveRange.intersects]

/-- What keeps a fragment out of a register and cannot be evicted counts as a fragment there. -/
theorem countP_fragments_pos {bundle : Bundle} {alloc : Alloc} {s t : Segment} {b i : ℕ}
    (halloc : Bundle.Formed regClasses func alloc.bundle)
    (hclass : alloc.bundle.regClass = bundle.regClass) (hsegments : bundle.segments = [s])
    (hrange : fragmentRange b i usage = some s.range) (ht : t ∈ alloc.bundle.segments)
    (hmeets : t.range.intersects s.range = true) (hevict : canEvict bundle alloc = false) :
    0 < (fragments func alloc.bundle).countP (meets s.range bundle.regClass) := by
  rw [List.countP_pos_iff, fragments]
  rcases hevictable : alloc.bundle.evictable with _ | _
  · refine ⟨alloc.bundle, by simp, ?_⟩
    rw [meets, hclass, decide_eq_true rfl, Bool.true_and, List.any_eq_true]
    exact ⟨t, ht, hmeets⟩
  · have hcontains : t.range.contains s.range = false := by
      rw [canEvict, if_neg (by simp [hevictable, hclass]), hsegments] at hevict
      simp only [all_cons, all_nil, Bool.and_true, List.any_eq_false] at hevict
      exact Bool.not_eq_true _ ▸ hevict t ht
    rw [if_pos rfl, ← hclass]
    exact exists_fragment_of_not_contains ht (halloc.ends hevictable t ht) hrange hmeets hcontains

theorem length_filter_le_crowd {range : LiveRange} {c : RegClass} (allocs : List Alloc) :
    (allocs.filter fun alloc ↦
      decide (0 < (fragments func alloc.bundle).countP (meets range c))).length
      ≤ crowd func range c (allocs.map Alloc.bundle) := by
  induction allocs with
  | nil => exact le_rfl
  | cons alloc rest ih =>
    rw [filter_cons, map_cons, crowd_cons]
    split_ifs with h
    · rw [length_cons]
      have hpos := of_decide_eq_true h
      omega
    · omega

theorem contains_of_fragmentRange {b i : ℕ} {range : LiveRange}
    (h : fragmentRange b i usage = some range) :
    range.block = b ∧ LiveRange.contains ⟨b, ⟨i, 0⟩, ⟨i, 1⟩⟩ range = true := by
  cases usage <;> cases h <;> simp [LiveRange.contains]

/-- A register that is not reserved in the instruction and not free is allocated. -/
theorem exists_alloc_of_impossible {bundle : Bundle} {s : Segment} {b i : ℕ}
    {reg : PhysicalReg} (hsegments : bundle.segments = [s])
    (hrange : fragmentRange b i usage = some s.range)
    (himpossible : isAllocPossible ctx bundle reg = false)
    (hfree : ∀ reserved ∈ (ctx.func.blocks[b]?.map RegAllocBlock.reservedSegments).getD [],
      reg = reserved.reg → LiveRange.intersects ⟨b, ⟨i, 0⟩, ⟨i, 1⟩⟩ reserved.range = false) :
    ∃ alloc ∈ ctx.allocs, alloc.physicalReg = reg ∧
      ∃ t ∈ alloc.bundle.segments, t.range.intersects s.range = true := by
  obtain ⟨hblock, hcontains⟩ := contains_of_fragmentRange hrange
  by_contra hnone
  refine Bool.eq_false_iff.mp himpossible ?_
  simp only [isAllocPossible, hsegments, all_cons, all_nil, Bool.and_true,
    Bool.and_eq_true, List.all_eq_true, Bool.not_eq_true', Bool.and_eq_false_iff,
    decide_eq_false_iff_not]
  refine ⟨fun reserved hreserved ↦ ?_, fun alloc halloc t ht ↦ ?_⟩
  · by_cases hreg : reg = reserved.reg
    · refine Or.inr (Bool.eq_false_iff.mpr fun hmeets ↦ ?_)
      have := hfree reserved (hblock ▸ hreserved) hreg
      rw [LiveRange.intersects_of_contains hcontains hmeets] at this
      exact Bool.noConfusion this
    · exact Or.inl hreg
  · by_cases hreg : alloc.physicalReg = reg
    · exact Or.inr (Bool.eq_false_iff.mpr fun hmeets ↦ hnone ⟨alloc, halloc, hreg, t, ht, hmeets⟩)
    · exact Or.inl hreg

/-- Each candidate that a fragment cannot take is reserved or taken by what counts there. -/
theorem length_candidates_le {s : Segment} {b i : ℕ}
    (hsep : analyzer.Separates)
    (hformed : ∀ alloc ∈ ctx.allocs, Bundle.Formed regClasses func alloc.bundle)
    (hclasses : ∀ alloc ∈ ctx.allocs, ∀ c, alloc.physicalReg ∈ analyzer.getCandidates c →
      c = alloc.bundle.regClass)
    (hsegments : bundle.segments = [s]) (hrange : fragmentRange b i usage = some s.range)
    (himpossible : ∀ reg ∈ analyzer.getCandidates bundle.regClass,
      isAllocPossible ctx bundle reg = false)
    (hevict : ∀ alloc ∈ ctx.allocs, canEvict bundle alloc = false) :
    (analyzer.getCandidates bundle.regClass).length
      ≤ reservedAt analyzer ctx.func b i bundle.regClass
        + crowd func s.range bundle.regClass (ctx.allocs.map Alloc.bundle) := by
  rw [reservedAt]
  generalize htest : (fun reg ↦ ((ctx.func.blocks[b]?.map RegAllocBlock.reservedSegments).getD
    []).any fun reserved ↦ decide (reg = reserved.reg) &&
      LiveRange.intersects ⟨b, ⟨i, 0⟩, ⟨i, 1⟩⟩ reserved.range) = test
  rw [length_eq_countP_add_countP test]
  refine Nat.add_le_add_left ?_ _
  rw [countP_eq_length_filter]
  refine le_trans ?_ (length_filter_le_crowd ctx.allocs)
  rw [← length_map Alloc.physicalReg]
  refine (List.Nodup.subperm ((hsep.nodup _).filter _) fun reg hreg ↦ ?_).length_le
  obtain ⟨hcandidate, hfree⟩ := mem_filter.mp hreg
  obtain ⟨alloc, halloc, rfl, t, ht, hmeets⟩ : ∃ alloc ∈ ctx.allocs, alloc.physicalReg = reg ∧
      ∃ t ∈ alloc.bundle.segments, t.range.intersects s.range = true := by
    rw [← htest] at hfree
    exact exists_alloc_of_impossible hsegments hrange (himpossible reg hcandidate)
      (by simpa using hfree)
  refine mem_map.mpr ⟨alloc, mem_filter.mpr ⟨halloc, decide_eq_true ?_⟩, rfl⟩
  exact countP_fragments_pos (hformed alloc halloc) (hclasses alloc halloc _ hcandidate).symm
    hsegments hrange ht hmeets (hevict alloc halloc)

end Room

/-! ## The invariant -/

/-- What every context of the loop satisfies, as long as bundles keep to their classes. -/
structure Settled (analyzer : TargetRegAnalyzer Instr) (regClasses : VirtualReg → Option RegClass)
    (func : RegAllocFunc Instr) (initial : List Bundle) (ctx : Context Instr) : Prop where
  func_eq : ctx.func = func
  waiting : ∀ bundle ∈ ctx.bundles, Bundle.Formed regClasses func bundle
  allocated : ∀ alloc ∈ ctx.allocs, Bundle.Formed regClasses func alloc.bundle
  classes : ∀ alloc ∈ ctx.allocs, ∀ c, alloc.physicalReg ∈ analyzer.getCandidates c →
    c = alloc.bundle.regClass
  crowd_le : ∀ range c, crowd func range c (ctx.allocs.map Alloc.bundle)
    + crowd func range c ctx.bundles ≤ crowd func range c initial

section Loop

variable {regClasses : VirtualReg → Option RegClass} {func : RegAllocFunc Instr}
  {initial : List Bundle} {ctx ctx' : Context Instr}

variable {bundle : Bundle}

/-- The segment of a fragment and the operand it is around. -/
theorem IsFragment.exists_segment (h : IsFragment func bundle) :
    ∃ b i reg usage range, ⟨.fromVirtual reg, usage⟩ ∈ func.opsAt b i ∧
      fragmentRange b i usage = some range ∧ bundle.segments = [⟨reg, range⟩] ∧
      bundle.evictable = false := by
  obtain ⟨b, i, reg, usage, range, hop, hrange, hkey⟩ := h
  exact ⟨b, i, reg, usage, range, hop, hrange, congrArg Prod.fst hkey,
    congrArg (fun k ↦ k.2.2) hkey⟩

theorem meets_self {b i : ℕ} {reg : VirtualReg} {usage : RegUsage}
    {range : LiveRange} (hrange : fragmentRange b i usage = some range)
    (hsegments : bundle.segments = [⟨reg, range⟩]) : meets range bundle.regClass bundle = true := by
  rw [meets, hsegments]
  cases usage <;> cases hrange <;> simp [LiveRange.intersects]

/-- **A fragment is not cut again**: it finds a free register or one to evict. -/
theorem Settled.not_spill (hsep : analyzer.Separates)
    (hfits : Fits analyzer regClasses func) (huncrowded : Uncrowded regClasses func initial)
    (hctx : Settled analyzer regClasses func initial ctx)
    (hbundle : Bundle.Formed regClasses func bundle)
    (hcrowd : ∀ range c, crowd func range c (ctx.allocs.map Alloc.bundle)
      + (fragments func bundle).countP (meets range c) ≤ crowd func range c initial)
    (hfragment : bundle.evictable = false)
    (himpossible : ∀ reg ∈ analyzer.getCandidates bundle.regClass,
      isAllocPossible ctx bundle reg = false)
    (hevict : ∀ alloc ∈ ctx.allocs, canEvict bundle alloc = false) : False := by
  obtain ⟨b, i, reg, usage, range, hop, hrange, hsegments, -⟩ :=
    (hbundle.fragment hfragment).exists_segment
  have hclass : regClasses reg = some bundle.regClass :=
    hbundle.classes ⟨reg, range⟩ (by rw [hsegments]; exact mem_singleton_self _)
  have hlength := length_candidates_le hsep hctx.allocated hctx.classes hsegments hrange
    himpossible hevict
  rw [hctx.func_eq] at hlength
  dsimp only at hlength
  have hself : (fragments func bundle).countP (meets range bundle.regClass) = 1 := by
    rw [fragments, if_neg (by simp [hfragment]), countP_singleton,
      if_pos (meets_self hrange hsegments)]
  have htotal := hcrowd range bundle.regClass
  have hroom := hfits b i reg usage hop _ hclass
  have hmany := huncrowded b i reg usage hop _ hclass range hrange
  omega

/-- A bundle that is popped. -/
theorem Settled.pop (hctx : Settled analyzer regClasses func initial ctx)
    (hmem : bundle ∈ ctx.bundles) : Settled analyzer regClasses func initial
      { ctx with bundles := ctx.bundles.erase bundle } ∧ Bundle.Formed regClasses func bundle ∧
      ∀ range c, crowd func range c (ctx.allocs.map Alloc.bundle)
        + (fragments func bundle).countP (meets range c)
        + crowd func range c (ctx.bundles.erase bundle) ≤ crowd func range c initial := by
  have hcrowd : ∀ range c, crowd func range c (ctx.allocs.map Alloc.bundle)
        + (fragments func bundle).countP (meets range c)
        + crowd func range c (ctx.bundles.erase bundle) ≤ crowd func range c initial := by
    intro range c
    rw [Nat.add_assoc, crowd_erase hmem]
    exact hctx.crowd_le range c
  refine ⟨{ hctx with waiting := ?_, crowd_le := ?_ }, hctx.waiting bundle hmem, hcrowd⟩
  · exact fun other hother ↦ hctx.waiting other (mem_of_mem_erase hother)
  · intro range c
    have h := hcrowd range c
    dsimp only
    omega

theorem Settled.allocBundle (hsep : analyzer.Separates)
    (hctx : Settled analyzer regClasses func initial ctx)
    (hbundle : Bundle.Formed regClasses func bundle)
    (hcrowd : ∀ range c, crowd func range c (ctx.allocs.map Alloc.bundle)
      + (fragments func bundle).countP (meets range c)
      + crowd func range c ctx.bundles ≤ crowd func range c initial)
    (hspill : (∀ reg ∈ analyzer.getCandidates bundle.regClass,
      isAllocPossible ctx bundle reg = false) →
      (bundle.evictable = false → ∀ alloc ∈ ctx.allocs, canEvict bundle alloc = false) →
      bundle.evictable = true)
    (hkeeps : KeepsClass analyzer ctx bundle) :
    Settled analyzer regClasses func initial (allocBundle analyzer ctx bundle) := by
  rcases allocBundle_cases analyzer ctx bundle with ⟨reg, hreg, heq⟩ |
    ⟨front, alloc, back, hfragment, hallocs, hcan, heq⟩ | ⟨himpossible, hevict, heq⟩
  · rw [heq]
    refine { hctx with allocated := ?_, classes := ?_, crowd_le := ?_ }
    · exact forall_mem_append.mpr ⟨hctx.allocated, forall_mem_singleton.mpr hbundle⟩
    · refine forall_mem_append.mpr ⟨hctx.classes, forall_mem_singleton.mpr fun c hc ↦ ?_⟩
      rcases hreg with hsuggested | hcandidate
      · exact hkeeps reg hsuggested c hc
      · exact hsep.disjoint _ _ reg hc hcandidate
    · intro range c
      have h := hcrowd range c
      simp only [map_append, map_cons, map_nil, crowd_append, crowd_cons, crowd_nil]
      omega
  · have halloc : alloc ∈ ctx.allocs := by simp [hallocs]
    have hkept : ∀ other ∈ front ++ back, other ∈ ctx.allocs := by
      intro other hother
      rw [hallocs]
      exact (List.Sublist.append_left (sublist_cons_self alloc back) front).subset hother
    have hclass : alloc.bundle.regClass = bundle.regClass := by
      rw [canEvict] at hcan
      by_contra hne
      simp [hne] at hcan
    rw [heq]
    refine {
      func_eq := hctx.func_eq, waiting := ?_, allocated := ?_, classes := ?_, crowd_le := ?_ }
    · exact forall_mem_append.mpr ⟨hctx.waiting,
        forall_mem_singleton.mpr (hctx.allocated alloc halloc)⟩
    · refine forall_mem_append.mpr ⟨fun other hother ↦ ?_, forall_mem_cons.mpr
        ⟨hbundle, fun other hother ↦ ?_⟩⟩
      · exact hctx.allocated other (hkept other (mem_append_left _ hother))
      · exact hctx.allocated other (hkept other (mem_append_right _ hother))
    · refine forall_mem_append.mpr ⟨fun other hother ↦ ?_, forall_mem_cons.mpr
        ⟨fun c hc ↦ ?_, fun other hother ↦ ?_⟩⟩
      · exact hctx.classes other (hkept other (mem_append_left _ hother))
      · exact (hctx.classes alloc halloc c hc).trans hclass
      · exact hctx.classes other (hkept other (mem_append_right _ hother))
    · intro range c
      have h := hcrowd range c
      simp only [hallocs, map_append, map_cons, crowd_append, crowd_cons, crowd_nil] at h ⊢
      omega
  · have hevictable := hspill himpossible hevict
    rw [heq, spill]
    refine { hctx with waiting := ?_, crowd_le := ?_ }
    · refine forall_mem_append.mpr ⟨hctx.waiting, fun fragment hmem ↦ ?_⟩
      rw [hctx.func_eq] at hmem
      obtain ⟨hfragment, hclass, hnot, hregs⟩ := isFragment_of_mem hmem
      refine ⟨fun s hs ↦ ?_, fun h ↦ Bool.noConfusion (hnot.symm.trans h), fun _ ↦ hfragment⟩
      obtain ⟨t, ht, hreg⟩ := hregs s hs
      rw [hreg, hclass]
      exact hbundle.classes t ht
    · intro range c
      have h := hcrowd range c
      rw [fragments, if_pos hevictable] at h
      simp only [crowd_append, hctx.func_eq, crowd_spilledBundles]
      omega

/-- One iteration in which the popped bundle does not take a register of another class. -/
inductive KeepingStep (analyzer : TargetRegAnalyzer Instr) : Context Instr → Context Instr → Prop
  | pop {ctx : Context Instr} {bundle : Bundle} (htop : IsTop ctx.bundles bundle)
    (hkeeps : KeepsClass analyzer { ctx with bundles := ctx.bundles.erase bundle } bundle) :
    KeepingStep analyzer ctx
      (allocBundle analyzer { ctx with bundles := ctx.bundles.erase bundle } bundle)

theorem cost_erase (func : RegAllocFunc Instr) (hmem : bundle ∈ ctx.bundles) :
    cost func { ctx with bundles := ctx.bundles.erase bundle } + waitingCost func bundle
      = cost func ctx := by
  have hsum := ((perm_cons_erase hmem).map (waitingCost func)).sum_eq
  rw [map_cons, sum_cons] at hsum
  simp only [cost]
  omega

theorem Settled.step (hsep : analyzer.Separates) (hfits : Fits analyzer regClasses func)
    (huncrowded : Uncrowded regClasses func initial)
    (hctx : Settled analyzer regClasses func initial ctx) (hstep : KeepingStep analyzer ctx ctx') :
    Settled analyzer regClasses func initial ctx' ∧ cost func ctx' < cost func ctx := by
  cases hstep with
  | @pop bundle htop hkeeps =>
    obtain ⟨hpopped, hbundle, hcrowd⟩ := hctx.pop htop.1
    have hspill : (∀ reg ∈ analyzer.getCandidates bundle.regClass,
        isAllocPossible { ctx with bundles := ctx.bundles.erase bundle } bundle reg = false) →
        (bundle.evictable = false → ∀ alloc ∈ ctx.allocs, canEvict bundle alloc = false) →
        bundle.evictable = true := by
      intro himpossible hevict
      by_contra hnot
      rw [Bool.not_eq_true] at hnot
      refine hpopped.not_spill hsep hfits huncrowded hbundle (fun range c ↦ ?_) hnot himpossible
        (hevict hnot)
      exact (Nat.le_add_right _ _).trans (hcrowd range c)
    refine ⟨hpopped.allocBundle hsep hbundle hcrowd hspill hkeeps, ?_⟩
    rw [← cost_erase func htop.1]
    exact cost_allocBundle func hpopped.func_eq hspill

/-- No run goes on for ever. -/
theorem Settled.no_run (hsep : analyzer.Separates) (hfits : Fits analyzer regClasses func)
    (huncrowded : Uncrowded regClasses func initial)
    (hctx : Settled analyzer regClasses func initial ctx) {run : ℕ → Context Instr}
    (hstart : run 0 = ctx) : ¬∀ n, KeepingStep analyzer (run n) (run (n + 1)) := by
  intro hrun
  have hall : ∀ n, Settled analyzer regClasses func initial (run n) ∧
      cost func (run n) + n ≤ cost func ctx := by
    intro n
    induction n with
    | zero => exact ⟨hstart ▸ hctx, by rw [hstart, Nat.add_zero]⟩
    | succ n ih =>
      obtain ⟨hsettled, hlt⟩ := ih.1.step hsep hfits huncrowded (hrun n)
      exact ⟨hsettled, by omega⟩
  have hlast := (hall (cost func ctx + 1)).2
  omega

end Loop

/-! ## Where the loop starts -/

section Start

variable {regClasses : VirtualReg → Option RegClass} {func : RegAllocFunc Instr}

theorem sum_map_modify {α : Type} (w : α → ℕ) (f : α → α) : ∀ {l : List α} {i : ℕ} {x : α},
    l[i]? = some x → ((l.modify i f).map w).sum + w x = (l.map w).sum + w (f x) := by
  intro l
  induction l with
  | nil => intro i x h; cases h
  | cons y l ih =>
    intro i x h
    cases i with
    | zero =>
      obtain rfl := some.inj h
      simp only [modify_zero_cons, map_cons, sum_cons]
      omega
    | succ i =>
      have hrest := ih (x := x) h
      simp only [modify_succ_cons, map_cons, sum_cons]
      omega

/-- How many fragments of a bundle meet a range, while it is not coalesced into another. -/
def standing (func : RegAllocFunc Instr) (range : LiveRange) (c : RegClass) (bundle : Bundle) : ℕ :=
  if bundle.deleted then 0 else (spilledBundles func 0 bundle).countP (meets range c)

variable {b : Bundle} {segment : Segment}

theorem spilledBundles_append (a : Bundle)
    (hb : b.segments = [segment]) (hclass : a.regClass = b.regClass) (slot : StackSlotID) :
    spilledBundles func slot { a with segments := a.segments ++ [segment] }
      = spilledBundles func slot a ++ spilledBundles func slot b := by
  simp only [spilledBundles, hb, hclass, flatMap_append]

variable {a : Bundle}

theorem coalescedSegment_class
    (h : coalescedSegment analyzer func a b = some segment) : a.regClass = b.regClass := by
  rw [coalescedSegment] at h
  by_contra hne
  rw [if_pos hne] at h
  cases h

/-- The bundles are made of live ranges, and no more fragments meet a range than before. -/
structure Coalescing (regClasses : VirtualReg → Option RegClass) (func : RegAllocFunc Instr)
    (initial bundles : List Bundle) : Prop where
  formed : ∀ bundle ∈ bundles, bundle.evictable = true ∧ Bundle.Formed regClasses func bundle
  standing_le : ∀ range c, (bundles.map (standing func range c)).sum ≤ crowd func range c initial

theorem standing_append_le (a : Bundle) {range : LiveRange}
    {c : RegClass} (hb : b.segments = [segment]) (hclass : a.regClass = b.regClass)
    (hdeleted : b.deleted = false) :
    standing func range c { a with segments := a.segments ++ [segment] }
      ≤ standing func range c a + standing func range c b := by
  simp only [standing, hdeleted, spilledBundles_append a hb hclass, countP_append]
  split_ifs <;> simp_all

theorem Bundle.Formed.append
    (ha : Bundle.Formed regClasses func a) (hevictable : a.evictable = true)
    (hb : Bundle.Formed regClasses func b) (hevictable' : b.evictable = true)
    (hsegments : b.segments = [segment]) (hclass : a.regClass = b.regClass) :
    Bundle.Formed regClasses func { a with segments := a.segments ++ [segment] } := by
  have hmem : segment ∈ b.segments := by rw [hsegments]; exact mem_singleton_self _
  refine ⟨?_, fun _ ↦ ?_, fun h ↦ Bool.noConfusion (hevictable.symm.trans h)⟩
  · refine forall_mem_append.mpr ⟨ha.classes, forall_mem_singleton.mpr ?_⟩
    dsimp only
    rw [hclass]
    exact hb.classes segment hmem
  · exact forall_mem_append.mpr ⟨ha.ends hevictable,
      forall_mem_singleton.mpr (hb.ends hevictable' segment hmem)⟩

theorem Coalescing.tryCoalesce {initial bundles : List Bundle} {i j : ℕ}
    (h : Coalescing regClasses func initial bundles) (hj : isDeleted bundles j = false) :
    Coalescing regClasses func initial (tryCoalesce analyzer func bundles i j) := by
  rw [RegAllocPass.tryCoalesce]
  split
  · rename_i a b ha hb
    split
    · rename_i segment hsegment
      obtain ⟨hsegments, -⟩ := coalescedSegment_spec hsegment
      have hclass := coalescedSegment_class hsegment
      have hdeleted : b.deleted = false := by simpa [isDeleted, hb] using hj
      obtain ⟨hevictable', hformed'⟩ := h.formed b (mem_of_getElem? hb)
      refine ⟨forall_mem_modify (forall_mem_modify h.formed ?_) ?_, fun range c ↦ ?_⟩
      · rintro x hx ⟨hevictable, hformed⟩
        obtain rfl : a = x := some.inj (ha.symm.trans hx)
        exact ⟨hevictable, hformed.append hevictable hformed' hevictable' hsegments hclass⟩
      · rintro x - ⟨hevictable, hformed⟩
        exact ⟨hevictable, hformed.classes, hformed.ends, hformed.fragment⟩
      · have hjoin := sum_map_modify (standing func range c)
          (fun a ↦ { a with segments := a.segments ++ [segment] }) ha
        have hle := h.standing_le range c
        have hdead : ∀ x : Bundle, standing func range c { x with deleted := true } = 0 :=
          fun x ↦ by simp [standing]
        by_cases hij : i = j
        · subst hij
          have hdelete := sum_map_modify (standing func range c)
            (fun b ↦ { b with deleted := true })
            (l := bundles.modify i fun a ↦ { a with segments := a.segments ++ [segment] })
            (i := i) (x := { a with segments := a.segments ++ [segment] })
            (by rw [getElem?_modify, ha]; simp)
          rw [hdead] at hdelete
          omega
        · have hdelete := sum_map_modify (standing func range c)
            (fun b ↦ { b with deleted := true })
            (l := bundles.modify i fun a ↦ { a with segments := a.segments ++ [segment] })
            (i := j) (x := b) (by rw [getElem?_modify, hb]; simp [hij])
          have happend : standing func range c { a with segments := a.segments ++ [segment] }
              ≤ standing func range c a + standing func range c b :=
            standing_append_le a hsegments hclass hdeleted
          rw [hdead] at hdelete
          omega
    · exact h
  · exact h

theorem Coalescing.coalesceBundles {initial bundles : List Bundle}
    (h : Coalescing regClasses func initial bundles) :
    Coalescing regClasses func initial (coalesceBundles analyzer func bundles) := by
  have hfold : Coalescing regClasses func initial
      ((List.range bundles.length).foldl (fun bundles' i ↦ if isDeleted bundles' i then bundles'
        else coalesceInto analyzer func bundles.length i bundles') bundles) := by
    refine foldl_induct (P := Coalescing regClasses func initial) (fun bundles' i hi ↦ ?_) _ h
    split_ifs
    · exact hi
    · refine foldl_induct (P := Coalescing regClasses func initial) (fun bundles' j hj ↦ ?_) _ hi
      split_ifs with hdeleted
      · exact hj
      · exact hj.tryCoalesce (Bool.not_eq_true _ ▸ hdeleted)
  refine ⟨fun bundle hbundle ↦ hfold.formed bundle (mem_filter.mp hbundle).1,
    fun range c ↦ le_trans ?_ (hfold.standing_le range c)⟩
  rw [RegAllocPass.coalesceBundles]
  exact List.Sublist.sum_le_sum (filter_sublist.map _) fun _ _ ↦ Nat.zero_le _

theorem crowd_eq_standing {range : LiveRange} {c : RegClass} {bundles : List Bundle}
    (h : ∀ bundle ∈ bundles, bundle.evictable = true ∧ bundle.deleted = false) :
    crowd func range c bundles = (bundles.map (standing func range c)).sum := by
  rw [crowd]
  refine congrArg List.sum (map_congr_left fun bundle hbundle ↦ ?_)
  obtain ⟨hevictable, hdeleted⟩ := h bundle hbundle
  simp [fragments, standing, hevictable, hdeleted]

theorem createBundles_formed {regRanges : RegRanges} (hends : regRanges.Ends func) :
    ∀ {bundles : List Bundle}, createBundles regClasses regRanges = some bundles →
    ∀ bundle ∈ bundles, Bundle.Formed regClasses func bundle ∧ bundle.evictable = true ∧
      bundle.deleted = false := by
  induction regRanges with
  | nil =>
    intro bundles h bundle hbundle
    rw [createBundles, some.injEq] at h
    simp [← h] at hbundle
  | cons head rest ih =>
    obtain ⟨reg, ranges⟩ := head
    have hrest : RegRanges.Ends func rest := fun entry hentry ↦
      hends entry (mem_cons_of_mem _ hentry)
    intro bundles h
    cases reg with
    | fromPhysical reg => exact ih hrest h
    | fromVirtual reg =>
      simp only [createBundles, bind_eq_bind, Option.bind_eq_some_iff, Option.pure_def,
        some.injEq] at h
      obtain ⟨regClass, hclass, others, hothers, rfl⟩ := h
      refine List.forall_mem_cons.mpr ⟨⟨⟨?_, ?_, fun h ↦ Bool.noConfusion h⟩, rfl, rfl⟩,
        ih hrest hothers⟩
      · exact forall_mem_map.mpr fun _ _ ↦ hclass
      · exact fun _ ↦ forall_mem_map.mpr fun range hrange ↦ hends _ mem_cons_self range hrange

/-- Reserving registers leaves the instructions alone. -/
theorem opsAt_reserveFixedRanges (func : RegAllocFunc Instr) (liveness : LivenessAnalysis)
    (b i : ℕ) : (reserveFixedRanges func liveness).opsAt b i = func.opsAt b i := by
  rw [reserveFixedRanges]
  refine foldl_induct (P := fun func' : RegAllocFunc Instr ↦ func'.opsAt b i = func.opsAt b i)
    (fun func' segment h ↦ ?_) _ rfl
  rw [← h, RegAllocFunc.opsAt, RegAllocFunc.opsAt, reserve, getElem?_modify]
  rcases func'.blocks[b]? with _ | block
  · rfl
  · by_cases hb : segment.range.block = b <;> simp [hb]

theorem settled_initContext {liveness : LivenessAnalysis} {bundles : List Bundle}
    {stackSlots : ℕ} {start : Context Instr} (hlive : LivenessAnalysis.compute func = some liveness)
    (hbundles : createBundles regClasses liveness.regRanges = some bundles)
    (hstart : initContext analyzer func liveness regClasses stackSlots = some start) :
    Settled analyzer regClasses start.func bundles start := by
  simp only [initContext, hbundles, bind_eq_bind, Option.bind_some, Option.pure_def,
    some.injEq] at hstart
  subst hstart
  have hends : liveness.regRanges.Ends (reserveFixedRanges func liveness) := by
    intro entry hentry range hrange
    obtain ⟨hfirst, hlast⟩ := LivenessAnalysis.compute_ends hlive entry hentry range hrange
    exact ⟨by rwa [opsAt_reserveFixedRanges], by rwa [opsAt_reserveFixedRanges]⟩
  have hformed := createBundles_formed hends hbundles
  have hcoalesced : Coalescing regClasses (reserveFixedRanges func liveness) bundles
      (coalesceBundles analyzer (reserveFixedRanges func liveness) bundles) := by
    refine Coalescing.coalesceBundles ⟨fun bundle h ↦
      ⟨(hformed bundle h).2.1, (hformed bundle h).1⟩,
      fun range c ↦ ?_⟩
    rw [crowd_eq_standing fun bundle h ↦ (hformed bundle h).2]
  refine ⟨rfl, fun bundle h ↦ (hcoalesced.formed bundle h).2, by simp, by simp, fun range c ↦ ?_⟩
  rw [List.map_nil, crowd_nil, Nat.zero_add, crowd_eq_standing fun bundle h ↦
    ⟨(hcoalesced.formed bundle h).1, by simpa using (List.mem_filter.mp h).2⟩]
  exact hcoalesced.standing_le range c

/-- **The loop ends** as long as no bundle takes a suggested register of another class: at every
operand there are more candidates than reserved registers and register operands, and at most one
fragment more than operands. -/
theorem no_endless_run {source : List (MBlock Instr)} {liveness : LivenessAnalysis}
    {bundles : List Bundle} {stackSlots : ℕ} {start : Context Instr} (hsep : analyzer.Separates)
    (hlive : LivenessAnalysis.compute (createRegAllocFunc analyzer source) = some liveness)
    (hbundles : createBundles regClasses liveness.regRanges = some bundles)
    (hstart : initContext analyzer (createRegAllocFunc analyzer source) liveness regClasses
      stackSlots = some start)
    (hfits : Fits analyzer regClasses start.func)
    (huncrowded : Uncrowded regClasses start.func bundles) :
    ¬∃ run : ℕ → Context Instr, run 0 = start ∧
      ∀ n, KeepingStep analyzer (run n) (run (n + 1)) := by
  rintro ⟨run, hfirst, hrun⟩
  exact (settled_initContext hlive hbundles hstart).no_run hsep hfits huncrowded hfirst hrun

end Start

end RegAllocPass

end Banjo.Codegen
