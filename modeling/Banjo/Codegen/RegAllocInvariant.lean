import Banjo.Codegen.RegAllocPass

/-!
# No two allocations share a register

The invariant of the allocation loop. Allocations to one physical register have disjoint segments,
and no allocated segment meets a segment reserved for its register. Assigning checks exactly this;
evicting keeps it because every segment of the new bundle lies inside a segment of the bundle it
replaces; spilling allocates nothing.

Inside one bundle two segments may meet only if they are two ranges of one virtual register which
liveness already gave out overlapping. Coalescing joins bundles of different registers only when
they do not meet, so it adds no such pair.
-/

open List Option

namespace Banjo.Codegen

namespace RegAllocPass

variable {Instr : Type} {analyzer : TargetRegAnalyzer Instr}

/-! ## The invariant -/

/-- The two segments are two ranges of one virtual register, in this order in its list. -/
def SameRegRanges (liveness : LivenessAnalysis) (s t : Segment) : Prop :=
  s.reg = t.reg ∧ ∃ ranges, (Register.fromVirtual s.reg, ranges) ∈ liveness.regRanges
    ∧ [s.range, t.range].Sublist ranges

/-- The segments of a bundle meet only where liveness itself overlaps. -/
def Bundle.Coherent (liveness : LivenessAnalysis) (bundle : Bundle) : Prop :=
  bundle.segments.Pairwise fun s t ↦ s.range.intersects t.range = true → SameRegRanges liveness s t

/-- Bundles that may share a register. -/
def Bundle.Apart (a b : Bundle) : Prop :=
  ∀ s ∈ a.segments, ∀ t ∈ b.segments, s.range.intersects t.range = false

/-- Allocations to one register have disjoint segments. -/
def AllocsDisjoint (ctx : Context Instr) : Prop :=
  ctx.allocs.Pairwise fun a b ↦ a.physicalReg = b.physicalReg → Bundle.Apart a.bundle b.bundle

/-- No allocated segment meets a segment reserved for its register. -/
def AvoidsReserved (ctx : Context Instr) : Prop :=
  ∀ alloc ∈ ctx.allocs, ∀ segment ∈ alloc.bundle.segments, ∀ block ∈ ctx.func.blocks,
    ∀ reserved ∈ block.reservedSegments, alloc.physicalReg = reserved.reg →
      segment.range.intersects reserved.range = false

/-- Each block holds the reserved segments of that block. -/
def ReservedInPlace (func : RegAllocFunc Instr) : Prop :=
  ∀ (k : ℕ) (block : RegAllocBlock Instr), func.blocks[k]? = some block →
    ∀ reserved ∈ block.reservedSegments, reserved.range.block = k

structure Inv (liveness : LivenessAnalysis) (ctx : Context Instr) : Prop where
  inPlace : ReservedInPlace ctx.func
  queued : ∀ bundle ∈ ctx.bundles, Bundle.Coherent liveness bundle
  allocated : ∀ alloc ∈ ctx.allocs, Bundle.Coherent liveness alloc.bundle
  disjoint : AllocsDisjoint ctx
  avoids : AvoidsReserved ctx

/-! ## Bundles and their segments -/

variable {a b : Bundle}

theorem Bundle.Apart.symm (h : Bundle.Apart a b) : Bundle.Apart b a := by
  intro t ht s hs
  rw [LiveRange.intersects_comm]
  exact h s hs t ht

theorem intersect_eq_false_iff {a b : Bundle} : intersect a b = false ↔ Bundle.Apart a b := by
  simp only [intersect, List.any_eq_false, Bundle.Apart, Bool.not_eq_true]

variable {bundle : Bundle} {liveness : LivenessAnalysis} {segment : Segment}

theorem coherent_singleton (h : bundle.segments = [segment]) : Bundle.Coherent liveness bundle := by
  rw [Bundle.Coherent, h]
  exact pairwise_singleton _ _

/-- A bundle inside another keeps the distance the other has. -/
theorem Bundle.Apart.of_contained {outer other : Bundle}
    (hin : ∀ s ∈ bundle.segments, ∃ o ∈ outer.segments, o.range.contains s.range = true)
    (h : Bundle.Apart outer other) : Bundle.Apart bundle other := by
  intro s hs t ht
  obtain ⟨o, ho, hcontains⟩ := hin s hs
  by_contra hmeet
  rw [Bool.not_eq_false] at hmeet
  have := LiveRange.intersects_of_contains hcontains hmeet
  rw [h o ho t ht] at this
  exact Bool.noConfusion this

/-! ## Setting up -/

variable {func : RegAllocFunc Instr}

theorem reserve_inPlace {segment : ReservedSegment}
    (h : ReservedInPlace func) : ReservedInPlace (reserve func segment) := by
  intro k block hk reserved hreserved
  rw [reserve, getElem?_modify] at hk
  obtain ⟨old, hold, hblock⟩ := map_eq_some_iff.mp hk
  by_cases hseg : segment.range.block = k
  · rw [if_pos hseg] at hblock
    subst hblock
    rcases mem_append.mp hreserved with hmem | hmem
    · exact h k old hold reserved hmem
    · rw [mem_singleton] at hmem
      rw [hmem, hseg]
  · rw [if_neg hseg] at hblock
    exact h k old hold reserved (hblock ▸ hreserved)

theorem foldl_reserve_inPlace (segments : List ReservedSegment) : ∀ {func : RegAllocFunc Instr},
    ReservedInPlace func → ReservedInPlace (segments.foldl reserve func) := by
  induction segments with
  | nil => exact fun h ↦ h
  | cons segment rest ih => exact fun h ↦ ih (reserve_inPlace h)

theorem createRegAllocFunc_inPlace (analyzer : TargetRegAnalyzer Instr)
    (func : List (MBlock Instr)) : ReservedInPlace (createRegAllocFunc analyzer func) := by
  intro k block hk reserved hreserved
  rw [createRegAllocFunc, getElem?_map] at hk
  obtain ⟨old, -, rfl⟩ := map_eq_some_iff.mp hk
  simp at hreserved

variable {regClasses : VirtualReg → Option RegClass}

/-- The bundles of the virtual registers start out coherent: their segments are the register's
own ranges. -/
theorem createBundles_coherent {liveness : LivenessAnalysis} :
    ∀ {regRanges : List (Register × List LiveRange)}
    {bundles : List Bundle}, regRanges ⊆ liveness.regRanges →
    createBundles regClasses regRanges = some bundles →
    ∀ bundle ∈ bundles, Bundle.Coherent liveness bundle := by
  intro regRanges
  induction regRanges with
  | nil =>
    intro bundles _ h bundle hbundle
    rw [createBundles, some.injEq] at h
    simp [← h] at hbundle
  | cons head rest ih =>
    obtain ⟨reg, ranges⟩ := head
    intro bundles hsub h
    have hrest : rest ⊆ liveness.regRanges := fun _ hx ↦ hsub (mem_cons_of_mem _ hx)
    cases reg with
    | fromPhysical reg => exact ih hrest h
    | fromVirtual reg =>
      simp only [createBundles, bind_eq_bind, bind_eq_some_iff, Option.pure_def, some.injEq] at h
      obtain ⟨regClass, -, others, hothers, rfl⟩ := h
      intro bundle hbundle
      rcases List.mem_cons.mp hbundle with rfl | hmem
      · rw [Bundle.Coherent, pairwise_map, pairwise_iff_forall_sublist]
        intro a b hab _
        exact ⟨rfl, ranges, hsub mem_cons_self, hab⟩
      · exact ih hrest hothers bundle hmem

/-! ## Coalescing -/

theorem coalescedSegment_spec (h : coalescedSegment analyzer func a b = some segment) :
    b.segments = [segment] ∧ Bundle.Apart a b := by
  rw [coalescedSegment] at h
  split at h
  · cases h
  · split at h
    · rename_i segmentB hb
      split at h
      · rename_i hany
        obtain ⟨segmentA, -, htest⟩ := any_eq_true.mp hany
        rw [Bool.and_eq_true, Bool.not_eq_true'] at htest
        rw [some.injEq] at h
        exact ⟨h ▸ hb, intersect_eq_false_iff.mp htest.2⟩
      · cases h
    · cases h

/-- Joining a bundle that stays apart keeps a bundle coherent. -/
theorem coherent_append
    (ha : Bundle.Coherent liveness a) (hb : b.segments = [segment]) (hapart : Bundle.Apart a b) :
    Bundle.Coherent liveness { a with segments := a.segments ++ [segment] } := by
  rw [Bundle.Coherent, pairwise_append]
  refine ⟨ha, pairwise_singleton _ _, ?_⟩
  intro s hs t ht hmeet
  rw [hapart s hs t (hb ▸ ht)] at hmeet
  exact Bool.noConfusion hmeet

variable {i : ℕ}

variable {α : Type}

/-- A property of each element survives `List.modify` when the change keeps it. -/
theorem forall_mem_modify {P : α → Prop} {f : α → α} {l : List α}
    (hl : ∀ x ∈ l, P x) (hf : ∀ x, l[i]? = some x → P x → P (f x)) : ∀ x ∈ l.modify i f, P x := by
  intro x hx
  obtain ⟨k, hk⟩ := mem_iff_getElem?.mp hx
  rw [getElem?_modify] at hk
  obtain ⟨y, hy, hxy⟩ := map_eq_some_iff.mp hk
  have hPy : P y := hl y (mem_of_getElem? hy)
  by_cases hik : i = k
  · rw [if_pos hik] at hxy
    exact hxy ▸ hf y (hik ▸ hy) hPy
  · rw [if_neg hik] at hxy
    exact hxy ▸ hPy

variable {bundles : List Bundle}

theorem tryCoalesce_coherent {j : ℕ} (h : ∀ bundle ∈ bundles, Bundle.Coherent liveness bundle) :
    ∀ bundle ∈ tryCoalesce analyzer func bundles i j, Bundle.Coherent liveness bundle := by
  unfold tryCoalesce
  split
  · rename_i a b ha hb
    split
    · rename_i segment hsegment
      obtain ⟨hsingle, hapart⟩ := coalescedSegment_spec hsegment
      refine forall_mem_modify (forall_mem_modify h ?_) fun _ _ hcoh ↦ hcoh
      intro x hx hcoh
      obtain rfl : a = x := some.inj (ha.symm.trans hx)
      exact coherent_append hcoh hsingle hapart
    · exact h
  · exact h

/-- A property kept by every step of a fold holds of its result. -/
theorem foldl_induct {β : Type} {P : β → Prop} {f : β → α → β} (hf : ∀ b a, P b → P (f b a)) :
    ∀ (l : List α) {b : β}, P b → P (l.foldl f b) := by
  intro l
  induction l with
  | nil => exact fun h ↦ h
  | cons a l ih => exact fun h ↦ ih (hf _ a h)

theorem coalesceInto_coherent {n : ℕ} (h : ∀ bundle ∈ bundles, Bundle.Coherent liveness bundle) :
    ∀ bundle ∈ coalesceInto analyzer func n i bundles, Bundle.Coherent liveness bundle := by
  refine foldl_induct (P := fun bundles ↦ ∀ bundle ∈ bundles, Bundle.Coherent liveness bundle)
    (fun bundles j hb ↦ ?_) _ h
  split
  · exact hb
  · exact tryCoalesce_coherent hb

theorem coalesceBundles_coherent {liveness : LivenessAnalysis} {func : RegAllocFunc Instr}
    {bundles : List Bundle} (h : ∀ bundle ∈ bundles, Bundle.Coherent liveness bundle) :
    ∀ bundle ∈ coalesceBundles analyzer func bundles, Bundle.Coherent liveness bundle := by
  intro bundle hbundle
  refine foldl_induct (P := fun bundles ↦ ∀ bundle ∈ bundles, Bundle.Coherent liveness bundle)
    (fun bundles i hb ↦ ?_) _ h bundle (mem_filter.mp hbundle).1
  split
  · exact hb
  · exact coalesceInto_coherent hb

theorem initContext_inv {func : List (MBlock Instr)} {liveness : LivenessAnalysis}
    {stackSlots : ℕ} {ctx : Context Instr}
    (h : initContext analyzer (createRegAllocFunc analyzer func) liveness regClasses stackSlots
      = some ctx) : Inv liveness ctx := by
  simp only [initContext, bind_eq_bind, bind_eq_some_iff, Option.pure_def, some.injEq] at h
  obtain ⟨bundles, hbundles, rfl⟩ := h
  exact {
    inPlace := foldl_reserve_inPlace _ (createRegAllocFunc_inPlace analyzer func)
    queued := coalesceBundles_coherent
      (createBundles_coherent (List.Subset.refl liveness.regRanges) hbundles)
    allocated := by simp
    disjoint := List.Pairwise.nil
    avoids := by simp [AvoidsReserved] }

/-! ## Assigning -/

theorem isAllocPossible_spec {ctx : Context Instr} {bundle : Bundle} {reg : PhysicalReg}
    (hplace : ReservedInPlace ctx.func) (h : isAllocPossible ctx bundle reg = true) :
    (∀ alloc ∈ ctx.allocs, alloc.physicalReg = reg → Bundle.Apart alloc.bundle bundle) ∧
    ∀ segment ∈ bundle.segments, ∀ block ∈ ctx.func.blocks, ∀ reserved ∈ block.reservedSegments,
      reg = reserved.reg → segment.range.intersects reserved.range = false := by
  simp only [isAllocPossible, List.all_eq_true, Bool.and_eq_true, Bool.not_eq_true',
    Bool.and_eq_false_iff, decide_eq_false_iff_not] at h
  constructor
  · intro alloc halloc hreg s hs t ht
    exact ((h t ht).2 alloc halloc s hs).resolve_left (not_not.mpr hreg)
  · intro segment hsegment block hblock reserved hreserved hreg
    obtain ⟨k, hk⟩ := List.mem_iff_getElem?.mp hblock
    have hrk : reserved.range.block = k := hplace k block hk reserved hreserved
    by_contra hmeet
    rw [Bool.not_eq_false] at hmeet
    -- only the segment's own block is searched, and a reserved segment elsewhere cannot meet it
    have hsk : segment.range.block = k :=
      (LiveRange.intersects_eq_true_iff.mp hmeet).1.trans hrk
    have hfound := (h segment hsegment).1 reserved (by simpa [hsk, hk] using hreserved)
    rw [hmeet] at hfound
    exact hfound.elim (fun hne ↦ hne hreg) Bool.noConfusion

variable {ctx ctx' : Context Instr}

theorem tryAssign_spec :
    ∀ {candidates : List PhysicalReg}, tryAssign ctx bundle candidates = some ctx' →
      ∃ reg, isAllocPossible ctx bundle reg = true ∧
        ctx' = { ctx with allocs := ctx.allocs ++ [⟨reg, bundle⟩] } := by
  intro candidates
  induction candidates with
  | nil => intro h; cases h
  | cons candidate rest ih =>
    intro h
    rw [tryAssign] at h
    split at h
    · rename_i hpossible
      exact ⟨candidate, hpossible, (some.inj h).symm⟩
    · exact ih h

theorem Inv.assign {candidates : List PhysicalReg} (hinv : Inv liveness ctx)
    (hbundle : Bundle.Coherent liveness bundle) (h : tryAssign ctx bundle candidates = some ctx') :
    Inv liveness ctx' := by
  obtain ⟨reg, hpossible, rfl⟩ := tryAssign_spec h
  obtain ⟨hapart, hreserved⟩ := isAllocPossible_spec hinv.inPlace hpossible
  refine { hinv with allocated := ?_, disjoint := ?_, avoids := ?_ }
  · intro alloc halloc
    rcases mem_append.mp halloc with hold | hnew
    · exact hinv.allocated alloc hold
    · rw [mem_singleton.mp hnew]
      exact hbundle
  · refine pairwise_append.mpr ⟨hinv.disjoint, pairwise_singleton _ _, ?_⟩
    intro old hold new hnew hreg
    rw [mem_singleton.mp hnew] at hreg ⊢
    exact hapart old hold hreg
  · intro alloc halloc
    rcases mem_append.mp halloc with hold | hnew
    · exact hinv.avoids alloc hold
    · rw [mem_singleton.mp hnew]
      exact hreserved

/-! ## Evicting -/

theorem evictFirst_spec {evicted : Bundle} : ∀ {allocs allocs' : List Alloc},
    evictFirst bundle allocs = some (allocs', evicted) →
    ∃ front alloc back, allocs = front ++ alloc :: back ∧ canEvict bundle alloc = true ∧
      allocs' = front ++ { alloc with bundle } :: back ∧ evicted = alloc.bundle := by
  intro allocs
  induction allocs with
  | nil => intro allocs' h; cases h
  | cons alloc rest ih =>
    intro allocs' h
    rw [evictFirst] at h
    split at h
    · rename_i hevict
      obtain ⟨rfl, rfl⟩ := Prod.mk.inj (some.inj h)
      exact ⟨[], alloc, rest, rfl, hevict, rfl, rfl⟩
    · obtain ⟨⟨allocs₁, evicted₁⟩, hrest, heq⟩ := map_eq_some_iff.mp h
      obtain ⟨rfl, rfl⟩ := Prod.mk.inj heq
      obtain ⟨front, found, back, rfl, hevict, rfl, rfl⟩ := ih hrest
      exact ⟨alloc :: front, found, back, rfl, hevict, rfl, rfl⟩

theorem canEvict_spec {alloc : Alloc} (h : canEvict bundle alloc = true) :
    ∀ s ∈ bundle.segments, ∃ o ∈ alloc.bundle.segments, o.range.contains s.range = true := by
  rw [canEvict] at h
  split at h
  · cases h
  · intro s hs
    exact any_eq_true.mp (all_eq_true.mp h s hs)

theorem Inv.evict (hinv : Inv liveness ctx) (hbundle : Bundle.Coherent liveness bundle)
    (h : tryEvict ctx bundle = some ctx') : Inv liveness ctx' := by
  rw [tryEvict] at h
  split at h
  · cases h
  obtain ⟨⟨allocs', evicted⟩, hevict, rfl⟩ := map_eq_some_iff.mp h
  obtain ⟨front, alloc, back, hallocs, hcan, rfl, rfl⟩ := evictFirst_spec hevict
  have hin := canEvict_spec hcan
  have hmem : alloc ∈ ctx.allocs := by rw [hallocs]; simp
  have hdisjoint := hinv.disjoint
  rw [AllocsDisjoint, hallocs, pairwise_append, pairwise_cons] at hdisjoint
  obtain ⟨hfront, ⟨hback, hbacks⟩, hacross⟩ := hdisjoint
  have hkept : ∀ a ∈ front ++ back, a ∈ ctx.allocs := by
    intro a ha
    rw [hallocs]
    rcases mem_append.mp ha with hf | hb
    · exact mem_append_left _ hf
    · exact mem_append_right _ (mem_cons_of_mem _ hb)
  refine { inPlace := hinv.inPlace, queued := ?_, allocated := ?_, disjoint := ?_, avoids := ?_ }
  · intro b hb
    rcases mem_append.mp hb with hold | hnew
    · exact hinv.queued b hold
    · rw [mem_singleton.mp hnew]
      exact hinv.allocated alloc hmem
  · intro a ha
    rcases mem_append.mp ha with hf | hcons
    · exact hinv.allocated a (hkept a (mem_append_left _ hf))
    · rcases mem_cons.mp hcons with rfl | hb
      · exact hbundle
      · exact hinv.allocated a (hkept a (mem_append_right _ hb))
  · refine pairwise_append.mpr ⟨hfront, pairwise_cons.mpr ⟨?_, hbacks⟩, ?_⟩
    · intro b hb hreg
      exact (hback b hb hreg).of_contained hin
    · intro a ha b hb hreg
      rcases mem_cons.mp hb with rfl | hmemb
      · exact ((hacross a ha alloc mem_cons_self hreg).symm.of_contained hin).symm
      · exact hacross a ha b (mem_cons_of_mem _ hmemb) hreg
  · intro a ha
    rcases mem_append.mp ha with hf | hcons
    · exact hinv.avoids a (hkept a (mem_append_left _ hf))
    · rcases mem_cons.mp hcons with rfl | hb
      · intro segment hsegment block hblock reserved hreserved hreg
        obtain ⟨outer, houter, hcontains⟩ := hin segment hsegment
        by_contra hmeet
        rw [Bool.not_eq_false] at hmeet
        have hold := hinv.avoids alloc hmem outer houter block hblock reserved hreserved hreg
        rw [LiveRange.intersects_of_contains hcontains hmeet] at hold
        exact Bool.noConfusion hold
      · exact hinv.avoids a (hkept a (mem_append_right _ hb))

/-! ## Spilling -/

variable {stackSlot : StackSlotID}

theorem spilledBundle_coherent {regClass : RegClass} {reg : VirtualReg} {block instr : ℕ}
    {usage : RegUsage} (h : spilledBundle stackSlot regClass reg block instr usage = some bundle) :
    Bundle.Coherent liveness bundle := by
  cases usage with
  | KILL => cases h
  | DEF => exact coherent_singleton (by rw [← some.inj h])
  | USE => exact coherent_singleton (by rw [← some.inj h])
  | USE_DEF => exact coherent_singleton (by rw [← some.inj h])

theorem spilledBundles_coherent :
    ∀ spilled ∈ spilledBundles func stackSlot bundle, Bundle.Coherent liveness spilled := by
  intro spilled hspilled
  obtain ⟨range, -, hrange⟩ := mem_flatMap.mp hspilled
  obtain ⟨instr, -, hinstr⟩ := mem_flatMap.mp hrange
  obtain ⟨op, -, hop⟩ := mem_filterMap.mp hinstr
  split at hop
  · cases hop
  · exact spilledBundle_coherent hop

theorem Inv.spill (hinv : Inv liveness ctx) : Inv liveness (spill ctx bundle) := by
  refine { hinv with queued := ?_ }
  intro b hb
  rcases mem_append.mp hb with hold | hnew
  · exact hinv.queued b hold
  · exact spilledBundles_coherent b hnew

/-! ## The loop -/

theorem Inv.allocBundle (hinv : Inv liveness ctx) (hbundle : Bundle.Coherent liveness bundle) :
    Inv liveness (allocBundle analyzer ctx bundle) := by
  unfold RegAllocPass.allocBundle
  split
  · rename_i hsuggested
    exact hinv.assign hbundle hsuggested
  · split
    · rename_i hcandidate
      exact hinv.assign hbundle hcandidate
    · split
      · rename_i hevict
        exact hinv.evict hbundle hevict
      · exact hinv.spill

theorem Inv.step
    (hinv : Inv liveness ctx) (hstep : Step analyzer ctx ctx') : Inv liveness ctx' := by
  cases hstep with
  | pop htop =>
    refine Inv.allocBundle { hinv with queued := ?_ } (hinv.queued _ htop.1)
    intro b hb
    exact hinv.queued b (mem_of_mem_erase hb)

theorem Reachable.inv {func : List (MBlock Instr)} {stackSlots : ℕ}
    (h : Reachable analyzer func liveness regClasses stackSlots ctx) : Inv liveness ctx := by
  obtain ⟨start, hstart, hrun⟩ := h
  exact Transition.invariant_of_step (fun _ _ h hs ↦ h.step hs) (initContext_inv hstart) hrun

/-- **Allocated registers are not shared.** In every context the loop reaches, two allocations to
one physical register have disjoint segments, two segments of one allocation meet only where
liveness gave one virtual register overlapping ranges, and no allocated segment meets a segment
reserved for its register. -/
theorem reachable_allocs_sound {func : List (MBlock Instr)} {liveness : LivenessAnalysis}
    {regClasses : VirtualReg → Option RegClass} {stackSlots : ℕ} {ctx : Context Instr}
    (h : Reachable analyzer func liveness regClasses stackSlots ctx) :
    AllocsDisjoint ctx ∧ (∀ alloc ∈ ctx.allocs, Bundle.Coherent liveness alloc.bundle) ∧
      AvoidsReserved ctx :=
  ⟨h.inv.disjoint, h.inv.allocated, h.inv.avoids⟩

/-- A target with two registers whose instructions list their own operands. -/
def twoRegTarget : TargetRegAnalyzer (List RegOp) where
  getOperands := fun instrs index ↦ instrs[index]?.getD []
  getCandidates := fun _ ↦ [0, 1]
  suggestRegs := fun _ _ ↦ []
  isMoveFrom := fun _ _ ↦ false

/-- Two registers live at the same time, the first across a kill of physical register `0`. -/
def twoLiveRegs : List (MBlock (List RegOp)) :=
  [{ instrs :=
      [[⟨.fromVirtual 0, .DEF⟩], [⟨.fromPhysical 0, .KILL⟩], [⟨.fromVirtual 1, .DEF⟩],
        [⟨.fromVirtual 0, .USE⟩, ⟨.fromVirtual 1, .USE⟩]]
     predecessors := []
     successors := [] }]

def twoLiveRegsLiveness : LivenessAnalysis where
  regRanges := [(.fromVirtual 0, [⟨0, ⟨0, 1⟩, ⟨3, 0⟩⟩]), (.fromVirtual 1, [⟨0, ⟨2, 1⟩, ⟨3, 0⟩⟩])]
  killPoints := [⟨0, 0, 1⟩]

example : LivenessAnalysis.compute (createRegAllocFunc twoRegTarget twoLiveRegs)
    = some twoLiveRegsLiveness := by
  decide +kernel

theorem reachable_allocs_sound_twoLiveRegs : ∃ ctx : Context (List RegOp),
    ctx.allocs.map Alloc.physicalReg = [1, 0] ∧ AllocsDisjoint ctx ∧
      (∀ alloc ∈ ctx.allocs, Bundle.Coherent twoLiveRegsLiveness alloc.bundle) ∧
      AvoidsReserved ctx := by
  obtain ⟨start, hstart⟩ : ∃ start, initContext twoRegTarget
      (createRegAllocFunc twoRegTarget twoLiveRegs) twoLiveRegsLiveness (fun _ ↦ some 0) 0
      = some start := ⟨_, rfl⟩
  cases hstart
  let first : Bundle := { segments := [⟨0, 0, ⟨0, 1⟩, ⟨3, 0⟩⟩], regClass := 0 }
  let second : Bundle := { segments := [⟨1, 0, ⟨2, 1⟩, ⟨3, 0⟩⟩], regClass := 0 }
  have hfirst : IsTop _ first := show IsTop [first, second] first by
    unfold IsTop
    decide
  have hsecond : IsTop _ second := show IsTop [second] second by
    unfold IsTop
    decide
  have h : Reachable twoRegTarget twoLiveRegs twoLiveRegsLiveness (fun _ ↦ some 0) 0 _ :=
    ⟨_, rfl, .tail (.tail .refl (.pop hfirst)) (.pop hsecond)⟩
  exact ⟨_, by decide, reachable_allocs_sound h⟩

end RegAllocPass

end Banjo.Codegen
