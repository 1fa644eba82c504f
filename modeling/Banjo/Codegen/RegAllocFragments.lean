import Banjo.Codegen.LivenessSound
import Banjo.Codegen.RegAllocInvariant
import Mathlib.Algebra.GroupWithZero.Nat

/-!
# Where live ranges end

A live range that starts between the use and the definition stage of an instruction starts at a
definition, and one that ends there ends at a use. Spilling a register and evicting it both rest
on this: a range that covers only one stage of an instruction belongs to one of its operands.
-/

open List Option

namespace Banjo.Codegen

variable {Instr : Type}

/-- The operands of an instruction, by its position. -/
def RegAllocFunc.opsAt (func : RegAllocFunc Instr) (b i : ℕ) : List RegOp :=
  (((func.blocks[b]?.map RegAllocBlock.instrs).getD [])[i]?.map RegAllocInstr.regs).getD []

theorem RegAllocFunc.opsAt_eq {func : RegAllocFunc Instr} {b i : ℕ} {block : RegAllocBlock Instr}
    {instr : RegAllocInstr Instr} (hb : func.blocks[b]? = some block)
    (hi : block.instrs[i]? = some instr) : func.opsAt b i = instr.regs := by
  simp [RegAllocFunc.opsAt, hb, hi]

/-- A range that starts or ends inside of an instruction does so at an operand. -/
structure LiveRange.Ends (func : RegAllocFunc Instr) (reg : Register) (range : LiveRange) :
    Prop where
  start : range.start.stage = 0 ∨
    range.start.stage = 1 ∧ ⟨reg, .DEF⟩ ∈ func.opsAt range.block range.start.instr
  end_ : range.end_.stage = 1 ∨
    range.end_.stage = 0 ∧ ⟨reg, .USE⟩ ∈ func.opsAt range.block range.end_.instr

namespace RegRanges

variable {reg : Register} {regRanges : RegRanges}

variable {range : LiveRange}

theorem mem_get
    (h : range ∈ regRanges.get reg) : ∃ ranges, (reg, ranges) ∈ regRanges ∧ range ∈ ranges := by
  induction regRanges with
  | nil => exact absurd h not_mem_nil
  | cons head rest ih =>
    obtain ⟨reg', ranges⟩ := head
    rw [get_cons] at h
    split_ifs at h with heq
    · exact ⟨ranges, heq ▸ mem_cons_self, h⟩
    · obtain ⟨ranges', hmem, hrange⟩ := ih h
      exact ⟨ranges', mem_cons_of_mem _ hmem, hrange⟩

variable {f : List LiveRange → List LiveRange}

theorem mem_update {entry : Register × List LiveRange} (h : entry ∈ regRanges.update reg f) :
    entry ∈ regRanges ∨ entry = (reg, f (regRanges.get reg)) := by
  induction regRanges with
  | nil => exact Or.inr (mem_singleton.mp h)
  | cons head rest ih =>
    obtain ⟨reg', ranges⟩ := head
    rw [update] at h
    rw [get_cons]
    split_ifs at h ⊢ with heq
    · rcases mem_cons.mp h with rfl | hrest
      · exact Or.inr (by rw [heq])
      · exact Or.inl (mem_cons_of_mem _ hrest)
    · rcases mem_cons.mp h with rfl | hrest
      · exact Or.inl mem_cons_self
      · exact (ih hrest).imp (mem_cons_of_mem _) id

/-- All ranges end at operands. -/
def Ends (func : RegAllocFunc Instr) (regRanges : RegRanges) : Prop :=
  ∀ entry ∈ regRanges, ∀ range ∈ entry.2, range.Ends func entry.1

variable {func : RegAllocFunc Instr}

theorem Ends.update (h : regRanges.Ends func)
    (hf : (∀ range ∈ regRanges.get reg, range.Ends func reg) →
      ∀ range ∈ f (regRanges.get reg), range.Ends func reg) :
    (regRanges.update reg f).Ends func := by
  intro entry hentry
  rcases mem_update hentry with hold | rfl
  · exact h entry hold
  · refine hf fun range hrange ↦ ?_
    obtain ⟨ranges, hmem, hin⟩ := mem_get hrange
    exact h _ hmem range hin

theorem Ends.push (h : regRanges.Ends func) (hrange : range.Ends func reg) :
    (regRanges.update reg (· ++ [range])).Ends func := by
  refine h.update fun hold other hother ↦ ?_
  rcases mem_append.mp hother with hmem | hnew
  · exact hold other hmem
  · exact mem_singleton.mp hnew ▸ hrange

theorem Ends.setBackStart
    {start : RegAllocPoint} (h : regRanges.Ends func)
    (hstart : ∀ range, (regRanges.get reg).getLast? = some range → start.stage = 0 ∨
      start.stage = 1 ∧ ⟨reg, .DEF⟩ ∈ func.opsAt range.block start.instr) :
    (regRanges.update reg (LivenessAnalysis.setBackStart · start)).Ends func := by
  refine h.update fun hold ↦ ?_
  rcases eq_nil_or_concat (regRanges.get reg) with hnil | ⟨init, last, hconcat⟩
  · rw [hnil]
    exact fun range hrange ↦ absurd hrange not_mem_nil
  · rw [concat_eq_append] at hconcat
    rw [hconcat] at hold hstart ⊢
    rw [LivenessAnalysis.setBackStart_concat]
    intro range hrange
    rcases mem_append.mp hrange with hmem | hlast
    · exact hold range (mem_append_left _ hmem)
    · obtain rfl := mem_singleton.mp hlast
      exact ⟨hstart last getLast?_concat, (hold last (by simp)).end_⟩

end RegRanges

namespace LivenessAnalysis

/-! ## The scan -/

/-- Ranges end at operands, and the topmost range of a live register is one of the block. -/
structure EndsInv (func : RegAllocFunc Instr) (b : ℕ) (s : ScanState) : Prop where
  ends : s.regRanges.Ends func
  topmost : ∀ reg ∈ s.liveRegs, ∀ range, (s.regRanges.get reg).getLast? = some range →
    range.block = b

variable {b : ℕ} {func : RegAllocFunc Instr} {s : ScanState}

theorem EndsInv.push {reg : Register} {range : LiveRange} (h : EndsInv func b s)
    (hrange : range.Ends func reg) (hblock : range.block = b) :
    EndsInv func b { s with
      regRanges := s.regRanges.update reg (· ++ [range]), liveRegs := insert reg s.liveRegs } := by
  refine ⟨h.ends.push hrange, fun other hother last hlast ↦ ?_⟩
  by_cases hreg : other = reg
  · subst hreg
    rw [RegRanges.get_update_self, getLast?_concat] at hlast
    exact some.inj hlast ▸ hblock
  · rw [RegRanges.get_update_of_ne hreg] at hlast
    exact h.topmost other (Finset.mem_of_mem_insert_of_ne hother hreg) last hlast

theorem EndsInv.scanOp {i : ℕ} {op : RegOp}
    (h : EndsInv func b s) (hop : op ∈ func.opsAt b i) : EndsInv func b (scanOp b i s op) := by
  obtain ⟨reg, usage⟩ := op
  cases usage with
  | USE =>
    rw [LivenessAnalysis.scanOp]
    dsimp only
    split_ifs with hlive
    · exact h
    · exact h.push ⟨Or.inl rfl, Or.inr ⟨rfl, hop⟩⟩ rfl
  | USE_DEF =>
    rw [LivenessAnalysis.scanOp]
    dsimp only
    split_ifs with hlive
    · exact h
    · exact h.push ⟨Or.inl rfl, Or.inl rfl⟩ rfl
  | KILL =>
    exact ⟨h.ends, fun other hother ↦ h.topmost other (Finset.mem_of_mem_erase hother)⟩
  | DEF =>
    rw [LivenessAnalysis.scanOp]
    dsimp only
    split_ifs with hlive
    · refine ⟨h.ends.setBackStart fun range hlast ↦ Or.inr ⟨rfl, ?_⟩, ?_⟩
      · rwa [h.topmost reg hlive range hlast]
      · intro other hother last hlast
        obtain ⟨hne, hmem⟩ := Finset.mem_erase.mp hother
        rw [RegRanges.get_update_of_ne hne] at hlast
        exact h.topmost other hmem last hlast
    · refine ⟨h.ends.push ⟨Or.inr ⟨rfl, hop⟩, Or.inl rfl⟩, fun other hother last hlast ↦ ?_⟩
      have hne : other ≠ reg := fun heq ↦ hlive (heq ▸ hother)
      rw [RegRanges.get_update_of_ne hne] at hlast
      exact h.topmost other hother last hlast

variable {block : RegAllocBlock Instr}

theorem EndsInv.scanInstrs (hb : func.blocks[b]? = some block) (h : EndsInv func b s) :
    EndsInv func b (scanInstrs b block.instrs s) := by
  rw [LivenessAnalysis.scanInstrs]
  refine foldlRecOn (motive := EndsInv func b) _ _ h fun s hs item hitem ↦ ?_
  obtain ⟨instr, i⟩ := item
  have hi : block.instrs[i]? = some instr :=
    mem_zipIdx_iff_getElem?.mp (mem_reverse.mp hitem)
  refine foldlRecOn (motive := EndsInv func b) _ _ hs fun s hs op hop ↦ hs.scanOp ?_
  rwa [RegAllocFunc.opsAt_eq hb hi]

variable {regRanges : RegRanges}

theorem ends_pushOuts {outs : Finset Register} (h : regRanges.Ends func) :
    (pushOuts b block outs regRanges).Ends func := by
  rw [pushOuts]
  exact foldlRecOn (motive := RegRanges.Ends func) _ _ h
    fun regRanges hs reg _ ↦ hs.push ⟨Or.inl rfl, Or.inl rfl⟩

theorem ends_extendIns {ins : Finset Register} (h : regRanges.Ends func) :
    (extendIns ins regRanges).Ends func := by
  rw [extendIns]
  exact foldlRecOn (motive := RegRanges.Ends func) _ _ h
    fun regRanges hs reg _ ↦ hs.setBackStart fun _ _ ↦ Or.inl rfl

variable {analysis : LivenessAnalysis}

theorem ends_computeBlockRanges (hb : func.blocks[b]? = some block) {liveness : BlockLiveness}
    (h : analysis.regRanges.Ends func) :
    (computeBlockRanges b block liveness analysis).regRanges.Ends func := by
  rw [computeBlockRanges]
  split_ifs
  · exact h
  · refine ends_extendIns
      (EndsInv.scanInstrs hb ⟨ends_pushOuts h, fun reg hreg range hlast ↦ ?_⟩).ends
    rw [get_pushOuts, if_pos hreg, getLast?_concat] at hlast
    exact (some.inj hlast).symm ▸ rfl

/-- The ranges that liveness analysis gives out end at operands. -/
theorem compute_ends (h : compute func = some analysis) : analysis.regRanges.Ends func := by
  obtain ⟨st, -, rfl⟩ := map_eq_some_iff.mp h
  rw [computePreciseLiveRanges]
  refine foldlRecOn
    (motive := fun analysis : LivenessAnalysis ↦ analysis.regRanges.Ends func) _ _
    (fun entry hentry ↦ absurd hentry not_mem_nil) fun analysis hs item hitem ↦ ?_
  exact ends_computeBlockRanges (mem_zipIdx_iff_getElem?.mp hitem) hs

end LivenessAnalysis

/-!
## The fragments of bundles

Spilling cuts a bundle into fragments, one for each operand that its segments cover. How many
fragments meet a range is counted over all bundles, those that are spilled already and those that
may still be: no step of the allocator changes the count, unless it spills a fragment again.
-/

namespace RegAllocPass

variable {Instr : Type} {analyzer : TargetRegAnalyzer Instr}

/-! ## Cutting -/

/-- The range of the fragment around an operand. -/
def fragmentRange (b i : ℕ) : RegUsage → Option LiveRange
  | .DEF => some ⟨b, ⟨i, 1⟩, ⟨i, 1⟩⟩
  | .USE => some ⟨b, ⟨i, 0⟩, ⟨i, 0⟩⟩
  | .USE_DEF => some ⟨b, ⟨i, 0⟩, ⟨i, 1⟩⟩
  | .KILL => none

/-- What two fragments of different spills have in common. -/
def fragmentKey (bundle : Bundle) : List Segment × RegClass × Bool :=
  (bundle.segments, bundle.regClass, bundle.evictable)

theorem spilledBundle_key (slot : StackSlotID) (c : RegClass) (reg : VirtualReg) (b i : ℕ)
    (usage : RegUsage) : (spilledBundle slot c reg b i usage).map fragmentKey
      = (fragmentRange b i usage).map fun range ↦ ([⟨reg, range⟩], c, false) := by
  cases usage <;> rfl

/-- The bundle is a fragment around an operand of the function. -/
def IsFragment (func : RegAllocFunc Instr) (bundle : Bundle) : Prop :=
  ∃ b i reg usage range, ⟨.fromVirtual reg, usage⟩ ∈ func.opsAt b i ∧
    fragmentRange b i usage = some range ∧
    fragmentKey bundle = ([⟨reg, range⟩], bundle.regClass, false)

theorem spilledBundles_eq_opsAt (func : RegAllocFunc Instr) (slot : StackSlotID)
    (bundle : Bundle) : spilledBundles func slot bundle = bundle.segments.flatMap fun s ↦
      (List.range' s.range.start.instr
        (s.range.end_.instr + 1 - s.range.start.instr)).flatMap fun i ↦
        (func.opsAt s.range.block i).filterMap fun op ↦
          if op.reg ≠ .fromVirtual s.reg then none
          else spilledBundle slot bundle.regClass s.reg s.range.block i op.usage := rfl

variable {bundle fragment : Bundle} {func : RegAllocFunc Instr}

theorem mem_spilledBundles {slot : StackSlotID} :
    fragment ∈ spilledBundles func slot bundle ↔ ∃ segment ∈ bundle.segments, ∃ i,
      segment.range.start.instr ≤ i ∧ i ≤ segment.range.end_.instr ∧
      ∃ usage, ⟨.fromVirtual segment.reg, usage⟩ ∈ func.opsAt segment.range.block i ∧
        spilledBundle slot bundle.regClass segment.reg segment.range.block i usage
          = some fragment := by
  rw [spilledBundles, mem_flatMap]
  refine exists_congr fun segment ↦ and_congr_right fun _ ↦ ?_
  rw [mem_flatMap]
  refine exists_congr fun i ↦ ?_
  rw [mem_range'_1, mem_filterMap, ← and_assoc]
  refine and_congr ⟨fun h ↦ ⟨h.1, by omega⟩, fun h ↦ ⟨h.1, by omega⟩⟩ ?_
  constructor
  · rintro ⟨⟨reg, usage⟩, hop, hspilled⟩
    split_ifs at hspilled with hreg
    obtain rfl := not_not.mp hreg
    exact ⟨usage, hop, hspilled⟩
  · rintro ⟨usage, hop, hspilled⟩
    exact ⟨⟨.fromVirtual segment.reg, usage⟩, hop, by rw [if_neg (not_not.mpr rfl), hspilled]⟩

theorem map_fragmentKey_spilledBundles (func : RegAllocFunc Instr) (slot : StackSlotID)
    (bundle : Bundle) : (spilledBundles func slot bundle).map fragmentKey
      = (spilledBundles func 0 bundle).map fragmentKey := by
  simp only [spilledBundles, map_flatMap, map_filterMap]
  refine flatMap_congr fun segment _ ↦ flatMap_congr fun i _ ↦ filterMap_congr fun op _ ↦ ?_
  split_ifs
  · rfl
  · rw [spilledBundle_key, spilledBundle_key]

theorem isFragment_of_mem {slot : StackSlotID} (h : fragment ∈ spilledBundles func slot bundle) :
    IsFragment func fragment ∧ fragment.regClass = bundle.regClass ∧ fragment.evictable = false ∧
      ∀ s ∈ fragment.segments, ∃ t ∈ bundle.segments, s.reg = t.reg := by
  obtain ⟨segment, hsegment, i, -, -, usage, hop, hspilled⟩ := mem_spilledBundles.mp h
  have hkey := spilledBundle_key slot bundle.regClass segment.reg segment.range.block i usage
  rw [hspilled, map_some] at hkey
  obtain ⟨range, hrange, heq⟩ := map_eq_some_iff.mp hkey.symm
  have hclass : fragment.regClass = bundle.regClass := (congrArg (fun k ↦ k.2.1) heq).symm
  have hsegments : fragment.segments = [⟨segment.reg, range⟩] := (congrArg Prod.fst heq).symm
  refine ⟨⟨_, i, segment.reg, usage, range, hop, hrange, by rw [hclass]; exact heq.symm⟩, hclass,
    (congrArg (fun k ↦ k.2.2) heq).symm, fun s hs ↦ ⟨segment, hsegment, ?_⟩⟩
  rw [hsegments, mem_singleton] at hs
  rw [hs]

/-! ## Counting -/

/-- A segment of the class meets the range. -/
def meets (range : LiveRange) (c : RegClass) (bundle : Bundle) : Bool :=
  decide (bundle.regClass = c) && bundle.segments.any fun s ↦ s.range.intersects range

theorem meets_eq (range : LiveRange) (c : RegClass) :
    meets range c = (fun k : List Segment × RegClass × Bool ↦
      decide (k.2.1 = c) && k.1.any fun s ↦ s.range.intersects range) ∘ fragmentKey := rfl

/-- The bundle itself if it is not to be cut any more, else what it would be cut into. -/
def fragments (func : RegAllocFunc Instr) (bundle : Bundle) : List Bundle :=
  if bundle.evictable then spilledBundles func 0 bundle else [bundle]

/-- How many fragments of a class meet a range. -/
def crowd (func : RegAllocFunc Instr) (range : LiveRange) (c : RegClass) (bundles : List Bundle) :
    ℕ :=
  (bundles.map fun bundle ↦ (fragments func bundle).countP (meets range c)).sum

section Crowd

variable {func : RegAllocFunc Instr} {range : LiveRange} {c : RegClass}

@[simp] theorem crowd_nil : crowd func range c [] = 0 := rfl

@[simp] theorem crowd_cons (bundle : Bundle) (bundles : List Bundle) :
    crowd func range c (bundle :: bundles)
      = (fragments func bundle).countP (meets range c) + crowd func range c bundles := rfl

@[simp] theorem crowd_append (bundles bundles' : List Bundle) :
    crowd func range c (bundles ++ bundles')
      = crowd func range c bundles + crowd func range c bundles' := by
  rw [crowd, map_append, sum_append]
  rfl

variable {bundles : List Bundle}

theorem crowd_erase {bundle : Bundle} (h : bundle ∈ bundles) :
    (fragments func bundle).countP (meets range c) + crowd func range c (bundles.erase bundle)
      = crowd func range c bundles := by
  rw [← crowd_cons]
  exact ((perm_cons_erase h).map _).sum_eq.symm

/-- Fragments are not cut again. -/
theorem crowd_of_not_evictable (h : ∀ bundle ∈ bundles, bundle.evictable = false) :
    crowd func range c bundles = bundles.countP (meets range c) := by
  induction bundles with
  | nil => rfl
  | cons bundle rest ih =>
    have hbundle : fragments func bundle = [bundle] := by
      rw [fragments, if_neg (by simp [h bundle mem_cons_self])]
    rw [crowd_cons, ih fun other hother ↦ h other (mem_cons_of_mem _ hother), hbundle,
      countP_singleton, countP_cons, Nat.add_comm]

theorem crowd_spilledBundles (slot : StackSlotID) (bundle : Bundle) :
    crowd func range c (spilledBundles func slot bundle)
      = (spilledBundles func 0 bundle).countP (meets range c) := by
  rw [crowd_of_not_evictable fun fragment h ↦ (isFragment_of_mem h).2.2.1, meets_eq,
    ← countP_map, ← countP_map, map_fragmentKey_spilledBundles]

end Crowd

end RegAllocPass

end Banjo.Codegen
