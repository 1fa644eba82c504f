import Banjo.Codegen.Liveness

/-!
# The backward scan of a block

The scan handles each register on its own, so it is followed here for one register: its list of
ranges and whether it is in the set of live registers. `ScanInv` is what holds once the
instructions from an index on have been scanned. A point where the register is live is covered by
a range already, or it is *pending*: the register is in the live set and the point lies below the
end of the topmost range, whose start has yet to move down to it.
-/

open List Option

namespace Banjo.Codegen

/-! ## What an instruction does to a register -/

namespace RegAllocInstr

variable {Instr : Type}

def Reads (instr : RegAllocInstr Instr) (r : Register) : Prop :=
  ⟨r, .USE⟩ ∈ instr.regs ∨ ⟨r, .USE_DEF⟩ ∈ instr.regs

/-- The value the register had before the instruction is gone after it. -/
def Redefines (instr : RegAllocInstr Instr) (r : Register) : Prop :=
  ⟨r, .DEF⟩ ∈ instr.regs ∨ ⟨r, .USE_DEF⟩ ∈ instr.regs ∨ ⟨r, .KILL⟩ ∈ instr.regs

/-- The register is killed and holds nothing afterwards. -/
def Clobbers (instr : RegAllocInstr Instr) (r : Register) : Prop :=
  ⟨r, .KILL⟩ ∈ instr.regs ∧ ⟨r, .DEF⟩ ∉ instr.regs

end RegAllocInstr

namespace RegUsage

/-- The usages that end the register's stay in the live set. -/
def Clears (usage : RegUsage) : Prop := usage = .DEF ∨ usage = .KILL

instance : DecidablePred Clears := fun _ ↦ inferInstanceAs (Decidable (_ ∨ _))

end RegUsage

namespace LivenessAnalysis

variable {Instr : Type}

/-! ## The scan of one register -/

/-- The ranges of the register and whether it is in the live set. -/
def project (r : Register) (s : ScanState) : List LiveRange × Bool :=
  (s.regRanges.get r, decide (r ∈ s.liveRegs))

/-- `scanOp` for the operands of one register. -/
def scanUsage (b i : ℕ) (p : List LiveRange × Bool) : RegUsage → List LiveRange × Bool
  | .USE => if p.2 then p else (p.1 ++ [⟨b, ⟨i, 0⟩, ⟨i, 0⟩⟩], true)
  | .DEF => if p.2 then (setBackStart p.1 ⟨i, 1⟩, false) else (p.1 ++ [⟨b, ⟨i, 1⟩, ⟨i, 1⟩⟩], false)
  | .USE_DEF => if p.2 then p else (p.1 ++ [⟨b, ⟨i, 0⟩, ⟨i, 1⟩⟩], true)
  | .KILL => (p.1, false)

/-- The usages of one register in an operand list. -/
def usagesOf (r : Register) (ops : List RegOp) : List RegUsage :=
  (ops.filter fun op ↦ op.reg = r).map RegOp.usage

theorem mem_usagesOf {r : Register} {ops : List RegOp} {usage : RegUsage} :
    usage ∈ usagesOf r ops ↔ ⟨r, usage⟩ ∈ ops := by
  simp only [usagesOf, List.mem_map, List.mem_filter, decide_eq_true_eq]
  constructor
  · rintro ⟨op, ⟨hop, rfl⟩, rfl⟩
    exact hop
  · exact fun h ↦ ⟨_, ⟨h, rfl⟩, rfl⟩

variable (r : Register)

theorem project_scanOp (b i : ℕ) (s : ScanState) (op : RegOp) :
    project r (scanOp b i s op)
      = if op.reg = r then scanUsage b i (project r s) op.usage else project r s := by
  obtain ⟨reg, usage⟩ := op
  by_cases hreg : reg = r
  · subst hreg
    cases usage <;> by_cases hlive : reg ∈ s.liveRegs <;>
      simp [project, scanOp, scanUsage, hlive]
  · cases usage <;> by_cases hlive : reg ∈ s.liveRegs <;>
      simp [project, scanOp, hlive, hreg, Ne.symm hreg]

theorem project_foldl_scanOp (b i : ℕ) (ops : List RegOp) : ∀ (s : ScanState),
    project r (ops.foldl (scanOp b i) s)
      = (usagesOf r ops).foldl (scanUsage b i) (project r s) := by
  induction ops with
  | nil => intro s; rfl
  | cons op ops ih =>
    intro s
    rw [foldl_cons, ih, project_scanOp]
    by_cases hreg : op.reg = r
    · simp [usagesOf, hreg]
    · simp [usagesOf, hreg]

/-- The scan of the instructions from index `i` on, for one register. -/
def scanFrom (r : Register) (b : ℕ) (instrs : List (RegAllocInstr Instr)) (i : ℕ)
    (p : List LiveRange × Bool) : List LiveRange × Bool :=
  (instrs.zipIdx.drop i).reverse.foldl
    (fun p (instr, i) ↦ (usagesOf r instr.regs).foldl (scanUsage b i) p) p

theorem scanFrom_length (b : ℕ) (instrs : List (RegAllocInstr Instr))
    (p : List LiveRange × Bool) : scanFrom r b instrs instrs.length p = p := by
  rw [scanFrom, drop_eq_nil_of_le (by rw [length_zipIdx])]
  rfl

theorem scanFrom_step (r : Register) (b : ℕ) {instrs : List (RegAllocInstr Instr)} {i : ℕ}
    {instr : RegAllocInstr Instr} (hi : instrs[i]? = some instr) (p : List LiveRange × Bool) :
    scanFrom r b instrs i p
      = (usagesOf r instr.regs).foldl (scanUsage b i) (scanFrom r b instrs (i + 1) p) := by
  obtain ⟨hlt, hget⟩ := List.getElem?_eq_some_iff.mp hi
  have hdrop : instrs.zipIdx.drop i = (instr, i) :: instrs.zipIdx.drop (i + 1) := by
    rw [List.drop_eq_getElem_cons (by rwa [List.length_zipIdx]), List.getElem_zipIdx, hget,
      zero_add]
  rw [scanFrom, hdrop, reverse_cons, foldl_append]
  rfl

theorem project_scanInstrs (b : ℕ) (instrs : List (RegAllocInstr Instr))
    (s : ScanState) : project r (scanInstrs b instrs s) = scanFrom r b instrs 0 (project r s) := by
  rw [scanInstrs, scanFrom, drop_zero]
  generalize instrs.zipIdx.reverse = items
  induction items generalizing s with
  | nil => rfl
  | cons item items ih => rw [foldl_cons, foldl_cons, ih, project_foldl_scanOp]

/-! ## Covered points -/

/-- Some range of the list holds the point. -/
def CoveredIn (ranges : List LiveRange) (b v : ℕ) : Prop :=
  ∃ range ∈ ranges, (b, v) ∈ range.points

variable {b v : ℕ} {ranges : List LiveRange}

theorem CoveredIn.append (h : CoveredIn ranges b v)
    (more : List LiveRange) : CoveredIn (ranges ++ more) b v := by
  obtain ⟨range, hrange, hv⟩ := h
  exact ⟨range, mem_append_left _ hrange, hv⟩

theorem coveredIn_append_singleton {range : LiveRange}
    (h : (b, v) ∈ range.points) : CoveredIn (ranges ++ [range]) b v :=
  ⟨range, mem_append_right _ (mem_singleton_self range), h⟩

theorem setBackStart_concat (init : List LiveRange) (last : LiveRange) (start : RegAllocPoint) :
    setBackStart (init ++ [last]) start = init ++ [{ last with start }] := by
  rw [setBackStart, length_append, length_singleton, Nat.add_sub_cancel]
  induction init with
  | nil => rfl
  | cons x init ih => rw [cons_append, length_cons, modify_succ_cons, ih, cons_append]

/-- Moving the start of the topmost range keeps covered what it did not cover or still does. -/
theorem CoveredIn.setBackStart {init : List LiveRange} {last : LiveRange} {start : RegAllocPoint}
    (h : CoveredIn (init ++ [last]) b v) (hstart : b = last.block → start.value ≤ v) :
    CoveredIn (setBackStart (init ++ [last]) start) b v := by
  rw [setBackStart_concat]
  obtain ⟨range, hrange, hblock, hv⟩ := h
  rcases mem_append.mp hrange with hinit | hlast
  · exact ⟨range, mem_append_left _ hinit, hblock, hv⟩
  · rw [mem_singleton.mp hlast] at hblock hv
    exact coveredIn_append_singleton ⟨hblock, hstart hblock, hv.2⟩

/-- Letting the topmost range start where the block does uncovers nothing. -/
theorem CoveredIn.extend (h : CoveredIn ranges b v) :
    CoveredIn (LivenessAnalysis.setBackStart ranges ⟨0, 0⟩) b v := by
  rcases eq_nil_or_concat ranges with rfl | ⟨init, last, rfl⟩
  · obtain ⟨range, hrange, -⟩ := h
    simp at hrange
  · rw [concat_eq_append] at h ⊢
    refine h.setBackStart fun _ ↦ ?_
    rw [RegAllocPoint.value_mk]
    exact Nat.zero_le v

/-! ## The invariant of the scan -/

section Scan

variable (r : Register) (b : ℕ) (instrs : List (RegAllocInstr Instr)) (out : Prop)

/-- The register is read from index `i` on before it is redefined, or it is not redefined and
live out of the block. -/
def LiveLocal (i : ℕ) : Prop :=
  (∃ u instr, i ≤ u ∧ instrs[u]? = some instr ∧ instr.Reads r ∧
    ∀ j other, i ≤ j → j < u → instrs[j]? = some other → ¬other.Redefines r) ∨
  (out ∧ ∀ j other, i ≤ j → instrs[j]? = some other → ¬other.Redefines r)

/-- The points at which a range is needed. -/
def Needed (j stage : ℕ) : Prop :=
  ∃ instr, instrs[j]? = some instr ∧
    ((stage = 0 ∧ LiveLocal r instrs out j) ∨
      (stage = 1 ∧ LiveLocal r instrs out (j + 1) ∧ ¬instr.Clobbers r))

/-- The topmost range of a live register once the instructions from `i` on are scanned: it
reaches down to the scanned part, and starts at the block's start or at a read with no `DEF` or
`KILL` since. -/
structure Topmost (i : ℕ) (last : LiveRange) : Prop where
  block : last.block = b
  end_ : 2 * i ≤ last.end_.value + 1
  start : last.start = ⟨0, 0⟩ ∨ ∃ u instr, i ≤ u ∧ last.start = ⟨u, 0⟩ ∧ instrs[u]? = some instr ∧
    instr.Reads r ∧ ∀ j other, i ≤ j → j < u → instrs[j]? = some other →
      ⟨r, .DEF⟩ ∉ other.regs ∧ ⟨r, .KILL⟩ ∉ other.regs

/-- The state of the scan of one register after the instructions from `i` on. -/
structure ScanInv (before : List LiveRange) (i : ℕ) (p : List LiveRange × Bool) : Prop where
  topmost : p.2 = true → ∃ init last, p.1 = init ++ [last] ∧ Topmost r b instrs i last
  live : LiveLocal r instrs out i → p.2 = true
  covered : ∀ {j stage : ℕ}, i ≤ j → Needed r instrs out j stage →
    CoveredIn p.1 b (2 * j + stage) ∨
      (p.2 = true ∧ ∀ {init last}, p.1 = init ++ [last] → 2 * j + stage ≤ last.end_.value)
  others : ∀ {b' v : ℕ}, b' ≠ b → CoveredIn before b' v → CoveredIn p.1 b' v

variable {r b instrs out}

variable {i : ℕ} {instr : RegAllocInstr Instr}

theorem LiveLocal.step (hi : instrs[i]? = some instr) (h : LiveLocal r instrs out i) :
    instr.Reads r ∨ (¬instr.Redefines r ∧ LiveLocal r instrs out (i + 1)) := by
  rcases h with ⟨u, at_, hu, hat, hreads, hbetween⟩ | ⟨hout, hnone⟩
  · rcases Nat.eq_or_lt_of_le hu with rfl | hlt
    · obtain rfl : instr = at_ := some.inj (hi.symm.trans hat)
      exact Or.inl hreads
    · refine Or.inr ⟨hbetween i instr le_rfl hlt hi, Or.inl ⟨u, at_, hlt, hat, hreads, ?_⟩⟩
      exact fun j other hj ↦ hbetween j other (by omega)
  · exact Or.inr ⟨hnone i instr le_rfl hi, Or.inr ⟨hout, fun j other hj ↦ hnone j other (by omega)⟩⟩

/-! ### The writes of an instruction -/

variable {clears : List RegUsage}

/-- Once the register has left the live set, further writes only add ranges. -/
theorem foldl_clears_of_not_live
    (hclears : ∀ usage ∈ clears, usage.Clears) : ∀ (ranges : List LiveRange),
    ∃ more, clears.foldl (scanUsage b i) (ranges, false) = (ranges ++ more, false) ∧
      (.DEF ∈ clears → CoveredIn (ranges ++ more) b (2 * i + 1)) := by
  induction clears with
  | nil => exact fun ranges ↦ ⟨[], by simp, by simp⟩
  | cons usage clears ih =>
    intro ranges
    have hrest : ∀ usage ∈ clears, usage.Clears := fun u hu ↦ hclears u (mem_cons_of_mem _ hu)
    rcases hclears usage mem_cons_self with rfl | rfl
    · obtain ⟨more, hmore, -⟩ := ih hrest (ranges ++ [⟨b, ⟨i, 1⟩, ⟨i, 1⟩⟩])
      refine ⟨[⟨b, ⟨i, 1⟩, ⟨i, 1⟩⟩] ++ more, ?_, fun _ ↦ ?_⟩
      · rw [foldl_cons, ← append_assoc]
        exact hmore
      · rw [← append_assoc]
        exact (coveredIn_append_singleton ⟨rfl, le_rfl, le_rfl⟩).append more
    · obtain ⟨more, hmore, hdef⟩ := ih hrest ranges
      refine ⟨more, hmore, fun h ↦ hdef ?_⟩
      simpa using h

variable {before : List LiveRange} {p : List LiveRange × Bool}

/-- The writes of an instruction take the register out of the live set and leave every later
point covered; if one of them is a `DEF` the point where it writes is covered too. -/
theorem foldl_clears (hinv : ScanInv r b instrs out before (i + 1) p)
    (hclears : ∀ usage ∈ clears, usage.Clears) (hne : clears ≠ [])
    (hkill : .KILL ∈ clears → ∀ {init last}, p.1 = init ++ [last] → p.2 = true →
      last.start.value ≤ 2 * (i + 1)) :
    ∃ ranges, clears.foldl (scanUsage b i) p = (ranges, false) ∧
      (∀ {j stage : ℕ}, i + 1 ≤ j → Needed r instrs out j stage →
        CoveredIn ranges b (2 * j + stage)) ∧
      (.DEF ∈ clears → CoveredIn ranges b (2 * i + 1)) ∧
      ∀ {b' v : ℕ}, b' ≠ b → CoveredIn before b' v → CoveredIn ranges b' v := by
  obtain ⟨ranges, live⟩ := p
  cases live with
  | false =>
    obtain ⟨more, hmore, hdef⟩ := foldl_clears_of_not_live hclears (b := b) (i := i) ranges
    refine ⟨ranges ++ more, hmore, ?_, hdef, fun hb hv ↦ (hinv.others hb hv).append more⟩
    intro j stage hj hneeded
    rcases hinv.covered hj hneeded with h | ⟨hlive, -⟩
    · exact h.append more
    · exact Bool.noConfusion hlive
  | true =>
    obtain ⟨init, last, hranges, htop⟩ := hinv.topmost rfl
    dsimp only at hranges
    cases clears with
    | nil => exact absurd rfl hne
    | cons usage clears =>
      have hrest : ∀ usage ∈ clears, usage.Clears :=
        fun u hu ↦ hclears u (mem_cons_of_mem _ hu)
      rcases hclears usage mem_cons_self with rfl | rfl
      · -- a `DEF` moves the start down, so pending points are covered from here on
        obtain ⟨more, hmore, -⟩ := foldl_clears_of_not_live hrest (b := b) (i := i)
          (setBackStart ranges ⟨i, 1⟩)
        have hback : ∀ {v}, 2 * i + 1 ≤ v → v ≤ last.end_.value →
            CoveredIn (setBackStart ranges ⟨i, 1⟩) b v := by
          intro v hlow hhigh
          rw [hranges, setBackStart_concat]
          exact coveredIn_append_singleton ⟨htop.block.symm, hlow, hhigh⟩
        refine ⟨setBackStart ranges ⟨i, 1⟩ ++ more, hmore, ?_, fun _ ↦ ?_, ?_⟩
        · intro j stage hj hneeded
          refine CoveredIn.append ?_ more
          rcases hinv.covered hj hneeded with h | ⟨-, hpending⟩
          · dsimp only at h
            rw [hranges] at h ⊢
            exact h.setBackStart fun _ ↦ by rw [RegAllocPoint.value_mk]; omega
          · exact hback (by omega) (hpending hranges)
        · exact (hback le_rfl (by have := htop.end_; omega)).append more
        · intro b' v hb hv
          refine CoveredIn.append ?_ more
          have h := hinv.others hb hv
          dsimp only at h
          rw [hranges] at h ⊢
          exact h.setBackStart fun heq ↦ absurd (heq.trans htop.block) hb
      · -- a `KILL` leaves the start alone, which is low enough already
        have hlow := hkill mem_cons_self hranges rfl
        obtain ⟨more, hmore, hdef⟩ := foldl_clears_of_not_live hrest (b := b) (i := i) ranges
        refine ⟨ranges ++ more, hmore, ?_, fun h ↦ hdef (by simpa using h), ?_⟩
        · intro j stage hj hneeded
          refine CoveredIn.append ?_ more
          rcases hinv.covered hj hneeded with h | ⟨-, hpending⟩
          · exact h
          · rw [hranges]
            exact coveredIn_append_singleton
              ⟨htop.block.symm, hlow.trans (by omega), hpending hranges⟩
        · exact fun hb hv ↦ (hinv.others hb hv).append more

/-! ### The reads of an instruction -/

/-- The reads of an instruction put the register into the live set; they add a range only when it
was not there. -/
theorem foldl_reads {reads : List RegUsage} (hreads : ∀ usage ∈ reads, ¬usage.Clears)
    (ranges : List LiveRange) (live : Bool) :
    reads.foldl (scanUsage b i) (ranges, live)
      = if reads = [] ∨ live = true then (ranges, live)
        else (ranges ++ [⟨b, ⟨i, 0⟩, ⟨i, if reads.head? = some .USE_DEF then 1 else 0⟩⟩],
          true) := by
  have hlive : ∀ {reads : List RegUsage}, (∀ usage ∈ reads, ¬usage.Clears) →
      ∀ {ranges}, reads.foldl (scanUsage b i) (ranges, true) = (ranges, true) := by
    intro reads
    induction reads with
    | nil => exact fun _ {_} ↦ rfl
    | cons usage reads ih =>
      intro h ranges
      have hstep : scanUsage b i (ranges, true) usage = (ranges, true) := by
        have hnot := h usage mem_cons_self
        cases usage <;> simp_all [scanUsage, RegUsage.Clears]
      rw [foldl_cons, hstep]
      exact ih fun u hu ↦ h u (mem_cons_of_mem _ hu)
  cases live with
  | true => rw [hlive hreads, if_pos (Or.inr rfl)]
  | false =>
    cases reads with
    | nil => simp
    | cons usage reads =>
      have hrest : ∀ usage ∈ reads, ¬usage.Clears :=
        fun u hu ↦ hreads u (mem_cons_of_mem _ hu)
      have hnot := hreads usage mem_cons_self
      rw [foldl_cons]
      cases usage with
      | USE => simp [scanUsage, hlive hrest]
      | USE_DEF => simp [scanUsage, hlive hrest]
      | DEF => exact absurd (Or.inl rfl) hnot
      | KILL => exact absurd (Or.inr rfl) hnot

/-! ### One instruction -/

/-- Operands that list no write of a register after a read of it split into the writes and the
reads. -/
theorem usagesOf_split {ops : List RegOp}
    (hops : ops.Pairwise fun op later ↦ op.reg = later.reg → ¬op.usage.Clears →
      ¬later.usage.Clears) (r : Register) :
    ∃ clears reads, usagesOf r ops = clears ++ reads ∧ (∀ usage ∈ clears, usage.Clears) ∧
      ∀ usage ∈ reads, ¬usage.Clears := by
  induction ops with
  | nil => exact ⟨[], [], rfl, by simp, by simp⟩
  | cons op ops ih =>
    rw [pairwise_cons] at hops
    obtain ⟨clears, reads, hsplit, hclears, hreads⟩ := ih hops.2
    by_cases hreg : op.reg = r
    · have hcons : usagesOf r (op :: ops) = op.usage :: usagesOf r ops := by simp [usagesOf, hreg]
      by_cases hop : op.usage.Clears
      · refine ⟨op.usage :: clears, reads, by rw [hcons, hsplit]; rfl, ?_, hreads⟩
        rintro usage (- | ⟨_, h⟩)
        · exact hop
        · exact hclears usage h
      · -- nothing after a read writes the register
        refine ⟨[], op.usage :: usagesOf r ops, hcons, by simp, ?_⟩
        rintro usage (- | ⟨_, h⟩)
        · exact hop
        · exact hops.1 ⟨r, usage⟩ (mem_usagesOf.mp h) hreg hop
    · have hskip : usagesOf r (op :: ops) = usagesOf r ops := by simp [usagesOf, hreg]
      exact ⟨clears, reads, by rw [hskip, hsplit], hclears, hreads⟩

theorem Topmost.step (hi : instrs[i]? = some instr)
    (hdef : ⟨r, .DEF⟩ ∉ instr.regs) (hkill : ⟨r, .KILL⟩ ∉ instr.regs) {last : LiveRange}
    (h : Topmost r b instrs (i + 1) last) : Topmost r b instrs i last := by
  refine { block := h.block, end_ := by have := h.end_; omega, start := ?_ }
  rcases h.start with hzero | ⟨u, at_, hu, hstart, hat, hreads, hbetween⟩
  · exact Or.inl hzero
  · refine Or.inr ⟨u, at_, by omega, hstart, hat, hreads, fun j other hj hju hother ↦ ?_⟩
    rcases Nat.eq_or_lt_of_le hj with rfl | hlt
    · obtain rfl : instr = other := some.inj (hi.symm.trans hother)
      exact ⟨hdef, hkill⟩
    · exact hbetween j other hlt hju hother

/-- The points of an instruction that leaves the register in the live set are pending. -/
theorem ScanInv.pending (hinv : ScanInv r b instrs out before (i + 1) p) (hlive : p.2 = true)
    {stage : ℕ} (hstage : stage ≤ 1) {init : List LiveRange} {last : LiveRange}
    (hp : p.1 = init ++ [last]) : 2 * i + stage ≤ last.end_.value := by
  obtain ⟨init', last', hp', htop⟩ := hinv.topmost hlive
  obtain rfl : last = last' := by
    have := (append_inj' (hp.symm.trans hp') rfl).2
    exact singleton_inj.mp this
  have := htop.end_
  omega

variable (r b instrs out) in
/-- What holds between the writes and the reads of the instruction at `i`. -/
structure WritesInv (before : List LiveRange) (i : ℕ) (instr : RegAllocInstr Instr)
    (p : List LiveRange × Bool) : Prop where
  topmost : p.2 = true → ∃ init last, p.1 = init ++ [last] ∧ Topmost r b instrs i last
  reach : p.2 = true → ∀ {init last}, p.1 = init ++ [last] → 2 * i ≤ last.end_.value
  live : ¬instr.Redefines r → LiveLocal r instrs out (i + 1) → p.2 = true
  later : ∀ {j stage : ℕ}, i + 1 ≤ j → Needed r instrs out j stage →
    CoveredIn p.1 b (2 * j + stage) ∨
      (p.2 = true ∧ ∀ {init last}, p.1 = init ++ [last] → 2 * j + stage ≤ last.end_.value)
  own : LiveLocal r instrs out (i + 1) → ¬instr.Clobbers r →
    CoveredIn p.1 b (2 * i + 1) ∨
      (p.2 = true ∧ ∀ {init last}, p.1 = init ++ [last] → 2 * i + 1 ≤ last.end_.value)
  others : ∀ {b' v : ℕ}, b' ≠ b → CoveredIn before b' v → CoveredIn p.1 b' v

theorem ScanInv.writes (hi : instrs[i]? = some instr)
    (hclears : ∀ usage ∈ clears, usage.Clears)
    (hmem : ∀ {usage : RegUsage}, usage.Clears → (⟨r, usage⟩ ∈ instr.regs ↔ usage ∈ clears))
    (hgap : ⟨r, .KILL⟩ ∈ instr.regs → ∀ u reader, i + 1 < u → instrs[u]? = some reader →
      reader.Reads r → ∃ j other, i < j ∧ j < u ∧ instrs[j]? = some other ∧ ⟨r, .DEF⟩ ∈ other.regs)
    (hinv : ScanInv r b instrs out before (i + 1) p) :
    WritesInv r b instrs out before i instr (clears.foldl (scanUsage b i) p) := by
  by_cases hne : clears = []
  · -- no write: a register that is live stays so, and nothing moves
    subst hne
    have hdef : ⟨r, .DEF⟩ ∉ instr.regs := by
      rw [hmem (Or.inl rfl)]
      exact not_mem_nil
    have hkill : ⟨r, .KILL⟩ ∉ instr.regs := by
      rw [hmem (Or.inr rfl)]
      exact not_mem_nil
    refine { topmost := ?_, reach := fun hlive _ _ hp ↦ hinv.pending hlive zero_le_one hp,
             live := fun _ ↦ hinv.live, later := hinv.covered, own := ?_, others := hinv.others }
    · intro hlive
      obtain ⟨init, last, hp, htop⟩ := hinv.topmost hlive
      exact ⟨init, last, hp, htop.step hi hdef hkill⟩
    · exact fun hlocal _ ↦
        Or.inr ⟨hinv.live hlocal, fun hp ↦ hinv.pending (hinv.live hlocal) le_rfl hp⟩
  · -- the register has left the live set, so every later point is covered already
    have hlow : .KILL ∈ clears → ∀ {init last}, p.1 = init ++ [last] → p.2 = true →
        last.start.value ≤ 2 * (i + 1) := by
      intro hkill init last hp hlive
      obtain ⟨init', last', hp', htop⟩ := hinv.topmost hlive
      obtain rfl : last = last' :=
        singleton_inj.mp (append_inj' (hp.symm.trans hp') rfl).2
      rcases htop.start with hzero | ⟨u, at_, hu, hstart, hat, hreads, hbetween⟩
      · rw [hzero, RegAllocPoint.value_mk]
        omega
      · rcases Nat.eq_or_lt_of_le hu with rfl | hlt
        · rw [hstart, RegAllocPoint.value_mk]
          omega
        · obtain ⟨j, other, hij, hju, hother, hdef⟩ :=
            hgap ((hmem (Or.inr rfl)).mpr hkill) u at_ hlt hat hreads
          exact absurd hdef (hbetween j other hij hju hother).1
    obtain ⟨ranges, hfold, hlater, hown, hothers⟩ := foldl_clears hinv hclears hne hlow
    rw [hfold]
    refine { topmost := nofun, reach := nofun, live := ?_, later := fun hj h ↦ Or.inl (hlater hj h),
             own := ?_, others := hothers }
    · intro hredef _
      obtain ⟨usage, hu⟩ := exists_mem_of_ne_nil clears hne
      have hin := (hmem (hclears usage hu)).mpr hu
      rcases hclears usage hu with rfl | rfl
      · exact absurd (Or.inl hin) hredef
      · exact absurd (Or.inr (Or.inr hin)) hredef
    · intro _ hclobbers
      have hdef : .DEF ∈ clears := by
        obtain ⟨usage, hu⟩ := exists_mem_of_ne_nil clears hne
        rcases hclears usage hu with rfl | rfl
        · exact hu
        · by_contra hdef
          exact hclobbers ⟨(hmem (Or.inr rfl)).mpr hu, fun h ↦ hdef ((hmem (Or.inl rfl)).mp h)⟩
      exact Or.inl (hown hdef)

theorem WritesInv.reads {reads : List RegUsage} (hi : instrs[i]? = some instr)
    (hreads : ∀ usage ∈ reads, ¬usage.Clears) (hmem : reads ≠ [] ↔ instr.Reads r)
    (hinv : WritesInv r b instrs out before i instr p) :
    ScanInv r b instrs out before i (reads.foldl (scanUsage b i) p) := by
  obtain ⟨ranges, live⟩ := p
  rw [foldl_reads hreads]
  by_cases hkeep : reads = [] ∨ live = true
  · -- nothing is pushed: either nothing is read or the register was live
    rw [if_pos hkeep]
    have hlive : LiveLocal r instrs out i → live = true := by
      intro hlocal
      rcases hkeep with hnil | hlive
      · rcases hlocal.step hi with hread | ⟨hredef, hnext⟩
        · exact absurd hnil (hmem.mpr hread)
        · exact hinv.live hredef hnext
      · exact hlive
    refine { topmost := hinv.topmost, live := hlive, covered := ?_, others := hinv.others }
    intro j stage hj hneeded
    rcases Nat.eq_or_lt_of_le hj with rfl | hlt
    · obtain ⟨other, hother, ⟨rfl, hlocal⟩ | ⟨rfl, hnext, hclobbers⟩⟩ := hneeded
      · exact Or.inr ⟨hlive hlocal, fun hp ↦ hinv.reach (hlive hlocal) hp⟩
      · obtain rfl : instr = other := some.inj (hi.symm.trans hother)
        exact hinv.own hnext hclobbers
    · exact hinv.later hlt hneeded
  · -- the register is read here and was not live: a range starts at the instruction
    rw [if_neg hkeep]
    push Not at hkeep
    obtain ⟨hne, hlive⟩ := hkeep
    obtain rfl : live = false := by simpa using hlive
    have hread := hmem.mp hne
    refine { topmost := fun _ ↦ ⟨_, _, rfl, ?_⟩, live := fun _ ↦ rfl, covered := ?_,
             others := fun hb hv ↦ (hinv.others hb hv).append _ }
    · refine { block := rfl, end_ := ?_, start := ?_ }
      · simp only [RegAllocPoint.value_mk]
        omega
      · exact Or.inr ⟨i, instr, le_rfl, rfl, hi, hread, fun j other hj hji ↦ by omega⟩
    · intro j stage hj hneeded
      left
      rcases Nat.eq_or_lt_of_le hj with rfl | hlt
      · obtain ⟨other, hother, ⟨rfl, hlocal⟩ | ⟨rfl, hnext, hclobbers⟩⟩ := hneeded
        · refine coveredIn_append_singleton ⟨rfl, le_rfl, ?_⟩
          simp only [RegAllocPoint.value_mk]
          omega
        · obtain rfl : instr = other := some.inj (hi.symm.trans hother)
          rcases hinv.own hnext hclobbers with h | ⟨h, -⟩
          · exact h.append _
          · exact Bool.noConfusion h
      · rcases hinv.later hlt hneeded with h | ⟨h, -⟩
        · exact h.append _
        · exact Bool.noConfusion h

/-- **One step of the scan.** -/
theorem ScanInv.step (hi : instrs[i]? = some instr)
    (hops : instr.regs.Pairwise fun op later ↦ op.reg = later.reg → ¬op.usage.Clears →
      ¬later.usage.Clears)
    (hgap : ⟨r, .KILL⟩ ∈ instr.regs → ∀ u reader, i + 1 < u → instrs[u]? = some reader →
      reader.Reads r → ∃ j other, i < j ∧ j < u ∧ instrs[j]? = some other ∧ ⟨r, .DEF⟩ ∈ other.regs)
    (hinv : ScanInv r b instrs out before (i + 1) p) :
    ScanInv r b instrs out before i ((usagesOf r instr.regs).foldl (scanUsage b i) p) := by
  obtain ⟨clears, reads, hsplit, hclears, hreads⟩ := usagesOf_split hops r
  have hmem : ∀ {usage}, ⟨r, usage⟩ ∈ instr.regs ↔ usage ∈ clears ∨ usage ∈ reads := by
    intro usage
    rw [← mem_usagesOf, hsplit, mem_append]
  have hwrites : ∀ {usage : RegUsage}, usage.Clears → (⟨r, usage⟩ ∈ instr.regs ↔ usage ∈ clears) :=
    fun husage ↦ hmem.trans (or_iff_left fun h ↦ hreads _ h husage)
  have hreader : reads ≠ [] ↔ instr.Reads r := by
    have hiff : ∀ {usage : RegUsage}, ¬usage.Clears →
        (⟨r, usage⟩ ∈ instr.regs ↔ usage ∈ reads) :=
      fun husage ↦ hmem.trans (or_iff_right fun h ↦ husage (hclears _ h))
    rw [RegAllocInstr.Reads, hiff (by simp [RegUsage.Clears]), hiff (by simp [RegUsage.Clears])]
    constructor
    · intro hne
      obtain ⟨usage, hu⟩ := exists_mem_of_ne_nil reads hne
      have hnot := hreads usage hu
      cases usage with
      | USE => exact Or.inl hu
      | USE_DEF => exact Or.inr hu
      | DEF => exact absurd (Or.inl rfl) hnot
      | KILL => exact absurd (Or.inr rfl) hnot
    · rintro (h | h)
      · exact ne_nil_of_mem h
      · exact ne_nil_of_mem h
  rw [hsplit, foldl_append]
  exact (hinv.writes hi hclears hwrites hgap).reads hi hreads hreader

end Scan

end LivenessAnalysis

end Banjo.Codegen
