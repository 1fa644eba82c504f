import Banjo.Codegen.LivenessFixpoint
import Banjo.Codegen.LivenessScan

/-!
# Soundness of the live ranges

A register is live at a point when some path from the point reads it before redefining it. The
ranges of `compute` are sound when they hold every such point. The collected uses and definitions
leave reads out (a `USE_DEF` is neither), and the scan does not move the start of a range down to a
`KILL`, so soundness is proved for the functions on which these do not matter.
-/

open List Option

namespace Banjo.Codegen

namespace RegRanges

/-- Updating each register of a list without duplicates once. -/
theorem get_foldl_update {regs : List Register} (hregs : regs.Nodup)
    (f : List LiveRange → List LiveRange) (r : Register) : ∀ (regRanges : RegRanges),
    (regs.foldl (fun regRanges reg ↦ regRanges.update reg f) regRanges).get r
      = if r ∈ regs then f (regRanges.get r) else regRanges.get r := by
  induction regs with
  | nil => intro regRanges; rfl
  | cons reg regs ih =>
    intro regRanges
    rw [nodup_cons] at hregs
    rw [foldl_cons, ih hregs.2]
    by_cases hreg : r = reg
    · subst hreg
      simp [hregs.1]
    · simp [hreg]

end RegRanges

namespace RegAllocBlock

variable {Instr : Type}

/-- The block reads the register before it redefines it. -/
def Exposes (block : RegAllocBlock Instr) (r : Register) : Prop :=
  ∃ u : ℕ, ∃ instr : RegAllocInstr Instr, block.instrs[u]? = some instr ∧ instr.Reads r ∧
    ∀ j : ℕ, ∀ other : RegAllocInstr Instr, j < u → block.instrs[j]? = some other →
      ¬other.Redefines r

/-- A read that no `DEF` and no `KILL` precedes; the first such read is exposed. -/
theorem Exposes.of_read {block : RegAllocBlock Instr} {r : Register} : ∀ {u : ℕ}
    {instr : RegAllocInstr Instr}, block.instrs[u]? = some instr → instr.Reads r →
    (∀ j other, j < u → block.instrs[j]? = some other →
      ⟨r, .DEF⟩ ∉ other.regs ∧ ⟨r, .KILL⟩ ∉ other.regs) → block.Exposes r := by
  intro u
  induction u using Nat.strong_induction_on with
  | _ u ih =>
    intro instr hu hreads hbetween
    by_cases hearlier : ∃ j other, j < u ∧ block.instrs[j]? = some other ∧ other.Reads r
    · obtain ⟨j, other, hj, hother, hread⟩ := hearlier
      exact ih j hj hother hread fun k later hk ↦ hbetween k later (by omega)
    · refine ⟨u, instr, hu, hreads, fun j other hj hother hredef ↦ ?_⟩
      rcases hredef with h | h | h
      · exact (hbetween j other hj hother).1 h
      · exact hearlier ⟨j, other, hj, hother, Or.inr h⟩
      · exact (hbetween j other hj hother).2 h

end RegAllocBlock

namespace LivenessAnalysis

variable {Instr : Type} {func : RegAllocFunc Instr}

/-! ## What soundness means -/

/-- Some path from before the instruction at `i` of block `b` reads the register before redefining
it. -/
inductive LiveIn (func : RegAllocFunc Instr) (r : Register) : ℕ → ℕ → Prop
  | read {b i : ℕ} {block : RegAllocBlock Instr} {instr : RegAllocInstr Instr} :
    func.blocks[b]? = some block → block.instrs[i]? = some instr → instr.Reads r → LiveIn func r b i
  | pass {b i : ℕ} {block : RegAllocBlock Instr} {instr : RegAllocInstr Instr} :
    func.blocks[b]? = some block → block.instrs[i]? = some instr → ¬instr.Redefines r →
    LiveIn func r b (i + 1) → LiveIn func r b i
  | edge {b s : ℕ} {block : RegAllocBlock Instr} : func.blocks[b]? = some block →
    s ∈ block.succs → LiveIn func r s 0 → LiveIn func r b block.instrs.length

/-- The register is live at a program point. Stage `0` is before the instruction and stage `1`
after its writes; a register the instruction kills is not live there. -/
def LiveAt (func : RegAllocFunc Instr) (r : Register) (b : ℕ) (point : RegAllocPoint) : Prop :=
  ∃ block instr, func.blocks[b]? = some block ∧ block.instrs[point.instr]? = some instr ∧
    ((point.stage = 0 ∧ LiveIn func r b point.instr) ∨
      (point.stage = 1 ∧ LiveIn func r b (point.instr + 1) ∧ ¬instr.Clobbers r))

/-- Every point where a register is live lies in one of its ranges. -/
def Sound (func : RegAllocFunc Instr) (analysis : LivenessAnalysis) : Prop :=
  ∀ r b point, LiveAt func r b point →
    ∃ range ∈ analysis.regRanges.get r, (b, point.value) ∈ range.points

/-- No instruction lists a `DEF` of a register after an operand that reads it. -/
def DefsFirst (func : RegAllocFunc Instr) : Prop :=
  ∀ block ∈ func.blocks, ∀ instr ∈ block.instrs,
    instr.regs.Pairwise fun op later ↦ op.reg = later.reg → ¬op.usage.Clears → later.usage ≠ .DEF

/-- The collected uses make the register live into the block. -/
inductive CollectedIn (func : RegAllocFunc Instr) (r : Register) : ℕ → Prop
  | use {b : ℕ} {block : RegAllocBlock Instr} {front back : List RegOp} :
    func.blocks[b]? = some block → blockOps block = front ++ ⟨r, .USE⟩ :: back →
    ⟨r, .DEF⟩ ∉ front → CollectedIn func r b
  | succ {b s : ℕ} {block : RegAllocBlock Instr} : func.blocks[b]? = some block →
    ⟨r, .DEF⟩ ∉ blockOps block → s ∈ block.succs → CollectedIn func r s → CollectedIn func r b

/-- The reads the analysis loses are harmless: a register a reachable block exposes is collected,
a killed register is written before it is read again (the instruction after the kill may read what
the callee left), and an unreachable block neither exposes a register nor leads to a read. -/
structure Tracked (func : RegAllocFunc Instr) : Prop where
  exposed : ∀ {b : ℕ} {block : RegAllocBlock Instr} {r : Register}, BlockReachable func b →
    func.blocks[b]? = some block → block.Exposes r → CollectedIn func r b
  killsFirst : ∀ block ∈ func.blocks, ∀ instr ∈ block.instrs,
    instr.regs.Pairwise fun op later ↦ op.reg = later.reg → ¬op.usage.Clears → later.usage ≠ .KILL
  killed : ∀ block ∈ func.blocks, ∀ (r : Register) (k u : ℕ) (killer reader : RegAllocInstr Instr),
    block.instrs[k]? = some killer → ⟨r, .KILL⟩ ∈ killer.regs → k + 1 < u →
    block.instrs[u]? = some reader → reader.Reads r →
    ∃ j other, k < j ∧ j < u ∧ block.instrs[j]? = some other ∧ ⟨r, .DEF⟩ ∈ other.regs
  unreachable : ∀ {b : ℕ} {block : RegAllocBlock Instr} {r : Register}, ¬BlockReachable func b →
    func.blocks[b]? = some block → ¬block.Exposes r ∧ ∀ s ∈ block.succs, ¬LiveIn func r s 0

/-! ## The fixpoint covers the paths -/

variable {b : ℕ} {block : RegAllocBlock Instr}

theorem succsOf_eq (hb : func.blocks[b]? = some block) : succsOf func b = block.succs := by
  rw [succsOf, hb]
  rfl

theorem not_mem_blockOps {op : RegOp}
    (h : ∀ (j : ℕ) (instr : RegAllocInstr Instr), block.instrs[j]? = some instr → op ∉ instr.regs) :
    op ∉ blockOps block := by
  intro hop
  obtain ⟨instr, hinstr, hregs⟩ := mem_flatMap.mp hop
  obtain ⟨j, hj⟩ := mem_iff_getElem?.mp hinstr
  exact h j instr hj hregs

variable {r : Register} {st : ℕ → BlockLiveness}

theorem Closed.collected (hst : Closed func st)
    (h : CollectedIn func r b) : BlockReachable func b → r ∈ (st b).ins := by
  induction h with
  | use hblock hops hfront =>
    intro hb
    exact hst.uses_ins hb hblock (mem_uses_of_ops hops hfront)
  | succ hblock hdef hs _ ih =>
    intro hb
    rw [← succsOf_eq hblock] at hs
    have hins := ih (hb.tail hs)
    exact hst.outs_ins hb hblock (hst.succ_ins hb hs hins) hdef

/-- A register that is live into a reachable block is in its live-in set. -/
theorem Closed.mem_ins (hst : Closed func st) (htracked : Tracked func) (hb : BlockReachable func b)
    (hblock : func.blocks[b]? = some block)
    (h : LiveLocal r block.instrs (r ∈ (st b).outs) 0) : r ∈ (st b).ins := by
  rcases h with ⟨u, instr, -, hu, hreads, hbetween⟩ | ⟨hout, hnone⟩
  · have hexposes : block.Exposes r :=
      ⟨u, instr, hu, hreads, fun j other ↦ hbetween j other (Nat.zero_le j)⟩
    exact hst.collected (htracked.exposed hb hblock hexposes) hb
  · refine hst.outs_ins hb hblock hout (not_mem_blockOps fun j instr hj hdef ↦ ?_)
    exact hnone j instr (Nat.zero_le j) hj (Or.inl hdef)

/-- Liveness along paths is liveness inside the block with the live-out set of the fixpoint. -/
theorem Closed.liveLocal {st : ℕ → BlockLiveness} (hst : Closed func st) (htracked : Tracked func)
    {r : Register} {b i : ℕ} (h : LiveIn func r b i) : ∃ block, func.blocks[b]? = some block ∧
      LiveLocal r block.instrs (r ∈ (st b).outs) i := by
  induction h with
  | read hblock hi hreads =>
    exact ⟨_, hblock, Or.inl ⟨_, _, le_rfl, hi, hreads, fun j _ hj hlt ↦ absurd hj (by omega)⟩⟩
  | @pass b i block instr hblock hi hredef _ ih =>
    obtain ⟨block', hblock', hlocal⟩ := ih
    obtain rfl : block = block' := some.inj (hblock.symm.trans hblock')
    refine ⟨block, hblock, hlocal.imp ?_ ?_⟩
    · rintro ⟨u, at_, hu, hat, hreads, hbetween⟩
      refine ⟨u, at_, by omega, hat, hreads, fun j other hj hju hother ↦ ?_⟩
      rcases Nat.eq_or_lt_of_le hj with rfl | hlt
      · obtain rfl : instr = other := some.inj (hi.symm.trans hother)
        exact hredef
      · exact hbetween j other hlt hju hother
    · rintro ⟨hout, hnone⟩
      refine ⟨hout, fun j other hj hother ↦ ?_⟩
      rcases Nat.eq_or_lt_of_le hj with rfl | hlt
      · obtain rfl : instr = other := some.inj (hi.symm.trans hother)
        exact hredef
      · exact hnone j other hlt hother
  | @edge b s block hblock hs hlive ih =>
    obtain ⟨succ, hsucc, hlocal⟩ := ih
    by_cases hb : BlockReachable func b
    · have hs' : s ∈ succsOf func b := by rwa [succsOf_eq hblock]
      have hins := hst.mem_ins htracked (hb.tail hs') hsucc hlocal
      refine ⟨block, hblock, Or.inr ⟨hst.succ_ins hb hs' hins, fun j other hj hother ↦ ?_⟩⟩
      have := (List.getElem?_eq_some_iff.mp hother).1
      omega
    · exact absurd hlive ((htracked.unreachable hb hblock).2 s hs)

/-! ## The ranges of a block -/

theorem get_pushOuts (b : ℕ) (block : RegAllocBlock Instr) (outs : Finset Register)
    (regRanges : RegRanges) (r : Register) : (pushOuts b block outs regRanges).get r
      = if r ∈ outs then regRanges.get r ++ [⟨b, ⟨0, 0⟩, ⟨block.instrs.length - 1, 1⟩⟩]
        else regRanges.get r := by
  rw [pushOuts, RegRanges.get_foldl_update (Finset.sort_nodup outs _)]
  simp only [Finset.mem_sort]

theorem get_extendIns (ins : Finset Register) (regRanges : RegRanges) (r : Register) :
    (extendIns ins regRanges).get r
      = if r ∈ ins then setBackStart (regRanges.get r) ⟨0, 0⟩ else regRanges.get r := by
  rw [extendIns, RegRanges.get_foldl_update (Finset.sort_nodup ins _)]
  simp only [Finset.mem_sort]

/-- The scan starts with the ranges of the live-out registers. -/
theorem scanInv_length (r : Register) (b : ℕ) {block : RegAllocBlock Instr}
    (outs : Finset Register) (analysis : LivenessAnalysis) (hne : block.instrs ≠ []) :
    ScanInv r b block.instrs (r ∈ outs) (analysis.regRanges.get r) block.instrs.length
      ((pushOuts b block outs analysis.regRanges).get r, decide (r ∈ outs)) := by
  have hlen := List.length_pos_of_ne_nil hne
  refine { topmost := ?_, live := ?_, covered := ?_, others := ?_ }
  · intro hout
    rw [get_pushOuts, if_pos (by simpa using hout)]
    refine ⟨_, _, rfl, { block := rfl, end_ := ?_, start := Or.inl rfl }⟩
    rw [RegAllocPoint.value_mk]
    omega
  · rintro (⟨u, instr, hu, hat, -⟩ | ⟨hout, -⟩)
    · have := (List.getElem?_eq_some_iff.mp hat).1
      omega
    · exact decide_eq_true hout
  · rintro j stage hj ⟨instr, hinstr, -⟩
    have := (List.getElem?_eq_some_iff.mp hinstr).1
    omega
  · intro b' v _ hv
    rw [get_pushOuts]
    split_ifs
    · exact hv.append _
    · exact hv

/-- The scan keeps its invariant down to the first instruction. -/
theorem scanInv_scanFrom {out : Prop} {before : List LiveRange} {p : List LiveRange × Bool}
    (hblock : block ∈ func.blocks) (hdefs : DefsFirst func) (htracked : Tracked func)
    (hbase : ScanInv r b block.instrs out before block.instrs.length p) : ∀ (k i : ℕ),
    i + k = block.instrs.length →
      ScanInv r b block.instrs out before i (scanFrom r b block.instrs i p) := by
  intro k
  induction k with
  | zero =>
    intro i hi
    obtain rfl : i = block.instrs.length := hi
    rwa [scanFrom_length]
  | succ k ih =>
    intro i hi
    have hlt : i < block.instrs.length := by omega
    have hat := getElem?_eq_getElem hlt
    have hmem : block.instrs[i] ∈ block.instrs := getElem_mem hlt
    rw [scanFrom_step r b hat]
    refine (ih (i + 1) (by omega)).step hat ?_ ?_
    · refine ((hdefs block hblock _ hmem).and (htracked.killsFirst block hblock _ hmem)).imp ?_
      rintro op later ⟨hdef, hkill⟩ hreg hop hlater
      exact hlater.elim (hdef hreg hop) (hkill hreg hop)
    · intro hkill u reader hu hat' hreads
      exact htracked.killed block hblock r i u _ reader hat hkill hu hat' hreads

/-- **The ranges of one block** cover the points of the block where a register is live, and every
point of another block that was covered. -/
theorem computeBlockRanges_covers {liveness : BlockLiveness} (hblock : block ∈ func.blocks)
    (hdefs : DefsFirst func) (htracked : Tracked func) (hins : block.Exposes r → r ∈ liveness.ins)
    (analysis : LivenessAnalysis) :
    (∀ {j stage : ℕ}, Needed r block.instrs (r ∈ liveness.outs) j stage →
      CoveredIn ((computeBlockRanges b block liveness analysis).regRanges.get r) b
        (2 * j + stage)) ∧
    ∀ {b' v : ℕ}, b' ≠ b → CoveredIn (analysis.regRanges.get r) b' v →
      CoveredIn ((computeBlockRanges b block liveness analysis).regRanges.get r) b' v := by
  by_cases hempty : block.instrs = []
  · have hskip : computeBlockRanges b block liveness analysis = analysis := by
      rw [computeBlockRanges, if_pos (isEmpty_iff.mpr hempty)]
    rw [hskip]
    refine ⟨?_, fun _ hv ↦ hv⟩
    rintro j stage ⟨instr, hinstr, -⟩
    rw [hempty] at hinstr
    cases hinstr
  · have hscan := scanInv_scanFrom hblock hdefs htracked
      (scanInv_length r b liveness.outs analysis hempty) _ 0 (Nat.zero_add _)
    set p := scanFrom r b block.instrs 0
      ((pushOuts b block liveness.outs analysis.regRanges).get r, decide (r ∈ liveness.outs))
      with hp
    have hget : (computeBlockRanges b block liveness analysis).regRanges.get r
        = if r ∈ liveness.ins then setBackStart p.1 ⟨0, 0⟩ else p.1 := by
      have hproject := project_scanInstrs r b block.instrs
        ⟨pushOuts b block liveness.outs analysis.regRanges, analysis.killPoints, liveness.outs⟩
      rw [computeBlockRanges, if_neg (by simpa using hempty), get_extendIns, hp]
      exact congrArg (fun q ↦ if r ∈ liveness.ins then setBackStart q.1 ⟨0, 0⟩ else q.1) hproject
    rw [hget]
    constructor
    · intro j stage hneeded
      rcases hscan.covered (Nat.zero_le j) hneeded with h | ⟨hlive, hpending⟩
      · split_ifs
        · exact h.extend
        · exact h
      · obtain ⟨init, last, hranges, htop⟩ := hscan.topmost hlive
        have hend := hpending hranges
        have hzero : last.start.value = 0 ∨ r ∈ liveness.ins := by
          rcases htop.start with hstart | ⟨u, instr, -, -, hu, hreads, hbetween⟩
          · exact Or.inl (by rw [hstart]; rfl)
          · refine Or.inr (hins (.of_read hu hreads fun j other ↦ ?_))
            exact hbetween j other (Nat.zero_le j)
        split_ifs with hmem
        · rw [hranges, setBackStart_concat]
          exact coveredIn_append_singleton ⟨htop.block.symm, Nat.zero_le _, hend⟩
        · rw [hranges]
          exact coveredIn_append_singleton
            ⟨htop.block.symm, (hzero.resolve_right hmem).trans_le (Nat.zero_le _), hend⟩
    · intro b' v hb hv
      split_ifs
      · exact (hscan.others hb hv).extend
      · exact hscan.others hb hv

/-! ## The ranges of a function -/

/-- The loop over the blocks covers what each block needs. -/
theorem foldl_computeBlockRanges_covers (hdefs : DefsFirst func) (htracked : Tracked func) :
    ∀ {items : List (RegAllocBlock Instr × ℕ)}, (items.map Prod.snd).Nodup →
    (∀ block b, (block, b) ∈ items → block ∈ func.blocks ∧ (block.Exposes r → r ∈ (st b).ins)) →
    ∀ (analysis : LivenessAnalysis) {b v : ℕ},
    (b ∉ items.map Prod.snd ∧ CoveredIn (analysis.regRanges.get r) b v) ∨
      (∃ block j stage, (block, b) ∈ items ∧ v = 2 * j + stage ∧
        Needed r block.instrs (r ∈ (st b).outs) j stage) →
    CoveredIn ((items.foldl (fun analysis (block, b) ↦
      computeBlockRanges b block (st b) analysis) analysis).regRanges.get r) b v := by
  intro items
  induction items with
  | nil =>
    rintro - - analysis b v (⟨-, h⟩ | ⟨_, _, _, hmem, -⟩)
    · exact h
    · exact absurd hmem not_mem_nil
  | cons item items ih =>
    obtain ⟨block, c⟩ := item
    intro hnodup hitems analysis b v h
    rw [map_cons, nodup_cons] at hnodup
    obtain ⟨hblock, hins⟩ := hitems block c mem_cons_self
    obtain ⟨hneeded, hothers⟩ :=
      computeBlockRanges_covers (b := c) hblock hdefs htracked hins analysis
    rw [foldl_cons]
    refine ih hnodup.2 (fun block' b' hmem ↦ hitems block' b' (mem_cons_of_mem _ hmem)) _ ?_
    rcases h with ⟨hb, hv⟩ | ⟨block', j, stage, hmem, hv, hneed⟩
    · rw [map_cons, mem_cons, not_or] at hb
      exact Or.inl ⟨hb.2, hothers hb.1 hv⟩
    · rcases mem_cons.mp hmem with heq | hmem
      · obtain ⟨rfl, rfl⟩ := Prod.mk.inj heq
        exact Or.inl ⟨hnodup.1, hv ▸ hneeded hneed⟩
      · exact Or.inr ⟨block', j, stage, hmem, hv, hneed⟩

/-- **Soundness of the live ranges.** -/
theorem compute_sound (hfunc : WellFormed func) (hdefs : DefsFirst func)
    (htracked : Tracked func) : ∃ analysis, compute func = some analysis ∧ Sound func analysis := by
  obtain ⟨st, hst⟩ := isSome_iff_exists.mp (computeInsAndOuts_isSome hfunc)
  have hclosed := computeInsAndOuts_closed hfunc hst
  refine ⟨computePreciseLiveRanges func st, by rw [compute, hst]; rfl, ?_⟩
  rintro r b point ⟨block, instr, hblock, hinstr, hlive⟩
  have hitem : (block, b) ∈ func.blocks.zipIdx := mem_zipIdx_iff_getElem?.mpr hblock
  refine foldl_computeBlockRanges_covers hdefs htracked ?_ ?_ ⟨[], []⟩
    (Or.inr ⟨block, point.instr, point.stage, hitem, rfl, instr, hinstr, ?_⟩)
  · rw [zipIdx_map_snd]
    exact nodup_range'
  · intro block' b' hmem
    have hblock' : func.blocks[b']? = some block' := mem_zipIdx_iff_getElem?.mp hmem
    refine ⟨mem_of_getElem? hblock', fun hexposes ↦ ?_⟩
    by_cases hb : BlockReachable func b'
    · exact hclosed.collected (htracked.exposed hb hblock' hexposes) hb
    · exact absurd hexposes (htracked.unreachable hb hblock').1
  · have hlocal : ∀ {i}, LiveIn func r b i → LiveLocal r block.instrs (r ∈ (st b).outs) i := by
      intro i h
      obtain ⟨block', hblock', hlocal⟩ := hclosed.liveLocal htracked h
      rwa [some.inj (hblock.symm.trans hblock')]
    exact hlive.imp (fun h ↦ ⟨h.1, hlocal h.2⟩) fun h ↦ ⟨h.1, hlocal h.2.1, h.2.2⟩

/-- A definition before a loop that reads the register on each round. -/
def definedBeforeLoop : RegAllocFunc Unit where
  blocks :=
    [{ instrs := [⟨0, (), [⟨.fromVirtual 0, .DEF⟩]⟩, ⟨1, (), []⟩]
       preds := [], succs := [1], reservedSegments := [] },
     { instrs := [⟨0, (), [⟨.fromVirtual 0, .USE⟩]⟩, ⟨1, (), []⟩]
       preds := [0, 1], succs := [1], reservedSegments := [] }]

theorem blocks_definedBeforeLoop {block : RegAllocBlock Unit}
    (h : definedBeforeLoop.blocks[b]? = some block) :
    (b = 0 ∧ block = definedBeforeLoop.blocks[0]) ∨
      (b = 1 ∧ block = definedBeforeLoop.blocks[1]) := by
  match b, h with
  | 0, h => exact Or.inl ⟨rfl, (some.inj h).symm⟩
  | 1, h => exact Or.inr ⟨rfl, (some.inj h).symm⟩

theorem definedBeforeLoop_reachable {block : RegAllocBlock Unit}
    (h : definedBeforeLoop.blocks[b]? = some block) : BlockReachable definedBeforeLoop b := by
  rcases blocks_definedBeforeLoop h with ⟨rfl, -⟩ | ⟨rfl, -⟩
  · exact .refl
  · exact .single (by decide)

theorem definedBeforeLoop_tracked : Tracked definedBeforeLoop where
  exposed := by
    rintro b block r - hb ⟨u, instr, hu, hreads, -⟩
    rcases blocks_definedBeforeLoop hb with ⟨rfl, rfl⟩ | ⟨rfl, rfl⟩
    · obtain _ | _ | u := u
      · cases hu; simp [RegAllocInstr.Reads] at hreads
      · cases hu; simp [RegAllocInstr.Reads] at hreads
      · cases hu
    · obtain _ | _ | u := u
      · cases hu
        obtain rfl : r = .fromVirtual 0 := by simpa [RegAllocInstr.Reads] using hreads
        exact .use hb (show _ = [] ++ _ :: [] from rfl) not_mem_nil
      · cases hu; simp [RegAllocInstr.Reads] at hreads
      · cases hu
  killsFirst := by decide
  killed := by
    intro block hblock r k u killer reader hkiller hkill
    have hnone : ∀ block ∈ definedBeforeLoop.blocks, ∀ instr ∈ block.instrs,
        ∀ op ∈ instr.regs, op.usage ≠ .KILL := by decide
    exact absurd rfl (hnone block hblock killer (mem_of_getElem? hkiller) _ hkill)
  unreachable := fun hb hblock ↦ absurd (definedBeforeLoop_reachable hblock) hb

theorem compute_sound_definedBeforeLoop :
    ∃ analysis, compute definedBeforeLoop = some analysis ∧ Sound definedBeforeLoop analysis := by
  have hdefs : DefsFirst definedBeforeLoop := by
    unfold DefsFirst
    decide
  exact compute_sound (.of_blocks (by decide) (by decide)) hdefs definedBeforeLoop_tracked

/-- A register defined in one block and first touched by a `USE_DEF` in the next. -/
def updatedInSuccessor : RegAllocFunc Unit where
  blocks :=
    [{ instrs := [⟨0, (), [⟨.fromVirtual 0, .DEF⟩]⟩, ⟨1, (), []⟩]
       preds := [], succs := [1], reservedSegments := [] },
     { instrs := [⟨0, (), []⟩, ⟨1, (), [⟨.fromVirtual 0, .USE_DEF⟩]⟩]
       preds := [0], succs := [], reservedSegments := [] }]

/-- The `USE_DEF` is not collected as a use, so no range reaches the end of the first block. -/
theorem not_sound_updatedInSuccessor : WellFormed updatedInSuccessor ∧
    DefsFirst updatedInSuccessor ∧
    ∃ analysis, compute updatedInSuccessor = some analysis ∧
      ¬Sound updatedInSuccessor analysis := by
  refine ⟨.of_blocks (by decide) (by decide), by unfold DefsFirst; decide, ?_⟩
  have hranges : (compute updatedInSuccessor).map (fun analysis ↦ analysis.regRanges)
      = some [(.fromVirtual 0, [⟨0, ⟨0, 1⟩, ⟨0, 1⟩⟩, ⟨1, ⟨1, 0⟩, ⟨1, 1⟩⟩])] := by decide +kernel
  obtain ⟨analysis, hanalysis, hget⟩ := map_eq_some_iff.mp hranges
  refine ⟨analysis, hanalysis, fun hsound ↦ ?_⟩
  have hlive : LiveAt updatedInSuccessor (.fromVirtual 0) 0 ⟨1, 0⟩ := by
    refine ⟨_, _, rfl, rfl, Or.inl ⟨rfl, ?_⟩⟩
    have hread : LiveIn updatedInSuccessor (.fromVirtual 0) 1 1 :=
      .read rfl rfl (Or.inr mem_cons_self)
    have hentry : LiveIn updatedInSuccessor (.fromVirtual 0) 1 0 :=
      .pass rfl rfl (by simp [RegAllocInstr.Redefines]) hread
    have hexit : LiveIn updatedInSuccessor (.fromVirtual 0) 0 2 :=
      LiveIn.edge (show updatedInSuccessor.blocks[0]? = some updatedInSuccessor.blocks[0] from rfl)
        mem_cons_self hentry
    exact .pass rfl rfl (by simp [RegAllocInstr.Redefines]) hexit
  obtain ⟨range, hrange, hpoint⟩ := hsound _ _ _ hlive
  rw [hget] at hrange
  simp only [RegRanges.get_cons, if_true, mem_cons, not_mem_nil, or_false] at hrange
  rcases hrange with rfl | rfl <;> simp [LiveRange.points] at hpoint

/-! ## The sets are exact -/

/-- A collected use is a `USE` operand with no `DEF` of its register listed before it. -/
theorem exists_ops_of_mem_uses {ops : List RegOp} (h : r ∈ (ops.foldl collectOp {}).uses) :
    ∃ front back, ops = front ++ ⟨r, .USE⟩ :: back ∧ ⟨r, .DEF⟩ ∉ front := by
  induction ops using reverseRecOn with
  | nil => exact absurd h (Finset.notMem_empty r)
  | append_singleton ops op ih =>
    have hkept (h : r ∈ (ops.foldl collectOp {}).uses) :
        ∃ front back, ops ++ [op] = front ++ ⟨r, .USE⟩ :: back ∧ ⟨r, .DEF⟩ ∉ front := by
      obtain ⟨front, back, rfl, hfront⟩ := ih h
      exact ⟨front, back ++ [op], by simp, hfront⟩
    rw [foldl_append, foldl_cons, foldl_nil, collectOp] at h
    split_ifs at h with hdef huse
    · exact hkept h
    · rcases Finset.mem_insert.mp h with rfl | h
      · exact ⟨ops, [], by rw [← huse.1], fun hmem ↦ huse.2 (mem_defs_foldl.mpr (.inr hmem))⟩
      · exact hkept h
    · exact hkept h

/-- Some path uses what the sets of a block hold. -/
structure Justified (func : RegAllocFunc Instr) (b : ℕ) (liveness : BlockLiveness) : Prop where
  uses : ∀ {r}, r ∈ liveness.uses → CollectedIn func r b
  defs : ∀ {block r}, func.blocks[b]? = some block → ⟨r, .DEF⟩ ∈ blockOps block → r ∈ liveness.defs
  ins : ∀ {r}, r ∈ liveness.ins → CollectedIn func r b
  outs : ∀ {r}, r ∈ liveness.outs → ∃ s ∈ succsOf func b, CollectedIn func r s

theorem justified_initialLiveness (b : ℕ) : Justified func b (initialLiveness func b) := by
  have hnone {r : Register} : r ∉ (∅ : Finset Register) := Finset.notMem_empty r
  rw [initialLiveness]
  cases hblock : func.blocks[b]? with
  | none =>
    exact ⟨(absurd · hnone), fun h ↦ (by cases hblock.symm.trans h), (absurd · hnone),
      (absurd · hnone)⟩
  | some block =>
    obtain ⟨hins, houts⟩ : (collectUsesAndDefs block).ins = ∅ ∧
        (collectUsesAndDefs block).outs = ∅ := by
      rw [collectUsesAndDefs_eq]
      refine foldlRecOn (blockOps block) collectOp
        (motive := fun st ↦ st.ins = ∅ ∧ st.outs = ∅) ?_ fun st h op _ ↦ ?_
      · exact ⟨rfl, rfl⟩
      · unfold collectOp
        split_ifs <;> exact h
    refine ⟨fun hr ↦ ?_, fun heq hdef ↦ ?_, fun hr ↦ absurd (hins ▸ hr) hnone,
      fun hr ↦ absurd (houts ▸ hr) hnone⟩
    · rw [map_some, getD_some, collectUsesAndDefs_eq] at hr
      obtain ⟨front, back, hops, hfront⟩ := exists_ops_of_mem_uses hr
      exact .use hblock hops hfront
    · obtain rfl := some.inj (hblock.symm.trans heq)
      exact mem_defs_iff.mpr hdef

theorem justified_updateLiveness (h : ∀ b, Justified func b (st b)) (b : ℕ) :
    Justified func b (updateLiveness func st b) := by
  have houts {r : Register} (hr : r ∈ (updateLiveness func st b).outs) :
      ∃ s ∈ succsOf func b, CollectedIn func r s :=
    (mem_outs_updateLiveness.mp hr).elim (h b).outs fun ⟨s, hs, hr⟩ ↦ ⟨s, hs, (h s).ins hr⟩
  refine ⟨(h b).uses, (h b).defs, fun {r} hr ↦ ?_, houts⟩
  rcases mem_ins_updateLiveness.mp hr with hr | hr | ⟨hr, hdef⟩
  · exact (h b).ins hr
  · exact (h b).uses hr
  · obtain ⟨s, hs, hcollected⟩ := houts hr
    cases hblock : func.blocks[b]? with
    | none => exact absurd hs (by simp [succsOf, hblock])
    | some block =>
      exact .succ hblock (hdef ∘ (h b).defs hblock) (succsOf_eq hblock ▸ hs) hcollected

theorem justified_computeLoop {indices : List ℕ} {fuel : ℕ} {st' : ℕ → BlockLiveness}
    (h : ∀ b, Justified func b (st b)) (hloop : computeLoop func indices fuel st = some st') :
    ∀ b, Justified func b (st' b) := by
  induction fuel generalizing st with
  | zero => cases hloop
  | succ fuel ih =>
    have hpass : ∀ b, Justified func b ((computePass func indices st).1 b) := by
      refine foldlRecOn indices (passStep func)
        (motive := fun acc ↦ ∀ b, Justified func b (acc.1 b)) ?_ fun acc h b _ c ↦ ?_
      · exact h
      · by_cases hc : c = b
        · subst hc
          simpa [passStep] using justified_updateLiveness h c
        · simpa [passStep, hc] using h c
    rw [computeLoop] at hloop
    split at hloop
    · next heq =>
      rw [heq] at hpass
      exact ih hpass hloop
    · next heq =>
      obtain rfl := some.inj hloop
      rwa [heq] at hpass

/-- At every block reachable from the entry, the sets hold the registers that some path of blocks
uses before any of its blocks lists a definition. -/
def Exact (func : RegAllocFunc Instr) (st : ℕ → BlockLiveness) : Prop :=
  ∀ b r, BlockReachable func b → (r ∈ (st b).ins ↔ CollectedIn func r b) ∧
    (r ∈ (st b).outs ↔ ∃ s ∈ succsOf func b, CollectedIn func r s)

end LivenessAnalysis

end Banjo.Codegen
