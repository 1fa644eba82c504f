import Banjo.SSA.DominatorTree.Frontiers

/-!
# Loops

`LoopAnalyzer` takes an edge whose target dominates its source for the back edge of a loop, and
collects the body from the source backwards up to the target. It climbs the dominator tree on its
own to find out, and stops before it gets to the entry: the entry dominates nothing but itself
there, and a loop back to it is missed.
-/

open List Option

namespace Banjo.Passes

open SSA DominatorTree

structure LoopAnalysis where
  header : ℕ
  body : List ℕ
  tail : ℕ
  entries : List ℕ
  exits : List (ℕ × ℕ)
  deriving DecidableEq, Repr

namespace LoopAnalyzer

/-- The loop of `is_dominated_by`, up to a node that is its own parent. -/
def climb (parents : List ℕ) (b : ℕ) : ℕ → ℕ → Option Bool
  | 0, _ => none
  | fuel + 1, idom =>
    parents[idom]?.bind fun parent ↦
      if parent = idom then some false
      else if idom = b then some true
      else climb parents b fuel parent

def isDominatedBy (parents : List ℕ) (fuel a b : ℕ) : Option Bool :=
  if a = b then some true else parents[a]?.bind (climb parents b fuel)

def collectBodyNodes (cfg : ControlFlowGraph) : ℕ → List ℕ → ℕ → List ℕ
  | 0, body, _ => body
  | fuel + 1, body, node =>
    if node ∈ body then body
    else (cfg.predecessorIndices node).foldl (collectBodyNodes cfg fuel) (node :: body)

def collectExitNodes (cfg : ControlFlowGraph) (body : List ℕ) (node : ℕ) : List (ℕ × ℕ) :=
  ((cfg.successorIndices node).filter (· ∉ body)).map (node, ·)

/-- The sets of the source are lists without repetitions. -/
def analyzeBackEdge (cfg : ControlFlowGraph) (fuel : ℕ) (edge : ℕ × ℕ) : LoopAnalysis :=
  let body := collectBodyNodes cfg fuel [edge.2] edge.1
  { header := edge.2
    body := body
    tail := edge.1
    entries := ((cfg.predecessorIndices edge.2).filter (· ∉ body)).dedup
    exits := (body.flatMap (collectExitNodes cfg body)).dedup }

def visitEdge (cfg : ControlFlowGraph) (parents : List ℕ) (fuel : ℕ) (loops : List LoopAnalysis)
    (edge : ℕ × ℕ) : Option (List LoopAnalysis) :=
  (isDominatedBy parents fuel edge.1 edge.2).map fun dominated ↦
    if dominated then loops ++ [analyzeBackEdge cfg fuel edge] else loops

/-- The edges in the order `analyze` looks at them. -/
def edges (cfg : ControlFlowGraph) : List (ℕ × ℕ) :=
  (List.range cfg.nodes.length).flatMap fun i ↦ (cfg.successorIndices i).map (i, ·)

def analyze (cfg : ControlFlowGraph) (parents : List ℕ) (fuel : ℕ) : Option (List LoopAnalysis) :=
  (edges cfg).foldlM (visitEdge cfg parents fuel) []

open Relation Dominance OptionLists

variable {cfg : ControlFlowGraph} {doms : Doms} {parents : List ℕ} {a b : ℕ}

/-! ## Dominance -/

theorem climb_spec (h : Exact cfg doms) (hparents : ParentsOf cfg doms parents) :
    ∀ (fuel idom : ℕ), idom ≤ cfg.entryIndex → cfg.entryIndex - idom < fuel →
    ∃ r, climb parents b fuel idom = some r ∧
      (r = true ↔ b ≠ cfg.entryIndex ∧ Chain doms idom b) := by
  intro fuel
  induction fuel with
  | zero => exact fun _ _ hfuel ↦ absurd hfuel (Nat.not_lt_zero _)
  | succ fuel ih =>
    intro idom hle hfuel
    obtain ⟨d, hd⟩ := ne_none_iff_exists'.mp (h.found hle)
    rw [climb, (hparents hle).mpr hd, bind_some]
    by_cases hroot : idom = cfg.entryIndex
    · subst hroot
      obtain rfl := some.inj (h.tree.root.symm.trans hd)
      rw [if_pos rfl]
      refine ⟨false, rfl, iff_of_false Bool.false_ne_true ?_⟩
      exact fun ⟨hne, hchain⟩ ↦ hne (h.tree.chain_entry hchain)
    · have hlt := h.tree.lt hd hroot
      rw [if_neg (ne_of_gt hlt), chain_iff hd]
      by_cases heq : idom = b
      · rw [if_pos heq]
        exact ⟨true, rfl, iff_of_true rfl ⟨heq ▸ hroot, Or.inl heq.symm⟩⟩
      · obtain ⟨r, hr, hiff⟩ := ih d (h.tree.le hd).2 (by omega)
        rw [if_neg heq]
        refine ⟨r, hr, hiff.trans (and_congr_right fun _ ↦ ?_)⟩
        exact (or_iff_right (Ne.symm heq)).symm

variable {fuel : ℕ}

/-- What the climb finds: the dominators but the entry. -/
theorem isDominatedBy_spec (h : Exact cfg doms) (hparents : ParentsOf cfg doms parents)
    (hfuel : cfg.entryIndex < fuel) (ha : a ≤ cfg.entryIndex) :
    ∃ r, isDominatedBy parents fuel a b = some r ∧
      (r = true ↔ Dominates cfg.Edge cfg.entryIndex b a ∧ (a = b ∨ b ≠ cfg.entryIndex)) := by
  rw [isDominatedBy]
  by_cases hab : a = b
  · rw [if_pos hab]
    exact ⟨true, rfl, iff_of_true rfl ⟨hab ▸ dominates_refl a, Or.inl hab⟩⟩
  · obtain ⟨d, hd⟩ := ne_none_iff_exists'.mp (h.found ha)
    obtain ⟨r, hr, hiff⟩ := climb_spec (b := b) h hparents fuel d (h.tree.le hd).2 (by omega)
    rw [if_neg hab, (hparents ha).mpr hd, bind_some]
    refine ⟨r, hr, hiff.trans ?_⟩
    rw [← h.chain_iff ha, chain_iff hd, or_iff_right (Ne.symm hab), or_iff_right hab, and_comm]

/-! ## The body -/

/-- The collection is a depth-first search over the predecessors. -/
theorem collectBodyNodes_eq (cfg : ControlFlowGraph) : ∀ (fuel node : ℕ) (s : PostOrder.State ℕ),
    collectBodyNodes cfg fuel s.visited node
      = (PostOrder.searchAll cfg.predecessorIndices fuel [node] s).visited := by
  intro fuel
  induction fuel with
  | zero =>
    intro node s
    rw [PostOrder.searchAll, foldl_cons, foldl_nil, PostOrder.dfs, ite_self]
    rfl
  | succ fuel ih =>
    intro node s
    have hall : ∀ (nodes : List ℕ) (s : PostOrder.State ℕ),
        nodes.foldl (collectBodyNodes cfg fuel) s.visited
          = (PostOrder.searchAll cfg.predecessorIndices fuel nodes s).visited := by
      intro nodes
      induction nodes with
      | nil => exact fun _ ↦ rfl
      | cons w rest ihrest =>
        intro s
        rw [foldl_cons, ih, ihrest]
        rfl
    rw [collectBodyNodes, PostOrder.searchAll, foldl_cons, foldl_nil]
    by_cases hnode : node ∈ s.visited
    · rw [if_pos hnode, if_pos hnode]
    · rw [if_neg hnode, if_neg hnode, PostOrder.dfs_succ]
      exact hall (cfg.predecessorIndices node) ⟨node :: s.visited, s.order⟩

/-- The header and what leads to the tail around it. -/
def InNaturalLoop (cfg : ControlFlowGraph) (header tail x : ℕ) : Prop :=
  x = header ∨ ReachesAround cfg.Edge header tail x

theorem mem_collectBodyNodes (hcfg : cfg.PostOrdered) {header tail x : ℕ}
    (hfuel : cfg.nodes.length ≤ fuel) (htail : tail < cfg.nodes.length) :
    x ∈ collectBodyNodes cfg fuel [header] tail ↔ InNaturalLoop cfg header tail x := by
  have heq := collectBodyNodes_eq cfg fuel tail ⟨[header], []⟩
  rw [heq, InNaturalLoop, PostOrder.searchAll, foldl_cons, foldl_nil]
  by_cases hself : tail = header
  · rw [if_pos (mem_singleton.mpr hself), mem_singleton]
    exact (or_iff_left fun h ↦ h.ne hself).symm
  · have hfresh : tail ∉ [header] := fun h ↦ hself (mem_singleton.mp h)
    have hclosed : ∀ x ∈ Finset.range cfg.nodes.length, ∀ p ∈ cfg.predecessorIndices x,
        p ∈ Finset.range cfg.nodes.length :=
      fun x _ p hp ↦ Finset.mem_range.mpr (hcfg.pred_lt hp)
    have hcard : (PostOrder.unvisited (Finset.range cfg.nodes.length) ⟨[header], []⟩).card ≤ fuel :=
      calc (PostOrder.unvisited (Finset.range cfg.nodes.length) ⟨[header], []⟩).card
          ≤ (Finset.range cfg.nodes.length).card := PostOrder.card_unvisited_le _ _
        _ = cfg.nodes.length := Finset.card_range _
        _ ≤ fuel := hfuel
    obtain ⟨new, hnew⟩ := PostOrder.dfs_grows hclosed fuel tail ⟨[header], []⟩
      (Finset.mem_range.mpr htail) hfresh hcard
    rw [if_neg hfresh, hnew.visited, mem_singleton]
    refine or_congr_right' fun hx ↦ ?_
    constructor
    · intro hmem
      have hpath := hnew.reach_around hmem
      clear hmem hx
      induction hpath with
      | refl => exact .last hself
      | tail _ hstep ih =>
        exact .step hstep.1 (fun h ↦ hstep.2 (mem_singleton.mpr h)) ih
    · intro hreaches
      clear hx
      have hvisited : ∀ {p}, p ≠ header →
          p ∈ (PostOrder.dfs cfg.predecessorIndices fuel tail ⟨[header], []⟩).visited → p ∈ new :=
        fun hne hp ↦ ((hnew.visited _).mp hp).resolve_left fun h ↦ hne (mem_singleton.mp h)
      induction hreaches with
      | last hne => exact hvisited hne (hnew.covers tail (mem_singleton_self tail))
      | step hedge hne _ ih => exact hvisited hne (hnew.closed _ ih _ hedge)

/-! ## The loops -/

/-- An edge whose target dominates its source. -/
def BackEdge (cfg : ControlFlowGraph) (i s : ℕ) : Prop :=
  s ∈ cfg.successorIndices i ∧ Dominates cfg.Edge cfg.entryIndex s i

theorem mem_edges {i s : ℕ} : (i, s) ∈ edges cfg ↔ s ∈ cfg.successorIndices i := by
  simp only [edges, List.mem_flatMap, List.mem_range, List.mem_map, Prod.mk.injEq]
  constructor
  · rintro ⟨i, -, s, hs, rfl, rfl⟩
    exact hs
  · intro hs
    refine ⟨i, ?_, s, hs, rfl, rfl⟩
    by_contra hlt
    rw [ControlFlowGraph.successorIndices, List.getElem?_eq_none (Nat.le_of_not_lt hlt)] at hs
    exact absurd hs List.not_mem_nil

theorem foldlM_visitEdge (cfg : ControlFlowGraph) {P : ℕ × ℕ → Prop} : ∀ (l : List (ℕ × ℕ)),
    (∀ edge ∈ l, ∃ r, isDominatedBy parents fuel edge.1 edge.2 = some r ∧ (r = true ↔ P edge)) →
    ∀ loops, ∃ found, l.foldlM (visitEdge cfg parents fuel) loops = some (loops ++ found) ∧
      ∀ loop, loop ∈ found ↔ ∃ edge ∈ l, P edge ∧ loop = analyzeBackEdge cfg fuel edge := by
  intro l
  induction l with
  | nil => exact fun _ loops ↦ ⟨[], by rw [append_nil]; rfl, by simp⟩
  | cons edge rest ih =>
    intro h loops
    obtain ⟨r, hr, hP⟩ := h edge mem_cons_self
    have hrest := ih fun edge hedge ↦ h edge (mem_cons_of_mem _ hedge)
    rw [foldlM_cons, visitEdge, hr, map_some]
    cases r with
    | true =>
      obtain ⟨found, hfound, hiff⟩ := hrest (loops ++ [analyzeBackEdge cfg fuel edge])
      refine ⟨analyzeBackEdge cfg fuel edge :: found, ?_, fun loop ↦ ?_⟩
      · rw [append_cons loops _ found]
        exact hfound
      · rw [mem_cons, hiff, exists_mem_cons_iff, and_iff_right (hP.mp rfl)]
    | false =>
      obtain ⟨found, hfound, hiff⟩ := hrest loops
      refine ⟨found, hfound, fun loop ↦ ?_⟩
      rw [hiff, exists_mem_cons_iff, or_iff_right fun h ↦ Bool.false_ne_true (hP.mpr h.1)]

/-- The loops are those of the back edges the climb finds. -/
theorem exists_analyze (h : Exact cfg doms) (hparents : ParentsOf cfg doms parents)
    (hfuel : cfg.entryIndex < fuel) (hedges : ∀ edge ∈ edges cfg, edge.1 ≤ cfg.entryIndex) :
    ∃ loops, analyze cfg parents fuel = some loops ∧ ∀ loop, loop ∈ loops ↔ ∃ edge ∈ edges cfg,
      (Dominates cfg.Edge cfg.entryIndex edge.2 edge.1 ∧
        (edge.1 = edge.2 ∨ edge.2 ≠ cfg.entryIndex)) ∧ loop = analyzeBackEdge cfg fuel edge :=
  foldlM_visitEdge cfg (edges cfg)
    (fun edge hedge ↦ isDominatedBy_spec (b := edge.2) h hparents hfuel (hedges edge hedge)) []

/-- The analysis ends. It agrees with the dominator tree but on the entry, misses the loops back to
the entry from other blocks, and the bodies of the loops it finds are right. -/
theorem analyze_finds_iff (func : Function) (hclosed : ControlFlowGraph.Closed func) :
    ∃ F, ∀ fuel ≥ F, ∃ tree loops,
      ofGraph (ControlFlowGraph.ofFunction func) fuel = some tree ∧
      analyze (ControlFlowGraph.ofFunction func) tree.parentIndices fuel = some loops ∧
      (∀ a b, a ≤ (ControlFlowGraph.ofFunction func).entryIndex →
        b ≤ (ControlFlowGraph.ofFunction func).entryIndex →
        ∃ r, dominates (ControlFlowGraph.ofFunction func) tree.parentIndices fuel b a = some r ∧
          (isDominatedBy tree.parentIndices fuel a b = some r ↔
            a = b ∨ b ≠ (ControlFlowGraph.ofFunction func).entryIndex)) ∧
      (∀ i s, BackEdge (ControlFlowGraph.ofFunction func) i s →
        ((∃ loop ∈ loops, loop.tail = i ∧ loop.header = s) ↔
          i = s ∨ s ≠ (ControlFlowGraph.ofFunction func).entryIndex)) ∧
      ∀ loop ∈ loops, BackEdge (ControlFlowGraph.ofFunction func) loop.tail loop.header ∧
        ∀ x, x ∈ loop.body ↔
          InNaturalLoop (ControlFlowGraph.ofFunction func) loop.header loop.tail x := by
  have hcfg := ofFunction_postOrdered hclosed
  have hsuccs : ∀ {i s}, s ∈ (ControlFlowGraph.ofFunction func).successorIndices i →
      (ControlFlowGraph.ofFunction func).Edge i s := (mem_successorIndices hclosed).mp
  revert hcfg hsuccs
  generalize ControlFlowGraph.ofFunction func = cfg
  intro hcfg hsuccs
  have hentry : cfg.entryIndex = cfg.nodes.length - 1 := rfl
  have hpos := hcfg.nonempty
  obtain ⟨F, hF⟩ := exists_ofGraph hcfg
  refine ⟨max F cfg.nodes.length, fun fuel hfuel ↦ ?_⟩
  have hnodes : cfg.nodes.length ≤ fuel := le_of_max_le_right hfuel
  obtain ⟨tree, doms, htree, hexact, hof, hlength⟩ := hF fuel (le_of_max_le_left hfuel)
  obtain ⟨loops, hloops, hmem⟩ := exists_analyze hexact hof (by omega : cfg.entryIndex < fuel)
    fun edge hedge ↦ edge_le hcfg (hsuccs (mem_edges.mp hedge))
  refine ⟨tree, loops, htree, hloops, ?_, ?_, ?_⟩
  · intro a b ha hb
    obtain ⟨r, hr, hiff⟩ := dominates_spec (b := a) hexact hof hlength hpos fuel b (by omega)
    obtain ⟨r', hr', hiff'⟩ :=
      isDominatedBy_spec (b := b) hexact hof (by omega : cfg.entryIndex < fuel) ha
    rw [hexact.chain_iff ha] at hiff
    refine ⟨r, hr, ?_⟩
    rw [hr', some_inj, Bool.eq_iff_iff, hiff, hiff', and_iff_left_iff_imp]
    constructor
    · intro h
      by_cases hbe : b = cfg.entryIndex
      · exact h (hbe ▸ fun _ hpath ↦ hpath.mem_root)
      · exact Or.inr hbe
    · exact fun h _ ↦ h
  · rintro i s ⟨hs, hdom⟩
    constructor
    · rintro ⟨loop, hloop, rfl, rfl⟩
      obtain ⟨edge, -, hP, rfl⟩ := (hmem loop).mp hloop
      exact hP.2
    · intro hcond
      exact ⟨analyzeBackEdge cfg fuel (i, s),
        (hmem _).mpr ⟨(i, s), mem_edges.mpr hs, ⟨hdom, hcond⟩, rfl⟩, rfl, rfl⟩
  · intro loop hloop
    obtain ⟨edge, hedge, hP, rfl⟩ := (hmem loop).mp hloop
    have hs := mem_edges.mp hedge
    have htail := edge_le hcfg (hsuccs hs)
    exact ⟨⟨hs, hP.1⟩, fun x ↦ mem_collectBodyNodes hcfg hnodes (by omega)⟩

/-- A function that starts over. -/
def startOver : Function where
  blocks :=
    [(0, { instrs := [{ opcode := .JMP, targets := [⟨1, []⟩] }] }),
     (1, { instrs := [{ opcode := .CJMP
                        operands := [⟨.intImmediate ⟨1, false⟩, Primitive.I64⟩,
                          ⟨.comparison .EQ, Primitive.VOID⟩,
                          ⟨.intImmediate ⟨2, false⟩, Primitive.I64⟩]
                        targets := [⟨0, []⟩, ⟨2, []⟩] }] }),
     (2, { instrs := [{ opcode := .RET }] })]
  lastVirtualReg := 0

theorem closed_startOver : ControlFlowGraph.Closed startOver :=
  ControlFlowGraph.closed_of_wellFormed
    (Function.wellFormed_of_check (fun _ ↦ []) (by decide))

theorem analyze_finds_iff_startOver :
    ∃ F, ∀ fuel ≥ F, ∃ tree loops,
      ofGraph (ControlFlowGraph.ofFunction startOver) fuel = some tree ∧
      analyze (ControlFlowGraph.ofFunction startOver) tree.parentIndices fuel = some loops ∧
      (∀ a b, a ≤ 2 → b ≤ 2 →
        ∃ r, dominates (ControlFlowGraph.ofFunction startOver) tree.parentIndices
          fuel b a = some r ∧
          (isDominatedBy tree.parentIndices fuel a b = some r ↔ a = b ∨ b ≠ 2)) ∧
      (∀ i s, BackEdge (ControlFlowGraph.ofFunction startOver) i s →
        ((∃ loop ∈ loops, loop.tail = i ∧ loop.header = s) ↔ i = s ∨ s ≠ 2)) ∧
      ∀ loop ∈ loops, BackEdge (ControlFlowGraph.ofFunction startOver) loop.tail loop.header ∧
        ∀ x, x ∈ loop.body ↔
          InNaturalLoop (ControlFlowGraph.ofFunction startOver) loop.header loop.tail x :=
  analyze_finds_iff startOver closed_startOver

/-- The loop of a function that starts over is not found. -/
theorem not_analyze_finds_startOver :
    ∃ tree, ofGraph (ControlFlowGraph.ofFunction startOver) 8 = some tree ∧
      dominates (ControlFlowGraph.ofFunction startOver) tree.parentIndices 8 2 1 = some true ∧
      isDominatedBy tree.parentIndices 8 1 2 = some false ∧
      BackEdge (ControlFlowGraph.ofFunction startOver) 1 2 ∧
      analyze (ControlFlowGraph.ofFunction startOver) tree.parentIndices 8 = some [] :=
  ⟨⟨[1, 2, 2], []⟩, by decide, by decide, by decide,
    ⟨by decide, fun _ hpath ↦ hpath.mem_root⟩, by decide⟩

end LoopAnalyzer

end Banjo.Passes
