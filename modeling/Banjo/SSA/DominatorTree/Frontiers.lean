import Banjo.Lib.OptionLists
import Banjo.SSA.Checker
import Banjo.SSA.DominatorTree.Idoms

/-!
# The dominator tree of a function

With the chains being the dominators, parents are immediate dominators, and the runners of a join
go through the dominators of its predecessors that do not dominate it strictly. A block with a
single predecessor is in no frontier, since whatever dominates the predecessor strictly dominates
the block.
-/

open List Option

namespace Banjo.SSA.DominatorTree

open Relation Dominance OptionLists

variable {cfg : ControlFlowGraph} {fuel : ℕ} {doms : Doms} {parents : List ℕ} {b d i p x y : ℕ}

/-! ## Parents -/

/-- The parents are the dominators found. -/
def ParentsOf (cfg : ControlFlowGraph) (doms : Doms) (parents : List ℕ) : Prop :=
  ∀ {b d}, b ≤ cfg.entryIndex → (parents[b]? = some d ↔ doms b = some d)

theorem Exact.exists_parents (hcfg : cfg.PostOrdered) (h : Exact cfg doms) :
    ∃ parents, (range cfg.nodes.length).mapM doms = some parents ∧ ParentsOf cfg doms parents := by
  have hentry : cfg.entryIndex = cfg.nodes.length - 1 := rfl
  have hpos := hcfg.nonempty
  have hall : ∀ b ∈ range cfg.nodes.length, doms b = some ((doms b).getD 0) := by
    intro b hb
    obtain ⟨d, hd⟩ := ne_none_iff_exists'.mp (h.found (b := b) (by
      rw [mem_range] at hb
      omega))
    rw [hd]
    rfl
  refine ⟨_, mapM_eq_some hall, fun {b d} hb ↦ ?_⟩
  have hlt : b < cfg.nodes.length := by omega
  rw [getElem?_map, getElem?_range hlt, map_some, hall b (mem_range.mpr hlt), getD_some]

/-- The dominator found is the immediate one, and the only one there is. -/
theorem Exact.immediatelyDominates (h : Exact cfg doms) (hb : b < cfg.entryIndex)
    (hd : doms b = some d) : ImmediatelyDominates cfg.Edge cfg.entryIndex d b ∧
      ∀ c, ImmediatelyDominates cfg.Edge cfg.entryIndex c b → c = d := by
  have hbd := h.tree.lt hd (ne_of_lt hb)
  have hdle := (h.tree.le hd).2
  have hstrict : StrictlyDominates cfg.Edge cfg.entryIndex d b :=
    ⟨(h.chain_iff hb.le).mp ((DominatorTree.chain_iff hd).mpr (Or.inr .refl)), ne_of_gt hbd⟩
  have hclosest : ∀ c, StrictlyDominates cfg.Edge cfg.entryIndex c b → Chain doms d c := by
    intro c hc
    have hchain := (h.chain_iff hb.le).mpr hc.1
    exact ((DominatorTree.chain_iff hd).mp hchain).resolve_left hc.2
  refine ⟨⟨hstrict, fun c hc ↦ (h.chain_iff hdle).mp (hclosest c hc)⟩, fun c hc ↦ ?_⟩
  -- each of the two is on the chain of the other
  have hdc := hclosest c hc.1
  have hcle := h.tree.le_entry (hdc.found h.tree (h.found hdle))
  have hcd := (h.chain_iff hcle).mpr (hc.2 d hstrict)
  exact le_antisymm (Chain.le hcd h.tree) (Chain.le hdc h.tree)

/-! ## Frontiers -/

theorem runners_spec (h : Exact cfg doms) (hparents : ParentsOf cfg doms parents) :
    ∀ (fuel p : ℕ), p ≤ cfg.entryIndex → Chain doms p d → cfg.entryIndex - p < fuel →
    ∃ l, runners parents d fuel p = some l ∧ ∀ y, y ∈ l ↔ Chain doms p y ∧ ¬Chain doms d y := by
  intro fuel
  induction fuel with
  | zero => exact fun _ _ _ hfuel ↦ absurd hfuel (Nat.not_lt_zero _)
  | succ fuel ih =>
    intro p hp hchain hfuel
    rw [runners]
    by_cases hpd : p = d
    · rw [if_pos hpd, hpd]
      refine ⟨[], rfl, fun y ↦ ?_⟩
      rw [and_not_self_iff]
      exact iff_of_false not_mem_nil id
    · obtain ⟨q, hq⟩ := ne_none_iff_exists'.mp (h.found hp)
      have hqd := ((chain_iff hq).mp hchain).resolve_left (Ne.symm hpd)
      have hpe : p ≠ cfg.entryIndex := by
        rintro rfl
        exact hpd (h.tree.chain_entry hchain).symm
      have hpq := h.tree.lt hq hpe
      obtain ⟨l, hl, hiff⟩ := ih q (h.tree.le hq).2 hqd (by omega)
      rw [if_neg hpd, (hparents hp).mpr hq, bind_some, hl]
      refine ⟨p :: l, rfl, fun y ↦ ?_⟩
      rw [mem_cons, hiff, chain_iff hq]
      have hnot : ¬Chain doms d p := by
        intro hdp
        have := Chain.le hdp h.tree
        have := Chain.le hqd h.tree
        omega
      constructor
      · rintro (rfl | ⟨hy, hyd⟩)
        · exact ⟨Or.inl rfl, hnot⟩
        · exact ⟨Or.inr hy, hyd⟩
      · exact fun ⟨hy, hyd⟩ ↦ hy.imp_right fun hy ↦ ⟨hy, hyd⟩

/-- The strict dominators of a block are the dominators of its immediate dominator. -/
theorem Exact.strictlyDominates_iff (h : Exact cfg doms) (hi : i < cfg.entryIndex)
    (hd : doms i = some d) : StrictlyDominates cfg.Edge cfg.entryIndex y i ↔ Chain doms d y := by
  have hid := h.tree.lt hd (ne_of_lt hi)
  rw [StrictlyDominates, ← h.chain_iff hi.le, DominatorTree.chain_iff hd]
  constructor
  · exact fun ⟨hy, hne⟩ ↦ hy.resolve_left hne
  · intro hy
    have := Chain.le hy h.tree
    exact ⟨Or.inr hy, by omega⟩

/-- The dominator of a block dominates the predecessors. -/
theorem Exact.chain_pred (hcfg : cfg.PostOrdered) (h : Exact cfg doms) (hi : i < cfg.entryIndex)
    (hd : doms i = some d) (hedge : cfg.Edge p i) : Chain doms p d := by
  have hstrict := (h.immediatelyDominates hi hd).1.1
  exact (h.chain_iff (edge_le hcfg hedge)).mpr (hstrict.pred hedge)

/-- The frontier of `y`: what it does not dominate strictly, though it dominates a predecessor. -/
def InFrontier (cfg : ControlFlowGraph) (y i : ℕ) : Prop :=
  ¬StrictlyDominates cfg.Edge cfg.entryIndex y i ∧
    ∃ p, cfg.Edge p i ∧ Dominates cfg.Edge cfg.entryIndex y p

theorem frontierRunners_spec (hcfg : cfg.PostOrdered) (h : Exact cfg doms)
    (hparents : ParentsOf cfg doms parents) (hfuel : cfg.entryIndex < fuel)
    (hi : i < cfg.nodes.length) :
    ∃ l, frontierRunners cfg parents fuel i = some l ∧
      (cfg.predecessorIndices cfg.entryIndex = [] → ∀ y, y ∈ l ↔ InFrontier cfg y i) := by
  have hindex : cfg.entryIndex = cfg.nodes.length - 1 := rfl
  rw [frontierRunners]
  rcases Nat.lt_or_ge i cfg.entryIndex with hlt | hge
  · obtain ⟨d, hd⟩ := ne_none_iff_exists'.mp (h.found hlt.le)
    by_cases hjoin : (cfg.predecessorIndices i).length < 2
    · -- the only predecessor is the immediate dominator
      rw [if_pos hjoin]
      refine ⟨[], rfl, fun _ y ↦ iff_of_false not_mem_nil ?_⟩
      rintro ⟨hnot, p, hedge, hy⟩
      apply hnot
      have hall : ∀ q, cfg.Edge q i → q = p := by
        intro q hq
        rw [ControlFlowGraph.Edge] at hedge hq
        obtain ⟨only, honly⟩ := length_eq_one_iff.mp
          (Nat.le_antisymm (Nat.le_of_lt_succ hjoin) (length_pos_of_mem hedge))
        rw [honly, mem_singleton] at hedge hq
        rw [hedge, hq]
      refine ⟨dominates_of_preds (ne_of_lt hlt) fun q hq ↦ hall q hq ▸ hy, ?_⟩
      rintro rfl
      obtain ⟨q, hq, hyq⟩ := hcfg.parent hlt
      rw [hall q hq] at hyq
      have hple := edge_le hcfg hedge
      have := Chain.le ((h.chain_iff hple).mpr hy) h.tree
      omega
    · rw [if_neg hjoin, (hparents hlt.le).mpr hd, bind_some]
      obtain ⟨lists, hlists, hforall⟩ := exists_mapM (l := cfg.predecessorIndices i)
        (f := runners parents d fuel)
        (P := fun p l ↦ ∀ y, y ∈ l ↔ Dominates cfg.Edge cfg.entryIndex y p ∧ ¬Chain doms d y)
        fun p hedge ↦ by
          have hple := edge_le hcfg hedge
          obtain ⟨l, hl, hiff⟩ :=
            runners_spec h hparents fuel p hple (h.chain_pred hcfg hlt hd hedge) (by omega)
          exact ⟨l, hl, fun y ↦ by rw [hiff, h.chain_iff hple]⟩
      rw [hlists, map_some]
      refine ⟨_, rfl, fun _ y ↦ ?_⟩
      rw [mem_flatten_of_forall₂ hforall (fun hiff b ↦ hiff b), InFrontier,
        h.strictlyDominates_iff hlt hd]
      constructor
      · exact fun ⟨p, hedge, hy, hnot⟩ ↦ ⟨hnot, p, hedge, hy⟩
      · exact fun ⟨hnot, p, hedge, hy⟩ ↦ ⟨p, hedge, hy, hnot⟩
  · obtain rfl : i = cfg.entryIndex := by omega
    have hnone : cfg.predecessorIndices cfg.entryIndex = [] →
        ∀ y, ¬InFrontier cfg y cfg.entryIndex := by
      rintro hentry y ⟨-, p, hedge, -⟩
      rw [ControlFlowGraph.Edge, hentry] at hedge
      exact absurd hedge not_mem_nil
    by_cases hjoin : (cfg.predecessorIndices cfg.entryIndex).length < 2
    · rw [if_pos hjoin]
      exact ⟨[], rfl, fun hentry y ↦ iff_of_false not_mem_nil (hnone hentry y)⟩
    · -- the runners end at the entry, which is its own parent
      rw [if_neg hjoin, (hparents le_rfl).mpr h.tree.root, bind_some]
      obtain ⟨lists, hlists, -⟩ := exists_mapM (l := cfg.predecessorIndices cfg.entryIndex)
        (f := runners parents cfg.entryIndex fuel) (P := fun _ _ ↦ True)
        fun p hedge ↦ by
          have hple := edge_le hcfg hedge
          have hchain := (h.chain_iff hple).mpr fun _ hpath ↦ hpath.mem_root
          obtain ⟨l, hl, -⟩ := runners_spec h hparents fuel p hple hchain (by omega)
          exact ⟨l, hl, trivial⟩
      rw [hlists, map_some]
      refine ⟨_, rfl, fun hentry ↦ ?_⟩
      rw [hentry] at hjoin
      exact absurd (by decide) hjoin

theorem computeDominanceFrontiers_spec (hcfg : cfg.PostOrdered) (h : Exact cfg doms)
    (hparents : ParentsOf cfg doms parents) (hfuel : cfg.entryIndex < fuel) :
    ∃ pairs, computeDominanceFrontiers cfg parents fuel = some pairs ∧
      (cfg.predecessorIndices cfg.entryIndex = [] →
        ∀ y i, (y, i) ∈ pairs ↔ i < cfg.nodes.length ∧ InFrontier cfg y i) := by
  obtain ⟨lists, hlists, hforall⟩ := exists_mapM (l := range cfg.nodes.length)
    (f := fun i ↦ (frontierRunners cfg parents fuel i).map fun nodes ↦ nodes.map (·, i))
    (P := fun i pairs ↦ cfg.predecessorIndices cfg.entryIndex = [] →
      ∀ pair, pair ∈ pairs ↔ pair.2 = i ∧ InFrontier cfg pair.1 i)
    fun i hi ↦ by
      obtain ⟨l, hl, hiff⟩ := frontierRunners_spec hcfg h hparents hfuel (mem_range.mp hi)
      refine ⟨_, by rw [hl, map_some], fun hentry pair ↦ ?_⟩
      obtain ⟨y, j⟩ := pair
      simp only [List.mem_map, Prod.mk.injEq, hiff hentry]
      constructor
      · rintro ⟨y, hy, rfl, rfl⟩
        exact ⟨rfl, hy⟩
      · rintro ⟨rfl, hy⟩
        exact ⟨y, hy, rfl, rfl⟩
  refine ⟨lists.flatten, by rw [computeDominanceFrontiers, hlists, map_some], ?_⟩
  intro hentry y i
  rw [mem_flatten_of_forall₂ hforall (fun hiff pair ↦ hiff hentry pair)]
  constructor
  · rintro ⟨j, hj, rfl, hy⟩
    exact ⟨mem_range.mp hj, hy⟩
  · exact fun ⟨hi, hy⟩ ↦ ⟨i, List.mem_range.mpr hi, rfl, hy⟩

/-! ## The graph of a function -/

theorem nodeIndex_ofFunction (func : Function) (b : BlockId) :
    (ControlFlowGraph.ofFunction func).nodeIndex b
      = (ControlFlowGraph.blocksInPostOrder func).idxOf b := by
  rw [ControlFlowGraph.nodeIndex, ControlFlowGraph.ofFunction, findIdx_map, List.idxOf]
  congr 1

theorem nodeIndex_of_getElem? {func : Function} (hclosed : ControlFlowGraph.Closed func) {j : ℕ}
    {c : BlockId} (hj : (ControlFlowGraph.blocksInPostOrder func)[j]? = some c) :
    (ControlFlowGraph.ofFunction func).nodeIndex c = j := by
  obtain ⟨hlt, rfl⟩ := List.getElem?_eq_some_iff.mp hj
  rw [nodeIndex_ofFunction]
  exact List.Nodup.idxOf_getElem hclosed.blocksInPostOrder_spec.2 j hlt

theorem predecessorIndices_of_getElem? {func : Function} {i : ℕ} {b : BlockId}
    (hi : (ControlFlowGraph.blocksInPostOrder func)[i]? = some b) :
    (ControlFlowGraph.ofFunction func).predecessorIndices i
      = (ControlFlowGraph.predecessors func b).map
        (ControlFlowGraph.ofFunction func).nodeIndex := by
  rw [ControlFlowGraph.predecessorIndices, ControlFlowGraph.ofFunction, getElem?_map, hi]
  rfl

/-- The graph of a function is in post-order. -/
theorem ofFunction_postOrdered {func : Function} (hclosed : ControlFlowGraph.Closed func) :
    (ControlFlowGraph.ofFunction func).PostOrdered := by
  obtain ⟨root, U, -, horder, hU, hroot, hfuel⟩ := hclosed.exists_search
  obtain ⟨before, hlast⟩ :
      ∃ before, PostOrder.postOrder func.succs func.blocks.length root = before ++ [root] :=
    PostOrder.postOrder_eq_append hroot hfuel
  rw [← horder] at hlast
  have hlength : (ControlFlowGraph.ofFunction func).nodes.length
      = (ControlFlowGraph.blocksInPostOrder func).length := length_map _
  refine ⟨?_, ?_, ?_⟩
  · rw [hlength, hlast, length_append]
    exact Nat.succ_pos _
  · intro p i hedge
    rw [ControlFlowGraph.Edge] at hedge
    cases hi : (ControlFlowGraph.blocksInPostOrder func)[i]? with
    | none =>
      rw [ControlFlowGraph.predecessorIndices, ControlFlowGraph.ofFunction, getElem?_map,
        hi] at hedge
      exact absurd hedge not_mem_nil
    | some b =>
      rw [predecessorIndices_of_getElem? hi] at hedge
      obtain ⟨c, hc, rfl⟩ := mem_map.mp hedge
      obtain ⟨q, hq, hc⟩ := mem_flatMap.mp hc
      obtain ⟨-, -, rfl⟩ := mem_map.mp hc
      rw [nodeIndex_ofFunction, hlength]
      exact idxOf_lt_length_of_mem hq
  · intro i hi
    have hn : (ControlFlowGraph.ofFunction func).entryIndex = before.length := by
      rw [ControlFlowGraph.entryIndex, hlength, hlast, length_append]
      rfl
    have hilt : i < (ControlFlowGraph.blocksInPostOrder func).length := by
      rw [hlast, length_append]
      omega
    obtain ⟨b, hb⟩ : ∃ b, (ControlFlowGraph.blocksInPostOrder func)[i]? = some b :=
      ⟨_, getElem?_eq_getElem hilt⟩
    have hmem := mem_of_getElem? hb
    rw [horder] at hmem
    rcases PostOrder.postOrder_parent hU hroot hfuel hmem with rfl | ⟨u, hu, hsub⟩
    · -- the root comes last only
      have hrootlast : (ControlFlowGraph.blocksInPostOrder func)[before.length]? = some b := by
        rw [hlast]
        exact getElem?_concat_length
      have := (nodeIndex_of_getElem? hclosed hb).symm.trans
        (nodeIndex_of_getElem? hclosed hrootlast)
      omega
    · rw [← horder, sublist_iff_exists_orderEmbedding_getElem?_eq] at hsub
      obtain ⟨f, hf⟩ := hsub
      have hfirst : (ControlFlowGraph.blocksInPostOrder func)[f 0]? = some b := (hf 0).symm
      have hsecond : (ControlFlowGraph.blocksInPostOrder func)[f 1]? = some u := (hf 1).symm
      refine ⟨f 1, ?_, ?_⟩
      · rw [ControlFlowGraph.Edge, predecessorIndices_of_getElem? hb,
          ← nodeIndex_of_getElem? hclosed hsecond]
        refine mem_map_of_mem (mem_flatMap.mpr ⟨u, mem_of_getElem? hsecond, ?_⟩)
        exact mem_map.mpr ⟨b, mem_filter.mpr ⟨hu, decide_eq_true rfl⟩, rfl⟩
      · rw [← nodeIndex_of_getElem? hclosed hb, nodeIndex_of_getElem? hclosed hfirst]
        exact f.strictMono Nat.zero_lt_one

/-- The tree of a function is computed, its parents are the immediate dominators, and, unless the
entry has predecessors, the frontiers are where dominance ends. -/
theorem ofGraph_spec (func : Function) (hclosed : ControlFlowGraph.Closed func) :
    ∃ F, ∀ fuel ≥ F, ∃ tree, ofGraph (ControlFlowGraph.ofFunction func) fuel = some tree ∧
      (∀ b < (ControlFlowGraph.ofFunction func).entryIndex, ∃ d, tree.parentIndices[b]? = some d ∧
        ImmediatelyDominates (ControlFlowGraph.ofFunction func).Edge
          (ControlFlowGraph.ofFunction func).entryIndex d b ∧
        ∀ c, ImmediatelyDominates (ControlFlowGraph.ofFunction func).Edge
          (ControlFlowGraph.ofFunction func).entryIndex c b → c = d) ∧
      ((ControlFlowGraph.ofFunction func).predecessorIndices
          (ControlFlowGraph.ofFunction func).entryIndex = [] →
        ∀ y i, i ∈ tree.dominanceFrontiers y ↔ i < (ControlFlowGraph.ofFunction func).nodes.length ∧
          InFrontier (ControlFlowGraph.ofFunction func) y i) := by
  have hcfg := ofFunction_postOrdered hclosed
  revert hcfg
  generalize ControlFlowGraph.ofFunction func = cfg
  intro hcfg
  obtain ⟨F, hF⟩ := exists_iterate hcfg
  refine ⟨max F (cfg.entryIndex + 1), fun fuel hfuel ↦ ?_⟩
  obtain ⟨doms, hdoms, hexact⟩ := hF fuel (le_of_max_le_left hfuel)
  obtain ⟨parents, hparents, hof⟩ := hexact.exists_parents hcfg
  obtain ⟨pairs, hpairs, hfrontier⟩ :=
    computeDominanceFrontiers_spec hcfg hexact hof (le_of_max_le_right hfuel)
  refine ⟨⟨parents, pairs⟩, ?_, ?_, ?_⟩
  · rw [ofGraph, computeIdoms, hdoms, bind_some, hparents, bind_some, hpairs]
    rfl
  · intro b hb
    obtain ⟨d, hd⟩ := Option.ne_none_iff_exists'.mp (hexact.found hb.le)
    exact ⟨d, (hof hb.le).mpr hd, hexact.immediatelyDominates hb hd⟩
  · intro hentry y i
    rw [dominanceFrontiers, ← hfrontier hentry]
    simp only [List.mem_map, List.mem_filter, decide_eq_true_eq]
    constructor
    · rintro ⟨⟨z, j⟩, ⟨hmem, rfl⟩, rfl⟩
      exact hmem
    · exact fun hmem ↦ ⟨(y, i), ⟨hmem, rfl⟩, rfl⟩

/-- Two arms that both lead into a loop, at different blocks of it. -/
def twoEntryLoop : Function where
  blocks :=
    [(0, { instrs := [{ opcode := .CJMP
                        operands := [⟨.intImmediate ⟨1, false⟩, Primitive.I64⟩,
                          ⟨.comparison .EQ, Primitive.VOID⟩,
                          ⟨.intImmediate ⟨2, false⟩, Primitive.I64⟩]
                        targets := [⟨1, []⟩, ⟨2, []⟩] }] }),
     (1, { instrs := [{ opcode := .JMP, targets := [⟨2, []⟩] }] }),
     (2, { instrs := [{ opcode := .JMP, targets := [⟨1, []⟩] }] })]
  lastVirtualReg := 0

theorem ofGraph_spec_twoEntryLoop :
    ∃ F, ∀ fuel ≥ F, ∃ tree, ofGraph (ControlFlowGraph.ofFunction twoEntryLoop) fuel = some tree ∧
      (∀ b < 2, ∃ d, tree.parentIndices[b]? = some d ∧
        ImmediatelyDominates (ControlFlowGraph.ofFunction twoEntryLoop).Edge 2 d b ∧
        ∀ c, ImmediatelyDominates (ControlFlowGraph.ofFunction twoEntryLoop).Edge 2 c b → c = d) ∧
      ((ControlFlowGraph.ofFunction twoEntryLoop).predecessorIndices 2 = [] →
        ∀ y i, i ∈ tree.dominanceFrontiers y ↔
          i < 3 ∧ InFrontier (ControlFlowGraph.ofFunction twoEntryLoop) y i) :=
  ofGraph_spec twoEntryLoop (ControlFlowGraph.closed_of_wellFormed
    (Function.wellFormed_of_check (fun _ ↦ []) (by decide)))

end Banjo.SSA.DominatorTree

/-!
## Asking the dominator tree

`dominates` looks for a node among those below another one in the tree. A child comes before its
parent in post-order, which bounds the search.
-/

namespace Banjo.SSA

namespace DominatorTree

/-- `children_indices`, which `compute_idoms` fills in the order of the nodes. -/
def childrenIndices (cfg : ControlFlowGraph) (parents : List ℕ) (i : ℕ) : List ℕ :=
  (range parents.length).filter fun child ↦ child ≠ cfg.entryIndex ∧ parents[child]? = some i

def dominates (cfg : ControlFlowGraph) (parents : List ℕ) : ℕ → ℕ → ℕ → Option Bool
  | 0, _, _ => none
  | fuel + 1, a, b =>
    if a = b then some true
    else (childrenIndices cfg parents a).anyM fun child ↦ dominates cfg parents fuel child b

open Relation Dominance OptionLists

variable {cfg : ControlFlowGraph} {doms : Doms} {parents : List ℕ} {a b c : ℕ}

/-- The tree of a graph holds the dominators. -/
theorem exists_ofGraph (hcfg : cfg.PostOrdered) :
    ∃ F, ∀ fuel ≥ F, ∃ tree doms, ofGraph cfg fuel = some tree ∧ Exact cfg doms ∧
      ParentsOf cfg doms tree.parentIndices ∧
      tree.parentIndices.length = cfg.nodes.length := by
  obtain ⟨F, hF⟩ := exists_iterate hcfg
  refine ⟨max F (cfg.entryIndex + 1), fun fuel hfuel ↦ ?_⟩
  obtain ⟨doms, hdoms, hexact⟩ := hF fuel (le_of_max_le_left hfuel)
  obtain ⟨parents, hparents, hof⟩ := hexact.exists_parents hcfg
  obtain ⟨pairs, hpairs, -⟩ :=
    computeDominanceFrontiers_spec hcfg hexact hof (le_of_max_le_right hfuel)
  refine ⟨⟨parents, pairs⟩, doms, ?_, hexact, hof, ?_⟩
  · rw [ofGraph, computeIdoms, hdoms, bind_some, hparents, bind_some, hpairs]
    rfl
  · rw [← (forall₂_of_mapM hparents).length_eq, length_range]

section Graph

open ControlFlowGraph

variable {func : Function} {b c : BlockId} {p i j : ℕ} (hclosed : Closed func)
include hclosed

/-- An edge is a branch. -/
theorem exists_of_edge (hedge : (ofFunction func).Edge p i) :
    ∃ b c, (blocksInPostOrder func)[p]? = some b ∧ (blocksInPostOrder func)[i]? = some c ∧
      c ∈ func.succs b := by
  rw [Edge] at hedge
  cases hi : (blocksInPostOrder func)[i]? with
  | none =>
    rw [predecessorIndices, ofFunction, getElem?_map, hi] at hedge
    exact absurd hedge not_mem_nil
  | some c =>
    rw [predecessorIndices_of_getElem? hi] at hedge
    obtain ⟨b, hb, rfl⟩ := mem_map.mp hedge
    obtain ⟨b', hb', hb⟩ := mem_flatMap.mp hb
    obtain ⟨c', hc', rfl⟩ := mem_map.mp hb
    obtain ⟨hc, heq⟩ := mem_filter.mp hc'
    obtain rfl : c' = c := of_decide_eq_true heq
    obtain ⟨j, hj⟩ := mem_iff_getElem?.mp hb'
    exact ⟨b', c', by rw [nodeIndex_of_getElem? hclosed hj, hj], rfl, hc⟩

/-- A branch is an edge. -/
theorem exists_edge (hp : (blocksInPostOrder func)[p]? = some b) (hc : c ∈ func.succs b) :
    ∃ i, (blocksInPostOrder func)[i]? = some c ∧ (ofFunction func).Edge p i := by
  have hmem := hclosed.blocksInPostOrder_spec.1
  have hb := mem_of_getElem? hp
  obtain ⟨i, hi⟩ := mem_iff_getElem?.mp ((hmem c).mpr (((hmem b).mp hb).succ hc))
  refine ⟨i, hi, ?_⟩
  rw [Edge, predecessorIndices_of_getElem? hi, ← nodeIndex_of_getElem? hclosed hp]
  refine mem_map_of_mem (mem_flatMap.mpr ⟨b, hb, ?_⟩)
  exact mem_map.mpr ⟨c, mem_filter.mpr ⟨hc, decide_eq_true rfl⟩, rfl⟩

/-- The entry has the last number. -/
theorem getElem?_entryIndex :
    (blocksInPostOrder func)[(ofFunction func).entryIndex]? = func.entry := by
  obtain ⟨root, U, hentry, horder, -, hroot, hfuel⟩ := hclosed.exists_search
  obtain ⟨before, hlast⟩ :
      ∃ before, PostOrder.postOrder func.succs func.blocks.length root = before ++ [root] :=
    PostOrder.postOrder_eq_append hroot hfuel
  rw [entryIndex, ofFunction, length_map, horder, hlast, hentry, length_append,
    length_singleton, Nat.add_sub_cancel]
  exact getElem?_concat_length

theorem eq_of_getElem? (hi : (blocksInPostOrder func)[i]? = some b)
    (hj : (blocksInPostOrder func)[j]? = some b) : i = j := by
  rw [← nodeIndex_of_getElem? hclosed hi, nodeIndex_of_getElem? hclosed hj]

/-- An edge is among the successors of its source and the predecessors of its target. -/
theorem mem_successorIndices :
    j ∈ (ofFunction func).successorIndices i ↔ (ofFunction func).Edge i j := by
  have hsuccs : ∀ {b}, (blocksInPostOrder func)[i]? = some b →
      (ofFunction func).successorIndices i = (func.succs b).map (ofFunction func).nodeIndex := by
    intro b hi
    rw [successorIndices, ofFunction, getElem?_map, hi]
    rfl
  constructor
  · intro hj
    cases hi : (blocksInPostOrder func)[i]? with
    | none =>
      rw [successorIndices, ofFunction, getElem?_map, hi] at hj
      exact absurd hj not_mem_nil
    | some b =>
      rw [hsuccs hi] at hj
      obtain ⟨c, hc, rfl⟩ := mem_map.mp hj
      obtain ⟨j, hj, hedge⟩ := exists_edge hclosed hi hc
      rwa [nodeIndex_of_getElem? hclosed hj]
  · intro hedge
    obtain ⟨b, c, hi, hj, hc⟩ := exists_of_edge hclosed hedge
    rw [hsuccs hi, ← nodeIndex_of_getElem? hclosed hj]
    exact mem_map_of_mem hc

end Graph

/-- A chain that ends in another block gets there from a child. -/
theorem Chain.exists_child {entry : ℕ} (h : IsTree entry doms) (hchain : Chain doms b a) :
    a = b ∨ ∃ c, c ≠ entry ∧ doms c = some a ∧ Chain doms b c := by
  induction hchain with
  | refl => exact Or.inl rfl
  | @tail c a hbc hstep ih =>
    by_cases hc : c = entry
    · subst hc
      rw [h.root, some_inj] at hstep
      exact hstep ▸ ih
    · exact Or.inr ⟨c, hc, hstep, hbc⟩

theorem mem_childrenIndices (h : Exact cfg doms) (hparents : ParentsOf cfg doms parents)
    (hlength : parents.length = cfg.nodes.length) (hpos : 0 < cfg.nodes.length) :
    c ∈ childrenIndices cfg parents a ↔ c ≠ cfg.entryIndex ∧ doms c = some a := by
  have hentry : cfg.entryIndex = cfg.nodes.length - 1 := rfl
  rw [childrenIndices, mem_filter, mem_range, decide_eq_true_eq, hlength]
  constructor
  · rintro ⟨hlt, hne, hc⟩
    exact ⟨hne, (hparents (by omega)).mp hc⟩
  · rintro ⟨hne, hc⟩
    have hle := (h.tree.le hc).1
    exact ⟨by omega, hne, (hparents hle).mpr hc⟩

theorem dominates_spec (h : Exact cfg doms) (hparents : ParentsOf cfg doms parents)
    (hlength : parents.length = cfg.nodes.length) (hpos : 0 < cfg.nodes.length) :
    ∀ (fuel a : ℕ), a < fuel →
    ∃ r, dominates cfg parents fuel a b = some r ∧ (r = true ↔ Chain doms b a) := by
  intro fuel
  induction fuel with
  | zero => exact fun a ha ↦ absurd ha (Nat.not_lt_zero a)
  | succ fuel ih =>
    intro a ha
    rw [dominates]
    by_cases hab : a = b
    · rw [if_pos hab, hab]
      exact ⟨true, rfl, iff_of_true rfl .refl⟩
    · rw [if_neg hab]
      obtain ⟨r, hr, hiff⟩ := exists_anyM (l := childrenIndices cfg parents a)
        (f := fun child ↦ dominates cfg parents fuel child b)
        (P := fun child ↦ Chain doms b child)
        fun c hc ↦ by
          obtain ⟨hne, hc⟩ := (mem_childrenIndices h hparents hlength hpos).mp hc
          have := h.tree.lt hc hne
          exact ih c (by omega)
      refine ⟨r, hr, hiff.trans ?_⟩
      constructor
      · rintro ⟨c, hc, hbc⟩
        exact hbc.tail ((mem_childrenIndices h hparents hlength hpos).mp hc).2
      · intro hba
        obtain ⟨c, hne, hc, hbc⟩ := (hba.exists_child h.tree).resolve_left hab
        exact ⟨c, (mem_childrenIndices h hparents hlength hpos).mpr ⟨hne, hc⟩, hbc⟩

end DominatorTree

end Banjo.SSA
