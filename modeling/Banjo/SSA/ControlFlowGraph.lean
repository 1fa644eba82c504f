import Banjo.Lib.PostOrder
import Banjo.SSA.WellFormed

/-!
# The control-flow graph

`ControlFlowGraph` numbers the blocks reachable from the entry in post-order. A node refers to its
neighbours by block here, where the source uses indices into the node list; the order of the
predecessors of a node is not relied upon by anything that reads them.
-/

open List

namespace Banjo.SSA

structure ControlFlowGraph.Node where
  block : BlockId
  predecessors : List BlockId
  successors : List BlockId
  deriving DecidableEq, Repr

structure ControlFlowGraph where
  nodes : List ControlFlowGraph.Node
  deriving DecidableEq, Repr

namespace ControlFlowGraph

/-- The reachable blocks, in the order the depth-first search leaves them. -/
def blocksInPostOrder (func : Function) : List BlockId :=
  match func.entry with
  | some entry => PostOrder.postOrder func.succs func.blocks.length entry
  | none => []

/-- A block for each of its edges to `b`. -/
def predecessors (func : Function) (b : BlockId) : List BlockId :=
  (blocksInPostOrder func).flatMap fun p ↦ ((func.succs p).filter (· = b)).map fun _ ↦ p

def node (func : Function) (b : BlockId) : Node := ⟨b, predecessors func b, func.succs b⟩

def ofFunction (func : Function) : ControlFlowGraph := ⟨(blocksInPostOrder func).map (node func)⟩

def contains (cfg : ControlFlowGraph) (b : BlockId) : Bool :=
  cfg.nodes.any fun node ↦ node.block = b

/-- `get_node`. The index of a block that is not in the map is taken to be `0`. -/
def getNode (cfg : ControlFlowGraph) (b : BlockId) : Option Node :=
  (cfg.nodes.find? fun node ↦ node.block = b) <|> cfg.nodes.head?

/-! ## What the graph holds -/

variable {func : Function}

/-- What building the graph asks of a function: it has a block, and branches lead to its blocks. -/
structure Closed (func : Function) : Prop where
  nonempty : func.blocks ≠ []
  succ_mem : ∀ {b c}, func.Reachable b → c ∈ func.succs b → c ∈ func.ids

theorem closed_of_wellFormed (hwf : func.WellFormed) : Closed func :=
  ⟨hwf.nonempty, fun hb hc ↦ hwf.succ_mem_ids hb hc⟩

open Classical in
/-- The search is one from the entry among the reachable blocks, with enough fuel. -/
theorem Closed.exists_search (h : Closed func) :
    ∃ (entry : BlockId) (U : Finset BlockId), func.entry = some entry ∧
      blocksInPostOrder func = PostOrder.postOrder func.succs func.blocks.length entry ∧
      (∀ b ∈ U, ∀ c ∈ func.succs b, c ∈ U) ∧ entry ∈ U ∧ U.card ≤ func.blocks.length := by
  obtain ⟨entry, block, hentry, hfind⟩ := Function.find_entry h.nonempty
  have hids : ∀ {b}, func.Reachable b → b ∈ func.ids := by
    intro b hb
    refine hb.induction (P := fun b ↦ b ∈ func.ids) ?_ fun b c hb _ hc ↦ h.succ_mem hb hc
    exact fun b hentry ↦ mem_of_mem_head? hentry
  have hmem : ∀ b, b ∈ func.ids.toFinset.filter func.Reachable ↔ func.Reachable b := by
    intro b
    rw [Finset.mem_filter, mem_toFinset]
    exact and_iff_right_of_imp hids
  refine ⟨entry, func.ids.toFinset.filter func.Reachable, hentry, ?_, ?_, ?_, ?_⟩
  · rw [blocksInPostOrder, hentry]
  · exact fun b hb c hc ↦ (hmem c).mpr (((hmem b).mp hb).succ hc)
  · exact (hmem entry).mpr (.entry hentry)
  · calc (func.ids.toFinset.filter func.Reachable).card
        ≤ func.ids.toFinset.card := Finset.card_filter_le _ _
      _ ≤ func.ids.length := toFinset_card_le _
      _ = func.blocks.length := length_map _

/-- The search visits the reachable blocks, each once. -/
theorem Closed.blocksInPostOrder_spec (h : Closed func) :
    (∀ b, b ∈ blocksInPostOrder func ↔ func.Reachable b) ∧ (blocksInPostOrder func).Nodup := by
  obtain ⟨entry, U, hentry, horder, hclosed, hroot, hfuel⟩ := h.exists_search
  rw [horder]
  refine ⟨fun b ↦ ?_, PostOrder.postOrder_nodup hclosed hroot hfuel⟩
  rw [PostOrder.postOrder_mem_iff hclosed hroot hfuel]
  constructor
  · exact fun hpath ↦ ⟨entry, hentry, hpath⟩
  · rintro ⟨entry', hentry', hpath⟩
    rwa [Option.some.inj (hentry.symm.trans hentry')]

theorem blocksInPostOrder_spec (hwf : func.WellFormed) :
    (∀ b, b ∈ blocksInPostOrder func ↔ func.Reachable b) ∧ (blocksInPostOrder func).Nodup :=
  (closed_of_wellFormed hwf).blocksInPostOrder_spec

theorem mem_predecessors (hwf : func.WellFormed) {p b : BlockId} :
    p ∈ predecessors func b ↔ func.Reachable p ∧ b ∈ func.succs p := by
  simp only [predecessors, mem_flatMap, mem_map, mem_filter, decide_eq_true_eq,
    (blocksInPostOrder_spec hwf).1]
  constructor
  · rintro ⟨q, hq, c, ⟨hc, rfl⟩, rfl⟩
    exact ⟨hq, hc⟩
  · rintro ⟨hp, hb⟩
    exact ⟨p, hp, b, ⟨hb, rfl⟩, rfl⟩

/-- A reachable block has at least as many predecessors as one block has edges to it. -/
theorem count_le_length_predecessors (hwf : func.WellFormed) {p b : BlockId}
    (hp : func.Reachable p) : (func.succs p).count b ≤ (predecessors func b).length := by
  have hlength : (((func.succs p).filter (· = b)).map fun _ ↦ p).length
      = (func.succs p).count b := by
    rw [length_map, count_eq_countP, countP_eq_length_filter]
    rfl
  rw [← hlength]
  refine List.Sublist.length_le ?_
  rw [predecessors, flatMap_def]
  exact sublist_flatten_of_mem
    (mem_map_of_mem (((blocksInPostOrder_spec hwf).1 p).mpr hp))

theorem getNode_of_reachable (hwf : func.WellFormed) {b : BlockId} (hb : func.Reachable b) :
    (ofFunction func).getNode b = some (node func b) := by
  have hfind : (ofFunction func).nodes.find? (fun node ↦ node.block = b) = some (node func b) := by
    have hmem : node func b ∈ (ofFunction func).nodes :=
      mem_map_of_mem (((blocksInPostOrder_spec hwf).1 b).mpr hb)
    cases hfind : (ofFunction func).nodes.find? (fun node ↦ node.block = b) with
    | none => exact absurd (find?_eq_none.mp hfind _ hmem) (by simp [node])
    | some found =>
      obtain ⟨c, -, rfl⟩ := mem_map.mp (mem_of_find?_eq_some hfind)
      have hc := find?_some hfind
      obtain rfl : c = b := of_decide_eq_true hc
      rfl
  rw [getNode, hfind]
  rfl

end ControlFlowGraph

end Banjo.SSA
