import Banjo.Lib.Dominance
import Banjo.SSA.ControlFlowGraph

/-!
# The dominator tree

`compute_idoms` visits the blocks in reverse post-order until a round changes nothing, and sets the
dominator of a block to where the chains of its predecessors meet. The loops are bounded by fuel,
and what fails an assertion of the source or runs out of fuel is `none`.
-/

open List Option Function

namespace Banjo.SSA

namespace ControlFlowGraph

/-- `blocks2nodes`. -/
def nodeIndex (cfg : ControlFlowGraph) (b : BlockId) : ℕ :=
  cfg.nodes.findIdx fun node ↦ node.block = b

/-- `predecessors` of a node, by index. -/
def predecessorIndices (cfg : ControlFlowGraph) (i : ℕ) : List ℕ :=
  match cfg.nodes[i]? with
  | some node => node.predecessors.map cfg.nodeIndex
  | none => []

/-- `successors` of a node, by index. -/
def successorIndices (cfg : ControlFlowGraph) (i : ℕ) : List ℕ :=
  match cfg.nodes[i]? with
  | some node => node.successors.map cfg.nodeIndex
  | none => []

/-- The entry is the last one in post-order. -/
def entryIndex (cfg : ControlFlowGraph) : ℕ := cfg.nodes.length - 1

def Edge (cfg : ControlFlowGraph) (p i : ℕ) : Prop := p ∈ cfg.predecessorIndices i

end ControlFlowGraph

namespace DominatorTree

/-- The immediate dominators found so far, with `none` for `-1`. -/
abbrev Doms := ℕ → Option ℕ

/-- Where the chains of two blocks meet. -/
def intersect (doms : Doms) : ℕ → ℕ → ℕ → Option ℕ
  | 0, _, _ => none
  | fuel + 1, b1, b2 =>
    if b1 = b2 then some b1
    else if b1 < b2 then (doms b1).bind fun d ↦ intersect doms fuel d b2
    else (doms b2).bind fun d ↦ intersect doms fuel b1 d

/-- What a predecessor does to `new_idom`. -/
def meetPred (doms : Doms) (fuel : ℕ) (newIdom : Option ℕ) (pred : ℕ) : Option (Option ℕ) :=
  if doms pred = none then some newIdom
  else
    match newIdom with
    | none => some (some pred)
    | some cur => (intersect doms fuel cur pred).map some

def newIdom (cfg : ControlFlowGraph) (fuel : ℕ) (doms : Doms) (b : ℕ) : Option (Option ℕ) :=
  (cfg.predecessorIndices b).foldlM (meetPred doms fuel) none

/-- The body of the inner loop, on the dominators and `changed`. -/
def visit (cfg : ControlFlowGraph) (fuel : ℕ) (state : Doms × Bool) (b : ℕ) :
    Option (Doms × Bool) :=
  if b = cfg.entryIndex then some state
  else
    (newIdom cfg fuel state.1 b).map fun new ↦
      if state.1 b = new then state else (update state.1 b new, true)

/-- One round over all the nodes, the last one first. -/
def sweep (cfg : ControlFlowGraph) (fuel : ℕ) (doms : Doms) : Option (Doms × Bool) :=
  (range cfg.nodes.length).reverse.foldlM (visit cfg fuel) (doms, false)

/-- The rounds. -/
def iterate (cfg : ControlFlowGraph) (fuel : ℕ) : ℕ → Doms → Option Doms
  | 0, _ => none
  | rounds + 1, doms =>
    (sweep cfg fuel doms).bind fun (doms, changed) ↦
      if changed then iterate cfg fuel rounds doms else some doms

def initialDoms (cfg : ControlFlowGraph) : Doms :=
  update (fun _ ↦ none) cfg.entryIndex (some cfg.entryIndex)

/-- `parent_index` of the nodes. -/
def computeIdoms (cfg : ControlFlowGraph) (fuel : ℕ) : Option (List ℕ) :=
  (iterate cfg fuel fuel (initialDoms cfg)).bind fun doms ↦ (range cfg.nodes.length).mapM doms

/-- The nodes a runner goes through on its way up to `idom`. -/
def runners (parents : List ℕ) (idom : ℕ) : ℕ → ℕ → Option (List ℕ)
  | 0, _ => none
  | fuel + 1, runner =>
    if runner = idom then some []
    else parents[runner]?.bind fun parent ↦ (runners parents idom fuel parent).map (runner :: ·)

/-- The nodes that get `i` into their frontier, once for each time they get it. -/
def frontierRunners (cfg : ControlFlowGraph) (parents : List ℕ) (fuel i : ℕ) : Option (List ℕ) :=
  if (cfg.predecessorIndices i).length < 2 then some []
  else
    parents[i]?.bind fun idom ↦
      ((cfg.predecessorIndices i).mapM (runners parents idom fuel)).map flatten

/-- `dominance_frontiers`, as the pairs of a node and a node in its frontier. -/
def computeDominanceFrontiers (cfg : ControlFlowGraph) (parents : List ℕ) (fuel : ℕ) :
    Option (List (ℕ × ℕ)) :=
  ((range cfg.nodes.length).mapM fun i ↦
    (frontierRunners cfg parents fuel i).map fun nodes ↦ nodes.map (·, i)).map flatten

end DominatorTree

structure DominatorTree where
  parentIndices : List ℕ
  frontierPairs : List (ℕ × ℕ)
  deriving DecidableEq, Repr

namespace DominatorTree

def ofGraph (cfg : ControlFlowGraph) (fuel : ℕ) : Option DominatorTree :=
  (computeIdoms cfg fuel).bind fun parents ↦
    (computeDominanceFrontiers cfg parents fuel).map fun pairs ↦ ⟨parents, pairs⟩

/-- The frontier of a node, in the order it is filled. -/
def dominanceFrontiers (tree : DominatorTree) (y : ℕ) : List ℕ :=
  (tree.frontierPairs.filter fun pair ↦ pair.1 = y).map Prod.snd

end DominatorTree

/-! ## Graphs of functions -/

namespace ControlFlowGraph

/-- What the rest relies on: the numbers are those of nodes, and a node but the entry is reached
from one that comes later in the order. -/
structure PostOrdered (cfg : ControlFlowGraph) : Prop where
  nonempty : 0 < cfg.nodes.length
  pred_lt : ∀ {p i}, cfg.Edge p i → p < cfg.nodes.length
  parent : ∀ {i}, i < cfg.entryIndex → ∃ p, cfg.Edge p i ∧ i < p

end ControlFlowGraph

end Banjo.SSA

/-!
## Chains of dominators

The dominators found so far form a tree: a chain goes up in the post-order and meets another one in
a single block, from where the two are the same. Setting the dominator of one block changes the
chains through it from there on and leaves the others alone.
-/

namespace Banjo.SSA.DominatorTree

open Relation

/-- The blocks from `b` up to the entry. -/
def Chain (doms : Doms) : ℕ → ℕ → Prop := ReflTransGen fun b d ↦ doms b = some d

structure IsTree (entry : ℕ) (doms : Doms) : Prop where
  root : doms entry = some entry
  lt : ∀ {b d}, doms b = some d → b ≠ entry → b < d
  le : ∀ {b d}, doms b = some d → b ≤ entry ∧ d ≤ entry
  found : ∀ {b d}, doms b = some d → doms d ≠ none

section Chain

variable {entry : ℕ} {doms : Doms} {b c d m x y : ℕ}

theorem IsTree.le_next (h : IsTree entry doms) (hd : doms b = some d) : b ≤ d := by
  by_cases hb : b = entry
  · subst hb
    exact le_of_eq (some.inj (h.root.symm.trans hd))
  · exact le_of_lt (h.lt hd hb)

theorem Chain.le (hchain : Chain doms b x) (h : IsTree entry doms) : b ≤ x := by
  induction hchain with
  | refl => exact le_rfl
  | tail _ hstep ih => exact ih.trans (h.le_next hstep)

theorem Chain.found (hchain : Chain doms b x) (h : IsTree entry doms) (hb : doms b ≠ none) :
    doms x ≠ none := by
  cases hchain with
  | refl => exact hb
  | tail _ hstep => exact h.found hstep

theorem IsTree.le_entry (h : IsTree entry doms) (hb : doms b ≠ none) : b ≤ entry := by
  obtain ⟨d, hd⟩ := ne_none_iff_exists'.mp hb
  exact (h.le hd).1

theorem chain_iff (hd : doms b = some d) : Chain doms b x ↔ x = b ∨ Chain doms d x := by
  constructor
  · intro hchain
    rcases hchain.cases_head with heq | ⟨d', hd', hrest⟩
    · exact Or.inl heq.symm
    · rw [hd, some_inj] at hd'
      exact Or.inr (hd' ▸ hrest)
  · rintro (rfl | hchain)
    · exact .refl
    · exact .head hd hchain

theorem IsTree.chain_entry (h : IsTree entry doms) (hchain : Chain doms entry x) : x = entry := by
  induction hchain with
  | refl => rfl
  | tail _ hstep ih =>
    rw [ih, h.root, some_inj] at hstep
    exact hstep.symm

/-- Two blocks with the same chain are the same. -/
theorem IsTree.eq_of_chain_iff (h : IsTree entry doms)
    (hiff : ∀ x, Chain doms b x ↔ Chain doms c x) : b = c :=
  le_antisymm (Chain.le ((hiff c).mpr .refl) h) (Chain.le ((hiff b).mp .refl) h)

/-! ## Where chains meet -/

/-- The chain of where two chains meet is what they have in common. -/
theorem intersect_spec (h : IsTree entry doms) : ∀ (fuel b1 b2 : ℕ), doms b1 ≠ none →
    doms b2 ≠ none → (entry - b1) + (entry - b2) < fuel →
    ∃ m, intersect doms fuel b1 b2 = some m ∧ doms m ≠ none ∧
      ∀ x, Chain doms m x ↔ Chain doms b1 x ∧ Chain doms b2 x := by
  intro fuel
  induction fuel with
  | zero => exact fun _ _ _ _ hfuel ↦ absurd hfuel (Nat.not_lt_zero _)
  | succ fuel ih =>
    intro b1 b2 hb1 hb2 hfuel
    obtain ⟨d1, hd1⟩ := ne_none_iff_exists'.mp hb1
    obtain ⟨d2, hd2⟩ := ne_none_iff_exists'.mp hb2
    have hle1 := h.le hd1
    have hle2 := h.le hd2
    rw [intersect]
    rcases lt_trichotomy b1 b2 with hlt | heq | hlt
    · -- the lower block is not on the chain of the upper one
      rw [if_neg (ne_of_lt hlt), if_pos hlt, hd1, bind_some]
      have hnext := h.lt hd1 (by omega)
      obtain ⟨m, hm, hfound, hiff⟩ := ih d1 b2 (h.found hd1) hb2 (by omega)
      refine ⟨m, hm, hfound, fun x ↦ ?_⟩
      rw [hiff, chain_iff hd1]
      constructor
      · exact fun ⟨hx, hx'⟩ ↦ ⟨Or.inr hx, hx'⟩
      · rintro ⟨rfl | hx, hx'⟩
        · exact absurd (Chain.le hx' h) (Nat.not_le_of_lt hlt)
        · exact ⟨hx, hx'⟩
    · subst heq
      rw [if_pos rfl]
      exact ⟨b1, rfl, hb1, fun x ↦ (and_self_iff).symm⟩
    · rw [if_neg (ne_of_gt hlt), if_neg (Nat.lt_asymm hlt), hd2, bind_some]
      have hnext := h.lt hd2 (by omega)
      obtain ⟨m, hm, hfound, hiff⟩ := ih b1 d2 hb1 (h.found hd2) (by omega)
      refine ⟨m, hm, hfound, fun x ↦ ?_⟩
      rw [hiff, chain_iff hd2]
      constructor
      · exact fun ⟨hx, hx'⟩ ↦ ⟨hx, Or.inr hx'⟩
      · rintro ⟨hx, rfl | hx'⟩
        · exact absurd (Chain.le hx h) (Nat.not_le_of_lt hlt)
        · exact ⟨hx, hx'⟩

theorem foldlM_meetPred {fuel : ℕ} (h : IsTree entry doms) (hfuel : 2 * entry < fuel) :
    ∀ (preds : List ℕ) (cur : ℕ), doms cur ≠ none →
    ∃ m, preds.foldlM (meetPred doms fuel) (some cur) = some (some m) ∧ doms m ≠ none ∧
      ∀ x, Chain doms m x ↔ Chain doms cur x ∧ ∀ p ∈ preds, doms p ≠ none → Chain doms p x := by
  intro preds
  induction preds with
  | nil => exact fun cur hcur ↦ ⟨cur, rfl, hcur, fun x ↦ by simp⟩
  | cons p rest ih =>
    intro cur hcur
    rw [foldlM_cons, meetPred]
    by_cases hp : doms p = none
    · rw [if_pos hp]
      obtain ⟨m, hm, hfound, hiff⟩ := ih cur hcur
      refine ⟨m, hm, hfound, fun x ↦ ?_⟩
      rw [hiff, forall_mem_cons]
      simp [hp]
    · rw [if_neg hp]
      obtain ⟨c, hc, hcfound, hciff⟩ := intersect_spec h fuel cur p hcur hp (by omega)
      obtain ⟨m, hm, hfound, hiff⟩ := ih c hcfound
      refine ⟨m, ?_, hfound, fun x ↦ ?_⟩
      · rw [hc]
        exact hm
      · rw [hiff, hciff, forall_mem_cons, and_assoc]
        simp [hp]

/-- The new dominator of a block has the chain its predecessors with a dominator share. -/
theorem newIdom_spec {cfg : ControlFlowGraph} {fuel : ℕ} (h : IsTree entry doms)
    (hfuel : 2 * entry < fuel) (hpred : ∃ p, cfg.Edge p b ∧ doms p ≠ none) :
    ∃ m, newIdom cfg fuel doms b = some (some m) ∧ doms m ≠ none ∧
      ∀ x, Chain doms m x ↔ ∀ p, cfg.Edge p b → doms p ≠ none → Chain doms p x := by
  have hgo : ∀ preds : List ℕ, (∃ p ∈ preds, doms p ≠ none) →
      ∃ m, preds.foldlM (meetPred doms fuel) none = some (some m) ∧ doms m ≠ none ∧
        ∀ x, Chain doms m x ↔ ∀ p ∈ preds, doms p ≠ none → Chain doms p x := by
    intro preds
    induction preds with
    | nil =>
      rintro ⟨p, hp, -⟩
      exact absurd hp not_mem_nil
    | cons p rest ih =>
      rintro ⟨q, hq, hqfound⟩
      rw [foldlM_cons, meetPred]
      by_cases hp : doms p = none
      · rw [if_pos hp]
        have hrest : q ∈ rest := (mem_cons.mp hq).resolve_left fun heq ↦ hqfound (heq ▸ hp)
        obtain ⟨m, hm, hfound, hiff⟩ := ih ⟨q, hrest, hqfound⟩
        refine ⟨m, hm, hfound, fun x ↦ ?_⟩
        rw [hiff, forall_mem_cons]
        simp [hp]
      · rw [if_neg hp]
        obtain ⟨m, hm, hfound, hiff⟩ := foldlM_meetPred h hfuel rest p hp
        refine ⟨m, hm, hfound, fun x ↦ ?_⟩
        rw [hiff, forall_mem_cons]
        simp [hp]
  exact hgo _ hpred

/-! ## Changing the dominator of a block -/

section Update

variable (h : IsTree entry doms) (hb : b ≠ entry) (hbm : b < m) (hm : doms m ≠ none)

include h in
theorem chain_update_of_lt (hc : b < c) (hchain : Chain doms c x) :
    Chain (update doms b (some m)) c x := by
  induction hchain using ReflTransGen.head_induction_on with
  | refl => exact .refl
  | @head c d hd _ ih =>
    refine .head ?_ (ih (hc.trans_le (h.le_next hd)))
    rwa [update_of_ne (ne_of_gt hc)]

include h hbm

/-- A new chain is the old one up to the block, or it goes on from the new dominator. -/
theorem chain_of_update (hchain : Chain (update doms b (some m)) c x) :
    (Chain doms c x ∧ (Chain doms c b → x ≤ b)) ∨ (Chain doms c b ∧ Chain doms m x) := by
  have hgo : ∀ {c}, Chain (update doms b (some m)) c x →
      (Chain doms c x ∧ (Chain doms c b → x ≤ b)) ∨
        (Chain doms c b ∧ Chain (update doms b (some m)) m x) := by
    intro c hchain
    induction hchain using ReflTransGen.head_induction_on with
    | refl => exact Or.inl ⟨.refl, fun hchain ↦ Chain.le hchain h⟩
    | @head c d hd hrest ih =>
      by_cases hc : c = b
      · subst hc
        rw [update_self, some_inj] at hd
        exact Or.inr ⟨.refl, hd ▸ hrest⟩
      · rw [update_of_ne hc] at hd
        rcases ih with ⟨hx, hle⟩ | ⟨hthrough, hx⟩
        · refine Or.inl ⟨.head hd hx, fun hthrough ↦ hle ?_⟩
          exact ((chain_iff hd).mp hthrough).resolve_left (Ne.symm hc)
        · exact Or.inr ⟨.head hd hthrough, hx⟩
  have hnot : ¬Chain doms m b := fun hchain ↦ absurd (Chain.le hchain h) (Nat.not_le_of_lt hbm)
  rcases hgo hchain with hleft | ⟨hthrough, hx⟩
  · exact Or.inl hleft
  · rcases hgo hx with ⟨hx, -⟩ | ⟨hmb, -⟩
    · exact Or.inr ⟨hthrough, hx⟩
    · exact absurd hmb hnot

theorem chain_update_self (hx : Chain doms m x) : Chain (update doms b (some m)) b x :=
  .head (update_self _ _ _) (chain_update_of_lt h hbm hx)

/-- What an old chain loses is above the block and not above the new dominator. -/
theorem chain_update (hchain : Chain doms c x) (hkeep : Chain doms c b → x ≤ b ∨ Chain doms m x) :
    Chain (update doms b (some m)) c x := by
  induction hchain using ReflTransGen.head_induction_on with
  | refl => exact .refl
  | @head c d hd hrest ih =>
    by_cases hc : c = b
    · subst hc
      rcases hkeep .refl with hle | hx
      · rw [le_antisymm hle (Chain.le (.head hd hrest) h)]
        exact .refl
      · exact chain_update_self h hbm hx
    · refine .head ?_ (ih fun hthrough ↦ hkeep (.head hd hthrough))
      rwa [update_of_ne hc]

include hb hm

theorem IsTree.update : IsTree entry (update doms b (some m)) where
  root := by rw [update_of_ne (Ne.symm hb), h.root]
  lt := by
    intro c d hd hc
    by_cases heq : c = b
    · subst heq
      rw [update_self, some_inj] at hd
      exact hd ▸ hbm
    · rw [update_of_ne heq] at hd
      exact h.lt hd hc
  le := by
    intro c d hd
    have hmle := h.le_entry hm
    by_cases heq : c = b
    · subst heq
      rw [update_self, some_inj] at hd
      omega
    · rw [update_of_ne heq] at hd
      exact h.le hd
  found := by
    intro c d hd
    by_cases hdb : d = b
    · rw [hdb, update_self]
      exact some_ne_none m
    · rw [update_of_ne hdb]
      by_cases heq : c = b
      · subst heq
        rw [update_self, some_inj] at hd
        exact hd ▸ hm
      · rw [update_of_ne heq] at hd
        exact h.found hd

end Update

end Chain

end Banjo.SSA.DominatorTree
