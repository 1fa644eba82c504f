import Banjo.SSA.DominatorTree

/-!
# The rounds find the immediate dominators

After so many rounds, the chain of a block is on every path to it with fewer retreats, and it never
loses a dominator. Since there are finitely many blocks, after some number of rounds the chains are
the dominators. From then on a round changes nothing, and a round that changes nothing would have
gone on doing so.
-/

open List Option Function

namespace Banjo.SSA.DominatorTree

open Relation Dominance

variable {cfg : ControlFlowGraph} {fuel : ℕ} {doms : Doms} {b c m p x : ℕ}

/-! ## Paths that go down -/

/-- Down the post-order from one block to another. -/
def Descends (cfg : ControlFlowGraph) : ℕ → ℕ → Prop := ReflTransGen fun p i ↦ cfg.Edge p i ∧ i < p

theorem Descends.le (h : Descends cfg b c) : c ≤ b := by
  induction h with
  | refl => exact le_rfl
  | tail _ hstep ih => exact (le_of_lt hstep.2).trans ih

/-- Some path that goes down leads to each block, around `b` or through it. -/
theorem avoids_or_descends (hcfg : cfg.PostOrdered) (b : ℕ) : ∀ c ≤ cfg.entryIndex,
    Avoids cfg.Edge cfg.entryIndex b 0 c ∨ Descends cfg b c := by
  intro c hc
  induction hn : cfg.entryIndex - c using Nat.strong_induction_on generalizing c with
  | _ n ih =>
    by_cases hcb : c = b
    · exact Or.inr (hcb ▸ .refl)
    · rcases Nat.lt_or_eq_of_le hc with hlt | rfl
      · obtain ⟨p, hp, hcp⟩ := hcfg.parent hlt
        have hple := hcfg.pred_lt hp
        have hentry : cfg.entryIndex = cfg.nodes.length - 1 := rfl
        rcases ih (cfg.entryIndex - p) (by omega) p (by omega) rfl with h | h
        · exact Or.inl (.forward h hp hcp hcb)
        · exact Or.inr (.tail h ⟨hp, hcp⟩)
      · exact Or.inl (.root 0 hcb)

/-- A path around a later block goes on down around it. -/
theorem Descends.avoids {k : ℕ} (h : Descends cfg b c)
    (havoids : Avoids cfg.Edge cfg.entryIndex x k b) (hx : b < x) :
    Avoids cfg.Edge cfg.entryIndex x k c := by
  induction h with
  | refl => exact havoids
  | tail hbefore hstep ih =>
    have hle := Descends.le hbefore
    exact .forward ih hstep.1 hstep.2 (by omega)

theorem not_avoids_self {k : ℕ} : ¬Avoids cfg.Edge cfg.entryIndex b k b := by
  intro h
  cases h with
  | root _ hne => exact hne rfl
  | forward _ _ _ hne => exact hne rfl
  | retreat _ _ _ hne => exact hne rfl

/-! ## What the dominators are worth -/

/-- The dominators found, when each block has been visited in so many rounds. -/
structure Sound (cfg : ControlFlowGraph) (doms : Doms) (rounds : ℕ → ℕ) : Prop where
  tree : IsTree cfg.entryIndex doms
  found : ∀ {b}, b ≤ cfg.entryIndex → 0 < rounds b → doms b ≠ none
  forward : ∀ {b x}, doms b ≠ none → Chain doms b x → ¬Avoids cfg.Edge cfg.entryIndex x 0 b
  bound : ∀ {b x k}, b ≤ cfg.entryIndex → Chain doms b x → k < rounds b →
    ¬Avoids cfg.Edge cfg.entryIndex x k b
  lower : ∀ {b x}, doms b ≠ none → Dominates cfg.Edge cfg.entryIndex x b → Chain doms b x

theorem Sound.congr {rounds rounds' : ℕ → ℕ} (h : Sound cfg doms rounds)
    (heq : ∀ b ≤ cfg.entryIndex, rounds b = rounds' b) : Sound cfg doms rounds' where
  tree := h.tree
  found hb hpos := h.found hb (heq _ hb ▸ hpos)
  forward := h.forward
  bound hb hchain hk := h.bound hb hchain (heq _ hb ▸ hk)
  lower := h.lower

theorem sound_initialDoms (cfg : ControlFlowGraph) : Sound cfg (initialDoms cfg) fun _ ↦ 0 := by
  have hsome : ∀ {b d}, initialDoms cfg b = some d → b = cfg.entryIndex ∧ d = cfg.entryIndex := by
    intro b d hd
    rw [initialDoms, update_apply] at hd
    split_ifs at hd with hb
    exact ⟨hb, (some.inj hd).symm⟩
  have htree : IsTree cfg.entryIndex (initialDoms cfg) := by
    refine ⟨update_self _ _ _, ?_, ?_, ?_⟩
    · exact fun hd hb ↦ absurd (hsome hd).1 hb
    · intro b d hd
      obtain ⟨rfl, rfl⟩ := hsome hd
      exact ⟨le_rfl, le_rfl⟩
    · intro b d hd
      rw [(hsome hd).2, initialDoms, update_self]
      exact some_ne_none _
  refine ⟨htree, fun _ h ↦ absurd h (Nat.lt_irrefl 0), ?_, fun _ _ h ↦ absurd h (Nat.not_lt_zero _),
    ?_⟩
  · intro b x hb hchain
    obtain ⟨d, hd⟩ := ne_none_iff_exists'.mp hb
    obtain ⟨rfl, rfl⟩ := hsome hd
    rw [htree.chain_entry hchain]
    exact not_avoids_self
  · intro b x hb hdom
    obtain ⟨d, hd⟩ := ne_none_iff_exists'.mp hb
    obtain ⟨rfl, rfl⟩ := hsome hd
    rw [mem_singleton.mp (hdom _ .root)]
    exact .refl

section Visit

variable {rounds : ℕ → ℕ} {k : ℕ} (hcfg : cfg.PostOrdered) (h : Sound cfg doms rounds)
  (hb : b < cfg.entryIndex)
  (hmax : ∀ c ≤ cfg.entryIndex, rounds c ≤ k + 1)
  (hlater : ∀ c ≤ cfg.entryIndex, b < c → rounds c = k + 1)
  (hmin : ∀ c ≤ cfg.entryIndex, k ≤ rounds c)

include hcfg in
theorem edge_le (hedge : cfg.Edge p b) : p ≤ cfg.entryIndex :=
  Nat.le_pred_of_lt (hcfg.pred_lt hedge)

include hcfg h hlater hmin in
/-- The chain of the new dominator is on every path with as many retreats as there were rounds. -/
theorem Sound.not_avoids_new {j : ℕ} (hb : b < cfg.entryIndex)
    (hx : ∀ p, cfg.Edge p b → doms p ≠ none → Chain doms p x) (hj : j ≤ k) :
    ¬Avoids cfg.Edge cfg.entryIndex x j b := by
  intro havoids
  cases havoids with
  | root => exact absurd hb (Nat.lt_irrefl _)
  | @forward _ p _ hp hedge hlt _ =>
    -- the predecessor has been visited in this round
    have hple := edge_le hcfg hedge
    have hrounds := hlater p hple hlt
    have hfound := h.found hple (by omega)
    exact h.bound hple (hx p hedge hfound) (by omega) hp
  | @retreat j p _ hp hedge hle _ =>
    have hple := edge_le hcfg hedge
    have hrounds := hmin p hple
    have hfound := h.found hple (by omega)
    exact h.bound hple (hx p hedge hfound) (by omega) hp

include hcfg h hb hmax hlater hmin in
/-- Setting the dominator of a block to where the chains of its predecessors meet. -/
theorem Sound.update (hm : doms m ≠ none)
    (hiff : ∀ x, Chain doms m x ↔ ∀ p, cfg.Edge p b → doms p ≠ none → Chain doms p x) :
    Sound cfg (Function.update doms b (some m)) (Function.update rounds b (k + 1)) := by
  have hbm : b < m := by
    obtain ⟨p, hedge, hlt⟩ := hcfg.parent hb
    have hple := edge_le hcfg hedge
    have hfound := h.found hple (by rw [hlater p hple hlt]; exact Nat.succ_pos k)
    exact hlt.trans_le (Chain.le ((hiff m).mp .refl p hedge hfound) h.tree)
  have hne : b ≠ cfg.entryIndex := ne_of_lt hb
  have hnew : ∀ {x j}, Chain doms m x → j ≤ k → ¬Avoids cfg.Edge cfg.entryIndex x j b :=
    fun hx hj ↦ h.not_avoids_new hcfg hlater hmin hb ((hiff _).mp hx) hj
  have hstrict : ∀ {x}, Dominates cfg.Edge cfg.entryIndex x b → x ≠ b → Chain doms m x := by
    intro x hdom hxb
    rw [hiff]
    exact fun p hedge hfound ↦ h.lower hfound (StrictlyDominates.pred ⟨hdom, hxb⟩ hedge)
  refine ⟨h.tree.update hne hbm hm, ?_, ?_, ?_, ?_⟩
  · intro c hc hpos
    by_cases hcb : c = b
    · rw [hcb, update_self]
      exact some_ne_none m
    · rw [update_of_ne hcb] at hpos ⊢
      exact h.found hc hpos
  · intro c x hc hchain havoids
    rcases chain_of_update h.tree hbm hchain with ⟨hx, hle⟩ | ⟨hthrough, hx⟩
    · by_cases hcb : c = b
      · subst hcb
        rw [le_antisymm (hle .refl) (Chain.le hx h.tree)] at havoids
        exact not_avoids_self havoids
      · rw [update_of_ne hcb] at hc
        exact h.forward hc hx havoids
    · rcases havoids.split b with hcut | hcut
      · by_cases hcb : c = b
        · exact not_avoids_self (hcb ▸ hcut)
        · rw [update_of_ne hcb] at hc
          exact h.forward hc hthrough hcut
      · exact hnew hx (Nat.zero_le k) hcut
  · intro c x j hc hchain hj havoids
    have hjk : j ≤ k := by
      by_cases hcb : c = b
      · rw [hcb, update_self] at hj
        omega
      · rw [update_of_ne hcb] at hj
        have := hmax c hc
        omega
    rcases chain_of_update h.tree hbm hchain with ⟨hx, hle⟩ | ⟨hthrough, hx⟩
    · by_cases hcb : c = b
      · subst hcb
        rw [le_antisymm (hle .refl) (Chain.le hx h.tree)] at havoids
        exact not_avoids_self havoids
      · rw [update_of_ne hcb] at hj
        exact h.bound hc hx hj havoids
    · rcases havoids.split b with hcut | hcut
      · by_cases hcb : c = b
        · exact not_avoids_self (hcb ▸ hcut)
        · rw [update_of_ne hcb] at hj
          exact h.bound hc hthrough hj hcut
      · exact hnew hx hjk hcut
  · intro c x hc hdom
    by_cases hcb : c = b
    · subst hcb
      by_cases hxb : x = c
      · exact hxb ▸ .refl
      · exact chain_update_self h.tree hbm (hstrict hdom hxb)
    · rw [update_of_ne hcb] at hc
      apply chain_update h.tree hbm (h.lower hc hdom)
      intro hthrough
      rcases Nat.lt_or_ge b x with hlt | hle
      · -- a path to `b` around `x` would go on down to `c`
        have hdown := (avoids_or_descends hcfg b c (h.tree.le_entry hc)).resolve_left
          (h.forward hc hthrough)
        have hdomb : Dominates cfg.Edge cfg.entryIndex x b := by
          rw [dominates_iff] at hdom ⊢
          exact fun j havoids ↦ hdom j (hdown.avoids havoids hlt)
        exact Or.inr (hstrict hdomb (ne_of_gt hlt))
      · exact Or.inl hle

include hcfg h hlater in
theorem Sound.exists_newIdom (hb : b < cfg.entryIndex) (hfuel : 2 * cfg.entryIndex < fuel) :
    ∃ m, newIdom cfg fuel doms b = some (some m) ∧ doms m ≠ none ∧
      ∀ x, Chain doms m x ↔ ∀ p, cfg.Edge p b → doms p ≠ none → Chain doms p x := by
  obtain ⟨p, hedge, hlt⟩ := hcfg.parent hb
  have hple := edge_le hcfg hedge
  have hfound := h.found hple (by rw [hlater p hple hlt]; exact Nat.succ_pos k)
  exact newIdom_spec h.tree hfuel ⟨p, hedge, hfound⟩

include hcfg h hmax hlater hmin in
/-- A visit takes the block one round further. -/
theorem Sound.visit (hfuel : 2 * cfg.entryIndex < fuel) (hb : b ≤ cfg.entryIndex) (changed : Bool) :
    ∃ doms' changed', visit cfg fuel (doms, changed) b = some (doms', changed') ∧
      Sound cfg doms' (Function.update rounds b (k + 1)) ∧
      (changed' = false → doms' = doms ∧ changed = false) := by
  rw [DominatorTree.visit]
  rcases Nat.lt_or_eq_of_le hb with hlt | rfl
  · obtain ⟨m, hm, hfound, hiff⟩ := h.exists_newIdom hcfg hlater hlt hfuel
    have hsound := h.update hcfg hlt hmax hlater hmin hfound hiff
    rw [if_neg (ne_of_lt hlt), hm, map_some]
    by_cases hsame : doms b = some m
    · rw [if_pos hsame]
      rw [← hsame, update_eq_self] at hsound
      exact ⟨doms, changed, rfl, hsound, fun hchanged ↦ ⟨rfl, hchanged⟩⟩
    · rw [if_neg hsame]
      exact ⟨_, true, rfl, hsound, fun hchanged ↦ absurd hchanged (by decide)⟩
  · rw [if_pos rfl]
    refine ⟨doms, changed, rfl, ⟨h.tree, ?_, h.forward, ?_, h.lower⟩,
      fun hchanged ↦ ⟨rfl, hchanged⟩⟩
    · intro c hc hpos
      by_cases hce : c = cfg.entryIndex
      · rw [hce, h.tree.root]
        exact some_ne_none _
      · rw [update_of_ne hce] at hpos
        exact h.found hc hpos
    · intro c x j hc hchain hj
      by_cases hce : c = cfg.entryIndex
      · subst hce
        rw [h.tree.chain_entry hchain]
        exact not_avoids_self
      · rw [update_of_ne hce] at hj
        exact h.bound hc hchain hj

end Visit

/-! ## Rounds -/

/-- The blocks from `j` on have been visited once more. -/
def roundsFrom (j k c : ℕ) : ℕ := if j ≤ c then k + 1 else k

theorem sweep_spec (hcfg : cfg.PostOrdered) {k : ℕ} (hfuel : 2 * cfg.entryIndex < fuel)
    (h : Sound cfg doms fun _ ↦ k) :
    ∃ doms' changed, sweep cfg fuel doms = some (doms', changed) ∧
      (Sound cfg doms' fun _ ↦ k + 1) ∧ (changed = false → doms' = doms) := by
  have hgo : ∀ j ≤ cfg.nodes.length, ∀ (doms : Doms) (changed : Bool),
      Sound cfg doms (roundsFrom j k) →
      ∃ doms' changed', (List.range j).reverse.foldlM (visit cfg fuel) (doms, changed)
          = some (doms', changed') ∧ Sound cfg doms' (roundsFrom 0 k) ∧
        (changed' = false → doms' = doms ∧ changed = false) := by
    intro j
    induction j with
    | zero => exact fun _ doms changed h ↦ ⟨doms, changed, rfl, h, fun hchanged ↦ ⟨rfl, hchanged⟩⟩
    | succ j ih =>
      intro hj doms changed h
      have hentry : cfg.entryIndex = cfg.nodes.length - 1 := rfl
      obtain ⟨next, changedNext, hvisit, hsound, hsame⟩ := h.visit (b := j) (k := k) hcfg
        (by intro c _; rw [roundsFrom]; split_ifs <;> omega)
        (by intro c _ hc; rw [roundsFrom, if_pos (Nat.succ_le_of_lt hc)])
        (by intro c _; rw [roundsFrom]; split_ifs <;> omega) hfuel (by omega) changed
      have hupdate : Function.update (roundsFrom (j + 1) k) j (k + 1) = roundsFrom j k := by
        funext c
        rw [update_apply, roundsFrom, roundsFrom]
        split_ifs <;> omega
      rw [hupdate] at hsound
      obtain ⟨doms', changed', hrun, hsound', hsame'⟩ := ih (by omega) next changedNext hsound
      refine ⟨doms', changed', ?_, hsound', fun hchanged ↦ ?_⟩
      · rw [range_succ, reverse_append, reverse_singleton, singleton_append, foldlM_cons, hvisit]
        exact hrun
      · obtain ⟨rfl, hnext⟩ := hsame' hchanged
        exact hsame hnext
  have hstart : Sound cfg doms (roundsFrom cfg.nodes.length k) := by
    have hentry : cfg.entryIndex = cfg.nodes.length - 1 := rfl
    have hpos := hcfg.nonempty
    refine h.congr fun b hb ↦ ?_
    rw [roundsFrom, if_neg (by omega)]
  obtain ⟨doms', changed, hrun, hsound, hsame⟩ := hgo _ le_rfl doms false hstart
  refine ⟨doms', changed, hrun, hsound.congr fun b _ ↦ ?_, fun hchanged ↦ (hsame hchanged).1⟩
  rw [roundsFrom, if_pos (Nat.zero_le b)]

/-- The chains are the dominators. -/
structure Exact (cfg : ControlFlowGraph) (doms : Doms) : Prop where
  tree : IsTree cfg.entryIndex doms
  found : ∀ {b}, b ≤ cfg.entryIndex → doms b ≠ none
  chain_iff : ∀ {b x}, b ≤ cfg.entryIndex →
    (Chain doms b x ↔ Dominates cfg.Edge cfg.entryIndex x b)

/-- What a round does not change is the same after any number of rounds. -/
theorem Sound.exact_of_sweep (hcfg : cfg.PostOrdered) {k : ℕ} (hfuel : 2 * cfg.entryIndex < fuel)
    (h : Sound cfg doms fun _ ↦ k) {changed : Bool}
    (hsweep : sweep cfg fuel doms = some (doms, changed)) : Exact cfg doms := by
  have hall : ∀ more, Sound cfg doms fun _ ↦ k + more := by
    intro more
    induction more with
    | zero => exact h
    | succ more ih =>
      obtain ⟨doms', changed', hrun, hsound, -⟩ := sweep_spec hcfg hfuel ih
      rw [hsweep] at hrun
      obtain ⟨rfl, -⟩ := Prod.mk.inj (some.inj hrun)
      exact hsound
  have hfound : ∀ {b}, b ≤ cfg.entryIndex → doms b ≠ none :=
    fun hb ↦ (hall 1).found hb (Nat.succ_pos k)
  refine ⟨h.tree, hfound, fun hb ↦ ⟨fun hchain ↦ ?_, h.lower (hfound hb)⟩⟩
  rw [dominates_iff]
  exact fun j ↦ (hall (j + 1)).bound hb hchain (by omega)

theorem Sound.exact_of_retreats {K : ℕ} (hcfg : cfg.PostOrdered)
    (hK : ∀ x ∈ Finset.range cfg.nodes.length, ∀ b ∈ Finset.range cfg.nodes.length,
      ¬Avoids cfg.Edge cfg.entryIndex x K b → Dominates cfg.Edge cfg.entryIndex x b)
    (h : Sound cfg doms fun _ ↦ K + 1) : Exact cfg doms := by
  have hentry : cfg.entryIndex = cfg.nodes.length - 1 := rfl
  have hpos := hcfg.nonempty
  have hfound : ∀ {b}, b ≤ cfg.entryIndex → doms b ≠ none :=
    fun hb ↦ h.found hb (Nat.succ_pos K)
  refine ⟨h.tree, hfound, fun {b x} hb ↦ ⟨fun hchain ↦ ?_, h.lower (hfound hb)⟩⟩
  have hx := h.tree.le_entry (hchain.found h.tree (hfound hb))
  refine hK x ?_ b ?_ (h.bound hb hchain (Nat.lt_succ_self K))
  · rw [Finset.mem_range]
    omega
  · rw [Finset.mem_range]
    omega

/-- When the chains are the dominators, the new dominator of a block is the one it has. -/
theorem Exact.newIdom_eq (hcfg : cfg.PostOrdered) (h : Exact cfg doms)
    (hfuel : 2 * cfg.entryIndex < fuel) (hb : b < cfg.entryIndex) :
    newIdom cfg fuel doms b = some (doms b) := by
  obtain ⟨p, hedge, hlt⟩ := hcfg.parent hb
  obtain ⟨m, hm, hfound, hiff⟩ :=
    newIdom_spec h.tree hfuel ⟨p, hedge, h.found (edge_le hcfg hedge)⟩
  obtain ⟨d, hd⟩ := ne_none_iff_exists'.mp (h.found hb.le)
  have hbd := h.tree.lt hd (ne_of_lt hb)
  have hbm := hlt.trans_le (Chain.le ((hiff m).mp .refl p hedge
    (h.found (edge_le hcfg hedge))) h.tree)
  rw [hm, hd]
  congr 2
  apply h.tree.eq_of_chain_iff
  intro x
  constructor
  · intro hx
    have hdom : Dominates cfg.Edge cfg.entryIndex x b := by
      refine dominates_of_preds (ne_of_lt hb) fun q hq ↦ ?_
      have hqle := edge_le hcfg hq
      exact (h.chain_iff hqle).mp ((hiff x).mp hx q hq (h.found hqle))
    have hchain := (h.chain_iff hb.le).mpr hdom
    refine ((DominatorTree.chain_iff hd).mp hchain).resolve_left ?_
    have := Chain.le hx h.tree
    omega
  · intro hx
    rw [hiff]
    intro q hq _
    have hxb : x ≠ b := by
      have := Chain.le hx h.tree
      omega
    have hdom := (h.chain_iff hb.le).mp ((DominatorTree.chain_iff hd).mpr (Or.inr hx))
    exact (h.chain_iff (edge_le hcfg hq)).mpr (StrictlyDominates.pred ⟨hdom, hxb⟩ hq)

theorem Exact.sweep_eq (hcfg : cfg.PostOrdered) (h : Exact cfg doms)
    (hfuel : 2 * cfg.entryIndex < fuel) : sweep cfg fuel doms = some (doms, false) := by
  have hentry : cfg.entryIndex = cfg.nodes.length - 1 := rfl
  have hvisit : ∀ b < cfg.nodes.length, visit cfg fuel (doms, false) b = some (doms, false) := by
    intro b hb
    rw [visit]
    split_ifs with hbe
    · rfl
    · rw [h.newIdom_eq hcfg hfuel (by omega), map_some, if_pos rfl]
  have hgo : ∀ l : List ℕ, (∀ b ∈ l, b < cfg.nodes.length) →
      l.foldlM (visit cfg fuel) (doms, false) = some (doms, false) := by
    intro l
    induction l with
    | nil => exact fun _ ↦ rfl
    | cons b rest ih =>
      intro hl
      rw [foldlM_cons, hvisit b (hl b mem_cons_self)]
      exact ih fun c hc ↦ hl c (mem_cons_of_mem _ hc)
  refine hgo _ fun b hb ↦ ?_
  rwa [mem_reverse, mem_range] at hb

/-- The rounds end, and with the dominators. -/
theorem exists_iterate (hcfg : cfg.PostOrdered) :
    ∃ F, ∀ fuel ≥ F, ∃ doms, iterate cfg fuel fuel (initialDoms cfg) = some doms ∧
      Exact cfg doms := by
  obtain ⟨K, hK⟩ := exists_retreats cfg.Edge cfg.entryIndex (Finset.range cfg.nodes.length)
  refine ⟨2 * cfg.entryIndex + K + 2, fun fuel hF ↦ ?_⟩
  have hfuel : 2 * cfg.entryIndex < fuel := by omega
  have hgo : ∀ (rounds k : ℕ) (doms : Doms), k ≤ K + 1 → K + 2 ≤ k + rounds →
      (Sound cfg doms fun _ ↦ k) →
      ∃ doms', iterate cfg fuel rounds doms = some doms' ∧ Exact cfg doms' := by
    intro rounds
    induction rounds with
    | zero => exact fun k _ hk hrounds ↦ absurd hk (by omega)
    | succ rounds ih =>
      intro k doms hk hrounds h
      obtain ⟨next, changed, hrun, hsound, hsame⟩ := sweep_spec hcfg hfuel h
      rw [iterate, hrun, bind_some]
      cases changed with
      | false =>
        obtain rfl := hsame rfl
        exact ⟨next, rfl, h.exact_of_sweep hcfg hfuel hrun⟩
      | true =>
        -- once there have been enough rounds nothing changes
        have hlt : k ≠ K + 1 := by
          rintro rfl
          rw [(h.exact_of_retreats hcfg hK).sweep_eq hcfg hfuel] at hrun
          cases hrun
        exact ih (k + 1) next (by omega) (by omega) hsound
  exact hgo fuel 0 (initialDoms cfg) (Nat.zero_le _) (by omega) (sound_initialDoms cfg)

end Banjo.SSA.DominatorTree
