import Mathlib.Data.Finset.Card

/-!
# Depth-first search in post-order

A depth-first search that marks a vertex when it enters it and appends it to an order when it
leaves it. `Grows` records everything one call does to the search state: which vertices it adds,
that they are closed under successors, and that each of them but the roots of the call has a
parent that is left later. The recursion is bounded by fuel; a fuel of the number of unvisited
vertices is enough, and `postOrder_mem_iff` and `postOrder_parent` are the two facts a client uses.
-/

open List

namespace Banjo.PostOrder

variable {α : Type*} [DecidableEq α]

/-- The vertices entered so far and the vertices left so far, in order. -/
structure State (α : Type*) where
  visited : List α
  order : List α

/-- Enter a vertex, search from its unvisited successors, and leave it. -/
def dfs (succ : α → List α) : ℕ → α → State α → State α
  | 0, _, s => s
  | fuel + 1, v, s =>
    let t := (succ v).foldl (fun s w ↦ if w ∈ s.visited then s else dfs succ fuel w s)
      ⟨v :: s.visited, s.order⟩
    ⟨t.visited, t.order ++ [v]⟩

/-- The vertices reachable from a root, in the order the search leaves them. -/
def postOrder (succ : α → List α) (fuel : ℕ) (root : α) : List α :=
  (dfs succ fuel root ⟨[], []⟩).order

/-- The loop of `dfs` over the successors of a vertex. -/
def searchAll (succ : α → List α) (fuel : ℕ) (roots : List α) (s : State α) : State α :=
  roots.foldl (fun s w ↦ if w ∈ s.visited then s else dfs succ fuel w s) s

theorem dfs_succ (succ : α → List α) (fuel : ℕ) (v : α) (s : State α) :
    dfs succ (fuel + 1) v s =
      ⟨(searchAll succ fuel (succ v) ⟨v :: s.visited, s.order⟩).visited,
        (searchAll succ fuel (succ v) ⟨v :: s.visited, s.order⟩).order ++ [v]⟩ := rfl

/-! ## What a call adds -/

omit [DecidableEq α] in
/-- The search started at `roots` in the state `s` leaves the vertices `new` and ends in `t`. -/
structure Grows (succ : α → List α) (roots : List α) (s : State α) (new : List α)
    (t : State α) : Prop where
  order : t.order = s.order ++ new
  visited : ∀ x, x ∈ t.visited ↔ x ∈ s.visited ∨ x ∈ new
  fresh : ∀ x ∈ new, x ∉ s.visited
  nodup : new.Nodup
  closed : ∀ x ∈ new, ∀ w ∈ succ x, w ∈ t.visited
  covers : ∀ r ∈ roots, r ∈ t.visited
  parent : ∀ x ∈ new, x ∈ roots ∨ ∃ u, x ∈ succ u ∧ [x, u].Sublist new
  reach : ∀ x ∈ new, ∃ r ∈ roots, Relation.ReflTransGen (fun a b ↦ b ∈ succ a) r x

variable {succ : α → List α} {roots : List α} {s t u : State α} {new : List α}

omit [DecidableEq α] in
theorem Grows.nil (succ : α → List α) (s : State α) : Grows succ [] s [] s where
  order := (append_nil _).symm
  visited := by simp
  fresh := by simp
  nodup := nodup_nil
  closed := by simp
  covers := by simp
  parent := by simp
  reach := by simp

omit [DecidableEq α] in
theorem Grows.append {roots' new' : List α} (h : Grows succ roots s new t)
    (h' : Grows succ roots' t new' u) : Grows succ (roots ++ roots') s (new ++ new') u where
  order := by rw [h'.order, h.order, append_assoc]
  visited x := by rw [h'.visited, h.visited, mem_append, or_assoc]
  fresh x hx := by
    rcases mem_append.mp hx with hx | hx
    · exact h.fresh x hx
    · exact fun hs ↦ h'.fresh x hx ((h.visited x).mpr (Or.inl hs))
  nodup := by
    refine h.nodup.append h'.nodup ?_
    exact disjoint_left.mpr fun x hx hx' ↦ h'.fresh x hx' ((h.visited x).mpr (Or.inr hx))
  closed x hx w hw := by
    rcases mem_append.mp hx with hx | hx
    · exact (h'.visited w).mpr (Or.inl (h.closed x hx w hw))
    · exact h'.closed x hx w hw
  covers r hr := by
    rcases mem_append.mp hr with hr | hr
    · exact (h'.visited r).mpr (Or.inl (h.covers r hr))
    · exact h'.covers r hr
  parent x hx := by
    rcases mem_append.mp hx with hx | hx
    · rcases h.parent x hx with hr | ⟨p, hp, hsub⟩
      · exact Or.inl (mem_append_left _ hr)
      · exact Or.inr ⟨p, hp, hsub.trans (sublist_append_left _ _)⟩
    · rcases h'.parent x hx with hr | ⟨p, hp, hsub⟩
      · exact Or.inl (mem_append_right _ hr)
      · exact Or.inr ⟨p, hp, hsub.trans (sublist_append_right _ _)⟩
  reach x hx := by
    rcases mem_append.mp hx with hx | hx
    · obtain ⟨r, hr, hreach⟩ := h.reach x hx
      exact ⟨r, mem_append_left _ hr, hreach⟩
    · obtain ⟨r, hr, hreach⟩ := h'.reach x hx
      exact ⟨r, mem_append_right _ hr, hreach⟩

omit [DecidableEq α] in
/-- Entering a vertex, searching its successors and leaving it is a search from that vertex. -/
theorem Grows.enter {v : α} (hv : v ∉ s.visited)
    (h : Grows succ (succ v) ⟨v :: s.visited, s.order⟩ new t) :
    Grows succ [v] s (new ++ [v]) ⟨t.visited, t.order ++ [v]⟩ where
  order := by rw [h.order, append_assoc]
  visited x := by
    rw [h.visited, mem_cons, mem_append, mem_singleton]
    tauto
  fresh x hx := by
    rcases mem_append.mp hx with hx | hx
    · exact fun hs ↦ h.fresh x hx (mem_cons_of_mem _ hs)
    · rwa [mem_singleton.mp hx]
  nodup := by
    refine h.nodup.append (nodup_singleton v) ?_
    rw [disjoint_singleton]
    exact fun hnew ↦ h.fresh v hnew mem_cons_self
  closed x hx w hw := by
    rcases mem_append.mp hx with hx | hx
    · exact h.closed x hx w hw
    · exact h.covers w (mem_singleton.mp hx ▸ hw)
  covers r hr := by
    rw [mem_singleton.mp hr]
    exact (h.visited v).mpr (Or.inl mem_cons_self)
  parent x hx := by
    rcases mem_append.mp hx with hx | hx
    · refine Or.inr ?_
      rcases h.parent x hx with hr | ⟨p, hp, hsub⟩
      · exact ⟨v, hr, (singleton_sublist.mpr hx).append (List.Sublist.refl [v])⟩
      · exact ⟨p, hp, hsub.trans (sublist_append_left _ _)⟩
    · exact Or.inl hx
  reach x hx := by
    refine ⟨v, mem_singleton_self v, ?_⟩
    rcases mem_append.mp hx with hx | hx
    · obtain ⟨r, hr, hreach⟩ := h.reach x hx
      exact Relation.ReflTransGen.head hr hreach
    · rw [mem_singleton.mp hx]

omit [DecidableEq α] in
theorem mem_of_pair_sublist {x y : α} {after : List α} : ∀ {before : List α},
    (before ++ x :: after).Nodup → [x, y].Sublist (before ++ x :: after) → y ∈ after := by
  intro before
  induction before with
  | nil =>
    intro hnodup hsub
    cases hsub with
    | cons _ hsub => exact absurd (hsub.subset mem_cons_self) (nodup_cons.mp hnodup).1
    | cons_cons _ hsub => exact singleton_sublist.mp hsub
  | cons z before ih =>
    intro hnodup hsub
    rw [cons_append, nodup_cons] at hnodup
    cases hsub with
    | cons _ hsub => exact ih hnodup.2 hsub
    | cons_cons _ _ => exact absurd (mem_append_right _ mem_cons_self) hnodup.1

omit [DecidableEq α] in
/-- What a search from one vertex leaves is reached around what was visited before. -/
theorem Grows.reach_around {v x : α} (h : Grows succ [v] s new t) (hx : x ∈ new) :
    Relation.ReflTransGen (fun a b ↦ b ∈ succ a ∧ b ∉ s.visited) v x := by
  have hgo : ∀ after before, new = before ++ after → ∀ x ∈ after,
      Relation.ReflTransGen (fun a b ↦ b ∈ succ a ∧ b ∉ s.visited) v x := by
    intro after
    induction after with
    | nil => exact fun _ _ x hx ↦ absurd hx not_mem_nil
    | cons y after ih =>
      intro before hnew x hx
      have hrest := ih (before ++ [y]) (by rw [hnew, append_cons])
      rcases mem_cons.mp hx with rfl | hx
      · have hmem : x ∈ new := hnew ▸ mem_append_right _ mem_cons_self
        rcases h.parent x hmem with hroot | ⟨u, hu, hsub⟩
        · rw [mem_singleton.mp hroot]
        · -- the parent is left later
          have huafter := mem_of_pair_sublist (hnew ▸ h.nodup) (hnew ▸ hsub)
          exact (hrest u huafter).tail ⟨hu, h.fresh x hmem⟩
      · exact hrest x hx
  exact hgo new [] rfl x hx

/-! ## Enough fuel -/

/-- The vertices of a finite universe a search has not entered. -/
def unvisited (U : Finset α) (s : State α) : Finset α := U.filter (· ∉ s.visited)

theorem card_unvisited_le (U : Finset α) (s : State α) : (unvisited U s).card ≤ U.card :=
  Finset.card_filter_le _ _

variable {U : Finset α}

theorem unvisited_subset_of_grows (h : Grows succ roots s new t) :
    unvisited U t ⊆ unvisited U s := by
  intro x hx
  obtain ⟨hU, ht⟩ := Finset.mem_filter.mp hx
  exact Finset.mem_filter.mpr ⟨hU, fun hs ↦ ht ((h.visited x).mpr (Or.inl hs))⟩

/-- Searching a list of roots does what searching each of them does, given that a search from a
single root in the universe succeeds with this fuel. -/
theorem searchAll_grows {fuel : ℕ}
    (hdfs : ∀ (v : α) (s : State α), v ∈ U → v ∉ s.visited → (unvisited U s).card ≤ fuel →
      ∃ new, Grows succ [v] s new (dfs succ fuel v s)) :
    ∀ (roots : List α) (s : State α), (∀ r ∈ roots, r ∈ U) → (unvisited U s).card ≤ fuel →
      ∃ new, Grows succ roots s new (searchAll succ fuel roots s) := by
  intro roots
  induction roots with
  | nil => intro s _ _; exact ⟨[], Grows.nil succ s⟩
  | cons w rest ih =>
    intro s hU hfuel
    have hrest : ∀ r ∈ rest, r ∈ U := fun r hr ↦ hU r (mem_cons_of_mem _ hr)
    by_cases hw : w ∈ s.visited
    · obtain ⟨new, hnew⟩ := ih s hrest hfuel
      have heq : searchAll succ fuel (w :: rest) s = searchAll succ fuel rest s := by
        rw [searchAll, foldl_cons, if_pos hw, searchAll]
      refine ⟨new, heq ▸ { hnew with covers := ?_, parent := ?_, reach := ?_ }⟩
      · intro r hr
        rcases mem_cons.mp hr with rfl | hr
        · exact (hnew.visited r).mpr (Or.inl hw)
        · exact hnew.covers r hr
      · exact fun x hx ↦ (hnew.parent x hx).imp_left (mem_cons_of_mem _)
      · intro x hx
        obtain ⟨r, hr, hreach⟩ := hnew.reach x hx
        exact ⟨r, mem_cons_of_mem _ hr, hreach⟩
    · obtain ⟨new, hnew⟩ := hdfs w s (hU w mem_cons_self) hw hfuel
      obtain ⟨new', hnew'⟩ := ih (dfs succ fuel w s) hrest
        ((Finset.card_le_card (unvisited_subset_of_grows hnew)).trans hfuel)
      have heq : searchAll succ fuel (w :: rest) s
          = searchAll succ fuel rest (dfs succ fuel w s) := by
        rw [searchAll, foldl_cons, if_neg hw, searchAll]
      exact ⟨new ++ new', heq ▸ hnew.append hnew'⟩

/-- A search with as much fuel as there are unvisited vertices never runs out of it. -/
theorem dfs_grows (hclosed : ∀ x ∈ U, ∀ w ∈ succ x, w ∈ U) : ∀ (fuel : ℕ) (v : α)
    (s : State α), v ∈ U → v ∉ s.visited → (unvisited U s).card ≤ fuel →
    ∃ new, Grows succ [v] s new (dfs succ fuel v s) := by
  intro fuel
  induction fuel with
  | zero =>
    intro v s hv hs hfuel
    have hmem : v ∈ unvisited U s := Finset.mem_filter.mpr ⟨hv, hs⟩
    rw [Nat.le_zero, Finset.card_eq_zero] at hfuel
    rw [hfuel] at hmem
    exact absurd hmem (Finset.notMem_empty v)
  | succ fuel ih =>
    intro v s hv hs hfuel
    -- entering `v` takes it out of the unvisited vertices, which pays for the fuel
    have hless : (unvisited U ⟨v :: s.visited, s.order⟩).card ≤ fuel := by
      have hsub : unvisited U ⟨v :: s.visited, s.order⟩ ⊂ unvisited U s := by
        refine Finset.ssubset_iff_of_subset ?_ |>.mpr ⟨v, Finset.mem_filter.mpr ⟨hv, hs⟩, ?_⟩
        · intro x hx
          obtain ⟨hU, hx⟩ := Finset.mem_filter.mp hx
          exact Finset.mem_filter.mpr ⟨hU, fun h ↦ hx (mem_cons_of_mem _ h)⟩
        · exact fun h ↦ (Finset.mem_filter.mp h).2 mem_cons_self
      have := Finset.card_lt_card hsub
      omega
    obtain ⟨new, hnew⟩ := searchAll_grows ih (succ v) _ (hclosed v hv) hless
    exact ⟨new ++ [v], dfs_succ succ fuel v s ▸ hnew.enter hs⟩

/-! ## The order from a root -/

section Root

variable {U : Finset α} {root : α} {fuel : ℕ}
  (hclosed : ∀ x ∈ U, ∀ w ∈ succ x, w ∈ U) (hroot : root ∈ U)
  (hfuel : U.card ≤ fuel)

include hclosed hroot hfuel

theorem postOrder_grows :
    Grows succ [root] ⟨[], []⟩ (postOrder succ fuel root) (dfs succ fuel root ⟨[], []⟩) := by
  obtain ⟨new, hnew⟩ := dfs_grows hclosed fuel root ⟨[], []⟩ hroot (by simp)
    ((card_unvisited_le _ _).trans hfuel)
  have horder : postOrder succ fuel root = new := by rw [postOrder, hnew.order, nil_append]
  rwa [horder]

/-- The order holds exactly the reachable vertices. -/
theorem postOrder_mem_iff {x : α} : x ∈ postOrder succ fuel root ↔
      Relation.ReflTransGen (fun a b ↦ b ∈ succ a) root x := by
  have h := postOrder_grows hclosed hroot hfuel
  constructor
  · intro hx
    obtain ⟨r, hr, hreach⟩ := h.reach x hx
    exact mem_singleton.mp hr ▸ hreach
  · intro hreach
    have hvisited : ∀ y, y ∈ (dfs succ fuel root ⟨[], []⟩).visited → y ∈ postOrder succ fuel root :=
      fun y hy ↦ ((h.visited y).mp hy).resolve_left (not_mem_nil)
    induction hreach with
    | refl => exact hvisited root (h.covers root (mem_singleton_self root))
    | tail _ hstep ih => exact hvisited _ (h.closed _ ih _ hstep)

theorem postOrder_nodup : (postOrder succ fuel root).Nodup :=
  (postOrder_grows hclosed hroot hfuel).nodup

/-- A vertex other than the root has a parent that comes later in the order. -/
theorem postOrder_parent {x : α} (hx : x ∈ postOrder succ fuel root) :
    x = root ∨ ∃ u, x ∈ succ u ∧ [x, u].Sublist (postOrder succ fuel root) :=
  ((postOrder_grows hclosed hroot hfuel).parent x hx).imp_left mem_singleton.mp

omit hclosed in
/-- The root comes last. -/
theorem postOrder_eq_append : ∃ before, postOrder succ fuel root = before ++ [root] := by
  have hpos : 0 < U.card := Finset.card_pos.mpr ⟨root, hroot⟩
  obtain ⟨more, rfl⟩ := Nat.exists_eq_succ_of_ne_zero (by omega : fuel ≠ 0)
  exact ⟨_, congrArg State.order (dfs_succ succ more root ⟨[], []⟩)⟩

end Root

end Banjo.PostOrder
