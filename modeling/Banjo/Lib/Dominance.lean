import Mathlib.Data.Finset.Lattice.Fold
import Mathlib.Data.Fintype.Prod

/-!
# Dominance in rooted graphs

A vertex dominates another if it lies on every path to it from the root. Where the vertices are
ordered, an edge that does not go down is a retreat, and `Avoids` bounds the number of retreats on a
path around a vertex. Among finitely many vertices one bound serves all of them, and that is how
iterating from the root gets to all the paths there are.
-/

open List

namespace Banjo.Dominance

variable {α : Type*} {E : α → α → Prop} {root : α}

/-- The vertices of a path from the root, the last one first. -/
inductive PathTo (E : α → α → Prop) (root : α) : List α → α → Prop
  | root : PathTo E root [root] root
  | step {path : List α} {p b : α} : PathTo E root path p → E p b → PathTo E root (b :: path) b

def Dominates (E : α → α → Prop) (root a b : α) : Prop := ∀ path, PathTo E root path b → a ∈ path

def StrictlyDominates (E : α → α → Prop) (root a b : α) : Prop :=
  Dominates E root a b ∧ a ≠ b

/-- The closest of the strict dominators: the others dominate it. -/
def ImmediatelyDominates (E : α → α → Prop) (root a b : α) : Prop :=
  StrictlyDominates E root a b ∧ ∀ c, StrictlyDominates E root c b → Dominates E root c a

/-- A path leads to `b` around `x`. -/
inductive ReachesAround (E : α → α → Prop) (x b : α) : α → Prop
  | last : b ≠ x → ReachesAround E x b b
  | step {p c : α} : E p c → p ≠ x → ReachesAround E x b c → ReachesAround E x b p

variable {b : α}

theorem PathTo.mem_last {path : List α} (h : PathTo E root path b) : b ∈ path := by
  cases h with
  | root => exact mem_singleton_self root
  | step _ _ => exact mem_cons_self

theorem PathTo.mem_root {path : List α} (h : PathTo E root path b) : root ∈ path := by
  induction h with
  | root => exact mem_singleton_self root
  | step _ _ ih => exact mem_cons_of_mem _ ih

variable {c x : α}

theorem ReachesAround.ne (h : ReachesAround E x b c) : b ≠ x := by
  induction h with
  | last hne => exact hne
  | step _ _ _ ih => exact ih

theorem ReachesAround.ne_source (h : ReachesAround E x b c) : c ≠ x := by
  cases h with
  | last hne => exact hne
  | step _ hne _ => exact hne

/-- A path around a vertex goes on around it. -/
theorem ReachesAround.exists_path (h : ReachesAround E x b c) : ∀ {path : List α},
    PathTo E root path c → x ∉ path → ∃ path', PathTo E root path' b ∧ x ∉ path' := by
  induction h with
  | last _ => exact fun hpath hx ↦ ⟨_, hpath, hx⟩
  | step hedge _ hrest ih =>
    intro path hpath hx
    refine ih (.step hpath hedge) fun hmem ↦ ?_
    exact (mem_cons.mp hmem).elim (fun heq ↦ hrest.ne_source heq.symm) hx

/-- Nothing leads from the root to a vertex around one that dominates it. -/
theorem Dominates.not_reachesAround (h : Dominates E root x b) (hroot : root ≠ x) :
    ¬ReachesAround E x b root := by
  intro hreaches
  obtain ⟨path, hpath, hx⟩ := hreaches.exists_path .root
    fun hmem ↦ hroot (mem_singleton.mp hmem).symm
  exact hx (h path hpath)

theorem dominates_refl (b : α) : Dominates E root b b := fun _ h ↦ h.mem_last

/-- A strict dominator dominates the predecessors. -/
theorem StrictlyDominates.pred {a p : α} (h : StrictlyDominates E root a b) (hedge : E p b) :
    Dominates E root a p := by
  intro path hpath
  have hmem := h.1 _ (hpath.step hedge)
  exact (mem_cons.mp hmem).resolve_left h.2

theorem dominates_of_preds {a : α} (hb : b ≠ root)
    (h : ∀ p, E p b → Dominates E root a p) : Dominates E root a b := by
  intro path hpath
  cases hpath with
  | root => exact absurd rfl hb
  | step hpath hedge => exact mem_cons_of_mem _ (h _ hedge _ hpath)

/-! ## Paths around a vertex -/

section Retreats

variable [LinearOrder α]

/-- A path with at most so many retreats leads around `x`. -/
inductive Avoids (E : α → α → Prop) (root x : α) : ℕ → α → Prop
  | root (k : ℕ) : root ≠ x → Avoids E root x k root
  | forward {k : ℕ} {p b : α} : Avoids E root x k p → E p b → b < p → b ≠ x → Avoids E root x k b
  | retreat {k : ℕ} {p b : α} : Avoids E root x k p → E p b → p ≤ b → b ≠ x →
      Avoids E root x (k + 1) b

variable {x b c : α} {k k' : ℕ}

theorem Avoids.mono (h : Avoids E root x k b) (hk : k ≤ k') : Avoids E root x k' b := by
  induction h generalizing k' with
  | root _ hne => exact .root k' hne
  | forward _ hedge hlt hne ih => exact .forward (ih hk) hedge hlt hne
  | retreat _ hedge hle hne ih =>
    obtain ⟨j, rfl⟩ := Nat.exists_eq_add_of_le hk
    rw [Nat.add_right_comm]
    exact .retreat (ih (Nat.le_add_right _ _)) hedge hle hne

/-- A path around `x` leads around `b` as well, or it leads to `b`. -/
theorem Avoids.split (h : Avoids E root x k c) (b : α) :
    Avoids E root b k c ∨ Avoids E root x k b := by
  induction h with
  | root k hne =>
    by_cases heq : root = b
    · exact Or.inr (heq ▸ .root k hne)
    · exact Or.inl (.root k heq)
  | @forward k p c hp hedge hlt hne ih =>
    by_cases heq : c = b
    · exact Or.inr (heq ▸ .forward hp hedge hlt hne)
    · exact ih.imp_left fun h ↦ .forward h hedge hlt heq
  | @retreat k p c hp hedge hle hne ih =>
    by_cases heq : c = b
    · exact Or.inr (heq ▸ .retreat hp hedge hle hne)
    · exact ih.imp (fun h ↦ .retreat h hedge hle heq) fun h ↦ h.mono (Nat.le_succ k)

theorem dominates_iff : Dominates E root x b ↔ ∀ k, ¬Avoids E root x k b := by
  constructor
  · intro hdom k h
    have hpath : ∃ path, PathTo E root path b ∧ x ∉ path := by
      clear hdom
      induction h with
      | root k hne => exact ⟨_, .root, fun h ↦ hne (mem_singleton.mp h).symm⟩
      | forward _ hedge _ hne ih =>
        obtain ⟨path, hpath, hx⟩ := ih
        exact ⟨_, .step hpath hedge, fun h ↦ (mem_cons.mp h).elim (fun h ↦ hne h.symm) hx⟩
      | retreat _ hedge _ hne ih =>
        obtain ⟨path, hpath, hx⟩ := ih
        exact ⟨_, .step hpath hedge, fun h ↦ (mem_cons.mp h).elim (fun h ↦ hne h.symm) hx⟩
    obtain ⟨path, hpath, hx⟩ := hpath
    exact hx (hdom path hpath)
  · intro hnone path hpath
    by_contra hx
    have havoids : ∃ k, Avoids E root x k b := by
      clear hnone
      induction hpath with
      | root => exact ⟨0, .root 0 fun h ↦ hx (mem_singleton.mpr h.symm)⟩
      | @step path p b _ hedge ih =>
        rw [mem_cons, not_or] at hx
        obtain ⟨k, hk⟩ := ih hx.2
        rcases lt_or_ge b p with hlt | hle
        · exact ⟨k, .forward hk hedge hlt (Ne.symm hx.1)⟩
        · exact ⟨k + 1, .retreat hk hedge hle (Ne.symm hx.1)⟩
    obtain ⟨k, hk⟩ := havoids
    exact hnone k hk

/-- Among finitely many vertices, one number of retreats is enough for every path there is. -/
theorem exists_retreats (E : α → α → Prop) (root : α) (s : Finset α) :
    ∃ K, ∀ x ∈ s, ∀ b ∈ s, ¬Avoids E root x K b → Dominates E root x b := by
  classical
  let need : α × α → ℕ := fun pair ↦ if h : ∃ k, Avoids E root pair.1 k pair.2 then h.choose else 0
  refine ⟨(s ×ˢ s).sup need, fun x hx b hb hnot ↦ ?_⟩
  rw [dominates_iff]
  intro k hk
  have hexists : ∃ k, Avoids E root (x, b).1 k (x, b).2 := ⟨k, hk⟩
  have hneed : need (x, b) = hexists.choose := dif_pos hexists
  have hle : need (x, b) ≤ (s ×ˢ s).sup need :=
    Finset.le_sup (Finset.mem_product.mpr ⟨hx, hb⟩)
  exact hnot (hexists.choose_spec.mono (hneed ▸ hle))

end Retreats

end Banjo.Dominance
