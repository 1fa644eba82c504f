import Mathlib.Algebra.Order.Group.Int
import Mathlib.Data.Int.Basic
import Mathlib.Data.List.Nodup

/-!
# Ranges placed one below the other

Each of a list of things is given the room it needs, directly below the one before it. The ranges
then lie between the two ends, do not overlap, and are aligned as the room of each is.
-/

open List

namespace Banjo.Stacking

variable {ι : Type*} {room : ℕ → ℤ}

/-- The places of the things with these sizes, from `top` down. -/
def below (room : ℕ → ℤ) : ℤ → List (ι × ℕ) → List (ι × ℤ)
  | _, [] => []
  | top, (id, size) :: things => (id, top - room size) :: below room (top - room size) things

/-- Where the last of the things lies. -/
def bottom (room : ℕ → ℤ) (top : ℤ) (things : List (ι × ℕ)) : ℤ :=
  things.foldl (fun offset (_, size) ↦ offset - room size) top

theorem map_fst_below (room : ℕ → ℤ) (top : ℤ) (things : List (ι × ℕ)) :
    (below room top things).map Prod.fst = things.map Prod.fst := by
  induction things generalizing top with
  | nil => rfl
  | cons thing things ih => rw [below, map_cons, map_cons, ih]

/-- Of things that are placed one after the other, each lies below the one before it, all of them
between `top` and `low`. -/
def Descends (size : ι → ℕ) : ℤ → List (ι × ℤ) → ℤ → Prop
  | top, [], low => low ≤ top
  | top, (id, offset) :: placed, low => offset + size id ≤ top ∧ Descends size offset placed low

namespace Descends

variable {size : ι → ℕ} {top middle low : ℤ} {placed placed' : List (ι × ℤ)}

theorem low_le (h : Descends size top placed low) : low ≤ top := by
  induction placed generalizing top with
  | nil => exact h
  | cons entry placed ih =>
    have := ih h.2
    have := h.1
    omega

theorem mono {top' : ℤ} (h : Descends size top placed low) (hle : top ≤ top') :
    Descends size top' placed low := by
  cases placed with
  | nil => exact h.trans hle
  | cons entry placed => exact ⟨h.1.trans hle, h.2⟩

theorem append (h : Descends size top placed middle) (h' : Descends size middle placed' low) :
    Descends size top (placed ++ placed') low := by
  induction placed generalizing top with
  | nil => exact h'.mono h
  | cons entry placed ih => exact ⟨h.1, ih h.2⟩

theorem within (h : Descends size top placed low) {id : ι} {offset : ℤ}
    (hmem : (id, offset) ∈ placed) : low ≤ offset ∧ offset + size id ≤ top := by
  induction placed generalizing top with
  | nil => cases hmem
  | cons entry placed ih =>
    obtain ⟨hfirst, hrest⟩ := h
    obtain rfl | hmem := mem_cons.mp hmem
    · exact ⟨hrest.low_le, hfirst⟩
    · obtain ⟨hlow, hhigh⟩ := ih hrest hmem
      exact ⟨hlow, by omega⟩

/-- Different things do not overlap. -/
theorem disjoint (h : Descends size top placed low) {id id' : ι} {offset offset' : ℤ}
    (hmem : (id, offset) ∈ placed) (hmem' : (id', offset') ∈ placed) (hne : id ≠ id') :
    offset + size id ≤ offset' ∨ offset' + size id' ≤ offset := by
  induction placed generalizing top with
  | nil => cases hmem
  | cons entry placed ih =>
    obtain ⟨hfirst, hrest⟩ := h
    obtain rfl | hlater := mem_cons.mp hmem
    · obtain heq | hlater' := mem_cons.mp hmem'
      · exact absurd (congrArg Prod.fst heq).symm hne
      · exact Or.inr (hrest.within hlater').2
    · obtain rfl | hlater' := mem_cons.mp hmem'
      · exact Or.inl (hrest.within hlater).2
      · exact ih hrest hlater hlater'

end Descends

variable {things : List (ι × ℕ)}

/-- Things that get at least the room they need. -/
theorem descends_below {size : ι → ℕ} (hroom : ∀ n : ℕ, (n : ℤ) ≤ room n) (top : ℤ)
    (hsize : ∀ thing ∈ things, size thing.1 = thing.2) :
    Descends size top (below room top things) (bottom room top things) := by
  induction things generalizing top with
  | nil => exact le_rfl
  | cons thing things ih =>
    have hrest := ih (top - room thing.2) fun other hmem ↦ hsize other (mem_cons_of_mem _ hmem)
    refine ⟨?_, hrest⟩
    have := hroom thing.2
    rw [hsize thing mem_cons_self]
    omega

/-- What divides where the things begin and the room of each divides all places. -/
theorem dvd_of_mem_below {d : ℤ} {top : ℤ} (htop : d ∣ top)
    (hroom : ∀ thing ∈ things, d ∣ room thing.2) {id : ι} {offset : ℤ}
    (hmem : (id, offset) ∈ below room top things) : d ∣ offset := by
  induction things generalizing top with
  | nil => cases hmem
  | cons thing things ih =>
    have hfirst := Int.dvd_sub htop (hroom thing mem_cons_self)
    obtain heq | hmem := mem_cons.mp hmem
    · cases heq
      exact hfirst
    · exact ih hfirst (fun other hmem ↦ hroom other (mem_cons_of_mem _ hmem)) hmem

theorem dvd_bottom {d : ℤ} {top : ℤ} (htop : d ∣ top)
    (hroom : ∀ thing ∈ things, d ∣ room thing.2) : d ∣ bottom room top things := by
  induction things generalizing top with
  | nil => exact htop
  | cons thing things ih =>
    exact ih (Int.dvd_sub htop (hroom thing mem_cons_self)) fun other hmem ↦
      hroom other (mem_cons_of_mem _ hmem)

/-- Placing the things in a loop that keeps the places so far and the last of them. -/
theorem foldl_eq_below (room : ℕ → ℤ) (things : List (ι × ℕ)) (placed : List (ι × ℤ)) (top : ℤ) :
    things.foldl (fun (placed, offset) (id, size) ↦
        (placed ++ [(id, offset - room size)], offset - room size)) (placed, top) =
      (placed ++ below room top things, bottom room top things) := by
  induction things generalizing placed top with
  | nil => simp [below, bottom]
  | cons thing things ih =>
    obtain ⟨id, size⟩ := thing
    rw [foldl_cons, ih, below, append_assoc]
    rfl

end Banjo.Stacking
