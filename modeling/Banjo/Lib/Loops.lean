import Mathlib.Algebra.GroupWithZero.Nat
import Mathlib.Logic.Relation
import Mathlib.Data.Sum.Basic
import Mathlib.Tactic.Common

/-!
# Transition systems

Runs of a step relation: what every step preserves holds all along a run, and a relation between
two systems that every step of the first respects carries whatever the first can emit over to the
second. Nothing here asks the steps to be matched one for one, so a simulation says nothing about
progress; two systems emit the same events once each simulates the other.
-/

namespace Banjo.Transition

open Relation

variable {S T E : Type*}

variable {s t : S} {step : S → S → Prop}

/-- **The invariant rule.** What every step preserves holds in every state of a run. -/
theorem invariant_of_step {I : S → Prop} (hstep : ∀ s t, I s → step s t → I t) (hs : I s)
    (hrun : ReflTransGen step s t) : I t := by
  induction hrun with
  | refl => exact hs
  | tail _ hlast ih => exact hstep _ _ ih hlast

/-- An event some state of a run shows. -/
def Emits (step : S → S → Prop) (shows : S → E → Prop) (s : S) (e : E) : Prop :=
  ∃ t, ReflTransGen step s t ∧ shows t e

theorem Emits.of_run {shows : S → E → Prop} {e : E}
    (hrun : ReflTransGen step s t) (h : Emits step shows t e) : Emits step shows s e := by
  obtain ⟨u, htail, hu⟩ := h
  exact ⟨u, hrun.trans htail, hu⟩

section Simulation

variable {step : S → S → Prop} {shows : S → E → Prop} {step' : T → T → Prop}
  {shows' : T → E → Prop} {R : S → T → Prop}

variable {s : S} {t : T}

/-- A run of the first system is followed by a run of the second. -/
theorem run_of_simulation
    (hstep : ∀ s s' t, R s t → step s s' → ∃ t', ReflTransGen step' t t' ∧ R s' t') {s' : S}
    (hR : R s t) (hrun : ReflTransGen step s s') : ∃ t', ReflTransGen step' t t' ∧ R s' t' := by
  induction hrun with
  | refl => exact ⟨t, .refl, hR⟩
  | tail _ hlast ih =>
    obtain ⟨t', hrun', hR'⟩ := ih
    obtain ⟨t'', hmore, hR''⟩ := hstep _ _ _ hR' hlast
    exact ⟨t'', hrun'.trans hmore, hR''⟩

/-- **The simulation rule.** Whatever the first system emits, the second emits. -/
theorem emits_of_simulation
    (hstep : ∀ s s' t, R s t → step s s' → ∃ t', ReflTransGen step' t t' ∧ R s' t')
    (hshows : ∀ s t e, R s t → shows s e → Emits step' shows' t e) {e : E} (hR : R s t)
    (h : Emits step shows s e) : Emits step' shows' t e := by
  obtain ⟨s', hrun, hs'⟩ := h
  obtain ⟨t', hrun', hR'⟩ := run_of_simulation hstep hR hrun
  exact (hshows s' t' e hR' hs').of_run hrun'

end Simulation

end Banjo.Transition

/-!
## Loops

A loop as the function of one turn: from a state, either the state the next turn starts from or the
result the loop is left with. What the turns preserve holds at the end of a run, and a loop whose
turns keep within a set of states from which none leaves has no end.
-/

namespace Banjo.Loops

variable {σ ρ : Type*} {turn : σ → σ ⊕ ρ} {s t : σ} {r : ρ}

/-- The result after at most so many turns. -/
def run (turn : σ → σ ⊕ ρ) : ℕ → σ → Option ρ
  | 0, _ => none
  | n + 1, s =>
    match turn s with
    | .inl t => run turn n t
    | .inr r => some r

/-- The loop ends, and `r` is what it is left with. -/
def Ends (turn : σ → σ ⊕ ρ) (s : σ) (r : ρ) : Prop := ∃ n, run turn n s = some r

theorem ends_of_inr (h : turn s = .inr r) : Ends turn s r := ⟨1, by simp [run, h]⟩

variable {r' : ρ}

theorem ends_iff_of_inr (h : turn s = .inr r) : Ends turn s r' ↔ r' = r := by
  constructor
  · rintro ⟨n, hn⟩
    cases n with
    | zero => simp [run] at hn
    | succ n => simpa [run, h, eq_comm] using hn
  · rintro rfl
    exact ends_of_inr h

theorem ends_iff_of_inl (h : turn s = .inl t) : Ends turn s r ↔ Ends turn t r := by
  constructor
  · rintro ⟨n, hn⟩
    cases n with
    | zero => simp [run] at hn
    | succ n => exact ⟨n, by simpa [run, h] using hn⟩
  · rintro ⟨n, hn⟩
    exact ⟨n + 1, by simpa [run, h] using hn⟩

variable {n : ℕ}

/-- A stretch of turns known one by one. -/
theorem ends_iff_of_walk {f : ℕ → σ} (h : ∀ k < n, turn (f k) = .inl (f (k + 1))) :
    Ends turn (f 0) r ↔ Ends turn (f n) r := by
  induction n with
  | zero => rfl
  | succ n ih =>
    rw [ih fun k hk ↦ h k (by omega), ends_iff_of_inl (h n (by omega))]

variable {I : σ → Prop}

/-- **The invariant rule.** -/
theorem Ends.of_invariant {Q : ρ → Prop}
    (hr : Ends turn s r) (hturn : ∀ s t, I s → turn s = .inl t → I t)
    (hleave : ∀ s r, I s → turn s = .inr r → Q r) (hs : I s) : Q r := by
  obtain ⟨n, hn⟩ := hr
  induction n generalizing s with
  | zero => simp [run] at hn
  | succ n ih =>
    cases h : turn s with
    | inl t => exact ih (hturn s t hs h) (by simpa [run, h] using hn)
    | inr r' =>
      obtain rfl : r' = r := by simpa [run, h] using hn
      exact hleave s r' hs h

theorem Ends.unique (h : Ends turn s r) (h' : Ends turn s r') : r = r' := by
  refine h.of_invariant (I := fun s ↦ Ends turn s r') (Q := fun r ↦ r = r')
    (fun s t hs hst ↦ ?_) (fun s r hs hsr ↦ ?_) h'
  · exact (ends_iff_of_inl hst).mp hs
  · exact ((ends_iff_of_inr hsr).mp hs).symm

/-- A set of states no turn leaves holds the loop for ever. -/
theorem not_ends_of_closed (hturn : ∀ s, I s → ∃ t, turn s = .inl t ∧ I t)
    (hs : I s) : ¬Ends turn s r := by
  intro h
  refine h.of_invariant (Q := fun _ ↦ False) (fun s t hs hst ↦ ?_) (fun s r hs hsr ↦ ?_) hs
  · obtain ⟨u, hu, hI⟩ := hturn s hs
    obtain rfl : t = u := Sum.inl_injective (hst.symm.trans hu)
    exact hI
  · obtain ⟨u, hu, -⟩ := hturn s hs
    simp [hu] at hsr

/-! ## Counters of 32 bits -/

/-- The index behind an index, in 32 bits. -/
def next (i : ℕ) : ℕ := (i + 1) % 2 ^ 32

theorem next_lt (i : ℕ) : next i < 2 ^ 32 := Nat.mod_lt _ (by decide)

theorem next_eq {i : ℕ} (h : i + 1 < 2 ^ 32) : next i = i + 1 := Nat.mod_eq_of_lt h

end Banjo.Loops
