import Mathlib.Data.Set.Card

/-!
# Finite maps

The finite map that a list of entries builds, in which a later entry of a key replaces an earlier
one. Its size is the number of keys. A list can be read from its front, as an association list is,
exactly as long as no key comes twice; then its length is the size as well.
-/

open List

namespace Banjo.FiniteMap

open scoped Classical

variable {κ V : Type*}

/-- The entries of the list, one after the other. -/
noncomputable def ofEntries (l : List (κ × V)) : κ → Option V :=
  l.foldl (fun m e ↦ Function.update m e.1 (some e.2)) fun _ ↦ none

/-- The number of keys. -/
noncomputable def size (m : κ → Option V) : ℕ := {k | (m k).isSome}.ncard

variable (l : List (κ × V))

theorem ofEntries_concat (e : κ × V) :
    ofEntries (l ++ [e]) = Function.update (ofEntries l) e.1 (some e.2) := by
  rw [ofEntries, foldl_append]
  rfl

theorem isSome_ofEntries (k : κ) : (ofEntries l k).isSome ↔ k ∈ l.map Prod.fst := by
  induction l using reverseRecOn with
  | nil => simp [ofEntries]
  | append_singleton l e ih =>
    rw [ofEntries_concat, map_append, mem_append, ← ih]
    by_cases h : k = e.1
    · simp [h]
    · simp [h]

theorem size_ofEntries : size (ofEntries l) = (l.map Prod.fst).toFinset.card := by
  rw [size, ← Set.ncard_coe_finset]
  congr 1
  ext k
  rw [Set.mem_ofPred_eq, isSome_ofEntries, Finset.mem_coe, mem_toFinset]

/-- As many keys as entries. -/
theorem size_eq_length_iff : size (ofEntries l) = l.length ↔ (l.map Prod.fst).Nodup := by
  rw [size_ofEntries, ← length_map Prod.fst]
  exact Multiset.toFinset_card_eq_card_iff_nodup

/-- The first entry of a key is the last one. The keys may be read off others, as classes are. -/
theorem ofEntries_map_of_nodup {K : Type*} {f : K → κ} {l : List (K × V)}
    (h : (l.map fun e ↦ f e.1).Nodup) {k : κ} {p : K × V → Bool}
    (hp : ∀ e, p e = true ↔ f e.1 = k) :
    ofEntries (l.map fun e ↦ (f e.1, e.2)) k = (l.find? p).map Prod.snd := by
  induction l using reverseRecOn with
  | nil => rfl
  | append_singleton l e ih =>
    rw [map_append, nodup_append'] at h
    obtain ⟨hl, -, hdisjoint⟩ := h
    rw [map_append, map_singleton, ofEntries_concat, find?_append]
    by_cases hk : f e.1 = k
    · have hnone : l.find? p = none := by
        rw [find?_eq_none]
        intro e' he' heq
        apply hdisjoint (mem_map_of_mem he')
        rw [(hp e').mp heq, ← hk]
        exact mem_singleton.mpr rfl
      rw [← hk, Function.update_self, hnone, Option.none_or, find?_cons_of_pos ((hp e).mpr hk)]
      rfl
    · rw [Function.update_of_ne (Ne.symm hk), ih hl,
        find?_cons_of_neg (fun heq ↦ hk ((hp e).mp heq)), find?_nil, Option.or_none]

end Banjo.FiniteMap
