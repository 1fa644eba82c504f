import Mathlib.Data.List.Forall2

/-!
# Loops over lists that may fail

A fold is followed by the list of what is done so far, and a map in `Option` by the relation between
what goes in and what comes out.
-/

open List Option

namespace Banjo.OptionLists

/-! ## Folds -/

section Fold

variable {α β : Type*} {P : List α → β → Prop}

/-- What holds of what is done, and goes on to hold with each further element, holds at the end. -/
theorem foldl_done {f : β → α → β} (hstep : ∀ done a b, P done b → P (done ++ [a]) (f b a)) :
    ∀ (l done : List α) (b : β), P done b → P (done ++ l) (l.foldl f b) := by
  intro l
  induction l with
  | nil =>
    intro done b h
    rwa [append_nil]
  | cons a rest ih =>
    intro done b h
    rw [foldl_cons, append_cons]
    exact ih _ _ (hstep done a b h)

theorem foldlM_done {f : β → α → Option β}
    (hstep : ∀ done a b b', P done b → f b a = some b' → P (done ++ [a]) b') :
    ∀ (l done : List α) (b b' : β), P done b → l.foldlM f b = some b' → P (done ++ l) b' := by
  intro l
  induction l with
  | nil =>
    intro done b b' h hrun
    obtain rfl := some.inj hrun
    rwa [append_nil]
  | cons a rest ih =>
    intro done b b' h hrun
    rw [foldlM_cons] at hrun
    obtain ⟨next, hnext, hrest⟩ := bind_eq_some_iff.mp hrun
    rw [append_cons]
    exact ih _ _ _ (hstep done a b next h hnext) hrest

end Fold

/-! ## Maps -/

section Map

variable {α β : Type} {f : α → Option β}

theorem mapM_eq_some {g : α → β} : ∀ {l : List α}, (∀ a ∈ l, f a = some (g a)) →
    l.mapM f = some (l.map g) := by
  intro l
  induction l with
  | nil => exact fun _ ↦ rfl
  | cons a rest ih =>
    intro h
    rw [mapM_cons, h a mem_cons_self, ih fun b hb ↦ h b (mem_cons_of_mem _ hb)]
    rfl

/-- What is found for each element on its own is found for all of them. -/
theorem exists_mapM {P : α → β → Prop} : ∀ {l : List α},
    (∀ a ∈ l, ∃ b, f a = some b ∧ P a b) → ∃ bs, l.mapM f = some bs ∧ List.Forall₂ P l bs := by
  intro l
  induction l with
  | nil => exact fun _ ↦ ⟨[], rfl, .nil⟩
  | cons a rest ih =>
    intro h
    obtain ⟨b, hb, hP⟩ := h a mem_cons_self
    obtain ⟨bs, hbs, hrest⟩ := ih fun c hc ↦ h c (mem_cons_of_mem _ hc)
    refine ⟨b :: bs, ?_, .cons hP hrest⟩
    rw [mapM_cons, hb, hbs]
    rfl

theorem forall₂_of_mapM : ∀ {l : List α} {bs : List β}, l.mapM f = some bs →
    List.Forall₂ (fun a b ↦ f a = some b) l bs := by
  intro l
  induction l with
  | nil =>
    intro bs h
    obtain rfl := some.inj h
    exact .nil
  | cons a rest ih =>
    intro bs h
    rw [mapM_cons] at h
    obtain ⟨b, hb, h⟩ := bind_eq_some_iff.mp h
    obtain ⟨bs', hbs', h⟩ := bind_eq_some_iff.mp h
    obtain rfl := some.inj h
    exact .cons hb (ih hbs')

/-- The search among what is decided for each element on its own. -/
theorem exists_anyM {f : α → Option Bool} {P : α → Prop} : ∀ {l : List α},
    (∀ a ∈ l, ∃ r, f a = some r ∧ (r = true ↔ P a)) →
    ∃ r, l.anyM f = some r ∧ (r = true ↔ ∃ a ∈ l, P a) := by
  intro l
  induction l with
  | nil => exact fun _ ↦ ⟨false, rfl, by simp⟩
  | cons a rest ih =>
    intro h
    obtain ⟨r, hr, hP⟩ := h a mem_cons_self
    obtain ⟨r', hr', hrest⟩ := ih fun b hb ↦ h b (mem_cons_of_mem _ hb)
    rw [exists_mem_cons_iff, ← hP, ← hrest]
    cases r with
    | true => exact ⟨true, by rw [anyM_cons, hr]; rfl, by simp⟩
    | false => exact ⟨r', by rw [anyM_cons, hr, ← hr']; rfl, by simp⟩

end Map

theorem forall₂_getElem? {α β : Type*} {R : α → β → Prop} {l : List α} {bs : List β}
    (h : List.Forall₂ R l bs) {i : ℕ} {a : α} (hi : l[i]? = some a) :
    ∃ b, bs[i]? = some b ∧ R a b := by
  obtain ⟨hlt, rfl⟩ := List.getElem?_eq_some_iff.mp hi
  have hlt' : i < bs.length := h.length_eq ▸ hlt
  exact ⟨bs[i], List.getElem?_eq_getElem hlt', h.get hlt hlt'⟩

theorem mem_flatten_of_forall₂ {α β : Type*} {P : α → List β → Prop} {Q : α → β → Prop} {l : List α}
    {bs : List (List β)} (h : List.Forall₂ P l bs) (hiff : ∀ {a bs}, P a bs → ∀ b, b ∈ bs ↔ Q a b)
    (b : β) : b ∈ bs.flatten ↔ ∃ a ∈ l, Q a b := by
  induction h with
  | nil => simp
  | cons hP _ ih => rw [flatten_cons, mem_append, ih, hiff hP, exists_mem_cons_iff]

end Banjo.OptionLists
