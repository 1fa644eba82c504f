import Mathlib.Algebra.Order.BigOperators.Group.Finset

/-!
# Argument passing

How a calling convention places arguments, from the classes of the arguments before each of them:
either every class has its registers, taken in turn, and an argument that finds none gets the next
word on the stack, or every position has one register for each class and one word on the stack. No
two arguments share a place in either.
-/

open List

namespace Banjo.ArgumentPassing

variable {C ρ : Type*} {before rest classes : List C} {c d : C}

/-- A place of an argument: a register, or so many bytes into the arguments on the stack. -/
inductive Place (ρ : Type*) where
  | reg (reg : ρ)
  | stack (offset : ℕ)
  deriving DecidableEq

/-- The places of arguments, each from the classes before it and its own. -/
def placesFrom (place : List C → C → Place ρ) (before : List C) : List C → List (Place ρ)
  | [] => []
  | c :: rest => place before c :: placesFrom place (before ++ [c]) rest

def places (place : List C → C → Place ρ) (classes : List C) : List (Place ρ) :=
  placesFrom place [] classes

variable {place : List C → C → Place ρ}

theorem mem_placesFrom {p : Place ρ} :
    p ∈ placesFrom place before classes
      ↔ ∃ front c back, classes = front ++ c :: back ∧ p = place (before ++ front) c := by
  induction classes generalizing before with
  | nil => simp [placesFrom]
  | cons c rest ih =>
    rw [placesFrom, mem_cons, ih]
    constructor
    · rintro (rfl | ⟨front, d, back, rfl, rfl⟩)
      · exact ⟨[], c, rest, rfl, by simp⟩
      · exact ⟨c :: front, d, back, rfl, by simp⟩
    · rintro ⟨front, d, back, heq, rfl⟩
      cases front with
      | nil =>
        obtain ⟨rfl, rfl⟩ := cons.inj heq
        exact .inl (by simp)
      | cons e front =>
        obtain ⟨rfl, rfl⟩ := cons.inj heq
        exact .inr ⟨front, d, back, rfl, by simp⟩

/-- What holds of any argument and a later one holds throughout. -/
theorem pairwise_placesFrom {R : Place ρ → Place ρ → Prop}
    (h : ∀ front c between d, R (place front c) (place (front ++ c :: between) d)) :
    (placesFrom place before classes).Pairwise R := by
  induction classes generalizing before with
  | nil => exact .nil
  | cons c rest ih =>
    refine .cons (fun p hp ↦ ?_) ih
    obtain ⟨front, d, back, rfl, rfl⟩ := mem_placesFrom.mp hp
    simpa using h before c front d

theorem map_placesFrom (g : Place ρ → Place ρ) (place : List C → C → Place ρ) :
    (placesFrom place before classes).map g
      = placesFrom (fun before c ↦ g (place before c)) before classes := by
  induction classes generalizing before with
  | nil => rfl
  | cons c rest ih => rw [placesFrom, placesFrom, map_cons, ih]

variable {place' : List C → C → Place ρ}

theorem placesFrom_congr
    (h : ∀ front c back, classes = front ++ c :: back →
      place (before ++ front) c = place' (before ++ front) c) :
    placesFrom place before classes = placesFrom place' before classes := by
  induction classes generalizing before with
  | nil => rfl
  | cons c rest ih =>
    have hrest : ∀ front d back, rest = front ++ d :: back →
        place (before ++ [c] ++ front) d = place' (before ++ [c] ++ front) d := by
      rintro front d back rfl
      simpa using h (c :: front) d back rfl
    have hc := h [] c rest rfl
    rw [append_nil] at hc
    rw [placesFrom, placesFrom, hc, ih hrest]

theorem placesFrom_inj {front back : List C}
    (h : placesFrom place before (front ++ c :: back)
      = placesFrom place' before (front ++ c :: back)) :
    place (before ++ front) c = place' (before ++ front) c := by
  induction front generalizing before with
  | nil => simpa using (cons.inj h).1
  | cons d front ih =>
    have h := ih (cons.inj h).2
    simpa using h

/-! ## Registers for each class -/

section Classes

variable [DecidableEq C] [Fintype C] (regs : C → List ρ)

/-- How many arguments of a class have found no register. -/
def overflow (before : List C) (c : C) : ℕ := before.count c - (regs c).length

/-- How many arguments are on the stack. -/
def onStack (before : List C) : ℕ := ∑ c, overflow regs before c

/-- The next register of the class, or else the next word. -/
def byClass (before : List C) (c : C) : Place ρ :=
  match (regs c)[before.count c]? with
  | some reg => .reg reg
  | none => .stack (8 * onStack regs before)

variable {regs}

theorem byClass_of_lt (h : before.count c < (regs c).length) :
    byClass regs before c = .reg ((regs c)[before.count c]) := by
  rw [byClass, getElem?_eq_getElem h]

theorem byClass_of_le (h : (regs c).length ≤ before.count c) :
    byClass regs before c = .stack (8 * onStack regs before) := by
  rw [byClass, getElem?_eq_none h]

variable (regs) in
theorem onStack_le (before rest : List C) :
    onStack regs before ≤ onStack regs (before ++ rest) := by
  refine Finset.sum_le_sum fun d _ ↦ ?_
  rw [overflow, overflow, count_append]
  omega

/-- An argument on the stack takes a word. -/
theorem onStack_concat_of_le (h : (regs c).length ≤ before.count c) :
    onStack regs (before ++ [c]) = onStack regs before + 1 := by
  have hne : ∀ d ∈ Finset.univ.erase c, overflow regs (before ++ [c]) d =
    overflow regs before d := by
    intro d hd
    rw [overflow, overflow, count_append, count_singleton,
      if_neg (by simpa using (Finset.ne_of_mem_erase hd).symm), Nat.add_zero]
  have hc : overflow regs (before ++ [c]) c = overflow regs before c + 1 := by
    rw [overflow, overflow, count_append, count_singleton_self]
    omega
  rw [onStack, onStack, ← Finset.add_sum_erase _ _ (Finset.mem_univ c),
    ← Finset.add_sum_erase _ (overflow regs before) (Finset.mem_univ c), hc,
    Finset.sum_congr rfl hne]
  exact Nat.add_right_comm _ _ _

theorem onStack_concat_of_lt (h : before.count c < (regs c).length) :
    onStack regs (before ++ [c]) = onStack regs before := by
  refine Finset.sum_congr rfl fun d _ ↦ ?_
  rw [overflow, overflow, count_append, count_singleton]
  split_ifs with hcd
  · obtain rfl : c = d := by simpa using hcd
    omega
  · rfl

theorem onStack_nil : onStack regs ([] : List C) = 0 := by
  simp [onStack, overflow]

variable (regs) in
/-- Every word up to the last one is an argument's. -/
theorem exists_stack {k : ℕ} (h : k < onStack regs classes) :
    .stack (8 * k) ∈ places (byClass regs) classes := by
  induction classes using List.reverseRecOn with
  | nil => simp [onStack_nil] at h
  | append_singleton before c ih =>
    have hmem : ∀ p ∈ places (byClass regs) before, p ∈ places (byClass regs) (before ++ [c]) := by
      intro p hp
      obtain ⟨front, d, back, rfl, rfl⟩ := mem_placesFrom.mp hp
      exact mem_placesFrom.mpr ⟨front, d, back ++ [c], by simp, rfl⟩
    rcases Nat.lt_or_ge (before.count c) (regs c).length with hlt | hle
    · exact hmem _ (ih (onStack_concat_of_lt hlt ▸ h))
    · rw [onStack_concat_of_le hle] at h
      rcases Nat.lt_succ_iff_lt_or_eq.mp h with hk | rfl
      · exact hmem _ (ih hk)
      · exact mem_placesFrom.mpr ⟨before, c, [], rfl, (byClass_of_le hle).symm⟩

theorem lt_of_stack_mem {offset : ℕ} (h : .stack offset ∈ places (byClass regs) classes) :
    offset < 8 * onStack regs classes := by
  obtain ⟨front, c, back, rfl, hplace⟩ := mem_placesFrom.mp h
  rw [nil_append] at hplace
  rcases Nat.lt_or_ge (front.count c) (regs c).length with hlt | hle
  · rw [byClass_of_lt hlt] at hplace
    simp at hplace
  · rw [byClass_of_le hle] at hplace
    obtain rfl := Place.stack.inj hplace
    have hstep := onStack_concat_of_le hle
    have hmono := onStack_le regs (front ++ [c]) back
    rw [append_assoc, singleton_append] at hmono
    omega

variable (regs) in
/-- **No two arguments share a place.** -/
theorem nodup_byClass (hnodup : ∀ c, (regs c).Nodup)
    (hdisjoint : ∀ c d, c ≠ d → ∀ r ∈ regs c, r ∉ regs d) (classes : List C) :
    (places (byClass regs) classes).Nodup := by
  refine pairwise_placesFrom fun front c between d heq ↦ ?_
  rcases Nat.lt_or_ge (front.count c) (regs c).length with hc | hc <;>
    rcases Nat.lt_or_ge ((front ++ c :: between).count d) (regs d).length with hd | hd
  · rw [byClass_of_lt hc, byClass_of_lt hd] at heq
    have hreg := Place.reg.inj heq
    by_cases hcd : c = d
    · subst hcd
      have hcount := (hnodup c).getElem_inj_iff.mp hreg
      rw [count_append, count_cons_self] at hcount
      omega
    · exact hdisjoint c d hcd _ (getElem_mem hc) (hreg ▸ getElem_mem hd)
  · rw [byClass_of_lt hc, byClass_of_le hd] at heq
    simp at heq
  · rw [byClass_of_le hc, byClass_of_lt hd] at heq
    simp at heq
  · rw [byClass_of_le hc, byClass_of_le hd, Place.stack.injEq] at heq
    have hstep := onStack_concat_of_le hc
    have hmono := onStack_le regs (front ++ [c]) between
    rw [append_assoc, singleton_append] at hmono
    omega

end Classes

/-! ## A register and a word for each position -/

section Positions

variable (regs : C → List ρ)

/-- The register of the position for the class, or else the word of the position. -/
def byPosition (before : List C) (c : C) : Place ρ :=
  match (regs c)[before.length]? with
  | some reg => .reg reg
  | none => .stack (8 * before.length)

variable {regs}

theorem byPosition_of_lt (h : before.length < (regs c).length) :
    byPosition regs before c = .reg ((regs c)[before.length]) := by
  rw [byPosition, getElem?_eq_getElem h]

theorem byPosition_of_le (h : (regs c).length ≤ before.length) :
    byPosition regs before c = .stack (8 * before.length) := by
  rw [byPosition, getElem?_eq_none h]

variable (regs) in
/-- **No two arguments share a place.** -/
theorem nodup_byPosition (hnodup : ∀ c, (regs c).Nodup)
    (hdisjoint : ∀ c d, c ≠ d → ∀ r ∈ regs c, r ∉ regs d) (classes : List C) :
    (places (byPosition regs) classes).Nodup := by
  classical
  refine pairwise_placesFrom fun front c between d heq ↦ ?_
  rcases Nat.lt_or_ge front.length (regs c).length with hc | hc <;>
    rcases Nat.lt_or_ge (front ++ c :: between).length (regs d).length with hd | hd
  · rw [byPosition_of_lt hc, byPosition_of_lt hd] at heq
    have hreg := Place.reg.inj heq
    by_cases hcd : c = d
    · subst hcd
      have hcount := (hnodup c).getElem_inj_iff.mp hreg
      rw [length_append, length_cons] at hcount
      omega
    · exact hdisjoint c d hcd _ (getElem_mem hc) (hreg ▸ getElem_mem hd)
  · rw [byPosition_of_lt hc, byPosition_of_le hd] at heq
    simp at heq
  · rw [byPosition_of_le hc, byPosition_of_lt hd] at heq
    simp at heq
  · rw [byPosition_of_le hc, byPosition_of_le hd, Place.stack.injEq, length_append,
      length_cons] at heq
    omega

end Positions

end Banjo.ArgumentPassing
