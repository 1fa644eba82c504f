import Banjo.Source.ModulePath

/-!
# Common ancestors of module paths

`num_common_ancestors` walks both texts up to the end of the shorter one. It counts a name at the
dot behind it, and at the end of the shorter text, where the longer one may go on with the name: the
count is the length of the longest common prefix, and one more where a path ends inside a name of
the other. This is the one operation that departs from the lists while the text is short enough for
an `unsigned`.
-/

open List

namespace Banjo.ModulePath

open Loops

/-! ## Common prefixes of lists -/

section CommonPrefix

variable {α : Type*} [DecidableEq α]

/-- The length of the longest common prefix. -/
def commonPrefixLength : List α → List α → ℕ
  | x :: a, y :: b => if x = y then commonPrefixLength a b + 1 else 0
  | _, _ => 0

end CommonPrefix

/-- The first path ends inside a name of the second, after the same names. -/
def EndsInside (a b : List Name) : Prop :=
  ∃ same x y rest, a = same ++ [x] ∧ b = same ++ y :: rest ∧ x ≠ y ∧ x.text <+: y.text

theorem not_endsInside_nil_left (b : List Name) : ¬EndsInside [] b := by
  rintro ⟨same, x, y, rest, ha, -⟩
  simp at ha

theorem not_endsInside_nil_right (a : List Name) : ¬EndsInside a [] := by
  rintro ⟨same, x, y, rest, -, hb, -⟩
  simp at hb

theorem endsInside_cons_self {x : Name} {a b : List Name} :
    EndsInside (x :: a) (x :: b) ↔ EndsInside a b := by
  constructor
  · rintro ⟨same, y, z, rest, ha, hb, h⟩
    cases same with
    | nil =>
      simp only [nil_append, cons.injEq] at ha hb
      exact absurd (ha.1.symm.trans hb.1) h.1
    | cons w same =>
      simp only [cons_append, cons.injEq] at ha hb
      exact ⟨same, y, z, rest, ha.2, hb.2, h⟩
  · rintro ⟨same, y, z, rest, rfl, rfl, h⟩
    exact ⟨x :: same, y, z, rest, rfl, rfl, h⟩

theorem endsInside_cons_of_ne {x y : Name} {a b : List Name} (hxy : x ≠ y) :
    EndsInside (x :: a) (y :: b) ↔ a = [] ∧ x.text <+: y.text := by
  constructor
  · rintro ⟨same, z, w, rest, ha, hb, h⟩
    cases same with
    | nil =>
      simp only [nil_append, cons.injEq] at ha hb
      obtain ⟨rfl, rfl⟩ := ha
      obtain ⟨rfl, -⟩ := hb
      exact ⟨rfl, h.2⟩
    | cons v same =>
      simp only [cons_append, cons.injEq] at ha hb
      exact absurd (ha.1.trans hb.1.symm) hxy
  · rintro ⟨rfl, h⟩
    exact ⟨[], x, y, b, rfl, rfl, hxy, h⟩

/-! ## The walk over both texts -/

/-- What the walk counts, without its index. -/
def countShared : List (Char × Char) → ℕ
  | [] => 0
  | (c, d) :: rest =>
    if c ≠ d then 0 else (if c = '.' ∨ rest = [] then 1 else 0) + countShared rest

theorem scanAncestors_eq {stop : ℕ} (pairs : List (Char × Char)) (i depth : ℕ)
    (hstop : i + pairs.length = stop) :
    scanAncestors stop pairs i depth = depth + countShared pairs := by
  induction pairs generalizing i depth with
  | nil => rfl
  | cons pair rest ih =>
    obtain ⟨c, d⟩ := pair
    rw [length_cons] at hstop
    -- the index is the last one where no pair is left
    have hlast : i = stop - 1 ↔ rest = [] := by
      rw [← length_eq_zero_iff]
      omega
    rw [scanAncestors, countShared]
    by_cases hcd : c = d
    · have hnot : ¬c ≠ d := not_not.mpr hcd
      rw [if_neg hnot, if_neg hnot, ih _ _ (by omega)]
      simp only [hlast]
      split_ifs <;> omega
    · rw [if_pos hcd, if_pos hcd, Nat.add_zero]

theorem countShared_zip_comm (u v : List Char) : countShared (u.zip v) = countShared (v.zip u) := by
  induction u generalizing v with
  | nil => simp
  | cons c u ih =>
    cases v with
    | nil => rfl
    | cons d v =>
      have hnil : u.zip v = [] ↔ v.zip u = [] := by
        rw [zip_eq_nil_iff, zip_eq_nil_iff, or_comm]
      by_cases hcd : c = d
      · subst hcd
        simp [countShared, ih v, hnil]
      · simp [countShared, hcd, Ne.symm hcd]

/-- The same text before both: counted where the walk ends with it. -/
theorem countShared_same {p : List Char} (hdot : '.' ∉ p) (hp : p ≠ []) (u v : List Char) :
    countShared ((p ++ u).zip (p ++ v))
      = if u.zip v = [] then 1 else countShared (u.zip v) := by
  induction p with
  | nil => exact absurd rfl hp
  | cons c p ih =>
    have hc : c ≠ '.' := fun h ↦ hdot (h ▸ mem_cons_self)
    have hstep : countShared ((c :: p ++ u).zip (c :: p ++ v))
        = (if (p ++ u).zip (p ++ v) = [] then 1 else 0)
          + countShared ((p ++ u).zip (p ++ v)) := by
      simp [countShared, hc]
    rw [hstep]
    by_cases hnil : p = []
    · subst hnil
      by_cases huv : u.zip v = []
      · simp [huv, countShared]
      · simp [huv]
    · have hne : (p ++ u).zip (p ++ v) ≠ [] := by simp [hnil]
      rw [if_neg hne, Nat.zero_add, ih (fun h ↦ hdot (mem_cons_of_mem c h)) hnil]

/-- Two texts that part: one goes on where the other ends, or they differ. -/
theorem prefix_or_prefix_or_differ (u v : List Char) :
    u <+: v ∨ v <+: u ∨ ∃ p c d u' v', u = p ++ c :: u' ∧ v = p ++ d :: v' ∧ c ≠ d := by
  induction u generalizing v with
  | nil => exact .inl nil_prefix
  | cons c u ih =>
    cases v with
    | nil => exact .inr (.inl nil_prefix)
    | cons d v =>
      by_cases hcd : c = d
      · subst hcd
        rcases ih v with h | h | ⟨p, c', d', u', v', rfl, rfl, h⟩
        · exact .inl ((prefix_cons_inj c).mpr h)
        · exact .inr (.inl ((prefix_cons_inj c).mpr h))
        · exact .inr (.inr ⟨c :: p, c', d', u', v', rfl, rfl, h⟩)
      · exact .inr (.inr ⟨[], c, d, u, v, rfl, rfl, hcd⟩)

theorem countShared_of_starts {x y : Name} (hxy : x ≠ y) (h : x.text <+: y.text) (a b : List Name) :
    countShared ((x.text ++ tail a).zip (y.text ++ tail b)) = if a = [] then 1 else 0 := by
  obtain ⟨w, hw⟩ := h
  cases w with
  | nil => exact absurd (Name.ext (by simpa using hw)) hxy
  | cons c w =>
    have hc : '.' ≠ c := fun h ↦ y.no_dot (by simp [← hw, ← h])
    rw [← hw, append_assoc, countShared_same x.no_dot x.ne_nil]
    cases a with
    | nil => simp
    | cons z a => simp [tail_cons, countShared, hc]

theorem countShared_of_differ {p u v : List Char} {c d : Char} (hdot : '.' ∉ p) (hcd : c ≠ d) :
    countShared ((p ++ c :: u).zip (p ++ d :: v)) = 0 := by
  by_cases hp : p = []
  · simp [hp, countShared, hcd]
  · rw [countShared_same hdot hp]
    simp [countShared, hcd]

open scoped Classical in
theorem countShared_dotted (a b : List Name) :
    countShared ((dotted a).zip (dotted b))
      = commonPrefixLength a b + if EndsInside a b ∨ EndsInside b a then 1 else 0 := by
  induction a generalizing b with
  | nil => simp [dotted, countShared, commonPrefixLength, not_endsInside_nil_left,
      not_endsInside_nil_right]
  | cons x a ih =>
    cases b with
    | nil => simp [dotted, countShared, commonPrefixLength, not_endsInside_nil_left,
        not_endsInside_nil_right]
    | cons y b =>
      by_cases hxy : x = y
      · subst hxy
        rw [dotted, dotted, countShared_same x.no_dot x.ne_nil, commonPrefixLength, if_pos rfl,
          endsInside_cons_self, endsInside_cons_self]
        cases a with
        | nil => simp [commonPrefixLength, not_endsInside_nil_left, not_endsInside_nil_right]
        | cons z a =>
          cases b with
          | nil => simp [commonPrefixLength, not_endsInside_nil_left, not_endsInside_nil_right]
          | cons w b =>
            have hdot : countShared ((tail (z :: a)).zip (tail (w :: b)))
                = 1 + countShared ((dotted (z :: a)).zip (dotted (w :: b))) := by
              simp [tail_cons, countShared]
            rw [if_neg (by simp [tail_cons]), hdot, ih]
            omega
      · rw [dotted, dotted, commonPrefixLength, if_neg hxy, Nat.zero_add,
          endsInside_cons_of_ne hxy, endsInside_cons_of_ne (Ne.symm hxy)]
        rcases prefix_or_prefix_or_differ x.text y.text with h | h | ⟨p, c, d, u, v, hx, hy, hcd⟩
        · have hnot : ¬y.text <+: x.text := fun h' ↦ hxy (Name.ext (h.eq_of_length_le h'.length_le))
          simp [countShared_of_starts hxy h, h, hnot]
        · have hnot : ¬x.text <+: y.text := fun h' ↦ hxy (Name.ext (h'.eq_of_length_le h.length_le))
          rw [countShared_zip_comm]
          simp [countShared_of_starts (Ne.symm hxy) h, h, hnot]
        · have hp : '.' ∉ p := fun h ↦ x.no_dot (by simp [hx, h])
          have hxy' : ¬x.text <+: y.text := by simp [hx, hy, hcd]
          have hyx' : ¬y.text <+: x.text := by simp [hx, hy, Ne.symm hcd]
          rw [hx, hy, append_assoc, append_assoc, cons_append, cons_append,
            countShared_of_differ hp hcd, ← hx, ← hy]
          simp [hxy', hyx']

open scoped Classical in
/-- `num_common_ancestors` on paths built from names. -/
theorem numCommonAncestors_ofNames {a : List Name} (b : List Name)
    (hlen : (dotted a).length < 2 ^ 32) :
    (ofNames a).numCommonAncestors (ofNames b)
      = commonPrefixLength a b + if EndsInside a b ∨ EndsInside b a then 1 else 0 := by
  have hstop : min (dotted a).length (dotted b).length % 2 ^ 32
      = ((dotted a).zip (dotted b)).length := by
    rw [length_zip]
    exact Nat.mod_eq_of_lt (lt_of_le_of_lt (Nat.min_le_left _ _) hlen)
  rw [ofNames_eq, ofNames_eq, numCommonAncestors]
  simp only [hstop, take_length]
  rw [scanAncestors_eq _ 0 0 (Nat.zero_add _), countShared_dotted, Nat.zero_add]

/-! ## A path is the list of its names -/

/-- What a list of names asks of the path built from it, and of the comparisons with the path built
from another. -/
structure BehavesAsList (a b : List Name) : Prop where
  append : ∀ x : Name, (ofNames a).append x.text = ofNames (a ++ [x])
  size : (ofNames a).getSize = a.length
  empty : (ofNames a).isEmpty = a.isEmpty
  index : ∀ (k : ℕ) (hk : k < a.length), Index (ofNames a) k a[k].text
  iteration : Iterates (ofNames a).value 0 (a.map Name.text)
  parent : (ofNames a).parent = if a.length ≤ 1 then none else some (ofNames a.dropLast)
  name : (ofNames a).name = (a.getLast?.map Name.text).getD []
  strip : ∀ count < 2 ^ 32, Strip (ofNames a) count (ofNames (a.drop count))
  equality : ofNames a = ofNames b ↔ a = b
  ancestors : (ofNames a).numCommonAncestors (ofNames b) = commonPrefixLength a b

/-- **A path is the list of its names, but for names that start another.** -/
theorem behavesAsList_iff (a b : List Name) :
    BehavesAsList a b ↔ (dotted a).length < 2 ^ 32 ∧ ¬EndsInside a b ∧ ¬EndsInside b a := by
  classical
  constructor
  · intro h
    have hlen : (dotted a).length < 2 ^ 32 := by
      by_contra hlong
      -- the size is below `2 ^ 32`, so that stripping all names is a call that never comes back
      have hcount : a.length < 2 ^ 32 := h.size ▸ getSize_lt _
      have hstrip := h.strip a.length hcount
      rw [List.drop_length] at hstrip
      exact not_strip_empty_of_long (by rw [ofNames_eq]; exact not_lt.mp hlong) _ hstrip
    have hancestors := (numCommonAncestors_ofNames b hlen).symm.trans h.ancestors
    refine ⟨hlen, fun hends ↦ ?_, fun hends ↦ ?_⟩
    · simp [hends] at hancestors
    · simp [hends] at hancestors
  · rintro ⟨hlen, hab, hba⟩
    have hcount : a.length < 2 ^ 32 := (length_le_length_dotted a).trans_lt hlen
    exact
      { append := fun x ↦ by rw [ofNames_eq, ofNames_eq, append_dotted]
        size := getSize_ofNames a hcount
        empty := by
          rw [ofNames_eq, isEmpty, Bool.eq_iff_iff, List.isEmpty_iff, List.isEmpty_iff,
            dotted_eq_nil]
        index := fun k hk ↦ index_ofNames hlen hk
        iteration := by
          rw [ofNames_eq]
          exact iterates_ofNames hlen a [] rfl
        parent := parent_ofNames a
        name := name_ofNames a
        strip := fun count _ ↦ strip_ofNames hlen count
        equality := by
          rw [ofNames_eq, ofNames_eq, mk.injEq]
          exact dotted_injective.eq_iff
        ancestors := by simp [numCommonAncestors_ofNames b hlen, hab, hba] }

/-- A name that starts another counts as an ancestor: `a` and `ab` have none in common. -/
theorem not_behavesAsList :
    ¬BehavesAsList [⟨['a'], by decide, by decide⟩] [⟨['a', 'b'], by decide, by decide⟩] := by
  intro h
  exact absurd h.ancestors (by decide)

end Banjo.ModulePath
