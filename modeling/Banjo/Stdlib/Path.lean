import Mathlib.Data.BitVec

/-!
# Paths

A path is a text with slashes. `normalize` takes one slash off the end, whatever is in front of it.
`rfind` starts at `length - 1`, which for an empty path is the largest `usize`, and reading outside
of the text is `none`.
-/

open List Option

namespace Banjo.Stdlib

structure Path where
  path : List (BitVec 8)

namespace Path

/-! ## Code -/

/-- The `while` in `StringSlice.rfind`, whose condition holds for every `usize`. -/
def rfindFrom (text : List (BitVec 8)) (char : BitVec 8) : ℕ → Option (Option ℕ)
  | 0 => text[0]?.map fun c ↦ if c = char then some 0 else none
  | i + 1 => text[i + 1]?.bind fun c ↦
    if c = char then some (some (i + 1)) else rfindFrom text char i

/-- `StringSlice.rfind`; the length is subtracted from in 64 bits. -/
def rfind (text : List (BitVec 8)) (char : BitVec 8) : Option (Option ℕ) :=
  rfindFrom text char (if text.length = 0 then 2 ^ 64 - 1 else text.length - 1)

def substring (text : List (BitVec 8)) (start «end» : ℕ) : List (BitVec 8) :=
  (text.drop start).take («end» - start)

def normalize (self : Path) : Path :=
  let path := self.path.map fun c ↦ if c = 92#8 then 47#8 else c
  if path.length > 1 ∧ path[path.length - 1]? = some 47#8 then
    ⟨substring path 0 (path.length - 1)⟩
  else ⟨path⟩

/-- `from` with the bytes of its argument. -/
def «from» (value : List (BitVec 8)) : Path := normalize ⟨value⟩

def append (self : Path) (component : List (BitVec 8)) : Path :=
  ⟨self.path ++ [47#8] ++ component⟩

def fileName (self : Path) : Option (List (BitVec 8)) :=
  (rfind self.path 47#8).map fun
    | some lastSeparator => substring self.path (lastSeparator + 1) self.path.length
    | none => self.path

def parent (self : Path) : Option (Option Path) :=
  if self.path.length = 1 then some none
  else
    (rfind self.path 47#8).map fun
      | some lastSeparator => some («from» (substring self.path 0 (lastSeparator + 1)))
      | none => none

/-! ## What is asked of paths -/

/-- Forward slashes only, and none at the end of a longer path. -/
structure Normal (p : Path) : Prop where
  forward : (92#8) ∉ p.path
  trailing : p.path.getLast? = some 47#8 → p.path.length = 1

/-- The laws of paths, for a text that a path is made from or that is one. -/
structure Lawful (text : List (BitVec 8)) : Prop where
  normal : («from» text).Normal
  idempotent : («from» text).normalize = «from» text
  append : ∀ (p : Path) (c : List (BitVec 8)), p.Normal → p.path ≠ [] → p.path ≠ [47#8] → c ≠ [] →
    (47#8) ∉ c → (p.append c).fileName = some c ∧ (p.append c).parent = some (some p)
  inside : fileName ⟨text⟩ ≠ none ∧ parent ⟨text⟩ ≠ none

def IsSlash (c : BitVec 8) : Prop := c = 47#8 ∨ c = 92#8

/-- Two slashes at the end, and something in front of them. -/
def EndsTwice (text : List (BitVec 8)) : Prop :=
  ∃ start a b, start ≠ [] ∧ IsSlash a ∧ IsSlash b ∧ text = start ++ [a, b]

/-! ## Normalising -/

/-- The loop of `normalize`. -/
def slashes (text : List (BitVec 8)) : List (BitVec 8) :=
  text.map fun c ↦ if c = 92#8 then 47#8 else c

theorem slashes_eq_self {text : List (BitVec 8)} (h : (92#8) ∉ text) : slashes text = text := by
  refine (map_congr_left fun c hc ↦ if_neg ?_).trans (map_id text)
  rintro rfl
  exact h hc

variable (text : List (BitVec 8))

theorem not_mem_slashes : (92#8) ∉ slashes text := by
  intro hmem
  obtain ⟨c, -, hc⟩ := mem_map.mp hmem
  by_cases h : c = 92#8
  · rw [if_pos h] at hc
    exact absurd hc (by decide)
  · exact h (by rwa [if_neg h] at hc)

variable (start : List (BitVec 8))

theorem getLast?_slashes_iff (c : BitVec 8) :
    (slashes (start ++ [c])).getLast? = some 47#8 ↔ IsSlash c := by
  rw [slashes, map_append, map_singleton, getLast?_concat, some.injEq, IsSlash]
  by_cases h : c = 92#8 <;> simp [h]

theorem normalize_eq : normalize ⟨text⟩
    = if 1 < text.length ∧ (slashes text).getLast? = some 47#8 then ⟨(slashes text).dropLast⟩
      else ⟨slashes text⟩ := by
  have hlength : (slashes text).length = text.length := length_map _
  rw [normalize, getLast?_eq_getElem?, dropLast_eq_take, ← hlength]
  rfl

variable {p : Path}

/-- One slash is taken off the end. -/
theorem normalize_append_slash (hp : p.Normal) (hne : p.path ≠ []) :
    normalize ⟨p.path ++ [47#8]⟩ = p := by
  have hslashes : slashes (p.path ++ [47#8]) = p.path ++ [47#8] :=
    slashes_eq_self (by simp [hp.forward])
  have hlength : 0 < p.path.length := length_pos_of_ne_nil hne
  rw [normalize_eq, hslashes, if_pos ⟨by simpa using hlength, by simp⟩, dropLast_concat]

theorem normalize_of_normal (hp : p.Normal) : p.normalize = p := by
  rw [normalize_eq, slashes_eq_self hp.forward, if_neg]
  rintro ⟨hlength, hlast⟩
  exact absurd (hp.trailing hlast) (by omega)

theorem normal_slashes_iff (c : BitVec 8) :
    Normal ⟨slashes (start ++ [c])⟩ ↔ (IsSlash c → start = []) := by
  have hlength : (slashes (start ++ [c])).length = start.length + 1 := by simp [slashes]
  constructor
  · intro h hc
    have := h.trailing ((getLast?_slashes_iff start c).mpr hc)
    exact length_eq_zero_iff.mp (by simp only at this; omega)
  · refine fun h ↦ ⟨not_mem_slashes _, fun hlast ↦ ?_⟩
    rw [h ((getLast?_slashes_iff start c).mp hlast)] at hlength ⊢
    exact hlength

theorem normal_from_iff : («from» text).Normal ↔ ¬EndsTwice text := by
  rw [«from», normalize_eq]
  rcases eq_nil_or_concat text with rfl | ⟨front, b, rfl⟩
  · exact iff_of_true ⟨not_mem_nil, nofun⟩ (by rintro ⟨start, a, b, -, -, -, heq⟩; simp at heq)
  rw [concat_eq_append]
  have hlast : EndsTwice (front ++ [b]) ↔
      IsSlash b ∧ ∃ start a, start ≠ [] ∧ IsSlash a ∧ front = start ++ [a] := by
    constructor
    · rintro ⟨start, a, b', hne, ha, hb, heq⟩
      obtain ⟨rfl, hlast⟩ := append_inj' (heq.trans (append_cons start a [b'])) rfl
      obtain rfl := singleton_inj.mp hlast
      exact ⟨hb, start, a, hne, ha, rfl⟩
    · rintro ⟨hb, start, a, hne, ha, rfl⟩
      exact ⟨start, a, b, hne, ha, hb, by simp⟩
  have hslash := getLast?_slashes_iff front b
  rw [hlast]
  by_cases hb : IsSlash b
  · rcases eq_nil_or_concat front with rfl | ⟨start, a, rfl⟩
    · rw [if_neg (by simp), normal_slashes_iff]
      exact iff_of_true (fun _ ↦ rfl) (by rintro ⟨-, start, a, -, -, heq⟩; simp at heq)
    · rw [concat_eq_append] at hslash ⊢
      have hdrop : (slashes (start ++ [a] ++ [b])).dropLast = slashes (start ++ [a]) := by
        rw [slashes, map_append, map_singleton, dropLast_concat, slashes]
      rw [if_pos ⟨by simp, hslash.mpr hb⟩, hdrop, normal_slashes_iff]
      constructor
      · rintro h ⟨-, start', a', hne, ha, heq⟩
        obtain ⟨rfl, hlast⟩ := append_inj' heq rfl
        obtain rfl := singleton_inj.mp hlast
        exact hne (h ha)
      · exact fun h ha ↦ by_contra fun hne ↦ h ⟨hb, start, a, hne, ha, rfl⟩
  · rw [if_neg fun h ↦ hb (hslash.mp h.2), normal_slashes_iff]
    exact iff_of_true (fun h ↦ absurd h hb) fun h ↦ hb h.1

/-! ## The last slash -/

theorem rfindFrom_ne_none {text : List (BitVec 8)} {i : ℕ} (hi : i < text.length)
    (char : BitVec 8) : rfindFrom text char i ≠ none := by
  induction i with
  | zero => simp [rfindFrom, hi]
  | succ i ih =>
    rw [rfindFrom, getElem?_eq_getElem hi, bind_some]
    split_ifs
    · simp
    · exact ih (by omega)

theorem rfind_eq_none_iff (char : BitVec 8) : rfind text char = none ↔ text = [] := by
  rw [rfind]
  by_cases h : text.length = 0
  · obtain rfl := length_eq_zero_iff.mp h
    exact iff_of_true rfl rfl
  · rw [if_neg h]
    refine iff_of_false (rfindFrom_ne_none (by omega) char) fun heq ↦ h (by rw [heq]; rfl)

variable {c : List (BitVec 8)}

/-- The last slash is the one in front of a component. -/
theorem rfind_append (hc : (47#8) ∉ c) :
    rfind (text ++ [47#8] ++ c) 47#8 = some (some text.length) := by
  have hfrom : ∀ i, text.length ≤ i → i < (text ++ [47#8] ++ c).length →
      rfindFrom (text ++ [47#8] ++ c) 47#8 i = some (some text.length) := by
    intro i hle
    induction i, hle using Nat.le_induction with
    | base =>
      intro hi
      have hslash : (text ++ [47#8] ++ c)[text.length]? = some 47#8 := by simp
      generalize text ++ [47#8] ++ c = whole at hslash
      cases h : text.length with
      | zero => rw [rfindFrom, ← h, hslash, map_some, if_pos rfl, h]
      | succ i => rw [rfindFrom, ← h, hslash, bind_some, if_pos rfl, h]
    | succ i hle ih =>
      intro hi
      have hother : (text ++ [47#8] ++ c)[i + 1] ∈ c := by
        rw [getElem_append_right (by simpa using hle)]
        exact getElem_mem _
      rw [rfindFrom, getElem?_eq_getElem hi, bind_some, if_neg, ih (by omega)]
      exact fun heq ↦ hc (heq ▸ hother)
  rw [rfind, if_neg (by simp)]
  refine hfrom _ ?_ (by simp)
  simp only [length_append, length_singleton]
  omega

theorem append_spec (hp : p.Normal) (hne : p.path ≠ [])
    (hc : (47#8) ∉ c) : (p.append c).fileName = some c ∧ (p.append c).parent = some (some p) := by
  have hpos : 0 < p.path.length := length_pos_of_ne_nil hne
  have hfind : rfind (p.append c).path 47#8 = some (some p.path.length) := rfind_append p.path hc
  have hname : substring (p.append c).path (p.path.length + 1) (p.append c).path.length = c := by
    rw [substring, append, drop_left' (by simp), take_of_length_le (by simp; omega)]
  have hparent : substring (p.append c).path 0 (p.path.length + 1) = p.path ++ [47#8] := by
    rw [substring, append, drop_zero, take_left' (by simp)]
  constructor
  · rw [fileName, hfind]
    exact congrArg some hname
  · rw [parent, hfind, if_neg (by simp [append]; omega), map_some]
    simp only [hparent, «from», normalize_append_slash hp hne]

theorem inside_iff : (fileName ⟨text⟩ ≠ none ∧ parent ⟨text⟩ ≠ none) ↔ text ≠ [] := by
  rw [← not_iff_not, not_and_or, not_not, not_not, not_not, fileName, parent,
    map_eq_none_iff, rfind_eq_none_iff]
  refine ⟨fun h ↦ h.elim id fun h ↦ ?_, .inl⟩
  split_ifs at h
  rwa [map_eq_none_iff, rfind_eq_none_iff] at h

/-- **The laws of paths hold** exactly for a text that is not empty and does not end in two slashes
with something in front. -/
theorem lawful_iff : Lawful text ↔ ¬EndsTwice text ∧ text ≠ [] :=
  ⟨fun h ↦ ⟨(normal_from_iff text).mp h.normal, (inside_iff text).mp h.inside⟩, fun ⟨htwice, hne⟩ ↦
    { normal := (normal_from_iff text).mpr htwice
      idempotent := normalize_of_normal ((normal_from_iff text).mpr htwice)
      append := fun _ _ hp hp' _ _ hc ↦ append_spec hp hp' hc
      inside := (inside_iff text).mpr hne }⟩

/-- `a//` keeps a slash. -/
theorem not_lawful : ¬∀ text, Lawful text := fun hall ↦
  absurd ((hall [97#8, 47#8, 47#8]).normal.trailing rfl) (by decide)

end Path

end Banjo.Stdlib
