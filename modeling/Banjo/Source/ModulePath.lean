import Banjo.Lib.Loops
import Mathlib.Data.List.Infix

/-!
# Module paths

A path is one string with a dot between its names, and every operation scans it for the dots anew.
The scans count with an `unsigned`.
-/

open List

namespace Banjo

/-- `ModulePath` -/
structure ModulePath where
  value : List Char
deriving DecidableEq

namespace ModulePath

open Loops

def empty : ModulePath := ⟨[]⟩

def append (path : ModulePath) (element : List Char) : ModulePath :=
  if path.value = [] then ⟨path.value ++ element⟩ else ⟨path.value ++ ['.'] ++ element⟩

def isEmpty (path : ModulePath) : Bool := path.value.isEmpty

def getSize (path : ModulePath) : ℕ :=
  if path.isEmpty then 0
  else path.value.foldl (fun size c ↦ if c = '.' then next size else size) 1

/-- `value.rfind('.')` -/
def rfindDot (value : List Char) : Option ℕ :=
  (value.reverse.findIdx? (· = '.')).map (value.length - 1 - ·)

def name (path : ModulePath) : List Char :=
  match rfindDot path.value with
  | none => path.value
  | some position => path.value.drop (position + 1)

def parent (path : ModulePath) : Option ModulePath :=
  match rfindDot path.value with
  | none => none
  | some position => some (empty.append (path.value.take position))

/-- The loop of `num_common_ancestors` over the pairs of characters that are left. -/
def scanAncestors (stop : ℕ) : List (Char × Char) → ℕ → ℕ → ℕ
  | [], _, depth => depth
  | (c, d) :: rest, i, depth =>
    if c ≠ d then depth
    else scanAncestors stop rest (i + 1) (if c = '.' ∨ i = stop - 1 then depth + 1 else depth)

def numCommonAncestors (path other : ModulePath) : ℕ :=
  let stop := min path.value.length other.value.length % 2 ^ 32
  scanAncestors stop ((path.value.zip other.value).take stop) 0 0

/-! ## The scans without a bound of their own -/

/-- A turn of `strip`, at what is left of the count and an index. -/
def stripTurn (value : List Char) : ℕ × ℕ → ℕ × ℕ ⊕ ℕ
  | (count, index) =>
    if 0 < count ∧ index < value.length then
      .inl (if value[index]? = some '.' then count - 1 else count, next index)
    else .inr index

/-- `strip` ends and returns `r`. -/
def Strip (path : ModulePath) (count : ℕ) (r : ModulePath) : Prop :=
  ∃ index, Ends (stripTurn path.value) (count, 0) index ∧ r = empty.append (path.value.drop index)

/-- A turn of the search for the end of the name that starts at an index. -/
def endTurn (value : List Char) (stop : ℕ) : ℕ ⊕ ℕ :=
  match value[stop]? with
  | none => .inr stop
  | some c => if c = '.' then .inr stop else .inl (next stop)

/-- `Iterator::operator*` -/
def NameAt (value : List Char) (index : ℕ) (r : List Char) : Prop :=
  ∃ stop, Ends (endTurn value) index stop ∧ r = (value.drop index).take (stop - index)

/-- A turn of the search of `operator[]` for the start of a name, at a count of names and a start;
`none` is a read outside the string. -/
def seekTurn (value : List Char) (index : ℕ) : ℕ × ℕ → ℕ × ℕ ⊕ Option ℕ
  | (i, start) =>
    if i < index then
      match value[start]? with
      | none => .inr none
      | some c => .inl (if c = '.' then (next i, next start) else (i, next start))
    else .inr (some start)

/-- `operator[]` -/
def Index (path : ModulePath) (index : ℕ) (r : List Char) : Prop :=
  ∃ start, Ends (seekTurn path.value index) (0, 0) (some start) ∧ NameAt path.value start r

/-- A turn of `Iterator::operator++`; `none` is a read outside the string. -/
def advanceTurn (value : List Char) (index : ℕ) : ℕ ⊕ Option ℕ :=
  if index = value.length then .inr (some index)
  else
    match value[index]? with
    | none => .inr none
    | some c => if c = '.' then .inr (some (next index)) else .inl (next index)

/-- A loop over the names from an index up to `end()`, whose index is an `unsigned` as well. -/
inductive Iterates (value : List Char) : ℕ → List (List Char) → Prop
  | done {index : ℕ} (h : index = value.length % 2 ^ 32) : Iterates value index []
  | name {index behind : ℕ} {r : List Char} {names : List (List Char)}
      (h : index ≠ value.length % 2 ^ 32) (hname : NameAt value index r)
      (hadvance : Ends (advanceTurn value) index (some behind))
      (hrest : Iterates value behind names) : Iterates value index (r :: names)

end ModulePath

end Banjo

/-!
## Module paths as lists of names

A path built from names is their text with dots between them, and each operation is compared with
the operation on the list. A scan walks over a name and stops at the dot or at the end of the text
behind it, so each is one walk for a name and an induction over the names. `num_common_ancestors`
counts a last name once more where the shorter text ends: the count is that of the longest common
prefix and one more where a path ends inside a name of the other.
-/

namespace Banjo.ModulePath

open Loops

/-- The name of a module. -/
structure Name where
  text : List Char
  ne_nil : text ≠ []
  no_dot : '.' ∉ text

@[ext]
theorem Name.ext {x y : Name} (h : x.text = y.text) : x = y := by
  cases x; cases y; cases h; rfl

instance : DecidableEq Name := fun x y ↦ decidable_of_iff (x.text = y.text) ⟨Name.ext, congrArg _⟩

/-- A path built from its names. -/
def ofNames (names : List Name) : ModulePath :=
  names.foldl (fun path x ↦ path.append x.text) empty

/-- The names with a dot before each. -/
def tail (names : List Name) : List Char := names.flatMap fun x ↦ '.' :: x.text

/-- The names with a dot between them. -/
def dotted : List Name → List Char
  | [] => []
  | x :: names => x.text ++ tail names

/-! ## The text of a path -/

@[simp]
theorem append_empty (element : List Char) : empty.append element = ⟨element⟩ := by
  simp [append, empty]

@[simp]
theorem tail_nil : tail [] = [] := rfl

theorem tail_cons (x : Name) (names : List Name) : tail (x :: names) = '.' :: dotted (x :: names) :=
  rfl

theorem tail_append (a b : List Name) : tail (a ++ b) = tail a ++ tail b := by
  simp [tail]

theorem dotted_append {a : List Name} (ha : a ≠ []) (b : List Name) :
    dotted (a ++ b) = dotted a ++ tail b := by
  cases a with
  | nil => exact absurd rfl ha
  | cons x a => simp [dotted, tail_append]

@[simp]
theorem dotted_eq_nil {names : List Name} : dotted names = [] ↔ names = [] := by
  cases names with
  | nil => simp [dotted]
  | cons x names => simp [dotted, x.ne_nil]

@[simp]
theorem tail_eq_nil {names : List Name} : tail names = [] ↔ names = [] := by
  cases names <;> simp [tail]

theorem append_dotted (a : List Name) (x : Name) :
    (ModulePath.mk (dotted a)).append x.text = ⟨dotted (a ++ [x])⟩ := by
  cases a with
  | nil => simp [append, dotted]
  | cons y a =>
    have hne : dotted (y :: a) ≠ [] := by simp
    rw [append, if_neg hne, dotted_append (by simp)]
    simp [tail]

variable (names : List Name)

theorem ofNames_eq : ofNames names = ⟨dotted names⟩ := by
  suffices h : ∀ a, names.foldl (fun path x ↦ path.append x.text) ⟨dotted a⟩
      = (⟨dotted (a ++ names)⟩ : ModulePath) from h []
  induction names with
  | nil => simp
  | cons x names ih =>
    intro a
    rw [foldl_cons, append_dotted, ih, append_assoc, singleton_append]

/-- What stands before the first dot, and what is left of it. -/
theorem eq_and_eq_of_append_tail {x y : Name} {a b : List Name}
    (h : x.text ++ tail a = y.text ++ tail b) : x = y ∧ tail a = tail b := by
  have hstop : ∀ (x : Name) (a : List Name), (x.text ++ tail a).takeWhile (· ≠ '.') = x.text := by
    intro x a
    have hin : ∀ c ∈ x.text, decide (c ≠ '.') = true := by
      intro c hc
      exact decide_eq_true fun hdot ↦ x.no_dot (hdot ▸ hc)
    rw [takeWhile_append_of_pos hin]
    cases a <;> simp [tail]
  have hxy : x.text = y.text := by rw [← hstop x a, h, hstop]
  exact ⟨Name.ext hxy, append_cancel_left (hxy ▸ h)⟩

theorem dotted_injective : Function.Injective dotted := by
  intro a
  induction a with
  | nil => exact fun b h ↦ (dotted_eq_nil.mp h.symm).symm
  | cons x a ih =>
    intro b h
    cases b with
    | nil => exact dotted_eq_nil.mp h
    | cons y b =>
      obtain ⟨rfl, htail⟩ := eq_and_eq_of_append_tail h
      refine congrArg _ (ih ?_)
      cases a with
      | nil => rw [tail_eq_nil.mp htail.symm]
      | cons z a =>
        cases b with
        | nil => simp at htail
        | cons w b => exact tail_eq_of_cons_eq htail

theorem count_tail : (tail names).count '.' = names.length := by
  induction names with
  | nil => rfl
  | cons x names ih =>
    rw [tail_cons, dotted, count_cons_self, count_append,
      count_eq_zero_of_not_mem x.no_dot, ih, length_cons]
    omega

theorem length_le_length_tail : names.length ≤ (tail names).length :=
  (count_tail names).symm.le.trans count_le_length

theorem length_le_length_dotted : names.length ≤ (dotted names).length := by
  cases names with
  | nil => simp
  | cons x names =>
    have hname := length_pos_of_ne_nil x.ne_nil
    have htail := length_le_length_tail names
    rw [dotted, length_cons, length_append]
    omega

/-! ## Scans over a name -/

section Scans

variable {pre post : List Char} {x : Name} {r : ℕ}

/-- The text behind a name. -/
def Behind (post : List Char) : Prop := ∀ c ∈ post.head?, c = '.'

theorem behind_tail (names : List Name) : Behind (tail names) := by
  cases names <;> simp [Behind, tail]

variable (pre post) in
theorem getElem?_name {k : ℕ} (hk : k < x.text.length) :
    ∃ c ≠ '.', (pre ++ x.text ++ post)[pre.length + k]? = some c := by
  refine ⟨x.text[k], fun hc ↦ x.no_dot (hc ▸ getElem_mem hk), ?_⟩
  simp [getElem?_append, hk]

theorem getElem?_behind : (pre ++ x.text ++ post)[pre.length + x.text.length]? = post.head? := by
  rw [append_assoc, getElem?_append_right (by omega), Nat.add_sub_cancel_left,
    getElem?_append_right le_rfl, Nat.sub_self, head?_eq_getElem?]

/-- A scan that goes on at every other character stands behind the name at last. -/
theorem ends_iff_of_name {σ ρ : Type*} {turn : σ → σ ⊕ ρ} {r : ρ} (at' : ℕ → σ)
    (hlen : (pre ++ x.text ++ post).length < 2 ^ 32)
    (hturn : ∀ i c, (pre ++ x.text ++ post)[i]? = some c → c ≠ '.' →
      turn (at' i) = .inl (at' (next i))) :
    Ends turn (at' pre.length) r ↔ Ends turn (at' (pre.length + x.text.length)) r := by
  refine ends_iff_of_walk (f := fun k ↦ at' (pre.length + k)) fun k hk ↦ ?_
  obtain ⟨c, hc, hread⟩ := getElem?_name pre post hk
  rw [length_append, length_append] at hlen
  rw [hturn _ c hread hc, next_eq (by omega), Nat.add_assoc]

theorem nameAt_of_name (hlen : (pre ++ x.text ++ post).length < 2 ^ 32) (hpost : Behind post) :
    NameAt (pre ++ x.text ++ post) pre.length x.text := by
  refine ⟨pre.length + x.text.length, ?_, by simp⟩
  refine (ends_iff_of_name id hlen fun i c hi hc ↦ ?_).mpr (ends_of_inr ?_)
  · simp only [endTurn, id_eq, hi, hc, if_false]
  · rw [endTurn, id_eq, getElem?_behind]
    cases post with
    | nil => rfl
    | cons c post =>
      obtain rfl : c = '.' := hpost c rfl
      rfl

theorem next_behind (hlen : (pre ++ x.text ++ '.' :: post).length < 2 ^ 32) :
    next (pre.length + x.text.length) = (pre ++ x.text ++ ['.']).length := by
  simp only [length_append, length_cons, length_nil] at hlen ⊢
  exact next_eq (by omega)

theorem advance_to_end (hlen : (pre ++ x.text).length < 2 ^ 32) :
    Ends (advanceTurn (pre ++ x.text)) pre.length (some (pre ++ x.text).length) := by
  have hlen' : (pre ++ x.text ++ []).length < 2 ^ 32 := by simpa using hlen
  rw [← append_nil (pre ++ x.text)]
  refine (ends_iff_of_name id hlen' fun i c hi hc ↦ ?_).mpr (ends_of_inr ?_)
  · have hne : i ≠ (pre ++ x.text ++ []).length := Nat.ne_of_lt (List.getElem?_eq_some_iff.mp hi).1
    simp only [advanceTurn, id_eq, hne, hi, hc, if_false]
  · simp [advanceTurn]

theorem advance_to_next (hlen : (pre ++ x.text ++ '.' :: post).length < 2 ^ 32) :
    Ends (advanceTurn (pre ++ x.text ++ '.' :: post)) pre.length
      (some (pre ++ x.text ++ ['.']).length) := by
  refine (ends_iff_of_name id hlen fun i c hi hc ↦ ?_).mpr (ends_of_inr ?_)
  · have hne : i ≠ (pre ++ x.text ++ '.' :: post).length :=
      Nat.ne_of_lt (List.getElem?_eq_some_iff.mp hi).1
    simp only [advanceTurn, id_eq, hne, hi, hc, if_false]
  · have hne : pre.length + x.text.length ≠ (pre ++ x.text ++ '.' :: post).length := by simp
    simp only [advanceTurn, id_eq, hne, getElem?_behind, head?_cons, if_true, if_false,
      next_behind hlen]

end Scans

/-! ## Every operation against the list -/

section Operations

variable {value : List Char}

variable (names : List Name)

theorem getSize_ofNames (h : names.length < 2 ^ 32) : (ofNames names).getSize = names.length := by
  -- the count of the dots, from any count on that does not wrap
  have hfold : ∀ (text : List Char) (size : ℕ), size + text.count '.' < 2 ^ 32 →
      text.foldl (fun size c ↦ if c = '.' then next size else size) size
        = size + text.count '.' := by
    intro text
    induction text with
    | nil => exact fun _ _ ↦ rfl
    | cons c text ih =>
      intro size hsize
      rw [foldl_cons]
      by_cases hc : c = '.'
      · rw [hc, count_cons_self] at hsize ⊢
        rw [if_pos rfl, next_eq (by omega), ih _ (by omega)]
        omega
      · rw [count_cons_of_ne hc] at hsize ⊢
        rw [if_neg hc, ih _ hsize]
  cases names with
  | nil => simp [ofNames_eq, dotted, getSize, isEmpty]
  | cons x names =>
    have hcount : (dotted (x :: names)).count '.' = names.length := by
      rw [dotted, count_append, count_eq_zero_of_not_mem x.no_dot, count_tail, Nat.zero_add]
    have hne : (ModulePath.mk (dotted (x :: names))).isEmpty = false := by
      simp [isEmpty, dotted, x.ne_nil]
    rw [length_cons] at h ⊢
    rw [ofNames_eq, getSize, hne, hfold _ _ (by rw [hcount]; omega), hcount]
    simp [Nat.add_comm]

theorem getSize_lt (path : ModulePath) : path.getSize < 2 ^ 32 := by
  have hfold : ∀ (text : List Char) (size : ℕ), size < 2 ^ 32 →
      text.foldl (fun size c ↦ if c = '.' then next size else size) size < 2 ^ 32 := by
    intro text
    induction text with
    | nil => exact fun _ h ↦ h
    | cons c text ih =>
      intro size hsize
      rw [foldl_cons]
      split_ifs
      · exact ih _ (next_lt size)
      · exact ih _ hsize
  rw [getSize]
  split_ifs
  · decide
  · exact hfold _ _ (by decide)

theorem rfindDot_of_not_mem {text : List Char} (h : '.' ∉ text) : rfindDot text = none := by
  rw [rfindDot, Option.map_eq_none_iff, findIdx?_eq_none_iff]
  intro c hc
  exact decide_eq_false fun hdot ↦ h (hdot ▸ mem_reverse.mp hc)

theorem rfindDot_append (pre : List Char) (x : Name) :
    rfindDot (pre ++ '.' :: x.text) = some pre.length := by
  have hnone : x.text.reverse.findIdx? (fun c ↦ decide (c = '.')) = none := by
    rw [findIdx?_eq_none_iff]
    intro c hc
    exact decide_eq_false fun hdot ↦ x.no_dot (hdot ▸ mem_reverse.mp hc)
  rw [rfindDot, reverse_append, reverse_cons, append_assoc, findIdx?_append, hnone]
  simp [findIdx?_cons]

theorem eq_nil_or_single_or_append :
    names = [] ∨ (∃ x, names = [x]) ∨ ∃ init x, init ≠ [] ∧ names = init ++ [x] := by
  rcases eq_nil_or_concat names with rfl | ⟨init, x, rfl⟩
  · exact .inl rfl
  · by_cases h : init = []
    · exact .inr (.inl ⟨x, by simp [h]⟩)
    · exact .inr (.inr ⟨init, x, h, by simp⟩)

theorem dotted_concat {init : List Name} (h : init ≠ []) (x : Name) :
    dotted (init ++ [x]) = dotted init ++ '.' :: x.text := by
  rw [dotted_append h, tail_cons, dotted, tail_nil, append_nil]

theorem name_ofNames : (ofNames names).name = (names.getLast?.map Name.text).getD [] := by
  rcases eq_nil_or_single_or_append names with rfl | ⟨x, rfl⟩ | ⟨init, x, hinit, rfl⟩
  · rfl
  · simp [ofNames_eq, name, dotted, rfindDot_of_not_mem x.no_dot]
  · simp [ofNames_eq, name, dotted_concat hinit, rfindDot_append, drop_append]

theorem parent_ofNames :
    (ofNames names).parent = if names.length ≤ 1 then none else some (ofNames names.dropLast) := by
  rcases eq_nil_or_single_or_append names with rfl | ⟨x, rfl⟩ | ⟨init, x, hinit, rfl⟩
  · rfl
  · simp [ofNames_eq, parent, dotted, rfindDot_of_not_mem x.no_dot]
  · simp [ofNames_eq, parent, dotted_concat hinit, rfindDot_append, hinit]

theorem dotted_drop {names : List Name} {k : ℕ} (h : k < names.length) :
    dotted (names.drop k) = names[k].text ++ tail (names.drop (k + 1)) := by
  rw [drop_eq_getElem_cons h, dotted]

/-- The search stands before the name, after the names before it. -/
theorem seek_ofNames (hlen : value.length < 2 ^ 32) (names : List Name) (i k : ℕ)
    (pre : List Char) (hvalue : value = pre ++ dotted names) (hk : k < names.length)
    (hi : i + k < 2 ^ 32) : ∃ pre', value = pre' ++ dotted (names.drop k) ∧
      Ends (seekTurn value (i + k)) (i, pre.length) (some pre'.length) := by
  induction k generalizing i names pre with
  | zero => exact ⟨pre, hvalue, ends_of_inr (by simp [seekTurn])⟩
  | succ k ih =>
    rcases names with _ | ⟨x, _ | ⟨y, rest⟩⟩
    · simp at hk
    · simp at hk
    · rw [dotted, tail_cons, ← append_assoc] at hvalue
      obtain ⟨pre', hpre', hend⟩ := ih (y :: rest) (i + 1) (pre ++ x.text ++ ['.'])
        (by rw [hvalue]; simp) (by simpa using hk) (by omega)
      refine ⟨pre', hpre', ?_⟩
      rw [show i + 1 + k = i + (k + 1) by omega] at hend
      rw [hvalue] at hlen hend ⊢
      refine (ends_iff_of_name (fun j ↦ (i, j)) hlen fun j c hj hc ↦ ?_).mpr ?_
      · have hlt : i < i + (k + 1) := by omega
        simp only [seekTurn, hlt, if_true, hj, hc, if_false]
      · have hturn : seekTurn (pre ++ x.text ++ '.' :: dotted (y :: rest)) (i + (k + 1))
            (i, pre.length + x.text.length) = .inl (i + 1, (pre ++ x.text ++ ['.']).length) := by
          have hlt : i < i + (k + 1) := by omega
          simp only [seekTurn, hlt, if_true, getElem?_behind, head?_cons, next_behind hlen,
            next_eq (show i + 1 < 2 ^ 32 by omega)]
        exact (ends_iff_of_inl hturn).mpr hend

theorem index_ofNames {names : List Name} (hlen : (dotted names).length < 2 ^ 32) {k : ℕ}
    (hk : k < names.length) : Index (ofNames names) k names[k].text := by
  have hcount := length_le_length_dotted names
  rw [ofNames_eq]
  obtain ⟨pre, hpre, hend⟩ := seek_ofNames hlen names 0 k [] rfl hk (by omega)
  rw [Nat.zero_add] at hend
  refine ⟨pre.length, hend, ?_⟩
  rw [dotted_drop hk, ← append_assoc] at hpre
  change NameAt (dotted names) pre.length names[k].text
  rw [hpre] at hlen ⊢
  exact nameAt_of_name hlen (behind_tail _)

theorem iterates_ofNames (hlen : value.length < 2 ^ 32) (names : List Name) (pre : List Char)
    (hvalue : value = pre ++ dotted names) : Iterates value pre.length (names.map Name.text) := by
  have hend : value.length % 2 ^ 32 = value.length := Nat.mod_eq_of_lt hlen
  induction names generalizing pre with
  | nil => exact .done (by rw [hend, hvalue]; simp [dotted])
  | cons x names ih =>
    have hne : pre.length ≠ value.length % 2 ^ 32 := by
      have := length_pos_of_ne_nil x.ne_nil
      rw [hend, hvalue, dotted, length_append, length_append]
      omega
    rw [dotted, ← append_assoc] at hvalue
    have hname : NameAt value pre.length x.text := by
      rw [hvalue] at hlen ⊢
      exact nameAt_of_name hlen (behind_tail names)
    cases names with
    | nil =>
      rw [tail_nil, append_nil] at hvalue
      have hadvance : Ends (advanceTurn value) pre.length (some value.length) := by
        rw [hvalue] at hlen ⊢
        exact advance_to_end hlen
      exact .name hne hname hadvance (.done hend.symm)
    | cons y rest =>
      rw [tail_cons] at hvalue
      have hadvance : Ends (advanceTurn value) pre.length
          (some (pre ++ x.text ++ ['.']).length) := by
        rw [hvalue] at hlen ⊢
        exact advance_to_next hlen
      exact .name hne hname hadvance (ih _ (by rw [hvalue]; simp))

/-- `strip` leaves off as many names as it is told to, all of them at most. -/
theorem strip_from (hlen : value.length < 2 ^ 32) (names : List Name) (count : ℕ)
    (pre : List Char) (hvalue : value = pre ++ dotted names) :
    ∃ index, Ends (stripTurn value) (count, pre.length) index ∧
      value.drop index = dotted (names.drop count) := by
  induction count generalizing names pre with
  | zero => exact ⟨pre.length, ends_of_inr (by simp [stripTurn]), by simp [hvalue]⟩
  | succ count ih =>
    have hin : ∀ i c, value[i]? = some c → c ≠ '.' →
        stripTurn value (count + 1, i) = .inl (count + 1, next i) := by
      intro i c hi hc
      have hlt : i < value.length := (List.getElem?_eq_some_iff.mp hi).1
      simp only [stripTurn, hlt, hi, Option.some.injEq, hc, Nat.succ_pos, and_self, if_true,
        if_false]
    rcases names with _ | ⟨x, _ | ⟨y, rest⟩⟩
    · refine ⟨pre.length, ends_of_inr ?_, by simp [hvalue]⟩
      simp [stripTurn, hvalue, dotted]
    · rw [dotted, ← append_assoc] at hvalue
      rw [hvalue] at hlen hin ⊢
      refine ⟨pre.length + x.text.length, ?_, by simp [dotted]⟩
      refine (ends_iff_of_name (fun i ↦ (count + 1, i)) hlen hin).mpr (ends_of_inr ?_)
      simp [stripTurn]
    · rw [dotted, tail_cons, ← append_assoc] at hvalue
      obtain ⟨index, hend, hdrop⟩ :=
        ih (y :: rest) (pre ++ x.text ++ ['.']) (by rw [hvalue]; simp)
      rw [hvalue] at hlen hin hend ⊢
      refine ⟨index, ?_, by rw [← hvalue, hdrop]; rfl⟩
      refine (ends_iff_of_name (fun i ↦ (count + 1, i)) hlen hin).mpr ?_
      have hturn : stripTurn (pre ++ x.text ++ '.' :: dotted (y :: rest))
          (count + 1, pre.length + x.text.length)
            = .inl (count, (pre ++ x.text ++ ['.']).length) := by
        have hlt : pre.length + x.text.length
            < (pre ++ x.text ++ '.' :: dotted (y :: rest)).length := by simp
        simp only [stripTurn, hlt, Nat.succ_pos, and_self, if_true, getElem?_behind,
          head?_cons, next_behind hlen, Nat.add_sub_cancel]
      exact (ends_iff_of_inl hturn).mpr hend

theorem strip_ofNames {names : List Name} (hlen : (dotted names).length < 2 ^ 32) (count : ℕ) :
    Strip (ofNames names) count (ofNames (names.drop count)) := by
  rw [ofNames_eq, ofNames_eq]
  obtain ⟨index, hend, hdrop⟩ := strip_from hlen names count [] rfl
  exact ⟨index, hend, by rw [append_empty, hdrop]⟩

/-- Of a text too long for its index `strip` never comes to the end. -/
theorem not_strip_empty_of_long {path : ModulePath} (hlong : 2 ^ 32 ≤ path.value.length)
    (count : ℕ) : ¬Strip path count empty := by
  rintro ⟨index, hend, hempty⟩
  have hlt : index < 2 ^ 32 := by
    refine hend.of_invariant (I := fun s ↦ s.2 < 2 ^ 32) (Q := (· < 2 ^ 32))
      (fun s t _ hst ↦ ?_) (fun s r hs hsr ↦ ?_) (Nat.two_pow_pos 32)
    · rw [stripTurn] at hst
      split_ifs at hst <;> exact Sum.inl_injective hst ▸ next_lt s.2
    · rw [stripTurn] at hsr
      split_ifs at hsr
      exact Sum.inr_injective hsr ▸ hs
  rw [append_empty] at hempty
  have hdrop : path.value.drop index = [] := (congrArg value hempty).symm
  have := drop_eq_nil_iff.mp hdrop
  omega

end Operations

end Banjo.ModulePath
