import Banjo.Lib.Loops
import Mathlib.Data.List.Infix

/-!
# Line endings

`convert_eol_to_lf`, which is meant to put a line feed where a text has a carriage return and a
line feed. The loop appends the line feed at the carriage return and goes on to the line feed, which
it appends again, so it keeps a text as it is where it has no such pair and turns each pair into two
line feeds. The bound the look-ahead is guarded with is the size less two, which for a text of one
character is the largest `std::size_t`.
-/

open List Option

namespace Banjo.LineEndings

open Loops

/-! ## The loop -/

/-- Where the loop is, and what it has appended. -/
structure Scan where
  i : ℕ
  result : List Char

/-- `string.size() - 2`, a `std::size_t`. -/
def lookAheadBound (string : List Char) : ℕ := (string.length + 2 ^ 64 - 2) % 2 ^ 64

/-- The character one turn appends, or `none` where it reads outside the string. -/
def eolChar (string : List Char) (i : ℕ) : Option Char := do
  if i ≤ lookAheadBound string then
    if (← string[i]?) = '\r' then
      if (← string[next i]?) = '\n' then
        return '\n'
  string[i]?

/-- One turn; what the loop ends with is `none` after a read outside the string. -/
def eolTurn (string : List Char) (s : Scan) : Scan ⊕ Option (List Char) :=
  if s.i < string.length then
    match eolChar string s.i with
    | some c => .inl ⟨next s.i, s.result ++ [c]⟩
    | none => .inr none
  else .inr (some s.result)

/-- `convert_eol_to_lf` ends on the string and returns `r`. -/
def ConvertEolToLf (string r : List Char) : Prop := Ends (eolTurn string) ⟨0, []⟩ (some r)

/-! ## What is asked of it -/

/-- The text with a line feed in place of each pair. -/
def toLf : List Char → List Char
  | [] => []
  | '\r' :: '\n' :: rest => '\n' :: toLf rest
  | c :: rest => c :: toLf rest

/-- The conversion ends with every read inside the string, the result has each pair replaced and
nothing else changed, and a second conversion leaves it as it is. -/
def Converts (string : List Char) : Prop :=
  ∃ r, ConvertEolToLf string r ∧ r = toLf string ∧ ConvertEolToLf r r

theorem toLf_cons {c : Char} {rest : List Char} (h : ¬['\r', '\n'] <+: c :: rest) :
    toLf (c :: rest) = c :: toLf rest := by
  rw [toLf]
  rintro rest' rfl rfl
  exact h ⟨rest', rfl⟩

theorem toLf_of_no_pair {s : List Char} (h : ¬['\r', '\n'] <:+: s) : toLf s = s := by
  induction s with
  | nil => rfl
  | cons c rest ih =>
    rw [toLf_cons fun hp ↦ h hp.isInfix, ih fun hi ↦ h (hi.trans (suffix_cons c rest).isInfix)]

theorem length_toLf_le (s : List Char) : (toLf s).length ≤ s.length := by
  induction s using toLf.induct with
  | case1 => simp [toLf]
  | case2 rest ih => simp only [toLf, length_cons]; omega
  | case3 c rest h ih =>
    have heq : toLf (c :: rest) = c :: toLf rest := by rw [toLf]; exact h
    simpa [heq] using ih

theorem length_toLf_lt {s : List Char} (h : ['\r', '\n'] <:+: s) : (toLf s).length < s.length := by
  induction s using toLf.induct with
  | case1 => simp at h
  | case2 rest ih =>
    have := length_toLf_le rest
    simp only [toLf, length_cons]
    omega
  | case3 c rest hc ih =>
    have heq : toLf (c :: rest) = c :: toLf rest := by rw [toLf]; exact hc
    rw [heq]
    rcases infix_cons_iff.mp h with ⟨t, ht⟩ | hrest
    · obtain ⟨rfl, rfl⟩ := cons.inj ht
      exact absurd rfl (hc t rfl)
    · simpa using ih hrest

/-! ## The character of a turn -/

section Turn

variable {string : List Char} {i : ℕ}

/-- Away from pairs the turn appends what it stands at. -/
theorem eolChar_of_no_pair (hpair : ¬['\r', '\n'] <:+: string) (hone : string ≠ ['\r'])
    (hlen : string.length < 2 ^ 32) (hi : i < string.length) : eolChar string i = string[i]? := by
  have hread : string[i]? = some string[i] := getElem?_eq_getElem hi
  by_cases hcr : string[i] = '\r'
  · by_cases hnext : i + 1 < string.length
    · have hmod : next i = i + 1 := next_eq (by omega)
      have hne : string[i + 1] ≠ '\n' := by
        intro hlf
        refine hpair ⟨string.take i, string.drop (i + 2), ?_⟩
        conv_rhs => rw [← take_append_drop i string, drop_eq_getElem_cons hi,
          drop_eq_getElem_cons hnext, hcr, hlf]
        simp
      simp [eolChar, hread, hcr, hmod, getElem?_eq_getElem hnext, hne]
    · -- the last character is behind the bound, in a text of two or more
      have htwo : 2 ≤ string.length := by
        by_contra hlt
        obtain ⟨c, rfl⟩ := length_eq_one_iff.mp (by omega : string.length = 1)
        obtain rfl : i = 0 := by simpa using hi
        exact hone (by simpa using hcr)
      have hbound : ¬i ≤ lookAheadBound string := by
        rw [lookAheadBound]
        omega
      rw [eolChar, if_neg hbound]
  · simp [eolChar, hread, hcr]

/-- From `2 ^ 32` characters on both reads are inside, wherever the index has wrapped to. -/
theorem exists_eolChar_of_long (hlen : 2 ^ 32 ≤ string.length) (hi : i < 2 ^ 32) :
    ∃ c, eolChar string i = some c := by
  have hnext : next i < string.length := (next_lt i).trans_le hlen
  rw [eolChar, getElem?_eq_getElem (hi.trans_le hlen), getElem?_eq_getElem hnext]
  simp only [bind_eq_bind, bind_some]
  split_ifs <;> exact ⟨_, rfl⟩

end Turn

/-! ## Whole conversions -/

variable {string r : List Char}

theorem convertEolToLf_self (hpair : ¬['\r', '\n'] <:+: string) (hone : string ≠ ['\r'])
    (hlen : string.length < 2 ^ 32) : ConvertEolToLf string string := by
  have hturn : ∀ i < string.length,
      eolTurn string ⟨i, string.take i⟩ = .inl ⟨i + 1, string.take (i + 1)⟩ := by
    intro i hi
    have hchar := eolChar_of_no_pair hpair hone hlen hi
    rw [getElem?_eq_getElem hi] at hchar
    have hmod : next i = i + 1 := next_eq (by omega)
    simp only [eolTurn, hi, if_true, hchar, hmod, take_add_one, getElem?_eq_getElem hi, toList_some]
  have hend : Ends (eolTurn string) ⟨string.length, string.take string.length⟩ (some string) :=
    ends_of_inr (by simp [eolTurn])
  exact (ends_iff_of_walk (f := fun i ↦ Scan.mk i (string.take i)) hturn).mpr hend

theorem not_convertEolToLf_of_long (hlen : 2 ^ 32 ≤ string.length) : ¬ConvertEolToLf string r := by
  refine not_ends_of_closed (I := fun s : Scan ↦ s.i < 2 ^ 32) (fun s hs ↦ ?_) (by decide)
  obtain ⟨c, hc⟩ := exists_eolChar_of_long hlen hs
  refine ⟨⟨next s.i, s.result ++ [c]⟩, ?_, next_lt s.i⟩
  simp [eolTurn, hs.trans_le hlen, hc]

/-- Every turn appends one character. -/
theorem ConvertEolToLf.length_eq (h : ConvertEolToLf string r)
    (hlen : string.length < 2 ^ 32) : r.length = string.length := by
  have hend := Ends.of_invariant
    (I := fun s : Scan ↦ s.result.length = s.i ∧ s.i ≤ string.length)
    (Q := fun r ↦ ∀ r', r = some r' → r'.length = string.length)
    h (fun s t hs hst ↦ ?_) (fun s r hs hsr ↦ ?_) (by simp)
  · exact hend r rfl
  · obtain ⟨hresult, -⟩ := hs
    rw [eolTurn] at hst
    split_ifs at hst with hi
    have hmod : next s.i = s.i + 1 := next_eq (by omega)
    cases hc : eolChar string s.i with
    | none => simp [hc] at hst
    | some c =>
      obtain rfl : _ = t := by simpa [hc] using hst
      simp [hmod, hresult, Nat.succ_le_of_lt hi]
  · rintro r' rfl
    obtain ⟨hresult, hi⟩ := hs
    rw [eolTurn] at hsr
    split_ifs at hsr with hlt
    · cases hc : eolChar string s.i <;> simp [hc] at hsr
    · obtain rfl : s.result = r' := by simpa using hsr
      omega

theorem not_convertEolToLf_lone : ¬ConvertEolToLf ['\r'] r := by
  -- `string.size() - 2` has wrapped, and the look-ahead reads `string[1]`
  have hout : eolTurn ['\r'] ⟨0, []⟩ = .inr none := rfl
  rw [ConvertEolToLf, ends_iff_of_inr hout]
  simp

/-- **The conversion is right on the texts it leaves as they are.** -/
theorem converts_iff (string : List Char) :
    Converts string ↔ ¬['\r', '\n'] <:+: string ∧ string ≠ ['\r'] ∧ string.length < 2 ^ 32 := by
  constructor
  · rintro ⟨r, hr, htoLf, -⟩
    have hlen : string.length < 2 ^ 32 := by
      by_contra hlong
      exact not_convertEolToLf_of_long (not_lt.mp hlong) hr
    refine ⟨fun hpair ↦ ?_, ?_, hlen⟩
    · have hshort := length_toLf_lt hpair
      rw [← htoLf, hr.length_eq hlen] at hshort
      exact lt_irrefl _ hshort
    · rintro rfl
      exact not_convertEolToLf_lone hr
  · rintro ⟨hpair, hone, hlen⟩
    have hself := convertEolToLf_self hpair hone hlen
    exact ⟨string, hself, (toLf_of_no_pair hpair).symm, hself⟩

/-- A carriage return and a line feed become two line feeds. -/
theorem not_converts_pair : ¬Converts ['\r', '\n'] := by
  rintro ⟨r, hr, htoLf, -⟩
  have hlen := hr.length_eq (by simp)
  simp [htoLf, toLf] at hlen

end Banjo.LineEndings
