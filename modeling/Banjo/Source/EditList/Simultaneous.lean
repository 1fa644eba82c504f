import Banjo.Source.EditList
import Mathlib.Algebra.Order.Group.Nat
import Mathlib.Data.List.Pairwise

/-!
# Simultaneous replacement

What a list of edits with ranges apart from each other makes of a text, position by position: the
texts inserted at the position in the order they were added, then the text of the range that starts
at it, then the character there unless it lies in a range. A replacement by what stands in the range
already changes nothing, so what is not recorded is not missed.
-/

open List

namespace Banjo.EditList

variable {content : List Char} {edits : List Edit} {e f : Edit} {p : ℕ}

/-! ## The text after the edits -/

def InsertsAt (edit : Edit) (p : ℕ) : Prop := edit.range.start = p ∧ edit.range.stop = p

def ReplacesAt (edit : Edit) (p : ℕ) : Prop := edit.range.start = p ∧ p < edit.range.stop

def Covers (edit : Edit) (p : ℕ) : Prop := edit.range.start ≤ p ∧ p < edit.range.stop

instance (edit : Edit) (p : ℕ) : Decidable (InsertsAt edit p) := instDecidableAnd

instance (edit : Edit) (p : ℕ) : Decidable (ReplacesAt edit p) := instDecidableAnd

instance (edit : Edit) (p : ℕ) : Decidable (Covers edit p) := instDecidableAnd

/-- The texts of the edits of a kind, in the order of the list. -/
def texts (edits : List Edit) (kind : Edit → Prop) [DecidablePred kind] : List Char :=
  (edits.filter (kind ·)).flatMap Edit.replacement

/-- The character at a position, unless it lies in a range. -/
def kept (content : List Char) (edits : List Edit) (p : ℕ) : List Char :=
  if ∃ e ∈ edits, Covers e p then [] else content[p]?.toList

/-- What a position gives. -/
def outAt (content : List Char) (edits : List Edit) (p : ℕ) : List Char :=
  texts edits (InsertsAt · p) ++ texts edits (ReplacesAt · p) ++ kept content edits p

/-- What the positions from one up to another give. -/
def outFrom (content : List Char) (edits : List Edit) (a b : ℕ) : List Char :=
  (List.range' a (b - a)).flatMap (outAt content edits)

/-- The text with each range replaced, the end of the text included for insertions there. -/
def replaceAtOnce (content : List Char) (edits : List Edit) : List Char :=
  outFrom content edits 0 (content.length + 1)

/-- One range ends before the other starts, or where it starts. -/
def Apart (e f : Edit) : Prop := e.range.stop ≤ f.range.start ∨ f.range.stop ≤ e.range.start

instance : DecidableRel Apart := fun _ _ ↦ instDecidableOr

theorem Apart.symm (h : Apart e f) : Apart f e := Or.symm h

/-- A range of the text, at `unsigned` positions. -/
def InText (content : List Char) (range : TextRange) : Prop :=
  range.start ≤ range.stop ∧ range.stop ≤ content.length ∧ range.stop < 2 ^ 32

instance (content : List Char) (range : TextRange) : Decidable (InText content range) :=
  instDecidableAnd

/-! ## Segments of the output -/

theorem outFrom_self (a : ℕ) : outFrom content edits a a = [] := by
  simp [outFrom]

variable {a b : ℕ}

theorem outFrom_append {c : ℕ} (hab : a ≤ b) (hbc : b ≤ c) :
    outFrom content edits a c = outFrom content edits a b ++ outFrom content edits b c := by
  obtain ⟨m, rfl⟩ := Nat.exists_eq_add_of_le hab
  obtain ⟨n, rfl⟩ := Nat.exists_eq_add_of_le hbc
  rw [outFrom, outFrom, outFrom, ← flatMap_append]
  have h := range'_append_1 (s := a) (m := m) (n := n)
  rw [show a + m - a = m by omega, show a + m + n - (a + m) = n by omega,
    show a + m + n - a = m + n by omega, h]

theorem outFrom_succ (h : a < b) :
    outFrom content edits a b = outAt content edits a ++ outFrom content edits (a + 1) b := by
  rw [outFrom_append (Nat.le_succ a) h]
  simp [outFrom]

theorem outFrom_congr {edits' : List Edit}
    (h : ∀ p, a ≤ p → p < b → outAt content edits p = outAt content edits' p) :
    outFrom content edits a b = outFrom content edits' a b := by
  refine flatMap_congr fun p hp ↦ ?_
  rw [mem_range'_1] at hp
  exact h p hp.1 (by omega)

theorem outFrom_eq_nil (h : ∀ p, a ≤ p → p < b → outAt content edits p = []) :
    outFrom content edits a b = [] := by
  rw [outFrom, flatMap_eq_nil_iff]
  intro p hp
  rw [mem_range'_1] at hp
  exact h p hp.1 (by omega)

/-- Where nothing is inserted and nothing replaced the text comes through. -/
theorem outFrom_of_kept (hb : b ≤ content.length)
    (h : ∀ p, a ≤ p → p < b → outAt content edits p = content[p]?.toList) :
    outFrom content edits a b = (content.drop a).take (b - a) := by
  rcases Nat.le_total b a with hba | hab
  · simp [outFrom, Nat.sub_eq_zero_of_le hba]
  · obtain ⟨n, rfl⟩ := Nat.exists_eq_add_of_le hab
    rw [Nat.add_sub_cancel_left]
    induction n generalizing a with
    | zero => simp [outFrom_self]
    | succ n ih =>
      have ha : a < content.length := by omega
      rw [outFrom_succ (by omega), h a le_rfl (by omega), drop_eq_getElem_cons ha,
        getElem?_eq_getElem ha, take_succ_cons, show a + (n + 1) = a + 1 + n by omega,
        ih (by omega) (fun p hp hp' ↦ h p (by omega) (by omega)) (by omega)]
      rfl

/-! ## Edits a position does not see -/

theorem texts_append (a b : List Edit) (kind : Edit → Prop) [DecidablePred kind] :
    texts (a ++ b) kind = texts a kind ++ texts b kind := by
  simp [texts]

variable (es : List Edit) {kind : Edit → Prop}

theorem texts_cons_of_pos [DecidablePred kind]
    (h : kind e) : texts (e :: es) kind = e.replacement ++ texts es kind := by
  simp [texts, h]

theorem texts_cons_of_neg [DecidablePred kind]
    (h : ¬kind e) : texts (e :: es) kind = texts es kind := by
  simp [texts, h]

theorem texts_eq_nil [DecidablePred kind] (h : ∀ e ∈ edits, ¬kind e) : texts edits kind = [] := by
  simp only [texts, flatMap_eq_nil_iff, mem_filter, decide_eq_true_eq]
  exact fun e ⟨he, hkind⟩ ↦ absurd hkind (h e he)

theorem texts_insert_of_neg (a b : List Edit) [DecidablePred kind]
    (h : ¬kind e) : texts (a ++ e :: b) kind = texts (a ++ b) kind := by
  rw [texts_append, texts_append, texts_cons_of_neg b h]

theorem kept_insert_of_not_covers (a b : List Edit) (h : ¬Covers e p) :
    kept content (a ++ e :: b) p = kept content (a ++ b) p := by
  have hiff : (∃ f ∈ a ++ e :: b, Covers f p) ↔ ∃ f ∈ a ++ b, Covers f p := by
    simp only [mem_append, mem_cons]
    constructor
    · rintro ⟨f, hf | rfl | hf, hcovers⟩
      · exact ⟨f, .inl hf, hcovers⟩
      · exact absurd hcovers h
      · exact ⟨f, .inr hf, hcovers⟩
    · rintro ⟨f, hf | hf, hcovers⟩
      · exact ⟨f, .inl hf, hcovers⟩
      · exact ⟨f, .inr (.inr hf), hcovers⟩
  simp only [kept, hiff]

theorem kept_of_not_covers (h : ∀ e ∈ edits, ¬Covers e p) :
    kept content edits p = content[p]?.toList :=
  if_neg fun ⟨e, he, hcovers⟩ ↦ h e he hcovers

theorem kept_of_covers (he : e ∈ edits) (h : Covers e p) : kept content edits p = [] :=
  if_pos ⟨e, he, h⟩

theorem kept_cons_of_not_covers (h : ¬Covers e p) : kept content (e :: es) p = kept content es p :=
  kept_insert_of_not_covers [] es h

theorem outAt_cons_away (hstart : e.range.start ≠ p) (hcovers : ¬Covers e p) :
    outAt content (e :: es) p = outAt content es p := by
  rw [outAt, outAt, kept_cons_of_not_covers es hcovers, texts_cons_of_neg es fun h ↦ hstart h.1,
    texts_cons_of_neg es fun h ↦ hstart h.1]

/-! ## A replacement by what is there -/

/-- The edit puts what stands in its range. -/
def Idle (content : List Char) (e : Edit) : Prop := e.replacement = textIn content e.range

theorem outAt_insert_away {a b : List Edit} (hidle : Idle content e)
    (hp : p < e.range.start ∨ e.range.stop ≤ p) :
    outAt content (a ++ e :: b) p = outAt content (a ++ b) p := by
  have hcovers : ¬Covers e p := by
    rintro ⟨h, h'⟩
    omega
  have hinserts : texts (a ++ e :: b) (InsertsAt · p) = texts (a ++ b) (InsertsAt · p) := by
    by_cases h : InsertsAt e p
    · have hnil : e.replacement = [] := by
        rw [hidle, textIn, h.1, h.2, Nat.sub_self, take_zero]
      rw [texts_append, texts_append, texts_cons_of_pos b h, hnil, nil_append]
    · exact texts_insert_of_neg a b h
  rw [outAt, outAt, hinserts, texts_insert_of_neg a b fun h ↦ hcovers ⟨h.1.le, h.2⟩,
    kept_insert_of_not_covers a b hcovers]

section Range

variable {a b : List Edit} (hapart : ∀ f ∈ a ++ b, Apart e f)

include hapart

theorem not_covers_of_apart (hcovers : Covers e p) : ∀ f ∈ a ++ b, ¬Covers f p := by
  rintro f hf ⟨h, h'⟩
  obtain ⟨he, he'⟩ := hcovers
  rcases hapart f hf with hle | hle <;> omega

theorem not_replacesAt_of_apart (hcovers : Covers e p) : ∀ f ∈ a ++ b, ¬ReplacesAt f p :=
  fun f hf h ↦ not_covers_of_apart hapart hcovers f hf ⟨h.1.le, h.2⟩

theorem not_insertsAt_of_apart (hp : e.range.start < p) (hp' : p < e.range.stop) :
    ∀ f ∈ a ++ b, ¬InsertsAt f p := by
  rintro f hf ⟨h, h'⟩
  rcases hapart f hf with hle | hle <;> omega

/-- Inside the range the edit stands for everything. -/
theorem outFrom_range (hlt : e.range.start < e.range.stop) :
    outFrom content (a ++ e :: b) e.range.start e.range.stop
      = texts (a ++ b) (InsertsAt · e.range.start) ++ e.replacement := by
  have hmem : e ∈ a ++ e :: b := by simp
  have hreplacing := not_replacesAt_of_apart hapart (p := e.range.start) ⟨le_rfl, hlt⟩
  have hfirst : outAt content (a ++ e :: b) e.range.start
      = texts (a ++ b) (InsertsAt · e.range.start) ++ e.replacement := by
    have hreplaces : texts (a ++ e :: b) (ReplacesAt · e.range.start) = e.replacement := by
      rw [texts_append, texts_cons_of_pos b (show ReplacesAt e e.range.start from ⟨rfl, hlt⟩),
        texts_eq_nil fun f hf ↦ hreplacing f (mem_append_left b hf),
        texts_eq_nil fun f hf ↦ hreplacing f (mem_append_right a hf), nil_append, append_nil]
    rw [outAt, kept_of_covers hmem ⟨le_rfl, hlt⟩, texts_insert_of_neg a b fun h ↦ hlt.ne' h.2,
      hreplaces, append_nil]
  have hrest : outFrom content (a ++ e :: b) (e.range.start + 1) e.range.stop = [] := by
    refine outFrom_eq_nil fun p hp hp' ↦ ?_
    have hcovers : Covers e p := ⟨by omega, hp'⟩
    rw [outAt, kept_of_covers hmem hcovers, texts_insert_of_neg a b fun h ↦ hp'.ne' h.2,
      texts_insert_of_neg a b fun h ↦ (show e.range.start ≠ p by omega) h.1,
      texts_eq_nil (not_insertsAt_of_apart hapart (by omega) hp'),
      texts_eq_nil (not_replacesAt_of_apart hapart hcovers)]
    rfl
  rw [outFrom_succ hlt, hfirst, hrest, append_nil]

theorem outFrom_range_without (hlt : e.range.start < e.range.stop)
    (hstop : e.range.stop ≤ content.length) :
    outFrom content (a ++ b) e.range.start e.range.stop
      = texts (a ++ b) (InsertsAt · e.range.start) ++ textIn content e.range := by
  have hstart : e.range.start < content.length := by omega
  have hfirst : outAt content (a ++ b) e.range.start
      = texts (a ++ b) (InsertsAt · e.range.start) ++ [content[e.range.start]] := by
    rw [outAt, kept_of_not_covers (not_covers_of_apart hapart ⟨le_rfl, hlt⟩),
      texts_eq_nil (not_replacesAt_of_apart hapart ⟨le_rfl, hlt⟩),
      getElem?_eq_getElem hstart, append_nil]
    rfl
  have hrest : outFrom content (a ++ b) (e.range.start + 1) e.range.stop
      = (content.drop (e.range.start + 1)).take (e.range.stop - (e.range.start + 1)) := by
    refine outFrom_of_kept hstop fun p hp hp' ↦ ?_
    have hcovers : Covers e p := ⟨by omega, hp'⟩
    rw [outAt, kept_of_not_covers (not_covers_of_apart hapart hcovers),
      texts_eq_nil (not_insertsAt_of_apart hapart (by omega) hp'),
      texts_eq_nil (not_replacesAt_of_apart hapart hcovers)]
    rfl
  rw [outFrom_succ hlt, hfirst, hrest, append_assoc, textIn, drop_eq_getElem_cons hstart,
    show e.range.stop - e.range.start = e.range.stop - (e.range.start + 1) + 1 by omega,
    take_succ_cons]
  rfl

end Range

theorem replaceAtOnce_idle {a b : List Edit} (he : InText content e.range)
    (hidle : Idle content e) (hapart : ∀ f ∈ a ++ b, Apart e f) :
    replaceAtOnce content (a ++ e :: b) = replaceAtOnce content (a ++ b) := by
  obtain ⟨hle, hstop, -⟩ := he
  rcases hle.eq_or_lt with heq | hlt
  · exact outFrom_congr fun p _ _ ↦ outAt_insert_away hidle (by omega)
  · have hsplit : ∀ es, replaceAtOnce content es
        = outFrom content es 0 e.range.start ++ (outFrom content es e.range.start e.range.stop
          ++ outFrom content es e.range.stop (content.length + 1)) := by
      intro es
      rw [replaceAtOnce, outFrom_append (b := e.range.start) (Nat.zero_le _) (by omega),
        outFrom_append (a := e.range.start) hle (by omega)]
    rw [hsplit, hsplit, outFrom_range hapart hlt, outFrom_range_without hapart hlt hstop, hidle,
      outFrom_congr fun p _ hp ↦ outAt_insert_away (a := a) (b := b) hidle (.inl hp),
      outFrom_congr fun p hp _ ↦ outAt_insert_away (a := a) (b := b) hidle (.inr hp)]

/-- The edits that put what stands there can all be left out. -/
theorem replaceAtOnce_filter {α : Type*} (edit : α → Edit) (keep : α → Bool) (a : List Edit)
    (l : List α) (hrange : ∀ u ∈ l, InText content (edit u).range)
    (hapart : (a ++ l.map edit).Pairwise Apart)
    (hidle : ∀ u ∈ l, keep u = false → Idle content (edit u)) :
    replaceAtOnce content (a ++ l.map edit)
      = replaceAtOnce content (a ++ (l.filter keep).map edit) := by
  induction l generalizing a with
  | nil => rfl
  | cons u l ih =>
    have hrange' : ∀ v ∈ l, InText content (edit v).range :=
      fun v hv ↦ hrange v (mem_cons_of_mem u hv)
    have hidle' : ∀ v ∈ l, keep v = false → Idle content (edit v) :=
      fun v hv ↦ hidle v (mem_cons_of_mem u hv)
    rw [map_cons] at hapart ⊢
    cases hkeep : keep u with
    | true =>
      rw [filter_cons_of_pos hkeep, map_cons, ← singleton_append, ← append_assoc,
        ih (a ++ [edit u]) hrange' (by simpa using hapart) hidle', append_assoc]
      rfl
    | false =>
      have hfrom : ∀ f ∈ a ++ l.map edit, Apart (edit u) f := by
        have h := (pairwise_middle fun h ↦ Apart.symm h).mp hapart
        exact (pairwise_cons.mp h).1
      have hwithout : (a ++ l.map edit).Pairwise Apart :=
        hapart.sublist ((sublist_cons_self (edit u) (l.map edit)).append_left a)
      rw [replaceAtOnce_idle (hrange u mem_cons_self) (hidle u mem_cons_self hkeep) hfrom,
        ih a hrange' hwithout hidle', filter_cons_of_neg (by simp [hkeep])]

end Banjo.EditList
