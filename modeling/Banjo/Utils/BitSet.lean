import Banjo.Lib.Loops
import Mathlib.Data.BitVec

/-!
# Bit sets

A `BitSet` keeps its members as the bits of words of 64 bits, as many as were needed so far. The
iteration goes over the bits in order and leaves out those that are zero. Positions are 32 bits wide
there, and so is the one of the end.
-/

open List

namespace Banjo

open Loops

structure BitSet where
  words : List (BitVec 64)

namespace BitSet

/-! ## Code -/

def getWordIndex (position : ℕ) : ℕ := position / 64

def getMask (position : ℕ) : BitVec 64 := 1#64 <<< (position % 64)

/-- `words.resize` to no fewer words. -/
def resize (words : List (BitVec 64)) (size : ℕ) : List (BitVec 64) :=
  words ++ replicate (size - words.length) 0

/-- `words[index]`. -/
def word (s : BitSet) (index : ℕ) : BitVec 64 := s.words[index]?.getD 0

def get (s : BitSet) (position : ℕ) : Bool :=
  if getWordIndex position ≥ s.words.length then false
  else s.word (getWordIndex position) &&& getMask position ≠ 0

def set (s : BitSet) (position : ℕ) : BitSet :=
  let words := if getWordIndex position ≥ s.words.length then
    resize s.words (getWordIndex position + 1) else s.words
  ⟨words.modify (getWordIndex position) (· ||| getMask position)⟩

def clear (s : BitSet) (position : ℕ) : BitSet :=
  if getWordIndex position ≥ s.words.length then s
  else ⟨s.words.modify (getWordIndex position) (· &&& ~~~getMask position)⟩

/-- What `union_with` returns, and the set after it. -/
def unionWith (s other : BitSet) : Unit × BitSet :=
  let words := if s.words.length < other.words.length then
    resize s.words other.words.length else s.words
  ((), ⟨words.mapIdx fun i w ↦ if i < other.words.length then w ||| other.word i else w⟩)

/-- A turn of the `while` in `advance`. -/
def advanceTurn (s : BitSet) (position : ℕ) : ℕ ⊕ ℕ :=
  if getWordIndex position < s.words.length ∧
      s.word (getWordIndex position) &&& getMask position = 0 then
    .inl (next position)
  else
    .inr position

/-- The positions a `for` visits from an iterator on. -/
inductive Visits (s : BitSet) (last : ℕ) : ℕ → List ℕ → Prop where
  | stop : Visits s last last []
  | step {position after : ℕ} {rest : List ℕ} : position ≠ last →
      Ends (advanceTurn s) (next position) after → Visits s last after rest →
      Visits s last position (position :: rest)

/-- The positions a `for` visits from `begin()` to `end()`. -/
def Iterates (s : BitSet) (positions : List ℕ) : Prop :=
  ∃ first last, Ends (advanceTurn s) 0 first ∧
    Ends (advanceTurn s) (s.words.length * 64 % 2 ^ 32) last ∧ Visits s last first positions

/-- What a sequence of operations on bit sets makes of one, and the set of indices it stands for. -/
inductive Built : BitSet → Finset ℕ → Prop where
  | empty : Built ⟨[]⟩ ∅
  | set {s : BitSet} {F : Finset ℕ} (position : ℕ) : Built s F →
      Built (s.set position) (insert position F)
  | clear {s : BitSet} {F : Finset ℕ} (position : ℕ) : Built s F →
      Built (s.clear position) (F.erase position)
  | union {s other : BitSet} {F G : Finset ℕ} : Built s F → Built other G →
      Built (s.unionWith other).2 (F ∪ G)

/-! ## Words -/

variable {s other : BitSet} {F : Finset ℕ} {i position index : ℕ}

theorem and_mask_ne_zero (w : BitVec 64) (position : ℕ) :
    w &&& getMask position ≠ 0 ↔ w.getLsbD (position % 64) = true := by
  have hbit : BitVec.twoPow 64 (position % 64) ≠ 0#64 := by
    intro hzero
    have hself : (BitVec.twoPow 64 (position % 64)).getLsbD (position % 64) = true := by
      simp [Nat.mod_lt]
    rw [hzero] at hself
    simp at hself
  rw [getMask, ← BitVec.twoPow_eq, BitVec.and_twoPow]
  by_cases h : w.getLsbD (position % 64) = true
  · simpa [h] using hbit
  · simp [h]

theorem word_of_le (h : s.words.length ≤ index) : s.word index = 0 := by
  rw [word, getElem?_eq_none h]
  rfl

/-- A member is a bit of its word. -/
theorem get_iff : s.get position = true ↔
    (s.word (position / 64)).getLsbD (position % 64) = true := by
  rw [get, getWordIndex]
  by_cases h : position / 64 ≥ s.words.length
  · rw [if_pos h, word_of_le h]
    simp
  · rw [if_neg h, decide_eq_true_eq]
    exact and_mask_ne_zero _ _

theorem getElem?_resize (s : BitSet) (size index : ℕ) :
    (resize s.words size)[index]?.getD 0 = s.word index := by
  rw [resize, getElem?_append, word]
  by_cases h : index < s.words.length
  · rw [if_pos h]
  · rw [if_neg h, getElem?_eq_none (not_lt.mp h), getElem?_replicate]
    split_ifs <;> rfl

theorem length_resize (words : List (BitVec 64)) (size : ℕ) :
    (resize words size).length = max words.length size := by
  rw [resize, length_append, length_replicate]
  omega

/-- Where there are words enough, `resize` does nothing. -/
theorem ite_resize {p : Prop} [Decidable p] {words : List (BitVec 64)} {size : ℕ}
    (h : ¬p → size ≤ words.length) :
    (if p then resize words size else words) = resize words size := by
  split_ifs with hp
  · rfl
  · rw [resize, Nat.sub_eq_zero_of_le (h hp), replicate_zero, append_nil]

theorem word_set (position index : ℕ) : (s.set position).word index
    = if position / 64 = index then s.word index ||| getMask position else s.word index := by
  have hsame := getElem?_resize s (position / 64 + 1) index
  rw [set, getWordIndex, word, ite_resize (by omega), getElem?_modify]
  by_cases heq : position / 64 = index
  · have hin : index < (resize s.words (position / 64 + 1)).length := by
      rw [length_resize]
      omega
    rw [getElem?_eq_getElem hin] at hsame ⊢
    simpa [heq] using congrArg (· ||| getMask position) hsame
  · simpa [heq] using hsame

theorem word_clear (position index : ℕ) : (s.clear position).word index
    = if position / 64 = index then s.word index &&& ~~~getMask position else s.word index := by
  rw [clear, getWordIndex]
  by_cases h : position / 64 ≥ s.words.length
  · rw [if_pos h]
    by_cases heq : position / 64 = index
    · rw [if_pos heq, word_of_le (heq ▸ h)]
      simp
    · rw [if_neg heq]
  · rw [if_neg h, word, getElem?_modify]
    by_cases heq : position / 64 = index
    · simp [heq, word, getElem?_eq_getElem (heq ▸ not_le.mp h)]
    · simp [heq, word]

theorem word_unionWith (index : ℕ) :
    (s.unionWith other).2.word index = s.word index ||| other.word index := by
  have hsame := getElem?_resize s other.words.length index
  have hlength := length_resize s.words other.words.length
  rw [unionWith, word, ite_resize not_lt.mp, getElem?_mapIdx]
  by_cases hin : index < (resize s.words other.words.length).length
  · rw [getElem?_eq_getElem hin] at hsame ⊢
    by_cases hother : index < other.words.length
    · simpa [hother] using congrArg (· ||| other.word index) hsame
    · simpa [hother, word_of_le (not_lt.mp hother)] using hsame
  · rw [getElem?_eq_none (not_lt.mp hin)] at hsame ⊢
    rw [← hsame, word_of_le (by omega)]
    rfl

/-! ## Members -/

theorem getLsbD_getMask (position : ℕ) (k : ℕ) :
    (getMask position).getLsbD k = decide (position % 64 = k) := by
  rw [getMask, ← BitVec.twoPow_eq, BitVec.getLsbD_twoPow]
  have hlt : position % 64 < 64 := Nat.mod_lt _ (by decide)
  by_cases h : position % 64 = k
  · simp only [h, decide_true, Bool.and_true, decide_eq_true_eq]
    omega
  · simp [h]

theorem get_set : (s.set position).get i = true ↔ i = position ∨ s.get i = true := by
  rw [get_iff, get_iff, word_set]
  by_cases h : position / 64 = i / 64
  · have heq : position % 64 = i % 64 ↔ i = position := by omega
    rw [if_pos h, BitVec.getLsbD_or, getLsbD_getMask, Bool.or_eq_true, decide_eq_true_eq, heq,
      or_comm]
  · have hne : i ≠ position := fun heq ↦ h (by rw [heq])
    simp [h, hne]

theorem get_clear : (s.clear position).get i = true ↔ i ≠ position ∧ s.get i = true := by
  rw [get_iff, get_iff, word_clear]
  by_cases h : position / 64 = i / 64
  · have heq : position % 64 = i % 64 ↔ i = position := by omega
    have hlt : i % 64 < 64 := Nat.mod_lt _ (by decide)
    rw [if_pos h, BitVec.getLsbD_and, BitVec.getLsbD_not, getLsbD_getMask, Bool.and_eq_true,
      and_comm]
    simp [hlt, heq]
  · have hne : i ≠ position := fun heq ↦ h (by rw [heq])
    simp [h, hne]

theorem get_unionWith :
    (s.unionWith other).2.get i = true ↔ s.get i = true ∨ other.get i = true := by
  rw [get_iff, get_iff, get_iff, word_unionWith, BitVec.getLsbD_or, Bool.or_eq_true]

theorem Built.get_iff_mem (h : Built s F) : s.get i = true ↔ i ∈ F := by
  induction h with
  | empty => simp [get]
  | set position _ ih => rw [get_set, ih, Finset.mem_insert]
  | clear position _ ih => rw [get_clear, ih, Finset.mem_erase]
  | union _ _ ih ih' => rw [get_unionWith, ih, ih', Finset.mem_union]

/-! ## Iteration -/

theorem advanceTurn_eq (s : BitSet) (position : ℕ) : advanceTurn s position
    = if position < s.words.length * 64 ∧ s.get position = false then .inl (next position)
      else .inr position := by
  have hlt : position / 64 < s.words.length ↔ position < s.words.length * 64 := by omega
  simp only [advanceTurn, getWordIndex, hlt, ← Bool.not_eq_true, get_iff, ← and_mask_ne_zero,
    not_not]

theorem lt_of_get (h : s.get i = true) : i < s.words.length * 64 := by
  by_contra hle
  rw [get, getWordIndex, if_pos (by omega)] at h
  cases h

variable (hsize : s.words.length < 2 ^ 26)

include hsize

/-- `advance` stops at the next member, or at the end. -/
theorem exists_advance (hle : position ≤ s.words.length * 64) :
    ∃ after, Ends (advanceTurn s) position after ∧ position ≤ after ∧
      after ≤ s.words.length * 64 ∧ (∀ i, position ≤ i → i < after → s.get i = false) ∧
      (after < s.words.length * 64 → s.get after = true) := by
  induction hrest : s.words.length * 64 - position generalizing position with
  | zero =>
    obtain rfl : position = s.words.length * 64 := by omega
    refine ⟨_, ends_of_inr ?_, le_rfl, le_rfl, fun i hi hi' ↦ by omega, fun h ↦ by omega⟩
    rw [advanceTurn_eq, if_neg (by omega)]
  | succ rest ih =>
    have hlt : position < s.words.length * 64 := by omega
    cases hget : s.get position with
    | true =>
      refine ⟨position, ends_of_inr ?_, le_rfl, hle, fun i hi hi' ↦ by omega, fun _ ↦ hget⟩
      rw [advanceTurn_eq, if_neg (by simp [hget])]
    | false =>
      have hnext : position + 1 ≤ s.words.length * 64 := hlt
      obtain ⟨after, hends, hpos, hafter, hnone, hmem⟩ := ih hnext (by omega)
      refine ⟨after, (ends_iff_of_inl ?_).mpr hends, by omega, hafter, fun i hi hi' ↦ ?_, hmem⟩
      · rw [advanceTurn_eq, if_pos ⟨hlt, hget⟩, next_eq (by omega)]
      · rcases Nat.eq_or_lt_of_le hi with rfl | hi
        · exact hget
        · exact hnone i hi hi'

theorem exists_visits (hle : position ≤ s.words.length * 64)
    (hmem : position < s.words.length * 64 → s.get position = true) :
    ∃ positions, Visits s (s.words.length * 64) position positions ∧
      positions.Pairwise (· < ·) ∧ ∀ i, i ∈ positions ↔ position ≤ i ∧ s.get i = true := by
  induction hrest : s.words.length * 64 - position using Nat.strongRecOn generalizing position with
  | _ rest ih =>
    rcases Nat.eq_or_lt_of_le hle with rfl | hlt
    · refine ⟨[], .stop, .nil, fun i ↦ iff_of_false (by simp) ?_⟩
      exact fun h ↦ absurd (lt_of_get h.2) (by omega)
    · obtain ⟨after, hends, hpos, hafter, hnone, hnext⟩ := exists_advance hsize hlt
      obtain ⟨positions, hvisits, hsorted, hiff⟩ := ih _ (by omega) hafter hnext rfl
      have hstep : next position = position + 1 := next_eq (by omega)
      refine ⟨position :: positions, .step (by omega) (hstep ▸ hends) hvisits,
        pairwise_cons.mpr ⟨fun i hi ↦ by have := ((hiff i).mp hi).1; omega, hsorted⟩, fun i ↦ ?_⟩
      rw [mem_cons, hiff]
      constructor
      · rintro (rfl | ⟨hi, hget⟩)
        · exact ⟨le_rfl, hmem hlt⟩
        · exact ⟨by omega, hget⟩
      · rintro ⟨hi, hget⟩
        by_cases hi' : after ≤ i
        · exact .inr ⟨hi', hget⟩
        · -- what is left out on the way is no member
          refine .inl (by_contra fun hne ↦ ?_)
          rw [hnone i (by omega) (by omega)] at hget
          cases hget

omit hsize

/-- **A bit set is the set its operations make**, and the iteration over one whose positions fit
into 32 bits visits its members in order and ends. -/
theorem represents_of_built (h : Built s F) : (∀ i, s.get i = true ↔ i ∈ F) ∧
    (s.words.length < 2 ^ 26 → ∃ positions, s.Iterates positions ∧ positions.Pairwise (· < ·) ∧
      ∀ i, i ∈ positions ↔ i ∈ F) := by
  refine ⟨fun i ↦ h.get_iff_mem, fun hsize ↦ ?_⟩
  obtain ⟨first, hfirst, -, hle, hnone, hmem⟩ := exists_advance hsize (Nat.zero_le _)
  obtain ⟨positions, hvisits, hsorted, hiff⟩ := exists_visits hsize hle hmem
  have hlast : Ends (advanceTurn s) (s.words.length * 64 % 2 ^ 32) (s.words.length * 64) := by
    rw [Nat.mod_eq_of_lt (by omega)]
    refine ends_of_inr ?_
    rw [advanceTurn_eq, if_neg (by omega)]
  refine ⟨positions, ⟨first, _, hfirst, hlast, hvisits⟩, hsorted, fun i ↦ ?_⟩
  rw [hiff, ← h.get_iff_mem, and_iff_right_iff_imp]
  intro hget
  by_contra hlt
  rw [hnone i (Nat.zero_le i) (not_le.mp hlt)] at hget
  cases hget

theorem represents_of_built_pair : (∀ i, ((⟨[]⟩ : BitSet).set 64 |>.clear 3).get i = true ↔
    i ∈ (insert 64 ∅ : Finset ℕ).erase 3) ∧
    (((⟨[]⟩ : BitSet).set 64 |>.clear 3).words.length < 2 ^ 26 → ∃ positions,
      ((⟨[]⟩ : BitSet).set 64 |>.clear 3).Iterates positions ∧ positions.Pairwise (· < ·) ∧
      ∀ i, i ∈ positions ↔ i ∈ (insert 64 ∅ : Finset ℕ).erase 3) :=
  represents_of_built (.clear 3 (.set 64 .empty))

/-- `union_with` returns nothing that could tell a set that grew from one that did not. -/
theorem not_reports_change : ¬∃ reports : Unit → Prop, ∀ s other : BitSet,
    reports (s.unionWith other).1 ↔ ∃ i, (s.unionWith other).2.get i = true ∧ s.get i = false := by
  rintro ⟨reports, hreports⟩
  have hgrown : reports () := (hreports ⟨[]⟩ ⟨[1]⟩).mpr ⟨0, by decide, by decide⟩
  obtain ⟨i, hi, -⟩ := (hreports ⟨[]⟩ ⟨[]⟩).mp hgrown
  simp [get, unionWith] at hi

end BitSet

end Banjo
