import Banjo.Lib.FiniteMap

/-!
# Maps

A map is the array of its entries. `insert` appends one without looking for its key, and what looks
a key up stops at the first entry that has it. So a key inserted again keeps its first value and is
counted again.

A value of the map is compared with the finite map of the classes of keys, in which every insertion
sets the value of the key.
-/

open List

namespace Banjo.Stdlib

variable {K V : Type*}

/-- What maps ask of `Compare[K]`: `__eq__`. -/
class Compare (K : Type*) where
  eq : K → K → Bool

/-- `Map[K, V]`. The array is the list of its elements. -/
structure Map (K V : Type*) where
  elements : List (K × V)

namespace Map

def new : Map K V := ⟨[]⟩

/-- `from`, with the elements of the slice. -/
def ofSlice (slice : List (K × V)) : Map K V := ⟨slice⟩

/-- `__make__`, for a literal. -/
def make (slice : List (K × V)) : Map K V := ofSlice slice

def insert (m : Map K V) (key : K) (value : V) : Map K V := ⟨m.elements ++ [(key, value)]⟩

def length (m : Map K V) : ℕ := m.elements.length

variable [Compare K]

def contains (m : Map K V) (key : K) : Bool := m.elements.any fun element ↦ Compare.eq element.1 key

def tryGet (m : Map K V) (key : K) : Option V :=
  (m.elements.find? fun element ↦ Compare.eq element.1 key).map Prod.snd

/-- `__index__`; `none` is the panic for a key that is not there. -/
def index (m : Map K V) (key : K) : Option V :=
  match m.elements.find? fun element ↦ Compare.eq element.1 key with
  | some element => some element.2
  | none => none

end Map

/-! ## Runs -/

/-- How a map comes about. -/
inductive Map.Start (K V : Type*) where
  | new
  | literal (slice : List (K × V))

/-- The entries of a literal. -/
def Map.Start.entries : Map.Start K V → List (K × V)
  | .new => []
  | .literal slice => slice

def Map.start : Map.Start K V → Map K V
  | .new => new
  | .literal slice => make slice

/-- The map after insertions. -/
def Map.run (start : Map.Start K V) (inserts : List (K × V)) : Map K V :=
  inserts.foldl (fun m entry ↦ m.insert entry.1 entry.2) (Map.start start)

theorem Map.elements_run (start : Map.Start K V) (inserts : List (K × V)) :
    (Map.run start inserts).elements = start.entries ++ inserts := by
  induction inserts using List.reverseRecOn with
  | nil => rcases start with _ | slice <;> simp [run, Map.start, Start.entries, new, make, ofSlice]
  | append_singleton inserts entry ih =>
    rw [run, foldl_append, foldl_cons, foldl_nil, ← run, insert, ih, append_assoc]

/-! ## What is asked of them -/

variable [Compare K] (h : Equivalence fun a b : K ↦ Compare.eq a b = true)

/-- The classes of equal keys. -/
def Compare.setoid : Setoid K := ⟨_, h⟩

/-- The finite map in which each entry of a list has set the value of its key. -/
noncomputable def Map.spec (l : List (K × V)) : Quotient (Compare.setoid h) → Option V :=
  FiniteMap.ofEntries (l.map fun entry ↦ (⟦entry.1⟧, entry.2))

/-- A map agrees with a finite map: its lookups have the values of the classes, and its length is
the number of classes with a value. -/
structure Map.Agrees (m : Map K V) (spec : Quotient (Compare.setoid h) → Option V) : Prop where
  contains : ∀ key, m.contains key = (spec ⟦key⟧).isSome
  tryGet : ∀ key, m.tryGet key = spec ⟦key⟧
  index : ∀ key, m.index key = spec ⟦key⟧
  length : m.length = FiniteMap.size spec

/-! ## Lookups -/

theorem Compare.eq_iff (a b : K) :
    Compare.eq a b = true ↔ (⟦a⟧ : Quotient (Compare.setoid h)) = ⟦b⟧ :=
  (@Quotient.eq K (Compare.setoid h) a b).symm

variable (m : Map K V)

theorem Map.index_eq_tryGet (key : K) : m.index key = m.tryGet key := by
  rw [index, tryGet]
  split <;> next heq => rw [heq]; rfl

theorem Map.contains_eq_isSome (key : K) : m.contains key = (m.tryGet key).isSome := by
  rw [contains, tryGet, Option.isSome_map, Bool.eq_iff_iff, any_eq_true, find?_isSome]

/-- The first entry of a key, where no key comes twice. -/
theorem Map.tryGet_eq_spec {m : Map K V}
    (hnodup : (m.elements.map fun entry ↦ (⟦entry.1⟧ : Quotient (Compare.setoid h))).Nodup)
    (key : K) : m.tryGet key = spec h m.elements ⟦key⟧ :=
  (FiniteMap.ofEntries_map_of_nodup hnodup fun entry ↦ Compare.eq_iff h entry.1 key).symm

theorem Map.length_eq_size_iff : m.length = FiniteMap.size (spec h m.elements) ↔
    (m.elements.map fun entry ↦ (⟦entry.1⟧ : Quotient (Compare.setoid h))).Nodup := by
  have hsize := FiniteMap.size_eq_length_iff
    (m.elements.map fun entry ↦ ((⟦entry.1⟧ : Quotient (Compare.setoid h)), entry.2))
  rw [length_map, map_map] at hsize
  exact eq_comm.trans hsize

theorem Map.agrees_spec_iff : m.Agrees h (spec h m.elements) ↔
    (m.elements.map fun entry ↦ (⟦entry.1⟧ : Quotient (Compare.setoid h))).Nodup := by
  constructor
  · intro hagrees
    exact (length_eq_size_iff h m).mp hagrees.length
  · intro hnodup
    have hget := tryGet_eq_spec h hnodup
    exact ⟨fun key ↦ by rw [contains_eq_isSome, hget], hget,
      fun key ↦ by rw [index_eq_tryGet, hget], (length_eq_size_iff h m).mpr hnodup⟩

/-- **A map is the finite map as long as no key is inserted twice.** -/
theorem Map.agrees_iff_distinct (start : Map.Start K V) (inserts : List (K × V)) :
    (Map.run start inserts).Agrees h (Map.spec h (start.entries ++ inserts)) ↔
      (start.entries ++ inserts).Pairwise fun a b ↦ Compare.eq a.1 b.1 = false := by
  rw [← elements_run, agrees_spec_iff, List.Nodup, pairwise_map]
  refine List.Pairwise.iff fun a b ↦ ?_
  rw [← Bool.not_eq_true, Compare.eq_iff h]

section

private instance compareNat : Compare ℕ := ⟨fun a b ↦ a == b⟩

private theorem equivalence_compareNat : Equivalence fun a b : ℕ ↦ Compare.eq a b = true :=
  ⟨fun a ↦ beq_self_eq_true a, fun hab ↦ beq_iff_eq.mpr (beq_iff_eq.mp hab).symm,
    fun hab hbc ↦ beq_iff_eq.mpr ((beq_iff_eq.mp hab).trans (beq_iff_eq.mp hbc))⟩

theorem Map.agrees_iff_distinct_two : (Map.run (.literal [(1, true)]) [(2, false)]).Agrees
    equivalence_compareNat (Map.spec equivalence_compareNat [(1, true), (2, false)]) :=
  (agrees_iff_distinct equivalence_compareNat (.literal [(1, true)]) [(2, false)]).mpr
    (by decide)

/-- The first value of a key stays. -/
theorem Map.not_agrees_again : ¬(Map.run .new [(1, true), (1, false)]).Agrees
    equivalence_compareNat (Map.spec equivalence_compareNat [(1, true), (1, false)]) := by
  intro hagrees
  have hnodup := (agrees_spec_iff equivalence_compareNat _).mp hagrees
  simp [run, Map.start, new, insert] at hnodup

end

end Banjo.Stdlib
