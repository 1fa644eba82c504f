import Banjo.Emit.BinaryBuilder
import Banjo.Lib.OptionLists
import Mathlib.Data.List.GetD

/-!
# Relaxing branches

Relaxing a branch makes its slice longer and pushes the slices after it out by as much, so the
offsets stay the places of the slices. When a round relaxes nothing, every branch that is still
short has been seen to reach its target, but for `jg`, which is never relaxed: its opcode is just
past the end of the range that is tested. Resolving such a branch makes its slice longer after the
offsets are fixed.
-/

open List Option

namespace Banjo.Emit

open WriteBuffer OptionLists

/-! ## Where slices are -/

theorem sum_take_set {a c : ℕ} : ∀ {l : List ℕ} {i : ℕ}, l[i]? = some a → ∀ k,
    ((l.set i (a + c)).take k).sum = (l.take k).sum + if i < k then c else 0 := by
  intro l
  induction l with
  | nil => exact fun h ↦ absurd h (by simp)
  | cons head rest ih =>
    intro i h k
    cases k with
    | zero => simp
    | succ k =>
      cases i with
      | zero =>
        obtain rfl := some.inj h
        rw [set_cons_zero, take_succ_cons, take_succ_cons, sum_cons,
          sum_cons, if_pos (Nat.succ_pos k)]
        omega
      | succ i =>
        rw [getElem?_cons_succ] at h
        rw [set_cons_succ, take_succ_cons, take_succ_cons, sum_cons, sum_cons, ih h k]
        simp only [Nat.add_lt_add_iff_right]
        omega

def lengths (slices : List SectionSlice) : List ℕ := slices.map fun slice ↦ slice.buffer.length

/-- Where a slice begins in the bytes of the section. -/
def start (slices : List SectionSlice) (k : ℕ) : ℕ := ((lengths slices).take k).sum

/-- The place of a slice and an offset in it. -/
def position (slices : List SectionSlice) (mark : ℕ × ℕ) : ℕ := start slices mark.1 + mark.2

/-- The offsets are where the slices begin. -/
def Placed (slices : List SectionSlice) : Prop :=
  ∀ {k slice}, slices[k]? = some slice → slice.offset = start slices k

theorem lengths_getElem? {slices : List SectionSlice} {k : ℕ} {slice : SectionSlice}
    (h : slices[k]? = some slice) : (lengths slices)[k]? = some slice.buffer.length := by
  rw [lengths, getElem?_map, h]
  rfl

variable (slices : List SectionSlice)

theorem start_zero : start slices 0 = 0 := by
  rw [start, take_zero, sum_nil]

theorem computeSliceOffsets_spec : ∀ (slices : List SectionSlice) (base k : ℕ),
    (computeSliceOffsets base slices)[k]?
      = slices[k]?.map fun slice ↦ { slice with offset := base + start slices k } := by
  intro slices
  induction slices with
  | nil => exact fun _ _ ↦ rfl
  | cons slice rest ih =>
    intro base k
    cases k with
    | zero =>
      rw [computeSliceOffsets, getElem?_cons_zero, getElem?_cons_zero, start_zero]
      rfl
    | succ k =>
      rw [computeSliceOffsets, getElem?_cons_succ, getElem?_cons_succ, ih]
      have hstart : start (slice :: rest) (k + 1) = slice.buffer.length + start rest k := by
        rw [start, start, lengths, map_cons, take_succ_cons, sum_cons]
        rfl
      rw [hstart, Nat.add_assoc]

variable (base : ℕ)

theorem length_computeSliceOffsets (slices : List SectionSlice) :
    (computeSliceOffsets base slices).length = slices.length := by
  induction slices generalizing base with
  | nil => rfl
  | cons slice rest ih => rw [computeSliceOffsets, length_cons, length_cons, ih]

theorem lengths_computeSliceOffsets (slices : List SectionSlice) :
    lengths (computeSliceOffsets base slices) = lengths slices := by
  induction slices generalizing base with
  | nil => rfl
  | cons slice rest ih =>
    rw [computeSliceOffsets, lengths, map_cons]
    exact congrArg _ (ih _)

theorem placed_computeSliceOffsets : Placed (computeSliceOffsets 0 slices) := by
  intro k slice h
  rw [computeSliceOffsets_spec, map_eq_some_iff] at h
  obtain ⟨before, -, rfl⟩ := h
  change 0 + start slices k = start (computeSliceOffsets 0 slices) k
  rw [start, start, lengths_computeSliceOffsets, Nat.zero_add]

/-! ## Buffers -/

variable {buffer bytes : List Byte} {pos : ℕ}

theorem length_overwrite (h : pos + bytes.length ≤ buffer.length) :
    (overwrite buffer pos bytes).length = buffer.length := by
  rw [overwrite, length_append, length_append, length_take, length_drop]
  omega

theorem head?_overwrite (hpos : 0 < pos)
    (hbuffer : buffer ≠ []) : (overwrite buffer pos bytes).head? = buffer.head? := by
  obtain ⟨head, rest, rfl⟩ := exists_cons_of_ne_nil hbuffer
  obtain ⟨before, rfl⟩ := Nat.exists_eq_succ_of_ne_zero (ne_of_gt hpos)
  rfl

theorem length_i32 (value : ℤ) : (i32 value).length = 4 := rfl

/-! ## Slices -/

/-- The opcodes of the short branches. -/
def isShort (opcode : Byte) : Bool := opcode = 0xEB ∨ (0x72 ≤ opcode ∧ opcode ≤ 0x7F)

/-- A branch is short, or it is a `jmp` or a `jcc` that has been relaxed. -/
def BranchShape (slice : SectionSlice) : Prop :=
  ∃ use opcode rest, slice.uses = [use] ∧ slice.buffer = opcode :: rest ∧
    ((isShort opcode = true ∧ use.localOffset = 1 ∧ rest.length = 1) ∨
      (opcode = 0xE9 ∧ use.localOffset = 1 ∧ rest.length = 4) ∨
      (opcode = 0x0F ∧ use.localOffset = 2 ∧ rest.length = 5))

structure Shaped (slice : SectionSlice) : Prop where
  branch : slice.relaxableBranch = true → BranchShape slice
  uses : slice.relaxableBranch = false →
    ∀ use ∈ slice.uses, use.localOffset + 4 ≤ slice.buffer.length

theorem Shaped.of_offset {slice : SectionSlice} (h : Shaped slice) (offset : ℕ) :
    Shaped { slice with offset } := ⟨h.branch, h.uses⟩

/-- What displacements depend on. -/
def key (slice : SectionSlice) : List SymbolUse × ℕ × Bool × Option Byte × ℕ :=
  (slice.uses, slice.offset, slice.relaxableBranch, slice.buffer.head?, slice.buffer.length)

section Displacement

variable {defs : List SymbolDef} {text text' : List SectionSlice} {slice slice' : SectionSlice}

theorem computeDisplacement_congr {use : SymbolUse} (htext : text.map key = text'.map key)
    (hslice : key slice = key slice') :
    computeDisplacement defs text slice use = computeDisplacement defs text' slice' use := by
  have hoffset : slice.offset = slice'.offset := congrArg (fun k ↦ k.2.1) hslice
  have hoffsets : ∀ k : ℕ, text[k]?.map SectionSlice.offset =
    text'[k]?.map SectionSlice.offset := by
    intro k
    have hk : (text.map key)[k]? = (text'.map key)[k]? := by rw [htext]
    rw [getElem?_map, getElem?_map] at hk
    have hsnd := congrArg (Option.map fun k :
      List SymbolUse × ℕ × Bool × Option Byte × ℕ ↦ k.2.1) hk
    rwa [Option.map_map, Option.map_map] at hsnd
  cases hdef : defs[use.index]? with
  | none => simp [computeDisplacement, hdef]
  | some symbolDef =>
    have hk := hoffsets symbolDef.sliceIndex
    cases hs : text[symbolDef.sliceIndex]? with
    | none =>
      rw [hs, map_none, eq_comm, map_eq_none_iff] at hk
      simp [computeDisplacement, hdef, hs, hk]
    | some defSlice =>
      rw [hs, map_some, eq_comm, map_eq_some_iff] at hk
      obtain ⟨defSlice', hs', heq⟩ := hk
      simp [computeDisplacement, hdef, hs, hs', heq, hoffset]

theorem computeBranchDisplacement_congr (htext : text.map key = text'.map key)
    (hslice : key slice = key slice') :
    computeBranchDisplacement defs text slice = computeBranchDisplacement defs text' slice' := by
  have huses : slice.uses = slice'.uses := congrArg (fun k ↦ k.1) hslice
  have hhead : slice.buffer.head? = slice'.buffer.head? := congrArg (fun k ↦ k.2.2.2.1) hslice
  rw [computeBranchDisplacement, computeBranchDisplacement, huses, hhead]
  congr 1
  funext use
  rw [computeDisplacement_congr htext hslice]

/-! ## One slice -/

/-- What the text is worth while it is relaxed. -/
structure Good (text : List SectionSlice) : Prop where
  placed : Placed text
  shaped : ∀ slice ∈ text, Shaped slice

theorem map_key_set {i : ℕ} (hi : text[i]? = some slice) (hkey : key slice' = key slice) :
    (text.set i slice').map key = text.map key := by
  rw [map_set, hkey]
  apply ext_getElem?
  intro k
  rw [getElem?_set]
  split_ifs with hik hlt
  · subst hik
    rw [getElem?_map, hi]
    rfl
  · subst hik
    rw [length_map] at hlt
    rw [getElem?_eq_none_iff.mpr (Nat.le_of_not_lt hlt)] at hi
    cases hi
  · rfl

theorem key_map_placed (h : Placed text) (hkey : text'.map key = text.map key) : Placed text' := by
  have hlengths : lengths text' = lengths text := by
    have := congrArg (map fun k : List SymbolUse × ℕ × Bool × Option Byte × ℕ ↦ k.2.2.2.2) hkey
    rwa [List.map_map, List.map_map] at this
  intro k slice' hk
  have hmap : (text'.map key)[k]? = (text.map key)[k]? := by rw [hkey]
  rw [getElem?_map, getElem?_map, hk, map_some, eq_comm, map_eq_some_iff] at hmap
  obtain ⟨slice, hslice, heq⟩ := hmap
  have hoffset : slice.offset = slice'.offset := congrArg (fun k ↦ k.2.1) heq
  rw [← hoffset, h hslice, start, start, hlengths]

/-- The slice that gets longer, and the others, pushed out after it. -/
theorem getElem?_push {i c k : ℕ} {found : SectionSlice} (hi : text[i]? = some slice)
    (hfound : (pushOutSlices (text.set i slice') (i + 1) c)[k]? = some found) :
    (k = i ∧ found = slice') ∨ k ≠ i ∧ ∃ other, text[k]? = some other ∧
      found = { other with offset := other.offset + if i < k then c else 0 } := by
  have hilt := (List.getElem?_eq_some_iff.mp hi).1
  rw [pushOutSlices, getElem?_mapIdx, getElem?_set] at hfound
  by_cases hik : i = k
  · subst hik
    rw [if_pos rfl, if_pos hilt, map_some, if_neg (by omega)] at hfound
    exact Or.inl ⟨rfl, (some.inj hfound).symm⟩
  · rw [if_neg hik, map_eq_some_iff] at hfound
    obtain ⟨other, hother, rfl⟩ := hfound
    refine Or.inr ⟨Ne.symm hik, other, hother, ?_⟩
    by_cases hlt : i < k
    · rw [if_pos hlt, if_pos (show i + 1 ≤ k from hlt)]
    · rw [if_neg hlt, if_neg (show ¬i + 1 ≤ k from hlt), Nat.add_zero]

/-- A slice gets longer by as much as those after it are pushed out. -/
theorem Good.push {i c : ℕ} (h : Good text) (hi : text[i]? = some slice)
    (hslice : Shaped slice') (hoffset : slice'.offset = slice.offset)
    (hlength : slice'.buffer.length = slice.buffer.length + c) :
    Good (pushOutSlices (text.set i slice') (i + 1) c) := by
  have hilt := (List.getElem?_eq_some_iff.mp hi).1
  have hlengths : lengths (pushOutSlices (text.set i slice') (i + 1) c)
      = (lengths text).set i (slice.buffer.length + c) := by
    rw [← hlength, lengths, lengths, pushOutSlices]
    apply ext_getElem?
    intro k
    rw [getElem?_map, getElem?_mapIdx, getElem?_set, getElem?_set, length_map, getElem?_map]
    by_cases hik : i = k
    · subst hik
      rw [if_pos rfl, if_pos rfl, if_pos hilt, if_pos hilt]
      simp only [map_some]
      rw [if_neg (Nat.not_succ_le_self i)]
    · rw [if_neg hik, if_neg hik]
      cases text[k]? with
      | none => rfl
      | some other =>
        simp only [map_some]
        split_ifs <;> rfl
  constructor
  · intro k found hfound
    rw [start, hlengths, sum_take_set (lengths_getElem? hi)]
    rcases getElem?_push hi hfound with ⟨rfl, rfl⟩ | ⟨-, other, hother, rfl⟩
    · rw [if_neg (Nat.lt_irrefl _), Nat.add_zero, hoffset, h.placed hi, start]
    · rw [← start, ← h.placed hother]
  · intro found hfound
    obtain ⟨k, hk⟩ := getElem?_of_mem hfound
    rcases getElem?_push hi hk with ⟨rfl, rfl⟩ | ⟨-, other, hother, rfl⟩
    · exact hslice
    · exact (h.shaped other (List.mem_of_getElem? hother)).of_offset _

/-- Which of the slices are branches. -/
def flags (slices : List SectionSlice) : List Bool := slices.map SectionSlice.relaxableBranch

theorem flags_push {i start c : ℕ} (hi : text[i]? = some slice)
    (hflag : slice'.relaxableBranch = slice.relaxableBranch) :
    flags (pushOutSlices (text.set i slice') start c) = flags text := by
  have hilt := (List.getElem?_eq_some_iff.mp hi).1
  apply ext_getElem?
  intro k
  rw [flags, flags, pushOutSlices, getElem?_map, getElem?_mapIdx, getElem?_set, getElem?_map]
  by_cases hik : i = k
  · subst hik
    rw [if_pos rfl, if_pos hilt, hi]
    simp only [map_some]
    split_ifs <;> exact congrArg some hflag
  · rw [if_neg hik]
    cases text[k]? with
    | none => rfl
    | some other =>
      simp only [map_some]
      split_ifs <;> rfl

theorem flags_of_key (h : text'.map key = text.map key) : flags text' = flags text := by
  have := congrArg (map fun k : List SymbolUse × ℕ × Bool × Option Byte × ℕ ↦ k.2.2.1) h
  rwa [List.map_map, List.map_map] at this

/-- The branches that are tested for, when they are short. -/
def isTested (opcode : Byte) : Bool := opcode = 0xEB ∨ (0x72 ≤ opcode ∧ opcode ≤ 0x7E)

/-- A branch with such an opcode reaches its target with eight bits. -/
def InRange (tested : Byte → Bool) (defs : List SymbolDef) (text : List SectionSlice)
    (slice : SectionSlice) : Prop :=
  slice.relaxableBranch = true → ∀ opcode, slice.buffer.head? = some opcode → tested opcode = true →
    ∀ displacement, computeBranchDisplacement defs text slice = some displacement →
      fitsInI8 displacement = true

/-- What a visit of the loop does to the text. -/
theorem relaxSlice_spec {continue_ continue' : Bool} {i : ℕ} (h : Good text)
    (hrelax : relaxSlice defs (text, continue_) i = some (text', continue')) :
    Good text' ∧ flags text' = flags text ∧ (continue' = false → continue_ = false ∧
      text'.map key = text.map key ∧
      ∀ slice, text[i]? = some slice → InRange isTested defs text slice) := by
  rw [relaxSlice] at hrelax
  obtain ⟨slice, hi, hrelax⟩ := bind_eq_some_iff.mp hrelax
  have hshaped := h.shaped slice (mem_of_getElem? hi)
  by_cases hbranch : slice.relaxableBranch = true
  · rw [if_pos hbranch] at hrelax
    obtain ⟨use, opcode, rest, huses, hbuffer, hshape⟩ := hshaped.branch hbranch
    rw [huses, hbuffer] at hrelax
    obtain ⟨use', huse', hrelax⟩ := bind_eq_some_iff.mp hrelax
    obtain rfl : use = use' := some.inj huse'
    obtain ⟨opcode', hopcode', hrelax⟩ := bind_eq_some_iff.mp hrelax
    obtain rfl : opcode = opcode' := some.inj hopcode'
    obtain ⟨displacement, hdisp, hrelax⟩ := bind_eq_some_iff.mp hrelax
    by_cases hfits : fitsInI8 displacement = true
    · rw [if_pos hfits] at hrelax
      obtain ⟨rfl, rfl⟩ := Prod.mk.inj (some.inj hrelax)
      -- the displacement is written where there is room for it
      have hroom : use.localOffset + (i8 displacement).length ≤ (opcode :: rest).length := by
        change use.localOffset + 1 ≤ rest.length + 1
        omega
      have hkey : key { slice with
          uses := [use]
          buffer := overwrite (opcode :: rest) use.localOffset (i8 displacement) } = key slice := by
        rw [key, key, huses, hbuffer, length_overwrite hroom,
          head?_overwrite (by omega) (cons_ne_nil _ _)]
      have hmap := map_key_set hi hkey
      refine ⟨⟨key_map_placed h.placed hmap, fun found hfound ↦ ?_⟩, flags_of_key hmap,
        fun hcontinue ↦ ⟨hcontinue, hmap, ?_⟩⟩
      · rcases mem_or_eq_of_mem_set hfound with hmem | rfl
        · exact h.shaped found hmem
        · refine ⟨fun _ ↦ ⟨use, opcode,
            (overwrite (opcode :: rest) use.localOffset (i8 displacement)).tail, rfl, ?_, ?_⟩,
            fun hno ↦ ?_⟩
          · obtain ⟨before, hbefore⟩ := Nat.exists_eq_succ_of_ne_zero
              (show use.localOffset ≠ 0 by omega)
            rw [hbefore]
            rfl
          · rw [length_tail, length_overwrite hroom]
            exact hshape
          · rw [hbranch] at hno
            cases hno
      · intro other hother _ opcode' _ _ displacement' hdisp'
        obtain rfl := some.inj (hi.symm.trans hother)
        obtain rfl := some.inj (hdisp.symm.trans hdisp')
        exact hfits
    · rw [if_neg hfits] at hrelax
      by_cases hjmp : opcode = 0xEB
      · -- a short `jmp`
        rw [if_pos hjmp] at hrelax
        obtain ⟨rfl, rfl⟩ := Prod.mk.inj (some.inj hrelax)
        subst hjmp
        have hoff : use.localOffset = 1 ∧ rest.length = 1 := by
          rcases hshape with ⟨-, h⟩ | ⟨h, -⟩ | ⟨h, -⟩
          · exact h
          · exact absurd h (by decide)
          · exact absurd h (by decide)
        obtain ⟨byte, rfl⟩ := length_eq_one_iff.mp hoff.2
        refine ⟨h.push hi ⟨fun _ ↦ ⟨use, 0xE9, i32 0, huses, ?_, ?_⟩, fun hno ↦ ?_⟩ rfl ?_, ?_,
          fun hcontinue ↦ by cases hcontinue⟩
        · rw [hbuffer]
          rfl
        · exact Or.inr (Or.inl ⟨rfl, hoff.1, rfl⟩)
        · rw [hbranch] at hno
          cases hno
        · rw [hbuffer]
          rfl
        · exact flags_push hi rfl
      · rw [if_neg hjmp] at hrelax
        by_cases hjcc : (0x72 : Byte) ≤ opcode ∧ opcode ≤ (0x7E : Byte)
        · rw [if_pos hjcc] at hrelax
          obtain ⟨rfl, rfl⟩ := Prod.mk.inj (some.inj hrelax)
          have hoff : use.localOffset = 1 ∧ rest.length = 1 := by
            rcases hshape with ⟨-, h⟩ | ⟨rfl, -⟩ | ⟨rfl, -⟩
            · exact h
            · exact absurd hjcc (by decide)
            · exact absurd hjcc (by decide)
          obtain ⟨byte, rfl⟩ := length_eq_one_iff.mp hoff.2
          refine ⟨h.push hi ⟨fun _ ↦ ⟨{ use with localOffset := use.localOffset + 1 }, 0x0F,
              (opcode + 0x10) :: i32 0, ?_, ?_, ?_⟩, fun hno ↦ ?_⟩ rfl ?_, ?_,
            fun hcontinue ↦ by cases hcontinue⟩
          · rw [huses]
            rfl
          · rw [hbuffer]
            rfl
          · refine Or.inr (Or.inr ⟨rfl, ?_, rfl⟩)
            rw [hoff.1]
          · rw [hbranch] at hno
            cases hno
          · rw [hbuffer]
            rfl
          · exact flags_push hi rfl
        · -- what is relaxed already, and `jg`
          rw [if_neg hjcc] at hrelax
          obtain ⟨rfl, rfl⟩ := Prod.mk.inj (some.inj hrelax)
          refine ⟨h, rfl, fun hcontinue ↦ ⟨hcontinue, rfl, ?_⟩⟩
          intro other hother _ opcode' hopcode htested
          obtain rfl := some.inj (hi.symm.trans hother)
          rw [hbuffer] at hopcode
          obtain rfl := some.inj hopcode
          rw [isTested, decide_eq_true_eq] at htested
          exact absurd htested (not_or.mpr ⟨hjmp, hjcc⟩)
  · rw [if_neg hbranch] at hrelax
    obtain ⟨rfl, rfl⟩ := Prod.mk.inj (some.inj hrelax)
    refine ⟨h, rfl, fun hcontinue ↦ ⟨hcontinue, rfl, fun other hother hno ↦ ?_⟩⟩
    obtain rfl := some.inj (hi.symm.trans hother)
    exact absurd hno hbranch

/-! ## Rounds -/

theorem relaxRound_spec {continue_ : Bool} (h : Good text)
    (hround : relaxRound defs text = some (text', continue_)) :
    Good text' ∧ flags text' = flags text ∧ (continue_ = false →
      ∀ slice ∈ text', InRange isTested defs text' slice) := by
  have hgo : ∀ (l : List ℕ) (text : List SectionSlice) (continue' : Bool), Good text →
      l.foldlM (relaxSlice defs) (text, continue') = some (text', continue_) →
      Good text' ∧ flags text' = flags text ∧ (continue_ = false → continue' = false ∧
        text'.map key = text.map key ∧
        ∀ i ∈ l, ∀ slice, text[i]? = some slice → InRange isTested defs text slice) := by
    intro l
    induction l with
    | nil =>
      intro text continue' h hrun
      obtain ⟨rfl, rfl⟩ := Prod.mk.inj (some.inj hrun)
      exact ⟨h, rfl, fun hcontinue ↦ ⟨hcontinue, rfl, fun i hi ↦ absurd hi List.not_mem_nil⟩⟩
    | cons i rest ih =>
      intro text continue' h hrun
      rw [List.foldlM_cons] at hrun
      obtain ⟨⟨next, continueNext⟩, hnext, hrest⟩ := bind_eq_some_iff.mp hrun
      obtain ⟨hgood, hflags, hsame⟩ := relaxSlice_spec h hnext
      obtain ⟨hgood', hflags', hsame'⟩ := ih next continueNext hgood hrest
      refine ⟨hgood', hflags'.trans hflags, fun hcontinue ↦ ?_⟩
      obtain ⟨hcontinueNext, hkey', hrange'⟩ := hsame' hcontinue
      obtain ⟨hcontinue', hkey, hrange⟩ := hsame hcontinueNext
      refine ⟨hcontinue', hkey'.trans hkey, fun j hj slice hslice ↦ ?_⟩
      rcases List.mem_cons.mp hj with rfl | hj
      · exact hrange slice hslice
      · -- the text has changed since, but nothing displacements depend on
        have hmap : (next.map key)[j]? = (text.map key)[j]? := by rw [hkey]
        rw [getElem?_map, getElem?_map, hslice, map_some, map_eq_some_iff] at hmap
        obtain ⟨slice', hslice', heq⟩ := hmap
        intro hbranch opcode hopcode htested displacement hdisp
        have hbranch' : slice'.relaxableBranch = slice.relaxableBranch :=
          congrArg (fun k ↦ k.2.2.1) heq
        have hopcode' : slice'.buffer.head? = slice.buffer.head? :=
          congrArg (fun k ↦ k.2.2.2.1) heq
        refine hrange' j hj slice' hslice' (hbranch'.trans hbranch) opcode
          (hopcode'.trans hopcode) htested displacement ?_
        rwa [computeBranchDisplacement_congr hkey heq]
  obtain ⟨hgood, hflags, hsame⟩ := hgo _ text false h hround
  refine ⟨hgood, hflags, fun hcontinue slice' hmem ↦ ?_⟩
  obtain ⟨-, hkey, hrange⟩ := hsame hcontinue
  obtain ⟨j, hj⟩ := getElem?_of_mem hmem
  have hlength : text'.length = text.length := by
    have := congrArg List.length hflags
    rwa [flags, flags, length_map, length_map] at this
  have hjlt := (List.getElem?_eq_some_iff.mp hj).1
  have hmap : (text'.map key)[j]? = (text.map key)[j]? := by rw [hkey]
  rw [getElem?_map, getElem?_map, hj, map_some, eq_comm, map_eq_some_iff] at hmap
  obtain ⟨slice, hslice, heq⟩ := hmap
  intro hbranch opcode hopcode htested displacement hdisp
  have hbranch' : slice.relaxableBranch = slice'.relaxableBranch := congrArg (fun k ↦ k.2.2.1) heq
  have hopcode' : slice.buffer.head? = slice'.buffer.head? := congrArg (fun k ↦ k.2.2.2.1) heq
  refine hrange j (List.mem_range.mpr (hlength ▸ hjlt)) slice hslice (hbranch'.trans hbranch) opcode
    (hopcode'.trans hopcode) htested displacement ?_
  rwa [computeBranchDisplacement_congr hkey.symm heq]

/-- After relaxation every short branch reaches its target, `jg` apart. -/
theorem applyRelaxation_spec : ∀ (fuel : ℕ) (text : List SectionSlice), Good text →
    applyRelaxation defs fuel text = some text' →
    Good text' ∧ flags text' = flags text ∧ ∀ slice ∈ text', InRange isTested defs text' slice := by
  intro fuel
  induction fuel with
  | zero => exact fun _ _ h ↦ by cases h
  | succ fuel ih =>
    intro text h hrun
    rw [applyRelaxation] at hrun
    obtain ⟨⟨next, continue_⟩, hround, hrest⟩ := bind_eq_some_iff.mp hrun
    obtain ⟨hgood, hflags, hrange⟩ := relaxRound_spec h hround
    cases continue_ with
    | true =>
      obtain ⟨hgood', hflags', hrange'⟩ := ih next hgood hrest
      exact ⟨hgood', hflags'.trans hflags, hrange'⟩
    | false =>
      obtain rfl := some.inj hrest
      exact ⟨hgood, hflags, hrange rfl⟩

end Displacement

end Banjo.Emit
