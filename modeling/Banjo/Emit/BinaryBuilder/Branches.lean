import Banjo.Emit.BinaryBuilder.Layout
import Banjo.Target.X8664.EncodedAddresses

/-!
# Where branches lead

Relaxing the branches that are out of range makes others get out of range, but never one come back
into it: between the end of a branch and its target there are only more bytes. So a round either
relaxes a branch for good or is the last, and what is relaxed in the end has to be near in every
encoding in which the short branches reach their targets.
-/

open List Option BitVec

namespace Banjo.Emit

open WriteBuffer OptionLists
open Target.X8664.Decoder (read32)

/-! ## Distances -/

/-- How far it is from the end of a slice to a place. -/
def distance (lengths : List ℕ) (k : ℕ) (mark : ℕ × ℕ) : ℤ :=
  ((lengths.take mark.1).sum + mark.2 : ℕ) - ((lengths.take (k + 1)).sum : ℕ)

theorem sum_take_le (l : List ℕ) {a b : ℕ} (h : a ≤ b) : (l.take a).sum ≤ (l.take b).sum := by
  obtain ⟨c, rfl⟩ := Nat.exists_eq_add_of_le h
  rw [take_add, sum_append]
  exact Nat.le_add_right _ _

/-- There are only more bytes between two places. -/
theorem sum_take_widens {l l' : List ℕ} (h : List.Forall₂ (· ≤ ·) l l') : ∀ {a b : ℕ}, a ≤ b →
    (l.take b).sum + (l'.take a).sum ≤ (l'.take b).sum + (l.take a).sum := by
  induction h with
  | nil => exact fun _ ↦ by simp
  | @cons x y rest rest' hle hrest ih =>
    intro a b hab
    cases a with
    | zero =>
      have htotal := forall₂_take_sum (List.Forall₂.cons hle hrest) b
      simpa using htotal
    | succ a =>
      obtain ⟨b, rfl⟩ := Nat.exists_eq_succ_of_ne_zero (show b ≠ 0 by omega)
      have hstep := ih (Nat.le_of_succ_le_succ hab)
      simp only [take_succ_cons, sum_cons]
      omega

/-- Away from zero. -/
def Widens (d d' : ℤ) : Prop := 0 ≤ d ∧ d ≤ d' ∨ d ≤ 0 ∧ d' ≤ d

variable {mark : ℕ × ℕ}

theorem distance_widens {l l' : List ℕ} (h : List.Forall₂ (· ≤ ·) l l') {k length : ℕ}
    (hne : mark.1 ≠ k) (hl : l[mark.1]? = some length) (hl' : l'[mark.1]? = some length)
    (hle : mark.2 ≤ length) : Widens (distance l k mark) (distance l' k mark) := by
  rw [distance, distance]
  rcases Nat.lt_or_gt_of_ne hne with hlt | hgt
  · -- backwards, from the end of the target's slice
    have hsum : ∀ {l : List ℕ}, l[mark.1]? = some length →
        (l.take (mark.1 + 1)).sum = (l.take mark.1).sum + length := by
      intro l hl
      rw [take_add_one, hl, sum_append]
      rfl
    have hwide := sum_take_widens h (show mark.1 + 1 ≤ k + 1 by omega)
    have hmono := sum_take_le l (show mark.1 + 1 ≤ k + 1 by omega)
    rw [hsum hl, hsum hl'] at hwide
    rw [hsum hl] at hmono
    right
    omega
  · have hwide := sum_take_widens h (show k + 1 ≤ mark.1 by omega)
    have hmono := sum_take_le l (show k + 1 ≤ mark.1 by omega)
    left
    omega

def fitsInI32 (value : ℤ) : Bool := -2147483648 ≤ value ∧ value ≤ 2147483647

theorem Widens.fitsInI8 {d d' : ℤ} (h : Widens d d') (hfits : fitsInI8 d' = true) :
    fitsInI8 d = true := by
  rw [Emit.fitsInI8, decide_eq_true_eq] at hfits ⊢
  rcases h with h | h <;> omega

theorem Widens.fitsInI32 {d d' : ℤ} (h : Widens d d') (hfits : fitsInI32 d' = true) :
    fitsInI32 d = true := by
  rw [Emit.fitsInI32, decide_eq_true_eq] at hfits ⊢
  rcases h with h | h <;> omega

/-! ## Forms -/

section Forms

variable (defs : List SymbolDef) (slices : List SectionSlice) (near : Finset ℕ)

/-- The length of a slice; a branch that is near is longer. -/
def formLength (isNear : Bool) (slice : SectionSlice) : ℕ :=
  if isNear then if slice.buffer.head? = some 0xEB then 5 else 6 else slice.buffer.length

/-- The lengths with these branches near. -/
def lengthsWith : List ℕ := slices.mapIdx fun k slice ↦ formLength (decide (k ∈ near)) slice

/-- Where the branch a slice is leads to. -/
def targetOf (slice : SectionSlice) : Option (ℕ × ℕ) := do
  let use ← slice.uses.head?
  let symbolDef ← defs[use.index]?
  pure (symbolDef.sliceIndex, symbolDef.localOffset)

/-- Slices that are branches, all short, and others; labels are in the others. -/
structure Branches : Prop where
  shaped : ∀ slice ∈ slices, Shaped slice
  short : ∀ slice ∈ slices, slice.relaxableBranch = true → ∃ use opcode byte, slice.uses = [use] ∧
    slice.buffer = [opcode, byte] ∧ isShort opcode = true
  targets : ∀ slice ∈ slices, slice.relaxableBranch = true → ∃ mark target,
    targetOf defs slice = some mark ∧ slices[mark.1]? = some target ∧
      target.relaxableBranch = false ∧ mark.2 ≤ target.buffer.length
  uses : ∀ slice ∈ slices, slice.relaxableBranch = false → ∀ use ∈ slice.uses,
    ∃ symbolDef, defs[use.index]? = some symbolDef ∧
      (symbolDef.kind = .TEXT_FUNC → symbolDef.sliceIndex < slices.length)

/-- The branch of a slice can be made near. -/
def IsRelaxable (k : ℕ) : Prop :=
  ∃ slice, slices[k]? = some slice ∧ slice.relaxableBranch = true ∧
    ∃ opcode, slice.buffer.head? = some opcode ∧ isTested opcode = true

/-- With these branches near, and no others, every branch reaches its target. -/
structure Encodable : Prop where
  relaxable : ∀ k ∈ near, IsRelaxable slices k
  reaches : ∀ k slice, slices[k]? = some slice → slice.relaxableBranch = true →
    ∀ mark, targetOf defs slice = some mark →
      if k ∈ near then fitsInI32 (distance (lengthsWith slices near) k mark) = true
      else fitsInI8 (distance (lengthsWith slices near) k mark) = true

end Forms

section Layouts

variable {defs : List SymbolDef} {slices : List SectionSlice} {near near' : Finset ℕ} {k : ℕ}
  {slice : SectionSlice}

theorem getElem?_lengthsWith (near : Finset ℕ) (hslice : slices[k]? = some slice) :
    (lengthsWith slices near)[k]? = some (formLength (decide (k ∈ near)) slice) := by
  rw [lengthsWith, getElem?_mapIdx, hslice]
  rfl

theorem lengthsWith_le (hbranches : Branches defs slices) (hsub : near ⊆ near')
    (hnear : ∀ k ∈ near', IsRelaxable slices k) :
    List.Forall₂ (· ≤ ·) (lengthsWith slices near) (lengthsWith slices near') := by
  rw [forall₂_iff_get]
  refine ⟨by simp [lengthsWith], fun k hk hk' ↦ ?_⟩
  have hlt : k < slices.length := by simpa [lengthsWith] using hk
  have hslice : slices[k]? = some slices[k] := List.getElem?_eq_getElem hlt
  have hget := getElem?_lengthsWith near hslice
  have hget' := getElem?_lengthsWith near' hslice
  rw [List.getElem?_eq_getElem hk, some.injEq] at hget
  rw [List.getElem?_eq_getElem hk', some.injEq] at hget'
  change (lengthsWith slices near)[k] ≤ (lengthsWith slices near')[k]
  rw [hget, hget']
  by_cases hmem : k ∈ near
  · rw [decide_eq_true hmem, decide_eq_true (hsub hmem)]
  · rw [decide_eq_false hmem]
    by_cases hmem' : k ∈ near'
    · obtain ⟨found, hfound, hbranch, -⟩ := hnear k hmem'
      obtain rfl : slices[k] = found := some.inj (hslice.symm.trans hfound)
      obtain ⟨use, opcode, byte, -, hbuffer, -⟩ :=
        hbranches.short _ (getElem_mem hlt) hbranch
      rw [decide_eq_true hmem', formLength, formLength, if_neg Bool.false_ne_true,
        if_pos rfl, hbuffer]
      split_ifs <;> simp
    · rw [decide_eq_false hmem']

/-- The distances of branches get longer with every branch that is made near. -/
theorem widens_lengthsWith (hbranches : Branches defs slices) (hsub : near ⊆ near')
    (hnear : ∀ k ∈ near', IsRelaxable slices k) (hslice : slices[k]? = some slice)
    (hbranch : slice.relaxableBranch = true) (hmark : targetOf defs slice = some mark) :
    Widens (distance (lengthsWith slices near) k mark)
      (distance (lengthsWith slices near') k mark) := by
  obtain ⟨mark', target, hmark', htarget, hlabel, hle⟩ :=
    hbranches.targets slice (mem_of_getElem? hslice) hbranch
  obtain rfl := some.inj (hmark.symm.trans hmark')
  have hnot : mark.1 ∉ near' := by
    intro hmem
    obtain ⟨found, hfound, hbranch', -⟩ := hnear _ hmem
    obtain rfl := some.inj (htarget.symm.trans hfound)
    rw [hlabel] at hbranch'
    cases hbranch'
  have hlength : ∀ {near : Finset ℕ}, mark.1 ∉ near →
      (lengthsWith slices near)[mark.1]? = some target.buffer.length := by
    intro near hnot
    rw [getElem?_lengthsWith _ htarget, decide_eq_false hnot]
    rfl
  refine distance_widens (lengthsWith_le hbranches hsub hnear) ?_
    (hlength fun hmem ↦ hnot (hsub hmem)) (hlength hnot) hle
  rintro rfl
  obtain rfl := some.inj (htarget.symm.trans hslice)
  rw [hlabel] at hbranch
  cases hbranch

end Layouts

/-! ## The text while it is relaxed -/

/-- The opcode of a branch in its form. -/
def formOpcode (isNear : Bool) (slice : SectionSlice) : Option Byte :=
  if isNear then some (if slice.buffer.head? = some 0xEB then 0xE9 else 0x0F) else
    slice.buffer.head?

/-- What a slice has become; its offset apart. -/
structure Follows (isNear : Bool) (slice now : SectionSlice) : Prop where
  branch : now.relaxableBranch = slice.relaxableBranch
  other : slice.relaxableBranch = false → now.buffer = slice.buffer ∧ now.uses = slice.uses
  index : now.uses.head?.map SymbolUse.index = slice.uses.head?.map SymbolUse.index
  opcode : slice.relaxableBranch = true → now.buffer.head? = formOpcode isNear slice

/-- The text with these branches near. -/
structure Current (slices : List SectionSlice) (near : Finset ℕ) (text : List SectionSlice) :
    Prop where
  good : Good text
  relaxable : ∀ k ∈ near, IsRelaxable slices k
  length : text.length = slices.length
  follows : ∀ {k slice now}, slices[k]? = some slice → text[k]? = some now →
    Follows (decide (k ∈ near)) slice now

section Current

variable {defs : List SymbolDef} {slices text : List SectionSlice} {near : Finset ℕ} {k : ℕ}
  {slice now : SectionSlice}

theorem Follows.of_offset {isNear : Bool} (h : Follows isNear slice now) (offset : ℕ) :
    Follows isNear slice { now with offset } := ⟨h.branch, h.other, h.index, h.opcode⟩

/-- The shape of a branch that is short or near, and its length. -/
theorem Follows.shape {isNear : Bool} (h : Follows isNear slice now) (hshaped : Shaped now)
    (hbranch : slice.relaxableBranch = true)
    (hshort : ∃ use opcode byte, slice.uses = [use] ∧ slice.buffer = [opcode, byte] ∧
      isShort opcode = true) :
    ∃ use opcode rest, now.uses = [use] ∧ now.buffer = opcode :: rest ∧
      now.buffer.length = formLength isNear slice ∧
      (use.localOffset + (if opcode = 0x0F ∨ opcode = 0xE9 then 4 else 1) = now.buffer.length) ∧
      0 < use.localOffset ∧
      (isNear = false → isShort opcode = true ∧ slice.buffer.head? = some opcode) ∧
      (isNear = true → opcode = 0x0F ∨ opcode = 0xE9) := by
  obtain ⟨use, opcode, rest, huses, hbuffer, hshape⟩ := hshaped.branch (h.branch.trans hbranch)
  obtain ⟨-, opcode', byte, -, hbuffer', hopcode'⟩ := hshort
  have hhead := h.opcode hbranch
  rw [hbuffer, head?_cons, formOpcode, hbuffer', head?_cons] at hhead
  refine ⟨use, opcode, rest, huses, hbuffer, ?_⟩
  rw [formLength, hbuffer', hbuffer, head?_cons, length_cons]
  cases isNear with
  | false =>
    rw [if_neg Bool.false_ne_true, some.injEq] at hhead
    obtain rfl := hhead
    rcases hshape with ⟨-, hoffset, hlength⟩ | ⟨rfl, -⟩ | ⟨rfl, -⟩
    · have hnot : ¬(opcode = 0x0F ∨ opcode = 0xE9) := by
        rintro (rfl | rfl) <;> exact absurd hopcode' (by decide)
      rw [if_neg Bool.false_ne_true, if_neg hnot]
      exact ⟨by rw [hlength]; rfl, by omega, by omega, fun _ ↦ ⟨hopcode', rfl⟩, nofun⟩
    · exact absurd hopcode' (by decide)
    · exact absurd hopcode' (by decide)
  | true =>
    rw [if_pos rfl, some.injEq] at hhead
    rw [if_pos rfl]
    simp only [some.injEq] at hhead ⊢
    by_cases hjmp : opcode' = 0xEB
    · rw [if_pos hjmp] at hhead ⊢
      subst hhead
      rcases hshape with ⟨hshort, -⟩ | ⟨-, hoffset, hlength⟩ | ⟨hopcode, -⟩
      · exact absurd hshort (by decide)
      · rw [if_pos (Or.inr rfl)]
        exact ⟨by omega, by omega, by omega, nofun, fun _ ↦ Or.inr rfl⟩
      · exact absurd hopcode (by decide)
    · rw [if_neg hjmp] at hhead ⊢
      subst hhead
      rcases hshape with ⟨hshort, -⟩ | ⟨hopcode, -⟩ | ⟨-, hoffset, hlength⟩
      · exact absurd hshort (by decide)
      · exact absurd hopcode (by decide)
      · rw [if_pos (Or.inl rfl)]
        exact ⟨by omega, by omega, by omega, nofun, fun _ ↦ Or.inl rfl⟩

theorem Current.lengths_eq (h : Current slices near text) (hbranches : Branches defs slices) :
    lengths text = lengthsWith slices near := by
  apply ext_getElem?
  intro k
  cases hslice : slices[k]? with
  | none =>
    rw [lengthsWith, getElem?_mapIdx, hslice, lengths, getElem?_map,
      List.getElem?_eq_none_iff.mpr (h.length ▸ getElem?_eq_none_iff.mp hslice)]
    rfl
  | some slice =>
    obtain ⟨now, hnow⟩ : ∃ now, text[k]? = some now :=
      ⟨_, List.getElem?_eq_getElem (h.length ▸ (List.getElem?_eq_some_iff.mp hslice).1)⟩
    have hfollows := h.follows hslice hnow
    rw [lengths_getElem? hnow, getElem?_lengthsWith _ hslice, some.injEq]
    cases hbranch : slice.relaxableBranch with
    | true =>
      obtain ⟨-, -, -, -, -, hlength, -⟩ := hfollows.shape
        (h.good.shaped now (mem_of_getElem? hnow)) hbranch
        (hbranches.short slice (mem_of_getElem? hslice) hbranch)
      exact hlength
    | false =>
      have hnot : k ∉ near := by
        intro hmem
        obtain ⟨found, hfound, hbranch', -⟩ := h.relaxable k hmem
        obtain rfl := some.inj (hslice.symm.trans hfound)
        rw [hbranch] at hbranch'
        cases hbranch'
      rw [decide_eq_false hnot, (hfollows.other hbranch).1]
      rfl

/-- The displacement of a branch is the distance from its end to its target. -/
theorem Current.branchDisplacement (h : Current slices near text) (hbranches : Branches defs slices)
    (hslice : slices[k]? = some slice) (hnow : text[k]? = some now)
    (hbranch : slice.relaxableBranch = true) (hmark : targetOf defs slice = some mark) :
    computeBranchDisplacement defs text now
      = some (distance (lengthsWith slices near) k mark) := by
  obtain ⟨mark', target, hmark', htarget, -, -⟩ :=
    hbranches.targets slice (mem_of_getElem? hslice) hbranch
  obtain rfl := some.inj (hmark.symm.trans hmark')
  have hfollows := h.follows hslice hnow
  obtain ⟨use, opcode, rest, huses, hbuffer, -, hend, -⟩ := hfollows.shape
    (h.good.shaped now (mem_of_getElem? hnow)) hbranch
    (hbranches.short slice (mem_of_getElem? hslice) hbranch)
  obtain ⟨before, hbefore, hlookup⟩ := bind_eq_some_iff.mp hmark
  obtain ⟨symbolDef, hdef, hplace⟩ := bind_eq_some_iff.mp hlookup
  obtain rfl := some.inj hplace
  have hindex : use.index = before.index := by
    have hsame := hfollows.index
    rw [huses, hbefore] at hsame
    exact some.inj hsame
  obtain ⟨targetNow, htargetNow⟩ : ∃ target, text[symbolDef.sliceIndex]? = some target :=
    ⟨_, List.getElem?_eq_getElem (h.length ▸ (List.getElem?_eq_some_iff.mp htarget).1)⟩
  have hnext : start text (k + 1) = start text k + now.buffer.length := by
    rw [start, start, take_add_one, lengths_getElem? hnow, sum_append]
    rfl
  rw [computeBranchDisplacement, huses, hbuffer]
  simp only [head?_cons, bind_eq_bind, bind_some, computeDisplacement, hindex, hdef,
    htargetNow, Option.pure_def, some.injEq]
  rw [← h.lengths_eq hbranches, distance, h.good.placed htargetNow, h.good.placed hnow]
  change _ = ((start text symbolDef.sliceIndex + symbolDef.localOffset : ℕ) : ℤ)
    - ((start text (k + 1) : ℕ) : ℤ)
  rw [hnext]
  split_ifs at hend ⊢ <;> push_cast <;> omega

/-! ## A visit -/

theorem isShort_iff_tested (opcode : Byte) :
    isShort opcode = true ↔ isTested opcode = true ∨ opcode = Condition.G.opcode := by
  simp only [isShort, isTested, Condition.opcode, decide_eq_true_eq]
  bv_omega

/-- A short branch that is tested reaches its target. -/
def Settled (defs : List SymbolDef) (slices : List SectionSlice) (near : Finset ℕ) (k : ℕ) : Prop :=
  IsRelaxable slices k → k ∉ near → ∀ slice mark, slices[k]? = some slice →
    targetOf defs slice = some mark → fitsInI8 (distance (lengthsWith slices near) k mark) = true

/-- A branch that has been relaxed was out of range, and still is. -/
def Far (defs : List SymbolDef) (slices : List SectionSlice) (near : Finset ℕ) (k : ℕ) : Prop :=
  ∀ slice mark, slices[k]? = some slice → targetOf defs slice = some mark →
    fitsInI8 (distance (lengthsWith slices near) k mark) = false

theorem Current.set_key (h : Current slices near text) {i : ℕ} {now' : SectionSlice}
    (hslice : slices[i]? = some slice) (hnow : text[i]? = some now) (hkey : key now' = key now)
    (hshaped : Shaped now') (hbranch : slice.relaxableBranch = true) :
    Current slices near (text.set i now') where
  good := ⟨key_map_placed h.good.placed (map_key_set hnow hkey), fun found hfound ↦ by
    rcases List.mem_or_eq_of_mem_set hfound with hmem | rfl
    · exact h.good.shaped found hmem
    · exact hshaped⟩
  relaxable := h.relaxable
  length := by rw [List.length_set, h.length]
  follows := by
    intro k slice' found hslice' hfound
    rw [List.getElem?_set] at hfound
    by_cases hik : i = k
    · subst hik
      rw [if_pos rfl, if_pos (List.getElem?_eq_some_iff.mp hnow).1, some.injEq] at hfound
      obtain rfl := some.inj (hslice.symm.trans hslice')
      have hfollows := h.follows hslice hnow
      have huses : now'.uses = now.uses := congrArg (fun k ↦ k.1) hkey
      have hhead : now'.buffer.head? = now.buffer.head? := congrArg (fun k ↦ k.2.2.2.1) hkey
      have hflag : now'.relaxableBranch = now.relaxableBranch := congrArg (fun k ↦ k.2.2.1) hkey
      rw [← hfound]
      exact ⟨hflag.trans hfollows.branch, fun hno ↦ absurd (hbranch.symm.trans hno) (by decide),
        by rw [huses, hfollows.index], fun hyes ↦ by rw [hhead, hfollows.opcode hyes]⟩
    · rw [if_neg hik] at hfound
      exact h.follows hslice' hfound

/-- What a branch becomes makes the text follow with it near. -/
theorem Current.push (h : Current slices near text) {i c : ℕ} {now' : SectionSlice}
    (hslice : slices[i]? = some slice) (hnow : text[i]? = some now) (hi : i ∉ near)
    (hrelaxable : IsRelaxable slices i) (hshaped : Shaped now') (hoffset : now'.offset = now.offset)
    (hlength : now'.buffer.length = now.buffer.length + c) (hfollows : Follows true slice now') :
    Current slices (insert i near) (pushOutSlices (text.set i now') (i + 1) c) where
  good := h.good.push hnow hshaped hoffset hlength
  relaxable k hk := by
    rcases Finset.mem_insert.mp hk with rfl | hk
    · exact hrelaxable
    · exact h.relaxable k hk
  length := by
    rw [pushOutSlices, length_mapIdx, length_set, h.length]
  follows := by
    intro k slice' found hslice' hfound
    rcases getElem?_push hnow hfound with ⟨rfl, rfl⟩ | ⟨hne, other, hother, rfl⟩
    · obtain rfl := some.inj (hslice.symm.trans hslice')
      rw [decide_eq_true (Finset.mem_insert_self k near)]
      exact hfollows
    · have hsame : decide (k ∈ insert i near) = decide (k ∈ near) := by
        simp [Finset.mem_insert, hne]
      rw [hsame]
      exact (h.follows hslice' hother).of_offset _

theorem Shaped.of_key (h : Shaped now) {now' : SectionSlice} (hkey : key now' = key now) :
    Shaped now' := by
  have huses : now'.uses = now.uses := congrArg (fun k ↦ k.1) hkey
  have hhead : now'.buffer.head? = now.buffer.head? := congrArg (fun k ↦ k.2.2.2.1) hkey
  have hflag : now'.relaxableBranch = now.relaxableBranch := congrArg (fun k ↦ k.2.2.1) hkey
  have hlength : now'.buffer.length = now.buffer.length := congrArg (fun k ↦ k.2.2.2.2) hkey
  refine ⟨fun hbranch ↦ ?_, fun hno use huse ↦ ?_⟩
  · obtain ⟨use, opcode, rest, huse, hbuffer, hshape⟩ := h.branch (hflag.symm.trans hbranch)
    rw [hbuffer, head?_cons] at hhead
    obtain ⟨rest', hrest'⟩ := head?_eq_some_iff.mp hhead
    rw [hbuffer, hrest', length_cons, length_cons] at hlength
    have hsame : rest'.length = rest.length := by omega
    exact ⟨use, opcode, rest', huses.trans huse, hrest', by rwa [hsame]⟩
  · rw [huses] at huse
    rw [hlength]
    exact h.uses (hflag.symm.trans hno) use huse

/-- A visit either changes nothing that matters, or makes a branch near that was out of range. -/
theorem Current.visit (h : Current slices near text) (hbranches : Branches defs slices) {i : ℕ}
    (hi : i < slices.length) (continue_ : Bool) :
    ∃ text' continue', relaxSlice defs (text, continue_) i = some (text', continue') ∧
      ((continue' = continue_ ∧ Current slices near text' ∧ Settled defs slices near i) ∨
        (continue' = true ∧ i ∉ near ∧ Far defs slices near i ∧
          Current slices (insert i near) text')) := by
  obtain ⟨slice, hslice⟩ : ∃ slice, slices[i]? = some slice := ⟨_, List.getElem?_eq_getElem hi⟩
  obtain ⟨now, hnow⟩ : ∃ now, text[i]? = some now :=
    ⟨_, List.getElem?_eq_getElem (h.length ▸ hi)⟩
  have hfollows := h.follows hslice hnow
  have hshaped := h.good.shaped now (mem_of_getElem? hnow)
  cases hbranch : slice.relaxableBranch with
  | false =>
    refine ⟨text, continue_, ?_, Or.inl ⟨rfl, h, ?_⟩⟩
    · simp [relaxSlice, hnow, hfollows.branch, hbranch]
    · rintro ⟨found, hfound, hyes, -⟩
      obtain rfl := some.inj (hslice.symm.trans hfound)
      rw [hbranch] at hyes
      cases hyes
  | true =>
    obtain ⟨mark, -, hmark, -, -, -⟩ :=
      hbranches.targets slice (mem_of_getElem? hslice) hbranch
    have hdisp := h.branchDisplacement hbranches hslice hnow hbranch hmark
    have hnowBranch : now.relaxableBranch = true := hfollows.branch.trans hbranch
    obtain ⟨use, opcode, rest, huses, hbuffer, hlength, hend, hpos, hshort, hnear⟩ :=
      hfollows.shape hshaped hbranch (hbranches.short slice (mem_of_getElem? hslice) hbranch)
    generalize hd : distance (lengthsWith slices near) i mark = d at hdisp
    have hrun : relaxSlice defs (text, continue_) i =
        if fitsInI8 d then
          some (text.set i { now with buffer := overwrite now.buffer use.localOffset (i8 d) },
            continue_)
        else if opcode = 0xEB then some (relaxJmp text i now, true)
        else if 0x72 ≤ opcode ∧ opcode ≤ 0x7E then some (relaxJcc text i now use opcode, true)
        else some (text, continue_) := by
      have huse : now.uses.head? = some use := by rw [huses, head?_cons]
      have hhead : now.buffer.head? = some opcode := by rw [hbuffer, head?_cons]
      simp only [relaxSlice, hnow, bind_eq_bind, bind_some, hnowBranch, if_true,
        huse, hhead, hdisp, Option.pure_def]
    -- a short branch out of range that becomes near
    have hfar : fitsInI8 d = false → Far defs slices near i := by
      rintro hfits slice' mark' hslice' hmark'
      obtain rfl := some.inj (hslice.symm.trans hslice')
      obtain rfl := some.inj (hmark.symm.trans hmark')
      rwa [hd]
    have hnot : isShort opcode = true → i ∉ near := by
      intro hopcode hmem
      rcases hnear (decide_eq_true hmem) with rfl | rfl <;> exact absurd hopcode (by decide)
    have htwo : i ∉ near → ∃ byte, now.buffer = [opcode, byte] ∧ use.localOffset = 1 := by
      intro hmem
      obtain ⟨-, opcode', byte, -, hbuffer', hshort'⟩ :=
        hbranches.short slice (mem_of_getElem? hslice) hbranch
      rw [decide_eq_false hmem, formLength, if_neg Bool.false_ne_true, hbuffer', hbuffer] at hlength
      have hone : rest.length = 1 := by simpa using hlength
      obtain ⟨byte, rfl⟩ := List.length_eq_one_iff.mp hone
      refine ⟨byte, hbuffer, ?_⟩
      have hplain : ¬(opcode = 0x0F ∨ opcode = 0xE9) := by
        rintro (rfl | rfl) <;>
          exact absurd (hshort (decide_eq_false hmem)).1 (by decide)
      rw [if_neg hplain, hbuffer] at hend
      simpa using hend
    have hrelaxable : isTested opcode = true → i ∉ near → IsRelaxable slices i := fun htest hmem ↦
      ⟨slice, hslice, hbranch, opcode, (hshort (decide_eq_false hmem)).2, htest⟩
    by_cases hfits : fitsInI8 d = true
    · -- it reaches its target in the form it has
      rw [if_pos hfits] at hrun
      have hroom : use.localOffset + (i8 d).length ≤ now.buffer.length := by
        change use.localOffset + 1 ≤ now.buffer.length
        split_ifs at hend <;> omega
      have hkey : key { now with buffer := overwrite now.buffer use.localOffset (i8 d) }
          = key now := by
        rw [key, key, length_overwrite hroom, head?_overwrite hpos (by rw [hbuffer]; simp)]
      refine ⟨_, _, hrun, Or.inl ⟨rfl, h.set_key hslice hnow hkey
        (hshaped.of_key hkey) hbranch, ?_⟩⟩
      intro _ _ slice' mark' hslice' hmark'
      obtain rfl := some.inj (hslice.symm.trans hslice')
      obtain rfl := some.inj (hmark.symm.trans hmark')
      rwa [hd]
    · rw [if_neg hfits] at hrun
      by_cases hjmp : opcode = 0xEB
      · subst hjmp
        have hmem := hnot (by decide)
        obtain ⟨byte, hbytes, hone⟩ := htwo hmem
        refine ⟨_, _, hrun.trans (if_pos rfl), Or.inr ⟨rfl, hmem,
          hfar (Bool.eq_false_of_not_eq_true hfits), ?_⟩⟩
        refine h.push hslice hnow hmem (hrelaxable (by decide) hmem) ⟨fun _ ↦ ?_, fun hno ↦ ?_⟩ rfl
          ?_ ⟨hfollows.branch, fun hno ↦ ?_, hfollows.index, fun _ ↦ ?_⟩
        · exact ⟨use, 0xE9, i32 0, huses, by rw [hbytes]; rfl, Or.inr (Or.inl ⟨rfl, hone, rfl⟩)⟩
        · exact absurd (hnowBranch.symm.trans hno) (by decide)
        · rw [hbytes]
          rfl
        · exact absurd (hbranch.symm.trans hno) (by decide)
        · rw [formOpcode, if_pos rfl, (hshort (decide_eq_false hmem)).2, if_pos rfl]
          rfl
      · rw [if_neg hjmp] at hrun
        by_cases hjcc : (0x72 : Byte) ≤ opcode ∧ opcode ≤ (0x7E : Byte)
        · have htested : isTested opcode = true := by
            rw [isTested, decide_eq_true_eq]
            exact Or.inr hjcc
          have hmem := hnot ((isShort_iff_tested opcode).mpr (Or.inl htested))
          obtain ⟨byte, hbytes, hone⟩ := htwo hmem
          refine ⟨_, _, hrun.trans (if_pos hjcc), Or.inr ⟨rfl, hmem,
            hfar (Bool.eq_false_of_not_eq_true hfits), ?_⟩⟩
          refine h.push hslice hnow hmem (hrelaxable htested hmem) ⟨fun _ ↦ ?_, fun hno ↦ ?_⟩ rfl
            ?_ ⟨hfollows.branch, fun hno ↦ ?_, ?_, fun _ ↦ ?_⟩
          · refine ⟨{ use with localOffset := use.localOffset + 1 }, 0x0F, (opcode + 0x10) :: i32 0,
              by rw [huses]; rfl, by rw [hbytes]; rfl, Or.inr (Or.inr ⟨rfl, ?_, rfl⟩)⟩
            change use.localOffset + 1 = 2
            omega
          · exact absurd (hnowBranch.symm.trans hno) (by decide)
          · rw [hbytes]
            rfl
          · exact absurd (hbranch.symm.trans hno) (by decide)
          · have hindex := hfollows.index
            rw [huses] at hindex
            exact hindex
          · have hother : ¬(some opcode = some (0xEB : Byte)) := fun heq ↦ hjmp (some.inj heq)
            rw [formOpcode, if_pos rfl, (hshort (decide_eq_false hmem)).2, if_neg hother]
            rfl
        · -- what is near already, and `jg`
          refine ⟨text, continue_, hrun.trans (if_neg hjcc), Or.inl ⟨rfl, h, ?_⟩⟩
          rintro ⟨found, hfound, -, opcode', hopcode', htested⟩ hmem
          obtain rfl := some.inj (hslice.symm.trans hfound)
          obtain rfl := some.inj ((hshort (decide_eq_false hmem)).2.symm.trans hopcode')
          rw [isTested, decide_eq_true_eq] at htested
          exact absurd htested (not_or.mpr ⟨hjmp, hjcc⟩)

end Current

/-! ## Rounds -/

/-- What is near is out of range otherwise, and near in every encoding. -/
structure Sound (defs : List SymbolDef) (slices : List SectionSlice) (near : Finset ℕ) : Prop where
  far : ∀ k ∈ near, Far defs slices near k
  least : ∀ near', Encodable defs slices near' → near ⊆ near'

section Rounds

variable {defs : List SymbolDef} {slices text : List SectionSlice} {near : Finset ℕ}
  (hbranches : Branches defs slices)
include hbranches

theorem Far.mono {near' : Finset ℕ} (hsub : near ⊆ near')
    (hnear : ∀ k ∈ near', IsRelaxable slices k) {k : ℕ} (hk : k ∈ near')
    (h : Far defs slices near k) : Far defs slices near' k := by
  obtain ⟨slice, hslice, hbranch, -⟩ := hnear k hk
  intro slice' mark hslice' hmark
  obtain rfl := some.inj (hslice.symm.trans hslice')
  by_contra hfits
  rw [Bool.not_eq_false] at hfits
  have hold := (widens_lengthsWith hbranches hsub hnear hslice hbranch hmark).fitsInI8 hfits
  rw [h slice mark hslice hmark] at hold
  cases hold

theorem Sound.insert {i : ℕ} (hnear : ∀ k ∈ insert i near, IsRelaxable slices k)
    (h : Sound defs slices near) (hfar : Far defs slices near i) :
    Sound defs slices (insert i near) where
  far k hk := by
    have hsub := Finset.subset_insert i near
    rcases Finset.mem_insert.mp hk with rfl | hk'
    · exact hfar.mono hbranches hsub hnear hk
    · exact (h.far k hk').mono hbranches hsub hnear hk
  least near' hencodable := by
    have hsub := h.least near' hencodable
    refine Finset.insert_subset ?_ hsub
    by_contra hi
    obtain ⟨slice, hslice, hbranch, -⟩ := hnear i (Finset.mem_insert_self i near)
    obtain ⟨mark, -, hmark, -⟩ := hbranches.targets slice (mem_of_getElem? hslice) hbranch
    -- it would be in range with fewer branches near
    have hreach := hencodable.reaches i slice hslice hbranch mark hmark
    rw [if_neg hi] at hreach
    have hold := (widens_lengthsWith hbranches hsub hencodable.relaxable hslice hbranch
      hmark).fitsInI8 hreach
    rw [hfar slice mark hslice hmark] at hold
    cases hold

/-- The visits of a round change nothing that matters, or there are more branches near. -/
theorem Current.visits : ∀ (l : List ℕ), (∀ i ∈ l, i < slices.length) →
    ∀ (text : List SectionSlice) (near : Finset ℕ) (continue_ : Bool), Current slices near text →
      Sound defs slices near →
      ∃ text' continue' near', l.foldlM (relaxSlice defs) (text, continue_) =
        some (text', continue') ∧
        Current slices near' text' ∧ Sound defs slices near' ∧
        ((continue' = continue_ ∧ near' = near ∧ ∀ i ∈ l, Settled defs slices near i) ∨
          (continue' = true ∧ near.card < near'.card)) := by
  intro l
  induction l with
  | nil =>
    intro _ text near continue_ h hsound
    exact ⟨text, continue_, near, rfl, h, hsound,
      Or.inl ⟨rfl, rfl, fun i hi ↦ absurd hi not_mem_nil⟩⟩
  | cons i rest ih =>
    intro hl text near continue_ h hsound
    have hrest : ∀ i ∈ rest, i < slices.length := fun j hj ↦ hl j (mem_cons_of_mem i hj)
    obtain ⟨text₁, continue₁, hvisit, hcase⟩ :=
      h.visit hbranches (hl i mem_cons_self) continue_
    rcases hcase with ⟨rfl, h₁, hsettled⟩ | ⟨rfl, hi, hfar, h₁⟩
    · obtain ⟨text₂, continue₂, near₂, hrun, h₂, hsound₂, hcase⟩ :=
        ih hrest text₁ near continue₁ h₁ hsound
      refine ⟨text₂, continue₂, near₂, ?_, h₂, hsound₂, ?_⟩
      · rw [foldlM_cons, hvisit]
        exact hrun
      · rcases hcase with ⟨hsame, hnear, hall⟩ | hmore
        · exact Or.inl ⟨hsame, hnear, forall_mem_cons.mpr ⟨hsettled, hall⟩⟩
        · exact Or.inr hmore
    · have hsound₁ := hsound.insert hbranches h₁.relaxable hfar
      obtain ⟨text₂, continue₂, near₂, hrun, h₂, hsound₂, hcase⟩ :=
        ih hrest text₁ (insert i near) true h₁ hsound₁
      have hcard : near.card < (insert i near).card := by
        rw [Finset.card_insert_of_notMem hi]
        exact Nat.lt_succ_self _
      refine ⟨text₂, continue₂, near₂, ?_, h₂, hsound₂, Or.inr ?_⟩
      · rw [foldlM_cons, hvisit]
        exact hrun
      · rcases hcase with ⟨hsame, rfl, -⟩ | ⟨hsame, hmore⟩
        · exact ⟨hsame, hcard⟩
        · exact ⟨hsame, hcard.trans hmore⟩

omit hbranches in
theorem Current.card_le (h : Current slices near text) : near.card ≤ slices.length := by
  have hsub : near ⊆ Finset.range slices.length := by
    intro k hk
    obtain ⟨slice, hslice, -⟩ := h.relaxable k hk
    exact Finset.mem_range.mpr (List.getElem?_eq_some_iff.mp hslice).1
  simpa using Finset.card_le_card hsub

/-- There are fewer rounds than branches, and one more. -/
theorem Current.terminates : ∀ (fuel : ℕ) (text : List SectionSlice) (near : Finset ℕ),
    slices.length < near.card + fuel → Current slices near text → Sound defs slices near →
    ∃ text' near', applyRelaxation defs fuel text = some text' ∧ Current slices near' text' ∧
      Sound defs slices near' ∧ ∀ i < slices.length, Settled defs slices near' i := by
  intro fuel
  induction fuel with
  | zero =>
    intro text near hlt h _
    have hcard := h.card_le
    omega
  | succ fuel ih =>
    intro text near hlt h hsound
    obtain ⟨text₁, continue₁, near₁, hrun, h₁, hsound₁, hcase⟩ :=
      Current.visits hbranches (List.range text.length)
        (fun i hi ↦ h.length ▸ mem_range.mp hi) text near false h hsound
    rw [applyRelaxation, relaxRound, hrun, bind_some]
    rcases hcase with ⟨rfl, rfl, hsettled⟩ | ⟨rfl, hmore⟩
    · exact ⟨text₁, near₁, rfl, h₁, hsound₁, fun i hi ↦ hsettled i (mem_range.mpr (h.length ▸ hi))⟩
    · exact ih text₁ near₁ (by omega) h₁ hsound₁

end Rounds

variable {defs : List SymbolDef} {slices : List SectionSlice}

/-- Before the first round no branch is near. -/
theorem Branches.current
    (h : Branches defs slices) : Current slices ∅ (computeSliceOffsets 0 slices) where
  good := ⟨placed_computeSliceOffsets slices, fun slice hslice ↦ by
    obtain ⟨k, hk⟩ := getElem?_of_mem hslice
    rw [computeSliceOffsets_spec, map_eq_some_iff] at hk
    obtain ⟨before, hbefore, rfl⟩ := hk
    exact (h.shaped before (mem_of_getElem? hbefore)).of_offset _⟩
  relaxable k hk := absurd hk (Finset.notMem_empty k)
  length := length_computeSliceOffsets 0 slices
  follows := by
    intro k slice now hslice hnow
    rw [computeSliceOffsets_spec, hslice, map_some, some.injEq] at hnow
    rw [← hnow]
    exact ⟨rfl, fun _ ↦ ⟨rfl, rfl⟩, rfl, fun _ ↦ rfl⟩

theorem sound_empty : Sound defs slices ∅ where
  far k hk := absurd hk (Finset.notMem_empty k)
  least near' _ := Finset.empty_subset near'

/-! ## Resolving -/

/-- The length of a branch and its displacement, in the width that the opcode implies. -/
def readBranch : List Byte → Option (ℕ × ℤ)
  | [] => none
  | opcode :: rest =>
    if opcode = 0xE9 then
      if rest.length < 4 then none else some (5, (read32 (rest.take 4)).toInt)
    else if opcode = 0x0F then
      if rest.length < 5 then none else some (6, (read32 ((rest.drop 1).take 4)).toInt)
    else rest.head?.map fun byte ↦ (2, byte.toInt)

/-- Every branch leads from its end to its target. -/
def BranchesExact (defs : List SymbolDef) (text : List SectionSlice) : Prop :=
  ∀ k slice, text[k]? = some slice → slice.relaxableBranch = true →
    ∃ mark length displacement, targetOf defs slice = some mark ∧
      readBranch slice.buffer = some (length, displacement) ∧
      displacement = position text mark - (start text k + length : ℕ)

/-- The text fits the forms its branches have. -/
def Fits (defs : List SymbolDef) (slices : List SectionSlice) (near : Finset ℕ) : Prop :=
  ∀ k slice, slices[k]? = some slice → slice.relaxableBranch = true →
    ∀ mark, targetOf defs slice = some mark →
      if k ∈ near then fitsInI32 (distance (lengthsWith slices near) k mark) = true
      else fitsInI8 (distance (lengthsWith slices near) k mark) = true

section Resolving

variable {defs : List SymbolDef} {slices text final : List SectionSlice} {near : Finset ℕ} {k : ℕ}
  {slice now : SectionSlice}

/-- If there is an encoding at all, the one that is found is one. -/
theorem exists_encodable_iff (hbranches : Branches defs slices) (h : Current slices near text)
    (hsound : Sound defs slices near) (hsettled : ∀ i < slices.length, Settled defs slices near i) :
    (∃ near', Encodable defs slices near') ↔ Fits defs slices near := by
  constructor
  · rintro ⟨near', hencodable⟩ k slice hslice hbranch mark hmark
    have hsub := hsound.least near' hencodable
    have hreach := hencodable.reaches k slice hslice hbranch mark hmark
    have hwidens := widens_lengthsWith hbranches hsub hencodable.relaxable hslice hbranch hmark
    by_cases hk : k ∈ near
    · rw [if_pos (hsub hk)] at hreach
      rw [if_pos hk]
      exact hwidens.fitsInI32 hreach
    · rw [if_neg hk]
      by_cases hk' : k ∈ near'
      · exact hsettled k (List.getElem?_eq_some_iff.mp hslice).1 (hencodable.relaxable k hk') hk
          slice mark hslice hmark
      · rw [if_neg hk'] at hreach
        exact hwidens.fitsInI8 hreach
  · exact fun hfits ↦ ⟨near, h.relaxable, hfits⟩

theorem exists_resolveSymbols {uses : List SymbolUse} (huses : ∀ use ∈ uses, ∃ symbolDef,
      defs[use.index]? = some symbolDef ∧
        (symbolDef.kind = .TEXT_FUNC → symbolDef.sliceIndex < text.length)) :
    ∀ found : SectionSlice, ∃ found', uses.foldlM (resolveSymbol defs text) found
      = some found' := by
  induction uses with
  | nil => exact fun found ↦ ⟨found, rfl⟩
  | cons use rest ih =>
    intro found
    obtain ⟨symbolDef, hdef, hfunc⟩ := huses use List.mem_cons_self
    have hstep : ∃ next, resolveSymbol defs text found use = some next := by
      simp only [resolveSymbol, bind_eq_bind, hdef, bind_some]
      by_cases hkind : symbolDef.kind = .TEXT_FUNC
      · rw [if_pos hkind]
        simp [computeDisplacement, hdef, List.getElem?_eq_getElem (hfunc hkind)]
      · rw [if_neg hkind]
        exact ⟨_, rfl⟩
    obtain ⟨next, hnext⟩ := hstep
    obtain ⟨found', hfound'⟩ := ih (fun use huse ↦ huses use (List.mem_cons_of_mem _ huse)) next
    exact ⟨found', by rw [List.foldlM_cons, hnext]; exact hfound'⟩

/-- A branch is resolved with the distance to its target. -/
theorem Current.resolveBranch (h : Current slices near text) (hbranches : Branches defs slices)
    (hslice : slices[k]? = some slice) (hnow : text[k]? = some now)
    (hbranch : slice.relaxableBranch = true) (hmark : targetOf defs slice = some mark) :
    ∃ use, now.uses = [use] ∧ resolveSlice defs text now = some { now with
      buffer := overwrite now.buffer use.localOffset
        (if fitsInI8 (distance (lengthsWith slices near) k mark) then
          i8 (distance (lengthsWith slices near) k mark)
        else i32 (distance (lengthsWith slices near) k mark))
      uses := [{ use with isResolved := true }] } := by
  have hfollows := h.follows hslice hnow
  obtain ⟨use, opcode, rest, huses, hbuffer, -⟩ := hfollows.shape
    (h.good.shaped now (mem_of_getElem? hnow)) hbranch
    (hbranches.short slice (mem_of_getElem? hslice) hbranch)
  refine ⟨use, huses, ?_⟩
  rw [resolveSlice, if_pos (hfollows.branch.trans hbranch), resolveRelaxableSlice]
  simp only [h.branchDisplacement hbranches hslice hnow hbranch hmark, bind_eq_bind,
    bind_some, huses, List.tail_cons, Option.pure_def]
  rfl

theorem Current.exists_resolve (h : Current slices near text) (hbranches : Branches defs slices) :
    ∃ final, resolveInternalSymbols defs text = some final := by
  obtain ⟨final, hfinal, -⟩ := exists_mapM (f := resolveSlice defs text) (P := fun _ _ ↦ True)
    (l := text) fun now hmem ↦ by
      obtain ⟨k, hnow⟩ := List.getElem?_of_mem hmem
      obtain ⟨slice, hslice⟩ : ∃ slice, slices[k]? = some slice :=
        ⟨_, List.getElem?_eq_getElem (h.length ▸ (List.getElem?_eq_some_iff.mp hnow).1)⟩
      have hfollows := h.follows hslice hnow
      cases hbranch : slice.relaxableBranch with
      | true =>
        obtain ⟨mark, -, hmark, -⟩ :=
          hbranches.targets slice (mem_of_getElem? hslice) hbranch
        obtain ⟨use, -, hresolve⟩ := h.resolveBranch hbranches hslice hnow hbranch hmark
        exact ⟨_, hresolve, trivial⟩
      | false =>
        have huses := hbranches.uses slice (mem_of_getElem? hslice) hbranch
        rw [← (hfollows.other hbranch).2, ← h.length] at huses
        obtain ⟨found, hfound⟩ := exists_resolveSymbols huses { now with uses := [] }
        refine ⟨found, ?_, trivial⟩
        have hno : ¬now.relaxableBranch = true := by
          rw [hfollows.branch, hbranch]
          exact Bool.false_ne_true
        rw [resolveSlice, if_neg hno]
        exact hfound
  exact ⟨final, hfinal⟩

variable (opcode : Byte)

theorem overwrite_one (rest bytes : List Byte) :
    overwrite (opcode :: rest) 1 bytes = opcode :: (bytes ++ rest.drop bytes.length) := by
  simp [overwrite, Nat.add_comm 1]

theorem overwrite_two (second : Byte) (rest bytes : List Byte) :
    overwrite (opcode :: second :: rest) 2 bytes
      = opcode :: second :: (bytes ++ rest.drop bytes.length) := by
  simp [overwrite, Nat.add_comm 2]

theorem read32_i32 (value : ℤ) (rest : List Byte) :
    read32 ((i32 value ++ rest).take 4) = BitVec.ofInt 32 value := by
  rw [take_left' (length_i32 value), i32, Target.X8664.Encoder.read32_u32]
  apply eq_of_toInt_eq
  simp only [toInt_setWidth, toInt_ofInt, toNat_ofInt, Int.bmod]
  omega

theorem toInt_ofInt_of_fitsInI8 {value : ℤ} (h : fitsInI8 value = true) :
    (BitVec.ofInt 8 value).toInt = value := by
  rw [fitsInI8, decide_eq_true_eq] at h
  rw [toInt_ofInt, Int.bmod]
  omega

/-- What the bytes of a resolved branch say. -/
theorem Current.readBranch (h : Current slices near text) (hbranches : Branches defs slices)
    (hslice : slices[k]? = some slice) (hnow : text[k]? = some now)
    (hbranch : slice.relaxableBranch = true) (hmark : targetOf defs slice = some mark)
    {found : SectionSlice} (hfound : resolveSlice defs text now = some found) :
    found.relaxableBranch = true ∧ targetOf defs found = some mark ∧
      (k ∈ near → fitsInI8 (distance (lengthsWith slices near) k mark) = false →
        Emit.readBranch found.buffer = some (now.buffer.length,
          (BitVec.ofInt 32 (distance (lengthsWith slices near) k mark)).toInt)) ∧
      (k ∉ near → now.buffer.length = 2 ∧ ∃ byte : Byte, Emit.readBranch found.buffer
        = some (2, byte.toInt) ∧
        (fitsInI8 (distance (lengthsWith slices near) k mark) = true →
          byte.toInt = distance (lengthsWith slices near) k mark)) := by
  obtain ⟨use, huses, hresolve⟩ := h.resolveBranch hbranches hslice hnow hbranch hmark
  rw [hresolve, some.injEq] at hfound
  generalize distance (lengthsWith slices near) k mark = d at hfound ⊢
  have hfollows := h.follows hslice hnow
  obtain ⟨use', opcode, rest, huses', hbuffer, hlength, hend, hpos, hshort, hnear⟩ := hfollows.shape
    (h.good.shaped now (mem_of_getElem? hnow)) hbranch
    (hbranches.short slice (mem_of_getElem? hslice) hbranch)
  obtain rfl : use = use' := by
    rw [huses, cons.injEq] at huses'
    exact huses'.1
  have hflag : now.relaxableBranch = true := hfollows.branch.trans hbranch
  refine ⟨by rw [← hfound]; exact hflag, ?_, fun hk hfits ↦ ?_, fun hk ↦ ?_⟩
  · obtain ⟨before, hbefore, hlookup⟩ := bind_eq_some_iff.mp hmark
    have hindex := hfollows.index
    rw [huses, hbefore, head?_cons, map_some, map_some, some.injEq] at hindex
    rw [← hfound]
    simpa only [targetOf, head?_cons, bind_eq_bind, bind_some, hindex] using hlookup
  · obtain ⟨use', opcode', rest', huses', hbuffer', hshape⟩ :=
      (h.good.shaped now (mem_of_getElem? hnow)).branch hflag
    obtain rfl : use = use' := by
      rw [huses, cons.injEq] at huses'
      exact huses'.1
    obtain ⟨rfl, rfl⟩ : opcode = opcode' ∧ rest = rest' := by
      rw [hbuffer, cons.injEq] at hbuffer'
      exact hbuffer'
    rw [← hfound, hfits, hbuffer]
    rcases hshape with ⟨hopcode, -⟩ | ⟨rfl, hoffset, hrest⟩ | ⟨rfl, hoffset, hrest⟩
    · rcases hnear (decide_eq_true hk) with rfl | rfl <;> exact absurd hopcode (by decide)
    · rw [hoffset, if_neg Bool.false_ne_true, overwrite_one, Emit.readBranch, if_pos rfl, if_neg,
        read32_i32, length_cons, hrest]
      rw [length_append, length_i32]
      omega
    · obtain ⟨second, rest, rfl⟩ := exists_cons_of_length_pos (by omega : 0 < rest.length)
      rw [hoffset, if_neg Bool.false_ne_true, overwrite_two, Emit.readBranch, if_neg (by decide),
        if_pos rfl, if_neg, drop_one, tail_cons, read32_i32, length_cons, hrest]
      rw [length_cons, length_append, length_i32]
      omega
  · obtain ⟨hopcode, -⟩ := hshort (decide_eq_false hk)
    have hplain : ¬opcode = 0xE9 ∧ ¬opcode = 0x0F := by
      constructor <;> rintro rfl <;> exact absurd hopcode (by decide)
    obtain ⟨-, opcode', byte, -, hbuffer', -⟩ :=
      hbranches.short slice (mem_of_getElem? hslice) hbranch
    have htwo : now.buffer.length = 2 := by
      rw [hlength, decide_eq_false hk, formLength, if_neg Bool.false_ne_true, hbuffer']
      rfl
    have hoffset : use.localOffset = 1 := by
      rw [if_neg (not_or.mpr ⟨hplain.2, hplain.1⟩)] at hend
      omega
    refine ⟨htwo, ?_⟩
    rw [← hfound, hbuffer, hoffset]
    dsimp only
    rw [overwrite_one, Emit.readBranch, if_neg hplain.1, if_neg hplain.2]
    by_cases hfits : fitsInI8 d = true
    · rw [if_pos hfits]
      exact ⟨BitVec.ofInt 8 d, rfl, fun _ ↦ toInt_ofInt_of_fitsInI8 hfits⟩
    · rw [if_neg hfits]
      exact ⟨_, rfl, fun hyes ↦ absurd hyes hfits⟩

theorem resolveSymbols_relaxable : ∀ (uses : List SymbolUse) (found found' : SectionSlice),
    uses.foldlM (resolveSymbol defs text) found = some found' →
    found'.relaxableBranch = found.relaxableBranch := by
  intro uses
  induction uses with
  | nil =>
    intro found found' h
    rw [← some.inj h]
  | cons use rest ih =>
    intro found found' h
    rw [foldlM_cons] at h
    obtain ⟨next, hnext, hrest⟩ := bind_eq_some_iff.mp h
    rw [ih next found' hrest]
    obtain ⟨symbolDef, -, hnext⟩ := bind_eq_some_iff.mp hnext
    split_ifs at hnext
    · obtain ⟨displacement, -, hnext⟩ := bind_eq_some_iff.mp hnext
      rw [← some.inj hnext]
    · rw [← some.inj hnext]

theorem resolveSlice_relaxable {found : SectionSlice}
    (h : resolveSlice defs text now = some found) :
    found.relaxableBranch = now.relaxableBranch := by
  rw [resolveSlice] at h
  split_ifs at h
  · obtain ⟨use, -, h⟩ := bind_eq_some_iff.mp h
    obtain ⟨displacement, -, h⟩ := bind_eq_some_iff.mp h
    rw [← some.inj h]
  · exact resolveSymbols_relaxable now.uses { now with uses := [] } found h

/-- The lengths of the slices once they are resolved. -/
theorem Current.lengths_resolve (h : Current slices near text) (hbranches : Branches defs slices)
    (hresolve : resolveInternalSymbols defs text = some final) :
    List.Forall₂ (· ≤ ·) (lengths text) (lengths final) ∧
      (∀ (k : ℕ) (slice : SectionSlice), slices[k]? = some slice → slice.relaxableBranch = false →
        (lengths final)[k]? = (lengths text)[k]?) ∧
      ((∀ k slice, slices[k]? = some slice → slice.relaxableBranch = true → k ∉ near →
        ∀ mark, targetOf defs slice = some mark →
          fitsInI8 (distance (lengthsWith slices near) k mark) = true) →
        lengths final = lengths text) := by
  have hforall := forall₂_of_mapM hresolve
  have hlengths : ∀ {k : ℕ} {now : SectionSlice}, text[k]? = some now →
      ∃ found : SectionSlice, final[k]? = some found ∧ now.buffer.length ≤ found.buffer.length ∧
      (InRange isShort defs text now → found.buffer.length = now.buffer.length) := by
    intro k now hnow
    obtain ⟨found, hfound, -, hsame, hlonger⟩ := resolve_getElem? h.good hresolve hnow
    refine ⟨found, hfound, ?_, hsame⟩
    by_cases hrange : InRange isShort defs text now
    · exact (hsame hrange).ge
    · rw [hlonger hrange]
      exact Nat.le_add_right _ 3
  refine ⟨?_, fun k slice hslice hbranch ↦ ?_, fun hfits ↦ ?_⟩
  · rw [lengths, lengths, List.forall₂_map_left_iff, List.forall₂_map_right_iff, forall₂_iff_get]
    refine ⟨hforall.length_eq, fun k hk hk' ↦ ?_⟩
    obtain ⟨found, hfound, hle, -⟩ := hlengths (List.getElem?_eq_getElem hk)
    obtain rfl := some.inj ((List.getElem?_eq_getElem hk').symm.trans hfound)
    exact hle
  · obtain ⟨now, hnow⟩ : ∃ now, text[k]? = some now :=
      ⟨_, List.getElem?_eq_getElem (h.length ▸ (List.getElem?_eq_some_iff.mp hslice).1)⟩
    obtain ⟨found, hfound, -, hsame⟩ := hlengths hnow
    rw [lengths_getElem? hfound, lengths_getElem? hnow, hsame]
    intro hyes
    rw [(h.follows hslice hnow).branch, hbranch] at hyes
    cases hyes
  · apply ext_getElem?
    intro k
    cases hnow : text[k]? with
    | none =>
      rw [lengths, lengths, getElem?_map, getElem?_map, hnow,
        List.getElem?_eq_none_iff.mpr (hforall.length_eq ▸ getElem?_eq_none_iff.mp hnow)]
    | some now =>
      obtain ⟨found, hfound, -, hsame⟩ := hlengths hnow
      obtain ⟨slice, hslice⟩ : ∃ slice, slices[k]? = some slice :=
        ⟨_, List.getElem?_eq_getElem (h.length ▸ (List.getElem?_eq_some_iff.mp hnow).1)⟩
      rw [lengths_getElem? hfound, lengths_getElem? hnow, hsame]
      intro hyes opcode hopcode hshort displacement hdisp
      have hfollows := h.follows hslice hnow
      have hbranch : slice.relaxableBranch = true := hfollows.branch.symm.trans hyes
      have hk : k ∉ near := by
        intro hk
        obtain ⟨use, opcode', rest, -, hbuffer, -, -, -, -, hnear⟩ := hfollows.shape
          (h.good.shaped now (mem_of_getElem? hnow)) hbranch
          (hbranches.short slice (mem_of_getElem? hslice) hbranch)
        rw [hbuffer, head?_cons, some.injEq] at hopcode
        subst hopcode
        rcases hnear (decide_eq_true hk) with rfl | rfl <;> exact absurd hshort (by decide)
      obtain ⟨mark, -, hmark, -⟩ :=
        hbranches.targets slice (mem_of_getElem? hslice) hbranch
      rw [h.branchDisplacement hbranches hslice hnow hbranch hmark, some.injEq] at hdisp
      rw [← hdisp]
      exact hfits k slice hslice hbranch hk mark hmark

/-- A short branch is no closer to its target in the end than when it was relaxed. -/
theorem Current.widens_resolve (h : Current slices near text) (hbranches : Branches defs slices)
    (hresolve : resolveInternalSymbols defs text = some final) (hslice : slices[k]? = some slice)
    (hnow : text[k]? = some now) (htwo : now.buffer.length = 2)
    (hbranch : slice.relaxableBranch = true) (hmark : targetOf defs slice = some mark) :
    Widens (distance (lengthsWith slices near) k mark)
      (position final mark - (start final k + 2 : ℕ)) := by
  obtain ⟨hle, hsame, -⟩ := h.lengths_resolve hbranches hresolve
  obtain ⟨mark', target, hmark', htarget, hlabel, hmarkle⟩ :=
    hbranches.targets slice (mem_of_getElem? hslice) hbranch
  obtain rfl := some.inj (hmark.symm.trans hmark')
  have hne : mark.1 ≠ k := by
    rintro rfl
    obtain rfl := some.inj (htarget.symm.trans hslice)
    rw [hlabel] at hbranch
    cases hbranch
  obtain ⟨targetNow, htargetNow⟩ : ∃ target, text[mark.1]? = some target :=
    ⟨_, List.getElem?_eq_getElem (h.length ▸ (List.getElem?_eq_some_iff.mp htarget).1)⟩
  have hlength : (lengths text)[mark.1]? = some target.buffer.length := by
    rw [lengths_getElem? htargetNow, ((h.follows htarget htargetNow).other hlabel).1]
  have hlength' := (hsame mark.1 target htarget hlabel).trans hlength
  have hnext : ∀ {l : List ℕ} {k a : ℕ}, l[k]? = some a →
      (l.take (k + 1)).sum = (l.take k).sum + a := by
    intro l k a hl
    rw [take_add_one, hl, sum_append]
    rfl
  have hend := hnext (lengths_getElem? hnow)
  rw [htwo] at hend
  rw [← h.lengths_eq hbranches, distance, position, start, start]
  rcases Nat.lt_or_gt_of_ne hne with hlt | hgt
  · have hwide := sum_take_widens hle (show mark.1 + 1 ≤ k by omega)
    have hmono := sum_take_le (lengths text) (show mark.1 + 1 ≤ k by omega)
    rw [hnext hlength, hnext hlength'] at hwide
    rw [hnext hlength] at hmono
    right
    omega
  · have hwide := sum_take_widens hle (show k + 1 ≤ mark.1 by omega)
    have hmono := sum_take_le (lengths text) (show k + 1 ≤ mark.1 by omega)
    have hgrown : (lengths final)[k]?.isSome → ((lengths final).take k).sum + 2
        ≤ ((lengths final).take (k + 1)).sum := by
      intro hsome
      obtain ⟨a, ha⟩ := Option.isSome_iff_exists.mp hsome
      obtain ⟨hk', hget⟩ := List.getElem?_eq_some_iff.mp ha
      have hk : k < (lengths text).length := hle.length_eq ▸ hk'
      have hstep := (List.forall₂_iff_get.mp hle).2 k hk hk'
      have htext : (lengths text)[k] = 2 := by
        have hsome' := lengths_getElem? hnow
        rw [List.getElem?_eq_getElem hk, some.injEq, htwo] at hsome'
        exact hsome'
      have htwo' : 2 ≤ a := by
        rw [← hget, ← htext]
        exact hstep
      rw [hnext ha]
      omega
    have hsome : (lengths final)[k]?.isSome := by
      have hk := (List.getElem?_eq_some_iff.mp (lengths_getElem? hnow)).1
      rw [List.getElem?_eq_getElem (hle.length_eq ▸ hk)]
      rfl
    have hgrow := hgrown hsome
    left
    omega

/-- The resolved text is exact where it fits. -/
theorem Current.branchesExact_iff (h : Current slices near text) (hbranches : Branches defs slices)
    (hsound : Sound defs slices near) (hresolve : resolveInternalSymbols defs text = some final) :
    BranchesExact defs final ↔ Fits defs slices near := by
  have hforall := forall₂_of_mapM hresolve
  have hfinal : ∀ {k : ℕ} {slice : SectionSlice}, slices[k]? = some slice →
      ∃ now found : SectionSlice, text[k]? = some now ∧ final[k]? = some found ∧
        resolveSlice defs text now = some found := by
    intro k slice hslice
    obtain ⟨now, hnow⟩ : ∃ now, text[k]? = some now :=
      ⟨_, List.getElem?_eq_getElem (h.length ▸ (List.getElem?_eq_some_iff.mp hslice).1)⟩
    obtain ⟨found, hfound, hstep⟩ := forall₂_getElem? hforall hnow
    exact ⟨now, found, hnow, hfound, hstep⟩
  obtain ⟨-, -, hsame⟩ := h.lengths_resolve hbranches hresolve
  have hdistance : lengths final = lengths text → ∀ {k : ℕ} {slice now : SectionSlice}
      {mark : ℕ × ℕ}, slices[k]? = some slice → text[k]? = some now →
        position final mark - (start final k + now.buffer.length : ℕ)
        = distance (lengthsWith slices near) k mark := by
    intro hlengths k slice now mark hslice hnow
    rw [← h.lengths_eq hbranches, distance, position, start, start, hlengths, take_add_one,
      lengths_getElem? hnow, sum_append]
    rfl
  constructor
  · intro hexact
    have hshort : ∀ k slice, slices[k]? = some slice → slice.relaxableBranch = true → k ∉ near →
        ∀ mark, targetOf defs slice = some mark →
          fitsInI8 (distance (lengthsWith slices near) k mark) = true := by
      intro k slice hslice hbranch hk mark hmark
      obtain ⟨now, found, hnow, hfound, hstep⟩ := hfinal hslice
      obtain ⟨hflag, htarget, -, hread⟩ :=
        h.readBranch hbranches hslice hnow hbranch hmark hstep
      obtain ⟨htwo, byte, hbyte, -⟩ := hread hk
      obtain ⟨mark', length, displacement, hmark', hbranchRead, hdisp⟩ :=
        hexact k found hfound hflag
      obtain rfl := some.inj (htarget.symm.trans hmark')
      obtain ⟨rfl, rfl⟩ : 2 = length ∧ byte.toInt = displacement := by
        have hpair := some.inj (hbyte.symm.trans hbranchRead)
        exact Prod.mk.inj hpair
      refine (h.widens_resolve hbranches hresolve hslice hnow htwo hbranch hmark).fitsInI8 ?_
      rw [← hdisp, fitsInI8, decide_eq_true_eq]
      have hle := le_toInt byte
      have hlt := toInt_lt (x := byte)
      omega
    have hlengths := hsame hshort
    intro k slice hslice hbranch mark hmark
    by_cases hk : k ∈ near
    · rw [if_pos hk]
      obtain ⟨now, found, hnow, hfound, hstep⟩ := hfinal hslice
      obtain ⟨hflag, htarget, hread, -⟩ :=
        h.readBranch hbranches hslice hnow hbranch hmark hstep
      have hnear := hread hk (hsound.far k hk slice mark hslice hmark)
      obtain ⟨mark', length, displacement, hmark', hbranchRead, hdisp⟩ :=
        hexact k found hfound hflag
      obtain rfl := some.inj (htarget.symm.trans hmark')
      obtain ⟨rfl, rfl⟩ := Prod.mk.inj (some.inj (hnear.symm.trans hbranchRead))
      rw [hdistance hlengths hslice hnow] at hdisp
      rw [← hdisp, fitsInI32, decide_eq_true_eq]
      have hle := le_toInt (BitVec.ofInt 32 (distance (lengthsWith slices near) k mark))
      have hlt := toInt_lt (x := BitVec.ofInt 32 (distance (lengthsWith slices near) k mark))
      omega
    · rw [if_neg hk]
      exact hshort k slice hslice hbranch hk mark hmark
  · intro hfits k found hfound hflag
    have hlengths := hsame fun k slice hslice hbranch hk mark hmark ↦ by
      have hreach := hfits k slice hslice hbranch mark hmark
      rwa [if_neg hk] at hreach
    have hlt : k < slices.length := by
      rw [← h.length, hforall.length_eq]
      exact (List.getElem?_eq_some_iff.mp hfound).1
    obtain ⟨slice, hslice⟩ : ∃ slice, slices[k]? = some slice := ⟨_, List.getElem?_eq_getElem hlt⟩
    obtain ⟨now, found', hnow, hfound', hstep⟩ := hfinal hslice
    obtain rfl := some.inj (hfound.symm.trans hfound')
    have hbranch : slice.relaxableBranch = true := by
      rw [← (h.follows hslice hnow).branch, ← resolveSlice_relaxable hstep, hflag]
    obtain ⟨mark, -, hmark, -⟩ := hbranches.targets slice (mem_of_getElem? hslice) hbranch
    obtain ⟨-, htarget, hnear, hshort⟩ :=
      h.readBranch hbranches hslice hnow hbranch hmark hstep
    have hreach := hfits k slice hslice hbranch mark hmark
    by_cases hk : k ∈ near
    · rw [if_pos hk, fitsInI32, decide_eq_true_eq] at hreach
      refine ⟨mark, _, _, htarget, hnear hk (hsound.far k hk slice mark hslice hmark), ?_⟩
      rw [hdistance hlengths hslice hnow, BitVec.toInt_ofInt, Int.bmod]
      omega
    · rw [if_neg hk] at hreach
      obtain ⟨htwo, byte, hbyte, hvalue⟩ := hshort hk
      refine ⟨mark, _, _, htarget, hbyte, ?_⟩
      rw [hvalue hreach, ← hdistance hlengths hslice hnow, htwo]

end Resolving

/-- Relaxation ends, and every branch leads to its target exactly when the branches other than
`jg` can be given forms with which all of them reach their targets. -/
theorem branchesExact_iff_encodable (defs : List SymbolDef) (slices : List SectionSlice)
    (hbranches : Branches defs slices) :
    ∃ fuel text final, applyRelaxation defs fuel (computeSliceOffsets 0 slices) = some text ∧
      resolveInternalSymbols defs text = some final ∧
      (BranchesExact defs final ↔ ∃ near, Encodable defs slices near) := by
  obtain ⟨text, near, hrun, hcurrent, hsound, hsettled⟩ :=
    Current.terminates hbranches (slices.length + 1) _ ∅ (by simp) hbranches.current sound_empty
  obtain ⟨final, hfinal⟩ := hcurrent.exists_resolve hbranches
  exact ⟨slices.length + 1, text, final, hrun, hfinal,
    (hcurrent.branchesExact_iff hbranches hsound hfinal).trans
      (exists_encodable_iff hbranches hcurrent hsound hsettled).symm⟩

/-- A `jg` over some bytes to a label. -/
def jgOver (bytes : ℕ) : List SectionSlice :=
  [{ uses := [⟨0, 1, .REL32, 0, false⟩], relaxableBranch := true, buffer := [0x7F, 0] },
    { buffer := List.replicate bytes 0x90 }]

def endLabel (bytes : ℕ) : List SymbolDef := [⟨"end", .TEXT_LABEL, false, 1, bytes, 0, 0⟩]

theorem branches_jgOver (bytes : ℕ) : Branches (endLabel bytes) (jgOver bytes) where
  shaped := by
    simp only [jgOver, forall_mem_cons, not_mem_nil, false_implies, implies_true, and_true]
    exact ⟨⟨fun _ ↦ ⟨_, 0x7F, [0], rfl, rfl, Or.inl ⟨by decide, rfl, rfl⟩⟩, by simp⟩,
      by simp, by simp⟩
  short := by
    simp only [jgOver, forall_mem_cons, not_mem_nil, false_implies, implies_true, and_true]
    exact ⟨fun _ ↦ ⟨_, 0x7F, 0, rfl, rfl, by decide⟩, by simp⟩
  targets := by
    simp only [jgOver, forall_mem_cons, not_mem_nil, false_implies, implies_true, and_true]
    exact ⟨fun _ ↦ ⟨(1, bytes), _, rfl, rfl, rfl, by simp⟩, by simp⟩
  uses := by
    simp only [jgOver, forall_mem_cons, not_mem_nil, false_implies, implies_true, and_true]
    simp

theorem branchesExact_iff_encodable_jgOver : Branches (endLabel 3) (jgOver 3) ∧
    ∃ fuel text final,
      applyRelaxation (endLabel 3) fuel (computeSliceOffsets 0 (jgOver 3)) = some text ∧
      resolveInternalSymbols (endLabel 3) text = some final ∧
      (BranchesExact (endLabel 3) final ↔ ∃ near, Encodable (endLabel 3) (jgOver 3) near) :=
  ⟨branches_jgOver 3, branchesExact_iff_encodable (endLabel 3) (jgOver 3) (branches_jgOver 3)⟩

set_option maxRecDepth 8000 in
/-- Over 130 bytes, the byte of the displacement is that of -126. -/
theorem not_branchesExact_jgOver : ¬∀ (defs : List SymbolDef) (slices : List SectionSlice),
    Branches defs slices → ∃ fuel text final,
      applyRelaxation defs fuel (computeSliceOffsets 0 slices) = some text ∧
      resolveInternalSymbols defs text = some final ∧ BranchesExact defs final := by
  intro hall
  obtain ⟨fuel, text, final, hrun, hresolve, hexact⟩ :=
    hall (endLabel 130) (jgOver 130) (branches_jgOver 130)
  have hround : relaxRound (endLabel 130) (computeSliceOffsets 0 (jgOver 130))
      = some (computeSliceOffsets 0 (jgOver 130), false) := by decide
  obtain rfl : computeSliceOffsets 0 (jgOver 130) = text := by
    cases fuel with
    | zero => cases hrun
    | succ fuel =>
      rw [applyRelaxation, hround] at hrun
      exact some.inj hrun
  have hread : ((resolveInternalSymbols (endLabel 130) (computeSliceOffsets 0 (jgOver 130))).bind
      fun final ↦ final[0]?).map (fun slice ↦ (slice.relaxableBranch, targetOf (endLabel 130) slice,
        readBranch slice.buffer)) = some (true, some (1, 130), some (2, -126)) := by decide
  have hplaces : (resolveInternalSymbols (endLabel 130) (computeSliceOffsets 0 (jgOver 130))).map
      (fun final ↦ (start final 0, position final (1, 130))) = some (0, 135) := by decide
  rw [hresolve, bind_some] at hread
  rw [hresolve, map_some, some.injEq, Prod.mk.injEq] at hplaces
  obtain ⟨slice, hzero, hslice⟩ := map_eq_some_iff.mp hread
  simp only [Prod.mk.injEq] at hslice
  obtain ⟨hbranch, htarget, hbytes⟩ := hslice
  obtain ⟨mark, length, displacement, hmark, hdisplacement, heq⟩ := hexact 0 slice hzero hbranch
  obtain rfl := some.inj (htarget.symm.trans hmark)
  obtain ⟨rfl, rfl⟩ := Prod.mk.inj (some.inj (hbytes.symm.trans hdisplacement))
  rw [hplaces.1, hplaces.2] at heq
  exact absurd heq (by decide)

end Banjo.Emit
