import Banjo.Emit.BinaryBuilder.Relaxation

/-!
# The layout of a module

Offsets are fixed once the branches are relaxed, and resolving a branch leaves the length of its
slice alone unless the branch is still short and out of range. So the offsets in the module are the
places in its sections if there is no such branch, and what comes after one is out of place.
-/

open List Option

namespace Banjo.Emit

open WriteBuffer OptionLists

variable {defs : List SymbolDef} {text text' : List SectionSlice} {slice slice' : SectionSlice}

/-! ## Resolving -/

theorem resolveSymbol_spec {uses : List SymbolUse} : ∀ (slice : SectionSlice),
    (∀ use ∈ uses, use.localOffset + 4 ≤ slice.buffer.length) →
    uses.foldlM (resolveSymbol defs text) slice = some slice' →
    slice'.offset = slice.offset ∧ slice'.buffer.length = slice.buffer.length := by
  induction uses with
  | nil =>
    intro slice _ h
    obtain rfl := some.inj h
    exact ⟨rfl, rfl⟩
  | cons use rest ih =>
    intro slice huses h
    rw [foldlM_cons] at h
    obtain ⟨next, hnext, hrest⟩ := bind_eq_some_iff.mp h
    have hstep : next.offset = slice.offset ∧ next.buffer.length = slice.buffer.length := by
      rw [resolveSymbol] at hnext
      obtain ⟨symbolDef, -, hnext⟩ := bind_eq_some_iff.mp hnext
      split_ifs at hnext
      · obtain ⟨displacement, -, hnext⟩ := bind_eq_some_iff.mp hnext
        obtain rfl := some.inj hnext
        exact ⟨rfl, length_overwrite (huses use mem_cons_self)⟩
      · obtain rfl := some.inj hnext
        exact ⟨rfl, rfl⟩
    obtain ⟨hoffset, hlength⟩ := ih next (fun other hother ↦ by
      rw [hstep.2]
      exact huses other (mem_cons_of_mem _ hother)) hrest
    exact ⟨hoffset.trans hstep.1, hlength.trans hstep.2⟩

/-- Resolving a slice makes it longer when it is a short branch out of range, and only then. -/
theorem resolveSlice_spec (h : Shaped slice)
    (hresolve : resolveSlice defs text slice = some slice') :
    slice'.offset = slice.offset ∧
      (InRange isShort defs text slice → slice'.buffer.length = slice.buffer.length) ∧
      (¬InRange isShort defs text slice → slice'.buffer.length = slice.buffer.length + 3) := by
  rw [resolveSlice] at hresolve
  by_cases hbranch : slice.relaxableBranch = true
  · rw [if_pos hbranch, resolveRelaxableSlice] at hresolve
    obtain ⟨use, opcode, rest, huses, hbuffer, hshape⟩ := h.branch hbranch
    obtain ⟨use', huse', hresolve⟩ := bind_eq_some_iff.mp hresolve
    rw [huses] at huse'
    obtain rfl : use = use' := some.inj huse'
    obtain ⟨displacement, hdisp, hresolve⟩ := bind_eq_some_iff.mp hresolve
    obtain rfl := some.inj hresolve
    refine ⟨rfl, fun hrange ↦ ?_, fun hrange ↦ ?_⟩
    · by_cases hfits : fitsInI8 displacement = true
      · dsimp only
        rw [if_pos hfits, length_overwrite]
        rw [hbuffer]
        change use.localOffset + 1 ≤ rest.length + 1
        omega
      · -- a relaxed branch has room for the displacement
        dsimp only
        rw [if_neg hfits, length_overwrite]
        rw [hbuffer, length_i32, length_cons]
        rcases hshape with ⟨hshort, -⟩ | ⟨-, h1, h2⟩ | ⟨-, h1, h2⟩
        · exact absurd (hrange hbranch opcode (by rw [hbuffer]; rfl) hshort _ hdisp) hfits
        · omega
        · omega
    · rw [InRange] at hrange
      push Not at hrange
      obtain ⟨-, opcode', hopcode, hshort, displacement', hdisp', hfits⟩ := hrange
      obtain rfl := some.inj (hdisp.symm.trans hdisp')
      rw [hbuffer] at hopcode
      obtain rfl : opcode = opcode' := some.inj hopcode
      obtain ⟨hoff, hlen⟩ : use.localOffset = 1 ∧ rest.length = 1 := by
        rcases hshape with ⟨-, h⟩ | ⟨rfl, -⟩ | ⟨rfl, -⟩
        · exact h
        · exact absurd hshort (by decide)
        · exact absurd hshort (by decide)
      dsimp only
      rw [if_neg (by simpa using hfits), hbuffer, hoff]
      obtain ⟨byte, rfl⟩ := length_eq_one_iff.mp hlen
      rfl
  · rw [if_neg hbranch] at hresolve
    have hspec := resolveSymbol_spec { slice with uses := [] }
      (h.uses (Bool.eq_false_of_not_eq_true hbranch)) hresolve
    exact ⟨hspec.1, fun _ ↦ hspec.2, fun hrange ↦ absurd (fun hno ↦ absurd hno hbranch) hrange⟩

theorem forall₂_take_sum {l l' : List ℕ} (h : List.Forall₂ (· ≤ ·) l l') : ∀ k,
    (l.take k).sum ≤ (l'.take k).sum := by
  induction h with
  | nil => exact fun _ ↦ by simp
  | cons hle _ ih =>
    intro k
    cases k with
    | zero => exact le_rfl
    | succ k =>
      rw [take_succ_cons, take_succ_cons, sum_cons, sum_cons]
      exact Nat.add_le_add hle (ih k)

/-- What is longer at one place is further on from there. -/
theorem forall₂_take_sum_add {c : ℕ} {l l' : List ℕ} (h : List.Forall₂ (· ≤ ·) l l') :
    ∀ {i a a' : ℕ}, l[i]? = some a → l'[i]? = some a' → a + c ≤ a' → ∀ k, i < k →
    (l.take k).sum + c ≤ (l'.take k).sum := by
  induction h with
  | nil => exact fun h ↦ absurd h (by simp)
  | @cons a₁ a₂ rest rest' hle hrest ih =>
    intro i a a' hi hi' hc k hk
    obtain ⟨k, rfl⟩ := Nat.exists_eq_succ_of_ne_zero (Nat.ne_zero_of_lt hk)
    rw [take_succ_cons, take_succ_cons, sum_cons, sum_cons]
    cases i with
    | zero =>
      obtain rfl := some.inj hi
      obtain rfl := some.inj hi'
      have := forall₂_take_sum hrest k
      omega
    | succ i =>
      have := ih (i := i) hi hi' hc k (Nat.lt_of_succ_lt_succ hk)
      omega

section Resolve

variable (hgood : Good text) (hresolve : resolveInternalSymbols defs text = some text')

include hgood hresolve

theorem resolve_getElem? {k : ℕ} (hslice : text[k]? = some slice) :
    ∃ slice', text'[k]? = some slice' ∧ slice'.offset = slice.offset ∧
      (InRange isShort defs text slice → slice'.buffer.length = slice.buffer.length) ∧
      (¬InRange isShort defs text slice → slice'.buffer.length = slice.buffer.length + 3) := by
  have hforall := forall₂_of_mapM hresolve
  have hlt := (List.getElem?_eq_some_iff.mp hslice).1
  have hlt' : k < text'.length := hforall.length_eq ▸ hlt
  refine ⟨text'[k], getElem?_eq_getElem hlt', ?_⟩
  have hstep := hforall.get hlt hlt'
  obtain ⟨-, rfl⟩ := List.getElem?_eq_some_iff.mp hslice
  exact resolveSlice_spec (hgood.shaped _ (List.getElem_mem hlt)) hstep

/-- When every branch is in range, the offsets are still the places of the slices. -/
theorem resolve_placed (hrange : ∀ slice ∈ text, InRange isShort defs text slice) :
    Placed text' := by
  have hforall := forall₂_of_mapM hresolve
  have hlengths : lengths text' = lengths text := by
    apply List.ext_getElem?
    intro k
    rw [lengths, lengths, getElem?_map, getElem?_map]
    cases hslice : text[k]? with
    | none =>
      rw [List.getElem?_eq_none_iff, hforall.length_eq] at hslice
      rw [List.getElem?_eq_none_iff.mpr hslice]
    | some slice =>
      obtain ⟨slice', hslice', -, hlength, -⟩ := resolve_getElem? hgood hresolve hslice
      rw [hslice', map_some, map_some, hlength (hrange slice (List.mem_of_getElem? hslice))]
  intro k slice' hslice'
  have hlt := (List.getElem?_eq_some_iff.mp hslice').1
  obtain ⟨slice, hslice⟩ : ∃ slice, text[k]? = some slice :=
    ⟨_, getElem?_eq_getElem (hforall.length_eq ▸ hlt)⟩
  obtain ⟨found, hfound, hoffset, -⟩ := resolve_getElem? hgood hresolve hslice
  obtain rfl := some.inj (hslice'.symm.trans hfound)
  rw [hoffset, hgood.placed hslice, start, start, hlengths]

/-- After a branch out of range, slices are not where their offsets say. -/
theorem resolve_lt_start {i k : ℕ} (hi : text[i]? = some slice)
    (hrange : ¬InRange isShort defs text slice) (hik : i < k)
    (hk : text'[k]? = some slice') : slice'.offset < start text' k := by
  have hforall := forall₂_of_mapM hresolve
  have hlt := (List.getElem?_eq_some_iff.mp hk).1
  obtain ⟨before, hbefore⟩ : ∃ slice, text[k]? = some slice :=
    ⟨_, getElem?_eq_getElem (hforall.length_eq ▸ hlt)⟩
  obtain ⟨found, hfound, hoffset, -⟩ := resolve_getElem? hgood hresolve hbefore
  obtain rfl := some.inj (hk.symm.trans hfound)
  have hle : List.Forall₂ (· ≤ ·) (lengths text) (lengths text') := by
    rw [lengths, lengths, List.forall₂_map_left_iff, List.forall₂_map_right_iff]
    rw [List.forall₂_iff_get]
    refine ⟨hforall.length_eq, fun j hj hj' ↦ ?_⟩
    obtain ⟨other, hother, -, hsame, hlonger⟩ :=
      resolve_getElem? hgood hresolve (getElem?_eq_getElem hj)
    obtain rfl := some.inj ((getElem?_eq_getElem hj').symm.trans hother)
    by_cases hin : InRange isShort defs text text[j]
    · exact le_of_eq (hsame hin).symm
    · exact (Nat.le_add_right _ 3).trans_eq (hlonger hin).symm
  obtain ⟨longer, hlonger, -, -, hlength⟩ := resolve_getElem? hgood hresolve hi
  have hsum := forall₂_take_sum_add (c := 3) hle (lengths_getElem? hi) (lengths_getElem? hlonger)
    (le_of_eq (hlength hrange).symm) k hik
  rw [hoffset, hgood.placed hbefore, start, start]
  omega

end Resolve

/-! ## Baking -/

/-- The places of the uses that are left in a section. -/
def usePositions (slices : List SectionSlice) : List ℕ :=
  slices.zipIdx.flatMap fun (slice, k) ↦
    (slice.uses.filter fun use ↦ !use.isResolved).map fun use ↦ position slices (k, use.localOffset)

namespace Laid

variable {laid : Laid}

/-- The section a definition is in. -/
def sectionOf (laid : Laid) : BinSymbolKind → List SectionSlice
  | .DATA_LABEL => laid.data
  | .ADDR_TABLE => laid.addrTable.getD []
  | _ => laid.text

theorem bakeSymbolLocations_spec (h : laid.bakeSymbolLocations = some defs) :
    List.Forall₂ (fun before symbolDef ↦ laid.binOffset before = some symbolDef.binOffset ∧
      symbolDef.kind = before.kind ∧ symbolDef.sliceIndex = before.sliceIndex ∧
      symbolDef.localOffset = before.localOffset) laid.defs defs := by
  rw [bakeSymbolLocations, map_eq_some_iff] at h
  obtain ⟨state, hstate, rfl⟩ := h
  refine foldlM_done (P := fun done (state : List SymbolDef × ℕ) ↦
    List.Forall₂ (fun before symbolDef ↦ laid.binOffset before = some symbolDef.binOffset ∧
      symbolDef.kind = before.kind ∧ symbolDef.sliceIndex = before.sliceIndex ∧
      symbolDef.localOffset = before.localOffset) done state.1) ?_ laid.defs []
        ([], 0) state .nil hstate
  intro done symbolDef state state' h hstep
  rw [bakeSymbolLocation, map_eq_some_iff] at hstep
  obtain ⟨binOffset, hoffset, rfl⟩ := hstep
  split_ifs
  · exact rel_append h (.cons ⟨hoffset, rfl, rfl, rfl⟩ .nil)
  · exact rel_append h (.cons ⟨hoffset, rfl, rfl, rfl⟩ .nil)

theorem bake_uses {kind : BinSectionKind} {slices : List SectionSlice}
    {baked : List Byte × List BinSymbolUse} (h : bake defs kind slices = some baked)
    (hplaced : Placed slices) : baked.2.map BinSymbolUse.address = usePositions slices := by
  rw [bake, map_eq_some_iff] at h
  obtain ⟨uses, huses, rfl⟩ := h
  have hoffsets : ∀ {slices : List SectionSlice} {uses},
    slices.mapM (bakeUses defs kind) = some uses →
      uses.flatten.map BinSymbolUse.address = slices.flatMap fun slice ↦
        (slice.uses.filter fun use ↦ !use.isResolved).map fun use ↦
          slice.offset + use.localOffset := by
    intro slices uses huses
    have hforall := forall₂_of_mapM huses
    clear huses
    induction hforall with
    | nil => rfl
    | cons hslice _ ih =>
      rw [flatten_cons, map_append, flatMap_cons, ih]
      congr 1
      rw [bakeUses] at hslice
      have hrest := forall₂_of_mapM hslice
      clear hslice
      revert hrest
      generalize List.filter _ _ = left
      intro hrest
      induction hrest with
      | nil => rfl
      | cons huse _ ih =>
        rw [map_cons, map_cons, ih]
        rw [map_eq_some_iff] at huse
        obtain ⟨symbolDef, -, rfl⟩ := huse
        rfl
  rw [hoffsets huses, usePositions]
  calc slices.flatMap (fun slice ↦ (slice.uses.filter fun use ↦ !use.isResolved).map fun use ↦
          slice.offset + use.localOffset)
      = (slices.zipIdx.map Prod.fst).flatMap (fun slice ↦
          (slice.uses.filter fun use ↦ !use.isResolved).map fun use ↦
            slice.offset + use.localOffset) := by rw [zipIdx_map_fst]
    _ = _ := by
        rw [flatMap_map]
        refine flatMap_congr fun ⟨slice, k⟩ hmem ↦ ?_
        rw [mem_zipIdx_iff_getElem?] at hmem
        refine map_congr_left fun use _ ↦ ?_
        rw [position, ← hplaced hmem]

end Laid

/-! ## Exact layouts -/

/-- The layout of a module is exact: it is the bytes of the slices, and definitions and uses have
the offsets of where they are among these bytes. -/
structure ExactSymbols (laid : Laid) (defs : List SymbolDef) (bin : BinModule) : Prop where
  text : bin.text = laid.text.flatMap SectionSlice.buffer
  data : bin.data = laid.data.flatMap SectionSlice.buffer
  defs : ∀ symbolDef ∈ defs, symbolDef.kind ≠ .UNKNOWN → symbolDef.binOffset
    = position (laid.sectionOf symbolDef.kind) (symbolDef.sliceIndex, symbolDef.localOffset)
  uses : bin.symbolUses.map BinSymbolUse.address
    = usePositions laid.text ++ usePositions laid.data ++ usePositions (laid.addrTable.getD [])

end Banjo.Emit
