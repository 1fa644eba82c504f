import Banjo.Target.StandardDataLayout

/-!
# The structures of unions

A union is a tag and a data member. The data member has the type of the largest case, and the fields
of every case are accessed as if the structure of the case were there. It is as large as any case,
but a smaller case may have a field with a stricter alignment.
-/

open List Option

namespace Banjo.SSAGen.UnionLayout

open Target (LayoutType Platform getAlignment)
open Target.StandardDataLayout

variable (platform : Platform)

/-! ## The generator -/

/-- The members of `create_union_case`, one for each field. -/
def createUnionCase (fields : List LayoutType) : LayoutType := .struct_ fields

/-- The loop for the largest case, behind the cases whose largest one is given. -/
def largestCase (largestCaseType : LayoutType) (largestCaseSize : ℕ) :
    List (List LayoutType) → LayoutType
  | [] => largestCaseType
  | fields :: cases =>
    let caseSize := getSize platform (createUnionCase fields)
    if largestCaseSize < caseSize then largestCase (createUnionCase fields) caseSize cases
    else largestCase largestCaseType largestCaseSize cases

def dataType (cases : List (List LayoutType)) : LayoutType :=
  largestCase platform (.primitive .VOID) 0 cases

def unionMembers (cases : List (List LayoutType)) : List LayoutType :=
  [.primitive .U32, dataType platform cases]

def createUnion (cases : List (List LayoutType)) : LayoutType :=
  .struct_ (unionMembers platform cases)

/-! ## Addresses of fields -/

/-- The offset of a field of a case from the start of the union. -/
def fieldOffset (cases : List (List LayoutType)) (fields : List LayoutType) (field : ℕ) :
    Option ℕ := do
  let data ← getMemberOffset platform (unionMembers platform cases) false 1
  let offset ← getMemberOffset platform fields false field
  return data + offset

/-- Where the field of a case lies. -/
structure FieldHeld (cases : List (List LayoutType)) (type : LayoutType) (offset : ℕ) : Prop where
  aligned : getAlignment platform type ≠ 0 → getAlignment platform type ∣ offset
  inside : offset + getSize platform type ≤ getSize platform (createUnion platform cases)
  behindTag : getSize platform (.primitive .U32) ≤ offset

/-- The union holds every field of every case. -/
def HoldsCases (cases : List (List LayoutType)) : Prop :=
  ∀ fields ∈ cases, ∀ (field : ℕ) type, fields[field]? = some type →
    ∃ offset, fieldOffset platform cases fields field = some offset ∧
      FieldHeld platform cases type offset

/-- No size in the union or in one of its cases needs more than 32 bits. -/
structure UnionFits (cases : List (List LayoutType)) : Prop where
  union : Fits platform (createUnion platform cases)
  cases : ∀ fields ∈ cases, Fits platform (createUnionCase fields)

/-- No field is aligned more strictly than the tag and the largest case. -/
def AlignedAsLargest (cases : List (List LayoutType)) : Prop :=
  ∀ fields ∈ cases, ∀ field ∈ fields, getAlignment platform field ≤
    max (getAlignment platform (.primitive .U32)) (getAlignment platform (dataType platform cases))

variable {platform}

/-! ## Alignments -/

mutual

theorem getAlignment_mem : ∀ type, getAlignment platform type ∈ [0, 1, 2, 4, 8]
  | .primitive p _ => by
    rw [getAlignment]
    cases platform <;> cases p <;> decide +revert
  | .struct_ members _ _ => by
    rw [getAlignment]
    split_ifs
    · decide
    · exact maxAlignment_mem members

theorem maxAlignment_mem : ∀ members, Target.maxAlignment platform members ∈ [0, 1, 2, 4, 8]
  | [] => by
    rw [Target.maxAlignment]
    decide
  | member :: members => by
    rw [Target.maxAlignment]
    rcases Nat.le_total (getAlignment platform member) (Target.maxAlignment platform members)
      with h | h
    · rw [max_eq_right h]
      exact maxAlignment_mem members
    · rw [max_eq_left h]
      exact getAlignment_mem member

end

/-- The data member is behind the tag, at four or at eight bytes. -/
theorem dvd_alignTo_iff {alignment dataAlignment : ℕ} (h : alignment ∈ [0, 1, 2, 4, 8])
    (hdata : dataAlignment ∈ [0, 1, 2, 4, 8]) :
    (alignment ≠ 0 → alignment ∣ Target.alignTo 4 dataAlignment) ↔
      alignment ≤ max 4 dataAlignment := by
  simp only [mem_cons, not_mem_nil, or_false] at h hdata
  rcases h with rfl | rfl | rfl | rfl | rfl <;> rcases hdata with rfl | rfl | rfl | rfl | rfl <;>
    decide

/-! ## The largest case -/

theorem le_largestCase (type : LayoutType) (cases : List (List LayoutType)) :
    getSize platform type
        ≤ getSize platform (largestCase platform type (getSize platform type) cases) ∧
      ∀ fields ∈ cases, getSize platform (createUnionCase fields) ≤
        getSize platform (largestCase platform type (getSize platform type) cases) := by
  induction cases generalizing type with
  | nil => exact ⟨le_rfl, nofun⟩
  | cons fields cases ih =>
    rw [largestCase, forall_mem_cons]
    split_ifs with h
    · obtain ⟨hcase, hcases⟩ := ih (createUnionCase fields)
      exact ⟨h.le.trans hcase, hcase, hcases⟩
    · obtain ⟨htype, hcases⟩ := ih type
      exact ⟨htype, (Nat.le_of_not_lt h).trans htype, hcases⟩

variable {cases : List (List LayoutType)}

theorem le_dataType {fields : List LayoutType} (h : fields ∈ cases) :
    getSize platform (createUnionCase fields) ≤ getSize platform (dataType platform cases) :=
  (le_largestCase (.primitive .VOID) cases).2 fields h

/-! ## The fields -/

theorem structSize_le_getSize {members : List LayoutType}
    (hfits : Fits platform (.struct_ members)) :
    Target.structSize platform 0 members < 2 ^ 32 ∧
      Target.structSize platform 0 members ≤ getSize platform (.struct_ members) := by
  have hle : Target.structSize platform 0 members ≤ Target.getSize platform (.struct_ members) := by
    rw [Target.getSize, if_neg Bool.false_ne_true, Nat.mul_one]
    exact le_alignTo _ _
  have hsize := getSize_eq _ hfits
  rw [Fits] at hfits
  exact ⟨hle.trans_lt hfits.2.1, hsize ▸ hle⟩

theorem placed_field {members : List LayoutType} {field : ℕ} {type : LayoutType}
    (hfits : Fits platform (.struct_ members)) (htype : members[field]? = some type) :
    ∃ offset, getMemberOffset platform members false field = some offset ∧
      @Placed platform 0 (getSize platform (.struct_ members)) type offset := by
  obtain ⟨hlt, hle⟩ := structSize_le_getSize hfits
  rw [Fits] at hfits
  obtain ⟨offset, hoffset⟩ :=
    @exists_memberOffset platform members field 0 (List.getElem?_eq_some_iff.mp htype).1
  obtain ⟨hstart, haligned, hstop⟩ := placed_memberOffset hfits.1 hlt htype hoffset
  exact ⟨offset, hoffset, hstart, haligned, hstop.trans hle⟩

theorem getMemberOffset_data (hfits : UnionFits platform cases) :
    getMemberOffset platform (unionMembers platform cases) false 1
      = some (Target.alignTo 4 (getAlignment platform (dataType platform cases))) := by
  obtain ⟨hlt, -⟩ := structSize_le_getSize hfits.union
  have htag : Target.alignTo 0 (getAlignment platform (.primitive .U32)) = 0 := rfl
  have hsize : Target.getSize platform (.primitive .U32) = 4 := rfl
  rw [unionMembers, Target.structSize, htag, hsize, Nat.zero_add] at hlt
  have hdata := (align_eq_of_structSize_lt platform hlt).1
  exact congrArg some hdata

/-- A field is held if its alignment divides the offset of the data member. -/
theorem fieldHeld_iff {cases : List (List LayoutType)} (hfits : UnionFits platform cases)
    {fields : List LayoutType} (hfields : fields ∈ cases) {field : ℕ} {type : LayoutType}
    (htype : fields[field]? = some type) :
    (∃ offset, fieldOffset platform cases fields field = some offset ∧
      FieldHeld platform cases type offset) ↔
      getAlignment platform type ≤ max 4 (getAlignment platform (dataType platform cases)) := by
  obtain ⟨offset, hoffset, hplaced⟩ := placed_field (hfits.cases fields hfields) htype
  obtain ⟨data, hdata, hdataPlaced⟩ :=
    @placed_field platform (unionMembers platform cases) 1 (dataType platform cases) hfits.union rfl
  have hdataEq := getMemberOffset_data hfits
  obtain rfl := some.inj (hdata.symm.trans hdataEq)
  set data := Target.alignTo 4 (getAlignment platform (dataType platform cases)) with hdef
  have hfield : fieldOffset platform cases fields field = some (data + offset) := by
    rw [fieldOffset, hdata, hoffset]
    rfl
  have hinside : data + offset + getSize platform type
      ≤ getSize platform (createUnion platform cases) := by
    have hcase := hplaced.stop
    have hlargest : getSize platform (.struct_ fields) ≤ _ := le_dataType hfields
    have hstop := hdataPlaced.stop
    calc data + offset + getSize platform type
        = data + (offset + getSize platform type) := Nat.add_assoc _ _ _
      _ ≤ data + getSize platform (dataType platform cases) := by omega
      _ ≤ _ := hstop
  have hbehind : getSize platform (.primitive .U32) ≤ data + offset := by
    have htag : getSize platform (.primitive .U32) = 4 := rfl
    have hle := le_alignTo 4 (getAlignment platform (dataType platform cases))
    omega
  have haligned : (getAlignment platform type ≠ 0 → getAlignment platform type ∣ data + offset) ↔
      (getAlignment platform type ≠ 0 → getAlignment platform type ∣ data) :=
    forall_congr' fun hzero ↦ (Nat.dvd_add_iff_left (hplaced.aligned hzero)).symm
  rw [← dvd_alignTo_iff (getAlignment_mem type) (getAlignment_mem _), ← hdef, ← haligned]
  constructor
  · rintro ⟨offset', hoffset', hheld⟩
    obtain rfl := some.inj (hfield.symm.trans hoffset')
    exact hheld.aligned
  · exact fun h ↦ ⟨_, hfield, h, hinside, hbehind⟩

/-- Everything but the alignment of the fields of the smaller cases is as it has to be. -/
theorem holdsCases_iff_alignedAsLargest {cases : List (List LayoutType)}
    (hfits : UnionFits platform cases) :
    HoldsCases platform cases ↔ AlignedAsLargest platform cases := by
  refine forall₂_congr fun fields hfields ↦ ?_
  rw [List.forall_mem_iff_getElem]
  constructor
  · intro h i hi
    exact (fieldHeld_iff hfits hfields (getElem?_eq_getElem hi)).mp
      (h i _ (getElem?_eq_getElem hi))
  · intro h i type htype
    obtain ⟨hi, rfl⟩ := List.getElem?_eq_some_iff.mp htype
    exact (fieldHeld_iff hfits hfields htype).mpr (h i hi)

section

/-- A case of a byte and one of a byte and eight bytes. -/
def number : List (List LayoutType) := [[.primitive .U8], [.primitive .U8, .primitive .U64]]

theorem holdsCases_number : HoldsCases .AARCH64 number := by
  have hdata : dataType .AARCH64 number = .struct_ [.primitive .U8, .primitive .U64] := rfl
  have hfits : UnionFits .AARCH64 number := by
    constructor
    · simp [createUnion, unionMembers, hdata, Fits, FitsAll, Target.getSize, Target.structSize,
        getAlignment, Target.maxAlignment, Target.primitiveSize, Target.scalarSize, Target.alignTo]
    · simp [number, createUnionCase, Fits, FitsAll, Target.getSize, Target.structSize,
        getAlignment, Target.maxAlignment, Target.primitiveSize, Target.scalarSize, Target.alignTo]
  refine (holdsCases_iff_alignedAsLargest hfits).mpr ?_
  simp only [AlignedAsLargest, number, forall_mem_cons, not_mem_nil,
    IsEmpty.forall_iff, implies_true, and_true]
  decide

/-- A case of nine bytes and one of eight bytes that are a number. -/
def text : List (List LayoutType) := [[.primitive .U8 9], [.primitive .U64]]

theorem not_holdsCases_text : ¬HoldsCases .AARCH64 text := by
  intro h
  obtain ⟨offset, hoffset, hheld⟩ := h [.primitive .U64] (by simp [text]) 0 _ rfl
  obtain rfl : 4 = offset := some.inj hoffset
  exact absurd (hheld.aligned (by decide)) (by decide)

end

end Banjo.SSAGen.UnionLayout
