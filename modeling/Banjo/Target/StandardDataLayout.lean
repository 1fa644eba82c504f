import Banjo.Target.DataLayout

/-!
# The standard data layout

`StandardDataLayout` as it computes: sizes and offsets are unsigned numbers of 32 bits that wrap
around. As long as no size needs more, they are the exact ones. The loop for the size of a structure
and the loop for an offset place the members alike, so an offset is where the size had come to.
-/

open Option

namespace Banjo.Target.StandardDataLayout

variable (platform : Platform)

/-- An `unsigned`. -/
def wrap (n : ℕ) : ℕ := n % 2 ^ 32

/-- `utils::align`. -/
def align (value boundary : ℕ) : ℕ :=
  if boundary = 0 then value
  else if value % boundary = 0 then value
  else wrap (value + boundary - value % boundary)

mutual

def getSize : LayoutType → ℕ
  | .primitive p arrayLength => wrap (primitiveSize platform p * arrayLength)
  | .struct_ members isUnion arrayLength =>
    let size := if isUnion then unionSize members else structSize 0 members
    let alignment := if members.isEmpty then 1 else maxAlignment platform members
    wrap (align size alignment * arrayLength)

/-- The loop over the members of a structure. -/
def structSize (size : ℕ) : List LayoutType → ℕ
  | [] => size
  | member :: members =>
    structSize (wrap (align size (getAlignment platform member) + getSize member)) members

def unionSize : List LayoutType → ℕ
  | [] => 0
  | member :: members => max (getSize member) (unionSize members)

end

/-- The loop over the members in front of one. -/
def memberOffset (offset : ℕ) : List LayoutType → ℕ → Option ℕ
  | [], _ => none
  | member :: _, 0 => some (align offset (getAlignment platform member))
  | member :: members, index + 1 =>
    memberOffset (wrap (align offset (getAlignment platform member) + getSize platform member))
      members index

/-- The members of a union have no offsets. -/
def getMemberOffset (members : List LayoutType) (isUnion : Bool) (index : ℕ) : Option ℕ :=
  if isUnion then none else memberOffset platform 0 members index

/-! ## Sizes that fit -/

mutual

/-- No size in the type needs more than 32 bits. -/
def Fits : LayoutType → Prop
  | .primitive p arrayLength => Target.getSize platform (.primitive p arrayLength) < 2 ^ 32
  | .struct_ members isUnion arrayLength =>
    FitsAll members ∧ Target.getSize platform (.struct_ members isUnion) < 2 ^ 32 ∧
      Target.getSize platform (.struct_ members isUnion arrayLength) < 2 ^ 32

def FitsAll : List LayoutType → Prop
  | [] => True
  | member :: members => Fits member ∧ FitsAll members

end

theorem wrap_of_lt {n : ℕ} (h : n < 2 ^ 32) : wrap n = n := Nat.mod_eq_of_lt h

theorem le_alignTo (value boundary : ℕ) : value ≤ alignTo value boundary := by
  unfold alignTo
  split_ifs with hzero hmod
  · exact le_rfl
  · exact le_rfl
  · have := Nat.mod_lt value (Nat.pos_of_ne_zero hzero)
    omega

theorem dvd_alignTo {value boundary : ℕ} (h : boundary ≠ 0) :
    boundary ∣ alignTo value boundary := by
  rw [alignTo, if_neg h]
  split_ifs with hmod
  · exact Nat.dvd_of_mod_eq_zero hmod
  · have hsplit := Nat.div_add_mod value boundary
    have heq : value + boundary - value % boundary = boundary * (value / boundary) + boundary := by
      omega
    rw [heq]
    exact Dvd.intro _ (Nat.mul_succ _ _)

theorem align_eq {value boundary : ℕ} (h : alignTo value boundary < 2 ^ 32) :
    align value boundary = alignTo value boundary := by
  unfold alignTo at h ⊢
  unfold align
  split_ifs at h ⊢
  · rfl
  · rfl
  · exact wrap_of_lt h

theorem le_structSize (size : ℕ) (members : List LayoutType) :
    size ≤ Target.structSize platform size members := by
  induction members generalizing size with
  | nil => rw [Target.structSize]
  | cons member members ih =>
    rw [Target.structSize]
    have hstep := ih (alignTo size (getAlignment platform member) + Target.getSize platform member)
    have halign := le_alignTo size (getAlignment platform member)
    omega

variable {member : LayoutType} {members : List LayoutType}

/-- A member is placed where it would be without a limit. -/
theorem align_eq_of_structSize_lt {size : ℕ}
    (h : Target.structSize platform size (member :: members) < 2 ^ 32) :
    align size (getAlignment platform member) = alignTo size (getAlignment platform member) ∧
      wrap (alignTo size (getAlignment platform member) + Target.getSize platform member)
        = alignTo size (getAlignment platform member) + Target.getSize platform member := by
  rw [Target.structSize] at h
  have hle := le_structSize platform
    (alignTo size (getAlignment platform member) + Target.getSize platform member) members
  exact ⟨align_eq (by omega), wrap_of_lt (by omega)⟩

variable {platform}

mutual

theorem getSize_eq : ∀ type, Fits platform type → getSize platform type =
    Target.getSize platform type
  | .primitive p arrayLength, h => by
    rw [Fits, Target.getSize] at h
    rw [getSize, Target.getSize, wrap_of_lt h]
  | .struct_ members isUnion arrayLength, h => by
    rw [Fits, Target.getSize, Target.getSize, Nat.mul_one] at h
    obtain ⟨hmembers, hone, hsize⟩ := h
    rw [getSize, Target.getSize]
    have hle := (le_alignTo _ _).trans_lt hone
    cases isUnion with
    | true =>
      rw [if_pos rfl] at hone hsize
      rw [if_pos rfl, if_pos rfl, unionSize_eq members hmembers, align_eq hone, wrap_of_lt hsize]
    | false =>
      rw [if_neg Bool.false_ne_true] at hone hsize hle
      rw [if_neg Bool.false_ne_true, if_neg Bool.false_ne_true,
        structSize_eq 0 members hmembers hle,
        align_eq hone, wrap_of_lt hsize]

theorem structSize_eq (size : ℕ) : ∀ members, FitsAll platform members →
    Target.structSize platform size members < 2 ^ 32 →
    structSize platform size members = Target.structSize platform size members
  | [], _, _ => by rw [structSize, Target.structSize]
  | member :: members, hmembers, h => by
    rw [FitsAll] at hmembers
    obtain ⟨halign, hwrap⟩ := align_eq_of_structSize_lt platform h
    rw [Target.structSize] at h
    rw [structSize, Target.structSize, getSize_eq member hmembers.1, halign, hwrap]
    exact structSize_eq _ members hmembers.2 h

theorem unionSize_eq : ∀ members, FitsAll platform members →
    unionSize platform members = Target.unionSize platform members
  | [], _ => by rw [unionSize, Target.unionSize]
  | member :: members, hmembers => by
    rw [FitsAll] at hmembers
    rw [unionSize, Target.unionSize, getSize_eq member hmembers.1, unionSize_eq members hmembers.2]

end

/-! ## Sizes and alignments -/

mutual

/-- Only a type without a size has no alignment. -/
theorem getSize_eq_zero : ∀ type, getAlignment platform type = 0 → Target.getSize platform type = 0
  | .primitive p arrayLength, h => by
    rw [getAlignment] at h
    rw [Target.getSize, h, Nat.zero_mul]
  | .struct_ members isUnion arrayLength, h => by
    rw [getAlignment] at h
    rw [Target.getSize]
    split_ifs at h with hempty
    rw [if_neg hempty, h, alignTo, if_pos rfl]
    have hsizes := sizes_eq_zero members h
    cases isUnion with
    | true => rw [if_pos rfl, hsizes.2, Nat.zero_mul]
    | false => rw [if_neg Bool.false_ne_true, hsizes.1, Nat.zero_mul]

theorem sizes_eq_zero : ∀ members, maxAlignment platform members = 0 →
    Target.structSize platform 0 members = 0 ∧ Target.unionSize platform members = 0
  | [], _ => by simp [Target.structSize, Target.unionSize]
  | member :: members, h => by
    rw [maxAlignment, Nat.max_eq_zero_iff] at h
    have hmember := getSize_eq_zero member h.1
    have hmembers := sizes_eq_zero members h.2
    rw [Target.structSize, Target.unionSize, hmember, h.1, alignTo, if_pos rfl]
    exact ⟨hmembers.1, by rw [hmembers.2, Nat.max_self]⟩

end

theorem dvd_getSize (type : LayoutType) :
    getAlignment platform type ∣ Target.getSize platform type := by
  by_cases hzero : getAlignment platform type = 0
  · rw [getSize_eq_zero type hzero]
    exact dvd_zero _
  · cases type with
    | primitive p arrayLength =>
      rw [getAlignment, Target.getSize]
      exact Nat.dvd_mul_right _ _
    | struct_ members isUnion arrayLength =>
      rw [getAlignment] at hzero ⊢
      rw [Target.getSize]
      exact (dvd_alignTo hzero).mul_right _

/-! ## Members -/

variable {index : ℕ}

theorem exists_memberOffset (offset : ℕ)
    (h : index < members.length) : ∃ o, memberOffset platform offset members index = some o := by
  induction members generalizing offset index with
  | nil => exact absurd h (Nat.not_lt_zero _)
  | cons member members ih =>
    cases index with
    | zero => exact ⟨_, rfl⟩
    | succ index => exact ih _ (Nat.lt_of_succ_lt_succ h)

variable {o offset : ℕ}

theorem lt_length_of_memberOffset
    (h : memberOffset platform offset members index = some o) : index < members.length := by
  induction members generalizing offset index with
  | nil =>
    rw [memberOffset.eq_def] at h
    cases h
  | cons member members ih =>
    cases index with
    | zero => exact Nat.succ_pos _
    | succ index => exact Nat.succ_lt_succ (ih h)

/-- Where a member is, when the loop over the members starts at an offset. -/
structure Placed (offset size : ℕ) (member : LayoutType) (o : ℕ) : Prop where
  start : offset ≤ o
  aligned : getAlignment platform member ≠ 0 → getAlignment platform member ∣ o
  stop : o + getSize platform member ≤ size

theorem placed_memberOffset (hfits : FitsAll platform members)
    (hsize : Target.structSize platform offset members < 2 ^ 32)
    (hmember : members[index]? = some member)
    (ho : memberOffset platform offset members index = some o) :
    @Placed platform offset (Target.structSize platform offset members) member o := by
  induction members generalizing offset index with
  | nil => cases hmember
  | cons first members ih =>
    obtain ⟨halign, hwrap⟩ := align_eq_of_structSize_lt platform hsize
    rw [FitsAll] at hfits
    have hfirst := getSize_eq first hfits.1
    have hle := le_alignTo offset (getAlignment platform first)
    rw [Target.structSize] at hsize ⊢
    cases index with
    | zero =>
      obtain rfl := some.inj hmember
      rw [memberOffset, halign] at ho
      obtain rfl := some.inj ho
      refine ⟨hle, dvd_alignTo, ?_⟩
      rw [hfirst]
      exact le_structSize platform _ members
    | succ index =>
      rw [memberOffset, halign, hfirst, hwrap] at ho
      obtain ⟨hstart, haligned, hstop⟩ := ih hfits.2 hsize hmember ho
      exact ⟨by omega, haligned, hstop⟩

/-- A later member is behind an earlier one. -/
theorem memberOffset_lt {i j : ℕ} {o' : ℕ} (hfits : FitsAll platform members)
    (hsize : Target.structSize platform offset members < 2 ^ 32) (hij : i < j)
    (hmember : members[i]? = some member) (ho : memberOffset platform offset members i = some o)
    (ho' : memberOffset platform offset members j = some o') :
    o + getSize platform member ≤ o' := by
  induction members generalizing offset i j with
  | nil => cases hmember
  | cons first members ih =>
    obtain ⟨halign, hwrap⟩ := align_eq_of_structSize_lt platform hsize
    rw [FitsAll] at hfits
    have hfirst := getSize_eq first hfits.1
    rw [Target.structSize] at hsize
    obtain ⟨j, rfl⟩ := Nat.exists_eq_add_one_of_ne_zero (Nat.ne_zero_of_lt hij)
    rw [memberOffset, halign, hfirst, hwrap] at ho'
    cases i with
    | zero =>
      obtain rfl := some.inj hmember
      rw [memberOffset, halign] at ho
      obtain rfl := some.inj ho
      have hj := lt_length_of_memberOffset ho'
      have hplaced := placed_memberOffset hfits.2 hsize (List.getElem?_eq_getElem hj) ho'
      rw [hfirst]
      exact hplaced.start
    | succ i =>
      rw [memberOffset, halign, hfirst, hwrap] at ho
      exact ih hfits.2 hsize (Nat.lt_of_succ_lt_succ hij) hmember ho ho'

/-- The last member ends where the size had come to. -/
theorem memberOffset_last (hfits : FitsAll platform members)
    (hsize : Target.structSize platform offset members < 2 ^ 32)
    (hlast : index + 1 = members.length) (hmember : members[index]? = some member)
    (ho : memberOffset platform offset members index = some o) :
    o + getSize platform member = Target.structSize platform offset members := by
  induction members generalizing offset index with
  | nil => cases hmember
  | cons first members ih =>
    obtain ⟨halign, hwrap⟩ := align_eq_of_structSize_lt platform hsize
    rw [FitsAll] at hfits
    have hfirst := getSize_eq first hfits.1
    rw [Target.structSize] at hsize ⊢
    cases index with
    | zero =>
      obtain rfl := List.length_eq_zero_iff.mp (Nat.succ_inj.mp hlast).symm
      obtain rfl := some.inj hmember
      rw [memberOffset, halign] at ho
      obtain rfl := some.inj ho
      rw [Target.structSize, hfirst]
    | succ index =>
      rw [memberOffset, halign, hfirst, hwrap] at ho
      exact ih hfits.2 hsize (Nat.succ_inj.mp hlast) hmember ho

/-! ## Layouts -/

variable (platform)

/-- The members of a structure have offsets, with the alignments that count, and lie behind each
other inside of it. The structure ends with the last one, up to its alignment. -/
structure MembersLaidOut (counts : ℕ → Prop) (members : List LayoutType) : Prop where
  exists_offset : ∀ i < members.length, ∃ o, getMemberOffset platform members false i = some o
  aligned : ∀ i member o, members[i]? = some member →
    getMemberOffset platform members false i = some o → counts (getAlignment platform member) →
    getAlignment platform member ∣ o
  inside : ∀ i member o, members[i]? = some member →
    getMemberOffset platform members false i = some o →
    o + getSize platform member ≤ getSize platform (.struct_ members)
  disjoint : ∀ i j member o o', i < j → members[i]? = some member →
    getMemberOffset platform members false i = some o →
    getMemberOffset platform members false j = some o' → o + getSize platform member ≤ o'
  last : ∀ i member o, i + 1 = members.length → members[i]? = some member →
    getMemberOffset platform members false i = some o →
    getSize platform (.struct_ members) =
      align (o + getSize platform member) (getAlignment platform (.struct_ members))

structure LaidOut (counts : ℕ → Prop) (type : LayoutType) : Prop where
  size : getAlignment platform type ∣ getSize platform type
  members : ∀ members arrayLength, type = .struct_ members false arrayLength →
    MembersLaidOut platform counts members

variable {platform}

theorem membersLaidOut (hfits : FitsAll platform members)
    (hsize : Target.getSize platform (.struct_ members) < 2 ^ 32) :
    MembersLaidOut platform (· ≠ 0) members := by
  have hstruct : Target.getSize platform (.struct_ members) =
      alignTo (Target.structSize platform 0 members)
        (getAlignment platform (.struct_ members)) := by
    rw [Target.getSize, getAlignment, if_neg Bool.false_ne_true, Nat.mul_one]
  have heq : getSize platform (.struct_ members) = Target.getSize platform (.struct_ members) :=
    getSize_eq _ (by rw [Fits]; exact ⟨hfits, hsize, hsize⟩)
  have hle : Target.structSize platform 0 members ≤ Target.getSize platform (.struct_ members) := by
    rw [hstruct]
    exact le_alignTo _ _
  have hlt : Target.structSize platform 0 members < 2 ^ 32 := by omega
  refine ⟨fun i hi ↦ exists_memberOffset 0 hi, fun i member o hmember ho hcounts ↦ ?_,
    fun i member o hmember ho ↦ ?_, fun i j member o o' hij hmember ho ho' ↦ ?_,
    fun i member o hlast hmember ho ↦ ?_⟩
  · exact (placed_memberOffset hfits hlt hmember ho).aligned hcounts
  · rw [heq]
    exact (placed_memberOffset hfits hlt hmember ho).stop.trans hle
  · exact memberOffset_lt hfits hlt hij hmember ho ho'
  · rw [heq, memberOffset_last hfits hlt hlast hmember ho, hstruct, align_eq]
    rwa [← hstruct]

theorem laidOut {type : LayoutType} (hfits : Fits platform type) :
    LaidOut platform (· ≠ 0) type := by
  constructor
  · rw [getSize_eq type hfits]
    exact dvd_getSize type
  · rintro members arrayLength rfl
    rw [Fits] at hfits
    exact membersLaidOut hfits.1 hfits.2.1

/-- A byte, a union and a number of eight bytes, in an array of three structures. -/
def pairs : LayoutType :=
  .struct_ [.primitive .U8, .struct_ [.primitive .ADDR] true, .primitive .U64] false 3

theorem laidOut_pairs : Fits .AARCH64 pairs ∧ LaidOut .AARCH64 (· ≠ 0) pairs := by
  have hfits : Fits .AARCH64 pairs := by
    simp [pairs, Fits, FitsAll, Target.getSize, Target.structSize, Target.unionSize, getAlignment,
      maxAlignment, primitiveSize, scalarSize, alignTo, Platform.params]
  exact ⟨hfits, laidOut hfits⟩

/-- All bytes but one that 32 bits can count, and two more behind them. -/
def wide : List LayoutType := [.primitive .U8 (2 ^ 32 - 1), .primitive .U16]

/-- Something of no size behind a byte. -/
def voidBehind : List LayoutType := [.primitive .U8, .primitive .VOID]

theorem not_laidOut : ¬LaidOut .AARCH64 (fun _ ↦ True) (.struct_ wide) ∧
    ¬LaidOut .AARCH64 (fun _ ↦ True) (.struct_ voidBehind) := by
  constructor
  · intro h
    have hdisjoint := (h.members wide 1 rfl).disjoint 0 1 _ 0 0 (by decide) rfl (by decide)
      (by decide)
    revert hdisjoint
    decide
  · intro h
    have haligned := (h.members voidBehind 1 rfl).aligned 1 _ 1 rfl (by decide) trivial
    revert haligned
    decide

end Banjo.Target.StandardDataLayout
