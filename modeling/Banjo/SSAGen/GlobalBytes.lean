import Banjo.SSAGen.GlobalSSAGenerator

/-!
# The bytes of a global

A constant inside of another leaves the bytes of its own type, wherever the buffer is at, so the
loops over the values place them as the loops of the data layout place the members.
-/

open List Option BitVec

namespace Banjo.SSAGen.GlobalSSAGenerator

open Emit (Mcode.Global Mcode.Module BinaryBuilder)
open Target (LayoutType Platform getAlignment)
open Target.StandardDataLayout
open Target.Wasm (GlobalValue)
open WriteBuffer

variable {platform : Platform} {toF32 : Double → BitVec 32}

/-! ## Types -/

theorem add_padding {alignment : ℕ} (h : alignment ≠ 0) (size : ℕ) :
    size + BinaryBuilder.padding size alignment = Target.alignTo size alignment := by
  have hlt := Nat.mod_lt size (Nat.pos_of_ne_zero h)
  rw [BinaryBuilder.padding, Target.alignTo, if_neg h]
  split_ifs with hmod
  · rw [hmod, Nat.sub_zero, Nat.mod_self, Nat.add_zero]
  · rw [Nat.mod_eq_of_lt (by omega)]
    omega

theorem padding_of_dvd {size alignment : ℕ} (h : alignment ∣ size) :
    BinaryBuilder.padding size alignment = 0 := by
  rw [BinaryBuilder.padding, Nat.mod_eq_zero_of_dvd h, Nat.sub_zero, Nat.mod_self]

theorem padBytes_eq {alignment : ℕ} (h : alignment ≠ 0) (buffer : List Byte) :
    padBytes buffer alignment
      = some (buffer ++ List.replicate (BinaryBuilder.padding buffer.length alignment) 0) :=
  if_neg h

variable (type : LayoutType)

@[simp] theorem getAlignment_arrayOf (length : ℕ) :
    getAlignment platform (arrayOf type length) = getAlignment platform type := by
  cases type <;> simp only [arrayOf, getAlignment]

theorem getSize_arrayOf (length : ℕ) :
    Target.getSize platform (arrayOf type length) = Target.getSize platform type * length := by
  cases type <;> simp only [arrayOf, Target.getSize, Nat.mul_assoc]

theorem size_lt_of_fits {type : LayoutType} (h : Fits platform type) :
    Target.getSize platform type < 2 ^ 32 := by
  cases type with
  | primitive p arrayLength =>
    rw [Fits] at h
    exact h
  | struct_ members isUnion arrayLength =>
    rw [Fits] at h
    exact h.2.2

theorem fits_of_arrayOf {type : LayoutType} {length : ℕ} (hlength : length ≠ 0)
    (h : Fits platform (arrayOf type length)) : Fits platform type := by
  have hsize := size_lt_of_fits h
  rw [getSize_arrayOf] at hsize
  have hle := Nat.le_mul_of_pos_right (Target.getSize platform type) (Nat.pos_of_ne_zero hlength)
  cases type with
  | primitive p arrayLength =>
    rw [Fits]
    exact hle.trans_lt hsize
  | struct_ members isUnion arrayLength =>
    rw [arrayOf, Fits] at h
    rw [Fits]
    exact ⟨h.1, h.2.1, hle.trans_lt hsize⟩

variable {members : List LayoutType}

theorem fitsAll_iff : FitsAll platform members ↔ ∀ member ∈ members, Fits platform member := by
  induction members with
  | nil => simp [FitsAll]
  | cons member members ih => rw [FitsAll, ih, forall_mem_cons]

theorem le_maxAlignment {member : LayoutType} (h : member ∈ members) :
    getAlignment platform member ≤ Target.maxAlignment platform members := by
  induction members with
  | nil => cases h
  | cons first members ih =>
    rw [Target.maxAlignment]
    obtain rfl | h := mem_cons.mp h
    · exact Nat.le_max_left _ _
    · exact (ih h).trans (Nat.le_max_right _ _)

theorem getAlignment_struct_ne_zero {isUnion : Bool} {arrayLength : ℕ} {member : LayoutType}
    (hmember : member ∈ members) (h : getAlignment platform member ≠ 0) :
    getAlignment platform (.struct_ members isUnion arrayLength) ≠ 0 := by
  rw [getAlignment, if_neg (by rw [List.isEmpty_iff]; exact List.ne_nil_of_mem hmember)]
  have hle := @le_maxAlignment platform _ _ hmember
  omega

/-! ## Lists of constants -/

variable {values : List Expr}

theorem holdsFields_iff {bytes : List Byte} {offset : ℕ} {type : LayoutType} {fields : List ℕ}
    {values : List Expr} :
    HoldsFields platform toF32 bytes offset type fields values ↔
      ∀ (i : ℕ) value, values[i]? = some value → ∃ field o, fields[i]? = some field ∧
        fieldOffset platform type field = some o ∧
        Holds platform toF32 bytes (offset + o) value := by
  induction values generalizing fields with
  | nil => simp [HoldsFields]
  | cons first values ih =>
    rw [HoldsFields, ih]
    constructor
    · rintro ⟨hfirst, hrest⟩ i value hi
      cases i with
      | zero =>
        obtain rfl := some.inj hi
        rwa [← head?_eq_getElem?]
      | succ i => simpa only [getElem?_tail] using hrest i value hi
    · intro h
      refine ⟨by simpa only [head?_eq_getElem?] using h 0 first rfl, fun (i : ℕ) value hi ↦ ?_⟩
      simpa only [getElem?_tail] using h (i + 1) value hi

theorem holdsFields_range {bytes : List Byte} {offset : ℕ} {values : List Expr}
    (h : ∀ (i : ℕ) value o, values[i]? = some value →
      Target.StandardDataLayout.memberOffset platform 0 (values.map (·.type)) i = some o →
      Holds platform toF32 bytes (offset + o) value) :
    HoldsFields platform toF32 bytes offset (.struct_ (values.map (·.type)))
      (range values.length) values := by
  rw [holdsFields_iff]
  intro i value hi
  have hlt := (List.getElem?_eq_some_iff.mp hi).1
  obtain ⟨o, ho⟩ := @exists_memberOffset platform (values.map (·.type)) i 0
    (by rwa [length_map])
  exact ⟨i, o, getElem?_range hlt, ho, h i value o hi ho⟩

/-! ## The bytes of one constant -/

variable (platform toF32)

/-- A constant leaves the bytes behind what is in the buffer. -/
structure Emits (expr : Expr) (bytes : List Byte) : Prop where
  aligned : getAlignment platform expr.type ≠ 0
  generated : ∃ value, generateValue platform toF32 expr = some value ∧ ∀ buffer,
    generateBytes toF32 buffer (getSize platform expr.type) value = some (buffer ++ bytes)
  length : bytes.length = Target.getSize platform expr.type
  holds : ∀ before after, Holds platform toF32 (before ++ bytes ++ after) before.length expr

variable {platform toF32}

theorem prefix_drop_append (before bytes after : List Byte) :
    bytes <+: (before ++ bytes ++ after).drop before.length := by
  rw [List.append_assoc, List.drop_left]
  exact List.prefix_append _ _

theorem getSize_integer {p : SSA.Primitive} (h : p ∉ [.VOID, .F32, .F64]) :
    getSize platform (.primitive p) ∈ [1, 2, 4, 8] ∧
      Target.getSize platform (.primitive p) = getSize platform (.primitive p) ∧
      getAlignment platform (.primitive p) ≠ 0 := by
  cases platform <;> cases p <;> first | exact absurd (by decide) h | decide +revert

variable {size : ℕ}

theorem generateBytes_integer (h : size ∈ [1, 2, 4, 8]) (buffer : List Byte) (value : LargeInt) :
    generateBytes toF32 buffer size (.integer value)
      = some (buffer ++ Memory.toBytes value.toBits size) :=
  if_pos h

variable {expr : Expr}

/-- The constants that the generator has as integers. -/
theorem emits_integer {p : SSA.Primitive} {value : LargeInt}
    (htype : expr.type = .primitive p) (hp : p ∉ [.VOID, .F32, .F64])
    (hvalue : generateValue platform toF32 expr = some (.integer value))
    (hholds : ∀ bytes offset, Memory.toBytes value.toBits (getSize platform (.primitive p))
      <+: bytes.drop offset → Holds platform toF32 bytes offset expr) :
    Emits platform toF32 expr (Memory.toBytes value.toBits (getSize platform (.primitive p))) := by
  obtain ⟨hsize, heq, halign⟩ := @getSize_integer platform p hp
  refine ⟨by rwa [htype], ⟨_, hvalue, fun buffer ↦ ?_⟩, ?_, fun before after ↦ ?_⟩
  · rw [htype]
    exact generateBytes_integer hsize buffer value
  · rw [htype, heq, Memory.length_toBytes]
  · exact hholds _ _ (prefix_drop_append _ _ _)

theorem emits_fpLiteral {type : LayoutType} (value : Double)
    (htype : type = .primitive .F32 ∨ type = .primitive .F64) :
    ∃ bytes, Emits platform toF32 (.fpLiteral type value) bytes := by
  obtain rfl | rfl := htype
  · refine ⟨u32 ((toF32 value).setWidth 64), Nat.succ_ne_zero 3, ⟨.floatingPoint value, rfl,
      fun buffer ↦ rfl⟩, rfl, fun before after ↦ ?_⟩
    have hsize : getSize platform (.primitive .F32) = 4 := rfl
    rw [Holds, hsize, if_pos rfl]
    exact prefix_drop_append _ _ _
  · refine ⟨u64 value.bits, Nat.succ_ne_zero 7, ⟨.floatingPoint value, rfl, fun buffer ↦ rfl⟩, rfl,
      fun before after ↦ ?_⟩
    have hsize : getSize platform (.primitive .F64) = 8 := rfl
    rw [Holds, hsize, if_neg (by decide)]
    exact prefix_drop_append _ _ _

theorem toBytes_signExtend (value : BitVec 8) :
    Memory.toBytes ((⟨(value.signExtend 32).setWidth 64, false⟩ : LargeInt).toBits) 1
      = [value] := by
  have hbyte : BitVec.setWidth 8 (value.signExtend 32) = value := by
    ext i hi
    have hi' : i < 32 := by omega
    rw [getElem_setWidth, getLsbD_eq_getElem hi', getElem_signExtend, dif_pos hi]
  simp [Memory.toBytes, LargeInt.toBits, hbyte]

theorem emits_nullLiteral :
    ∃ bytes, Emits platform toF32 (.nullLiteral (.primitive .ADDR)) bytes := by
  refine ⟨_, @emits_integer platform toF32 (.nullLiteral (.primitive .ADDR)) .ADDR _ rfl (by decide)
    (by rw [generateValue]) fun bytes offset h ↦ ?_⟩
  rw [Holds]
  have hzeros : Memory.toBytes ((⟨0, false⟩ : LargeInt).toBits)
      (getSize platform (.primitive .ADDR))
        = List.replicate (getSize platform (.primitive .ADDR)) 0 := by
    rw [Memory.toBytes, eq_replicate_iff]
    simp [LargeInt.toBits]
  rwa [hzeros] at h

/-- The constants that are not made of others. -/
theorem exists_emits_leaf {expr : Expr} (haccepted : Accepted expr) (hemittable : Emittable expr)
    (hleaf : ∀ type fields values, expr ≠ .arrayLiteral type values ∧
      expr ≠ .structLiteral type fields values ∧ expr ≠ .tupleExpr type values) :
    ∃ bytes, Emits platform toF32 expr bytes := by
  cases expr with
  | intLiteral type value =>
    rw [Accepted] at haccepted
    obtain ⟨p, rfl, hp⟩ := haccepted
    exact ⟨_, emits_integer rfl hp (by rw [generateValue]) fun bytes offset h ↦ by rwa [Holds]⟩
  | fpLiteral type value =>
    rw [Accepted] at haccepted
    exact emits_fpLiteral value haccepted
  | boolLiteral type value =>
    rw [Accepted] at haccepted
    subst haccepted
    refine ⟨_, @emits_integer platform toF32 (.boolLiteral (.primitive .U8) value) .U8 _ rfl
      (by decide) (by rw [generateValue]) fun bytes offset h ↦ ?_⟩
    rw [Holds]
    cases value <;> exact h
  | charLiteral type value =>
    rw [Accepted] at haccepted
    subst haccepted
    refine ⟨_, @emits_integer platform toF32 (.charLiteral (.primitive .U8) value) .U8 _ rfl
      (by decide) (by rw [generateValue]) fun bytes offset h ↦ ?_⟩
    rw [Holds]
    exact toBytes_signExtend value ▸ h
  | nullLiteral type =>
    rw [Accepted] at haccepted
    subst haccepted
    exact emits_nullLiteral
  | arrayLiteral type values => exact absurd rfl (hleaf type [] values).1
  | structLiteral type fields values => exact absurd rfl (hleaf type fields values).2.1
  | tupleExpr type exprs => exact absurd rfl (hleaf type [] exprs).2.2
  | other type => rw [Emittable] at hemittable; exact hemittable.elim

/-! ## The loops -/

/-- Every element of an array ends where the next one starts, so none is padded. -/
theorem elementsLoop_eq {element : LayoutType} {values : List Expr}
    (hemits : ∀ value ∈ values, ∃ bytes, Emits platform toF32 value bytes)
    (htypes : ∀ value ∈ values, value.type = element) (hfits : Fits platform element)
    (halign : getAlignment platform element ≠ 0) {buffer : List Byte}
    (hbuffer : getAlignment platform element ∣ buffer.length) :
    ∃ bytes, elementsLoop platform toF32 (getSize platform element) (getAlignment platform element)
        buffer values = some (buffer ++ bytes) ∧
      bytes.length = Target.getSize platform element * values.length ∧
      ∀ before after,
        HoldsElements platform toF32 (before ++ bytes ++ after) before.length values := by
  induction values generalizing buffer with
  | nil =>
    exact ⟨[], by rw [elementsLoop, append_nil], rfl, fun _ _ ↦ by rw [HoldsElements]; trivial⟩
  | cons value values ih =>
    rw [forall_mem_cons] at hemits htypes
    obtain ⟨⟨bytes, -, ⟨generated, hgenerated, hbytes⟩, hlength, hholds⟩, hemits⟩ := hemits
    obtain ⟨htype, htypes⟩ := htypes
    rw [htype] at hbytes hlength
    have hdvd : getAlignment platform element ∣ (buffer ++ bytes).length := by
      rw [length_append, hlength]
      exact Nat.dvd_add hbuffer (dvd_getSize element)
    obtain ⟨rest, hloop, hrest, hholdsRest⟩ := ih hemits htypes hdvd
    refine ⟨bytes ++ rest, ?_, ?_, fun before after ↦ ?_⟩
    · rw [elementsLoop, hgenerated]
      simp only [bind_eq_bind, bind_some, hbytes, padBytes_eq halign]
      rw [padding_of_dvd hdvd, List.replicate_zero, append_nil, hloop, List.append_assoc]
    · rw [length_append, hlength, hrest, List.length_cons, Nat.mul_succ, Nat.add_comm]
    · have hsize := getSize_eq element hfits
      have hfirst := hholds before (rest ++ after)
      have hothers := hholdsRest (before ++ bytes) after
      rw [length_append, hlength, ← hsize] at hothers
      rw [HoldsElements, htype]
      simp only [List.append_assoc] at hfirst hothers ⊢
      exact ⟨hfirst, hothers⟩

/-- The values are placed as the loop of the data layout over their types places them. -/
theorem membersLoop_eq {values : List Expr}
    (hemits : ∀ value ∈ values, ∃ bytes, Emits platform toF32 value bytes)
    (hfits : ∀ value ∈ values, Fits platform value.type) {buffer : List Byte}
    (hsize : Target.structSize platform buffer.length (values.map (·.type)) < 2 ^ 32) :
    ∃ bytes, membersLoop platform toF32 buffer values = some (buffer ++ bytes) ∧
      (buffer ++ bytes).length
        = Target.structSize platform buffer.length (values.map (·.type)) ∧
      ∀ (i : ℕ) value o, values[i]? = some value →
        Target.StandardDataLayout.memberOffset platform buffer.length (values.map (·.type)) i
          = some o → ∀ before after,
        Holds platform toF32 (before ++ (buffer ++ bytes) ++ after) (before.length + o) value := by
  induction values generalizing buffer with
  | nil => exact ⟨[], by rw [membersLoop, append_nil], by
      rw [append_nil, List.map_nil, Target.structSize], fun i value o h ↦ by cases h⟩
  | cons value values ih =>
    rw [forall_mem_cons] at hemits hfits
    rw [List.map_cons] at hsize ⊢
    obtain ⟨⟨bytes, halign, ⟨generated, hgenerated, hbytes⟩, hlength, hholds⟩, hemits⟩ := hemits
    obtain ⟨hplace, hnext⟩ := align_eq_of_structSize_lt platform hsize
    have hfirst := getSize_eq value.type hfits.1
    set zeros := List.replicate (BinaryBuilder.padding buffer.length
      (getAlignment platform value.type)) (0 : Byte) with hzeros
    have hpadded : (buffer ++ zeros).length
        = Target.alignTo buffer.length (getAlignment platform value.type) := by
      rw [length_append, hzeros, length_replicate, add_padding halign]
    have hstep : (buffer ++ zeros ++ bytes).length
        = Target.alignTo buffer.length (getAlignment platform value.type)
          + Target.getSize platform value.type := by
      rw [length_append, hpadded, hlength]
    rw [Target.structSize, ← hstep] at hsize ⊢
    obtain ⟨rest, hloop, hrest, hholdsRest⟩ := ih hemits hfits.2 hsize
    have hassoc : buffer ++ (zeros ++ bytes ++ rest) = buffer ++ zeros ++ bytes ++ rest := by
      simp only [List.append_assoc]
    refine ⟨zeros ++ bytes ++ rest, ?_, by rw [hassoc, hrest],
      fun i value' o hi ho before after ↦ ?_⟩
    · rw [membersLoop, padBytes_eq halign, hgenerated]
      simp only [bind_eq_bind, bind_some, hbytes]
      rw [← hzeros, hloop, hassoc]
    · rw [hassoc]
      cases i with
      | zero =>
        obtain rfl := some.inj hi
        rw [Target.StandardDataLayout.memberOffset, hplace] at ho
        obtain rfl := some.inj ho
        have hvalue := hholds (before ++ (buffer ++ zeros)) (rest ++ after)
        rw [length_append, hpadded] at hvalue
        simpa only [List.append_assoc] using hvalue
      | succ i =>
        rw [Target.StandardDataLayout.memberOffset, hplace, hfirst, hnext, ← hstep] at ho
        exact hholdsRest i value' o hi ho before after

/-! ## Constants made of others -/

theorem emits_arrayLiteral {type element : LayoutType} {values : List Expr} (hne : values ≠ [])
    (hemits : ∀ value ∈ values, ∃ bytes, Emits platform toF32 value bytes)
    (htypes : ∀ value ∈ values, value.type = element)
    (htype : type = arrayOf element values.length) (hfits : Fits platform element) :
    ∃ bytes, Emits platform toF32 (.arrayLiteral type values) bytes := by
  obtain ⟨first, rest, rfl⟩ := exists_cons_of_ne_nil hne
  obtain ⟨_, hfirst⟩ := hemits first mem_cons_self
  have helement := htypes first mem_cons_self
  have halign := hfirst.aligned
  rw [helement] at halign
  obtain ⟨bytes, hloop, hlength, hholds⟩ :=
    @elementsLoop_eq platform toF32 element _ hemits htypes hfits halign [] (dvd_zero _)
  refine ⟨bytes, by rwa [htype, Expr.type, getAlignment_arrayOf],
    ⟨.bytes bytes, ?_, fun _ ↦ rfl⟩, ?_, fun before after ↦ ?_⟩
  · rw [generateValue, head?_cons]
    simp only [helement, hloop, map_some, nil_append]
  · rw [hlength, htype, Expr.type, getSize_arrayOf]
  · rw [Holds]
    exact hholds before after

/-- What the entries of a structure literal and the values of a tuple have in common. -/
theorem emits_of_membersLoop {expr : Expr} {values : List Expr}
    (hgenerated : generateValue platform toF32 expr = (do
      let buffer ← membersLoop platform toF32 [] values
      let buffer ← padBytes buffer (getAlignment platform expr.type)
      some (.bytes buffer)))
    (hemits : ∀ value ∈ values, ∃ bytes, Emits platform toF32 value bytes)
    (hfits : ∀ value ∈ values, Fits platform value.type)
    (hsize : Target.structSize platform 0 (values.map (·.type)) < 2 ^ 32)
    (halign : getAlignment platform expr.type ≠ 0)
    (htotal : Target.alignTo (Target.structSize platform 0 (values.map (·.type)))
      (getAlignment platform expr.type) = Target.getSize platform expr.type)
    (hholds : ∀ bytes offset, (∀ (i : ℕ) value o, values[i]? = some value →
      Target.StandardDataLayout.memberOffset platform 0 (values.map (·.type)) i = some o →
      Holds platform toF32 bytes (offset + o) value) → Holds platform toF32 bytes offset expr) :
    ∃ bytes, Emits platform toF32 expr bytes := by
  obtain ⟨bytes, hloop, hlength, hplaced⟩ :=
    @membersLoop_eq platform toF32 values hemits hfits [] hsize
  rw [nil_append] at hloop hlength
  refine ⟨bytes ++ List.replicate (BinaryBuilder.padding bytes.length
    (getAlignment platform expr.type)) 0, halign, ⟨.bytes _, ?_, fun _ ↦ rfl⟩, ?_,
    fun before after ↦ hholds _ _ fun i value o hi ho ↦ ?_⟩
  · rw [hgenerated, hloop]
    simp only [bind_eq_bind, bind_some, padBytes_eq halign]
  · rw [length_append, length_replicate, add_padding halign, hlength]
    exact htotal
  · have hvalue := hplaced i value o hi ho before
    simp only [nil_append, List.append_assoc] at hvalue ⊢
    exact hvalue _

theorem members_eq {values : List Expr} (hlength : members.length = values.length)
    (htypes : (range values.length).map (members[·]?) = values.map (some ·.type)) :
    members = values.map (·.type) := by
  refine List.ext_getElem (by rw [hlength, length_map]) fun i hi hi' ↦ ?_
  rw [length_map] at hi'
  have hat := congrArg (·[i]?) htypes
  simp only [List.getElem?_map, getElem?_range hi', map_some,
    List.getElem?_eq_getElem hi, List.getElem?_eq_getElem hi', Option.some.injEq] at hat
  rw [List.getElem_map, hat]

/-- A structure with the types of the values has the size that the loop comes to. -/
theorem structSize_lt (hfits : Fits platform (.struct_ members)) :
    Target.structSize platform 0 members < 2 ^ 32 ∧
      Target.alignTo (Target.structSize platform 0 members)
        (getAlignment platform (.struct_ members))
          = Target.getSize platform (.struct_ members) := by
  have hsize := size_lt_of_fits hfits
  have heq : Target.getSize platform (.struct_ members)
      = Target.alignTo (Target.structSize platform 0 members)
        (getAlignment platform (.struct_ members)) := by
    rw [Target.getSize, getAlignment, if_neg Bool.false_ne_true, Nat.mul_one]
  rw [heq] at hsize
  exact ⟨(le_alignTo _ _).trans_lt hsize, heq.symm⟩

theorem getAlignment_struct_map_ne_zero {isUnion : Bool} {values : List Expr} (hne : values ≠ [])
    (hemits : ∀ value ∈ values, ∃ bytes, Emits platform toF32 value bytes) :
    getAlignment platform (.struct_ (values.map (·.type)) isUnion) ≠ 0 := by
  obtain ⟨first, rest, rfl⟩ := exists_cons_of_ne_nil hne
  obtain ⟨_, hfirst⟩ := hemits first mem_cons_self
  exact getAlignment_struct_ne_zero (mem_cons_self : first.type ∈ _ :: rest.map (·.type))
    hfirst.aligned

theorem emits_tupleExpr {exprs : List Expr} (hne : exprs ≠ [])
    (hemits : ∀ value ∈ exprs, ∃ bytes, Emits platform toF32 value bytes)
    (hfits : Fits platform (.struct_ (exprs.map (·.type)))) :
    ∃ bytes, Emits platform toF32 (.tupleExpr (.struct_ (exprs.map (·.type))) exprs) bytes := by
  obtain ⟨hsize, htotal⟩ := structSize_lt hfits
  rw [Fits, fitsAll_iff, List.forall_mem_map] at hfits
  refine emits_of_membersLoop ?_ hemits hfits.1 hsize (getAlignment_struct_map_ne_zero hne hemits)
    htotal fun bytes offset h ↦ ?_
  · rw [generateValue, if_neg (by rwa [List.isEmpty_iff])]
    rfl
  · rw [Holds]
    exact holdsFields_range h

theorem emits_structLiteral {fields : List ℕ} {values : List Expr} (hne : values ≠ [])
    (hemits : ∀ value ∈ values, ∃ bytes, Emits platform toF32 value bytes)
    (hcovers : Covers false members fields)
    (htypes : fields.map (members[·]?) = values.map (some ·.type))
    (horder : fields = range values.length) (hfits : Fits platform (.struct_ members)) :
    ∃ bytes, Emits platform toF32 (.structLiteral (.struct_ members) fields values) bytes := by
  rw [Covers, if_neg Bool.false_ne_true, horder] at hcovers
  have hlength := hcovers.length_eq
  rw [length_range, length_range] at hlength
  subst horder
  obtain rfl := members_eq hlength.symm htypes
  obtain ⟨hsize, htotal⟩ := structSize_lt hfits
  rw [Fits, fitsAll_iff, List.forall_mem_map] at hfits
  refine emits_of_membersLoop ?_ hemits hfits.1 hsize (getAlignment_struct_map_ne_zero hne hemits)
    htotal fun bytes offset h ↦ ?_
  · rw [generateValue, if_neg (by rwa [List.isEmpty_iff])]
    rfl
  · rw [Holds]
    exact holdsFields_range h

/-- The only entry is at the start, and the padding makes up for the size of the structure. -/
theorem emits_overlapping {fields : List ℕ} {values : List Expr}
    (hemits : ∀ value ∈ values, ∃ bytes, Emits platform toF32 value bytes)
    (hcovers : Covers true members fields)
    (htypes : fields.map (members[·]?) = values.map (some ·.type))
    (hplace : EntriesInPlace platform (.struct_ members true) fields values)
    (hfits : Fits platform (.struct_ members true)) :
    ∃ bytes, Emits platform toF32 (.structLiteral (.struct_ members true) fields values) bytes := by
  rw [Covers, if_pos rfl] at hcovers
  obtain ⟨field, rfl⟩ := length_eq_one_iff.mp hcovers
  have hone := congrArg List.length htypes
  rw [length_map, length_map, length_singleton] at hone
  obtain ⟨value, rfl⟩ := length_eq_one_iff.mp hone.symm
  obtain ⟨_, hvalue⟩ := hemits value mem_cons_self
  have hmember : value.type ∈ members := by
    rw [map_singleton, map_singleton, singleton_inj] at htypes
    exact mem_of_getElem? htypes
  rw [Fits, fitsAll_iff] at hfits
  have hvalueFits := hfits.1 _ hmember
  have hstart : Target.alignTo 0 (getAlignment platform value.type) = 0 := by
    rw [← add_padding hvalue.aligned, padding_of_dvd (dvd_zero _)]
  have hsize : Target.structSize platform 0 ([value].map (·.type))
      = Target.getSize platform value.type := by
    rw [map_singleton, Target.structSize, Target.structSize, hstart, Nat.zero_add]
  refine emits_of_membersLoop ?_ hemits (forall_mem_singleton.mpr hvalueFits)
    (by rw [hsize]; exact size_lt_of_fits hvalueFits)
    (getAlignment_struct_ne_zero hmember hvalue.aligned) ?_ fun bytes offset h ↦ ?_
  · rw [generateValue, if_neg (by simp)]
    rfl
  · rw [hsize]
    exact hplace value mem_cons_self
  · have hoffset : Target.StandardDataLayout.memberOffset platform 0 ([value].map (·.type)) 0
        = some 0 := by
      rw [map_singleton, Target.StandardDataLayout.memberOffset,
        align_eq (by rw [hstart]; decide), hstart]
    have hfirst := h 0 value 0 rfl hoffset
    rw [Holds, HoldsFields, HoldsFields]
    exact ⟨⟨field, 0, rfl, rfl, hfirst⟩, trivial⟩

mutual

theorem exists_emits : ∀ expr, Accepted expr → Emittable expr → InPlace platform expr →
    Fits platform expr.type → expr.isEmpty = false → ∃ bytes, Emits platform toF32 expr bytes
  | .arrayLiteral type values, haccepted, hemittable, hplace, hfits, hempty => by
    rw [Accepted] at haccepted
    rw [Emittable] at hemittable
    rw [InPlace] at hplace
    obtain ⟨⟨element, htypes, rfl⟩, haccepted⟩ := haccepted
    have hne : values ≠ [] := isEmpty_eq_false_iff.mp hempty
    have helement := fits_of_arrayOf (mt List.length_eq_zero_iff.mp hne) hfits
    have hemits := existsAll_emits values haccepted hemittable hplace fun value hvalue ↦ by
      rwa [htypes value hvalue]
    exact emits_arrayLiteral hne hemits htypes rfl helement
  | .structLiteral type fields values, haccepted, hemittable, hplace, hfits, hempty => by
    rw [Accepted] at haccepted
    rw [Emittable] at hemittable
    rw [InPlace] at hplace
    obtain ⟨⟨members, isUnion, rfl, hcovers, htypes⟩, haccepted⟩ := haccepted
    have hne : values ≠ [] := isEmpty_eq_false_iff.mp hempty
    have hvalues : ∀ value ∈ values, Fits platform value.type := fun value hvalue ↦ by
      have hmem : some value.type ∈ fields.map (members[·]?) := by
        rw [htypes]
        exact List.mem_map_of_mem hvalue
      obtain ⟨field, -, hfield⟩ := List.mem_map.mp hmem
      rw [Expr.type, Fits, fitsAll_iff] at hfits
      exact hfits.1 _ (List.mem_of_getElem? hfield)
    have hemits := existsAll_emits values haccepted hemittable hplace.2 hvalues
    cases isUnion with
    | true => exact emits_overlapping hemits hcovers htypes hplace.1 hfits
    | false => exact emits_structLiteral hne hemits hcovers htypes hplace.1 hfits
  | .tupleExpr type exprs, haccepted, hemittable, hplace, hfits, hempty => by
    rw [Accepted] at haccepted
    rw [Emittable] at hemittable
    rw [InPlace] at hplace
    obtain ⟨rfl, haccepted⟩ := haccepted
    have hvalues := hfits
    rw [Expr.type, Fits, fitsAll_iff, List.forall_mem_map] at hvalues
    exact emits_tupleExpr (isEmpty_eq_false_iff.mp hempty)
      (existsAll_emits exprs haccepted hemittable hplace hvalues.1) hfits
  | .intLiteral _ _, haccepted, hemittable, _, _, _ | .fpLiteral _ _, haccepted, hemittable, _, _, _
  | .boolLiteral _ _, haccepted, hemittable, _, _, _
  | .charLiteral _ _, haccepted, hemittable, _, _, _
  | .nullLiteral _, haccepted, hemittable, _, _, _
  | .other _, haccepted, hemittable, _, _, _ =>
    exists_emits_leaf haccepted hemittable fun _ _ _ ↦ ⟨nofun, nofun, nofun⟩

theorem existsAll_emits : ∀ values, AcceptedAll values → EmittableAll values →
    InPlaceAll platform values → (∀ value ∈ values, Fits platform value.type) →
    ∀ value ∈ values, ∃ bytes, Emits platform toF32 value bytes
  | [], _, _, _, _ => nofun
  | value :: values, haccepted, hemittable, hplace, hfits => by
    rw [AcceptedAll] at haccepted
    rw [EmittableAll] at hemittable
    rw [InPlaceAll] at hplace
    rw [forall_mem_cons] at hfits ⊢
    exact ⟨exists_emits value haccepted.1 hemittable.1.2 hplace.1 hfits.1 hemittable.1.1,
      existsAll_emits values haccepted.2 hemittable.2 hplace.2 hfits.2⟩

end

/-! ## The data section -/

theorem globalBytes_writeData (builder : BinaryBuilder) (alignment : ℕ) (name : String)
    (kind : Emit.BinSymbolKind) (global : Bool) (bytes : List Byte) :
    globalBytes builder (((builder.writeData (List.replicate (BinaryBuilder.padding
      builder.data.cur.buffer.length alignment) 0)).addDefIn (builder.writeData (List.replicate
      (BinaryBuilder.padding builder.data.cur.buffer.length alignment) 0)).data name kind
      global).writeData bytes) alignment = bytes := by
  refine drop_left' ?_
  change (builder.data.cur.buffer ++ List.replicate _ 0).length = _
  rw [length_append, length_replicate]

variable {bytes : List Byte}

/-- What is written into the bytes of another constant is written to the data section, too. -/
theorem generateGlobal_of_generateBytes {value : GlobalValue}
    (h : generateBytes toF32 [] size value = some bytes) (mod : Mcode.Module)
    (builder : BinaryBuilder) (name : String) (alignment : ℕ) :
    ∃ builder', builder.generateGlobal toF32 mod ⟨name, size, alignment, value⟩ = some builder' ∧
      globalBytes builder builder' alignment = bytes := by
  cases value with
  | integer value =>
    rw [generateBytes] at h
    split_ifs at h with hsize
    obtain rfl := some.inj h
    exact ⟨_, if_pos hsize, globalBytes_writeData _ _ _ _ _ _⟩
  | floatingPoint value =>
    simp only [generateBytes] at h
    split at h
    · obtain rfl := some.inj h
      exact ⟨_, rfl, globalBytes_writeData _ _ _ _ _ _⟩
    · obtain rfl := some.inj h
      exact ⟨_, rfl, globalBytes_writeData _ _ _ _ _ _⟩
    · cases h
  | bytes value =>
    obtain rfl := some.inj h
    exact ⟨_, rfl, globalBytes_writeData _ _ _ _ _ _⟩
  | none | string _ | symbolRef _ => cases h

theorem correct_of_emits (h : Emits platform toF32 expr bytes)
    (hfits : Fits platform expr.type) (mod : Mcode.Module) (builder : BinaryBuilder)
    (name : String) : Correct platform toF32 mod builder name expr := by
  obtain ⟨value, hvalue, hbytes⟩ := h.generated
  obtain ⟨builder', hbuilder, hglobal⟩ := generateGlobal_of_generateBytes (hbytes []) mod builder
    name (getAlignment platform expr.type)
  rw [nil_append] at hglobal
  refine ⟨builder', ?_, ?_, ?_⟩
  · rw [generateGlobal, hvalue]
    exact hbuilder
  · rw [hglobal, h.length, getSize_eq _ hfits]
  · rw [hglobal]
    have hholds := h.holds [] []
    rwa [nil_append, append_nil] at hholds

variable {value : Expr}

theorem generateValue_of_isEmpty (h : value.isEmpty = true) :
    generateValue platform toF32 value = some .none := by
  cases value with
  | arrayLiteral type values =>
    obtain rfl := isEmpty_iff.mp h
    rw [generateValue]
    rfl
  | structLiteral type fields values | tupleExpr type values =>
    obtain rfl := isEmpty_iff.mp h
    rw [generateValue, if_pos isEmpty_nil]
  | _ => cases h

/-- A global without a value in its initial value is a block of zeros. -/
theorem correct_of_isEmpty (h : expr.isEmpty = true) (mod : Mcode.Module)
    (builder : BinaryBuilder) (name : String) : Correct platform toF32 mod builder name expr := by
  have hwritten : ∃ builder', generateGlobal platform toF32 mod builder name expr = some builder' ∧
      globalBytes builder builder' (getAlignment platform expr.type)
        = List.replicate (getSize platform expr.type) 0 := by
    rw [generateGlobal, generateValue_of_isEmpty h]
    exact ⟨_, rfl, globalBytes_writeData _ _ _ _ _ _⟩
  obtain ⟨builder', hbuilder, hbytes⟩ := hwritten
  refine ⟨builder', hbuilder, by rw [hbytes, length_replicate], ?_⟩
  cases expr with
  | arrayLiteral type values =>
    obtain rfl := isEmpty_iff.mp h
    rw [Holds, HoldsElements]
    trivial
  | structLiteral type fields values | tupleExpr type values =>
    obtain rfl := isEmpty_iff.mp h
    rw [Holds, HoldsFields]
    trivial
  | _ => cases h

/-! ## Constants without bytes -/

variable {buffer buffer' : List Byte}

/-- An element or a member has bytes. -/
theorem isEmpty_eq_false_of_generateBytes {generated : GlobalValue}
    (hvalue : generateValue platform toF32 value = some generated)
    (h : generateBytes toF32 buffer size generated = some buffer') : value.isEmpty = false := by
  by_contra hempty
  rw [generateValue_of_isEmpty ((Bool.not_eq_false _).mp hempty)] at hvalue
  obtain rfl := some.inj hvalue
  cases h

theorem emittableAll_of_elementsLoop {alignment : ℕ}
    (hvalues : ∀ value ∈ values, ∀ generated,
      generateValue platform toF32 value = some generated → Emittable value)
    (h : elementsLoop platform toF32 size alignment buffer values = some buffer') :
    EmittableAll values := by
  induction values generalizing buffer with
  | nil => rw [EmittableAll]; trivial
  | cons value values ih =>
    rw [forall_mem_cons] at hvalues
    rw [elementsLoop] at h
    obtain ⟨generated, hgenerated, h⟩ := bind_eq_some_iff.mp h
    obtain ⟨written, hwritten, h⟩ := bind_eq_some_iff.mp h
    obtain ⟨padded, -, h⟩ := bind_eq_some_iff.mp h
    rw [EmittableAll]
    exact ⟨⟨isEmpty_eq_false_of_generateBytes hgenerated hwritten, hvalues.1 _ hgenerated⟩,
      ih hvalues.2 h⟩

theorem emittableAll_of_membersLoop
    (hvalues : ∀ value ∈ values, ∀ generated,
      generateValue platform toF32 value = some generated → Emittable value)
    (h : membersLoop platform toF32 buffer values = some buffer') : EmittableAll values := by
  induction values generalizing buffer with
  | nil => rw [EmittableAll]; trivial
  | cons value values ih =>
    rw [forall_mem_cons] at hvalues
    rw [membersLoop] at h
    obtain ⟨padded, -, h⟩ := bind_eq_some_iff.mp h
    obtain ⟨generated, hgenerated, h⟩ := bind_eq_some_iff.mp h
    obtain ⟨written, hwritten, h⟩ := bind_eq_some_iff.mp h
    rw [EmittableAll]
    exact ⟨⟨isEmpty_eq_false_of_generateBytes hgenerated hwritten, hvalues.1 _ hgenerated⟩,
      ih hvalues.2 h⟩

mutual

theorem emittable_of_generateValue : ∀ expr generated,
    generateValue platform toF32 expr = some generated → Emittable expr
  | .arrayLiteral type values, _, h => by
    rw [Emittable]
    rw [generateValue] at h
    cases values with
    | nil => rw [EmittableAll]; trivial
    | cons value values =>
      obtain ⟨buffer, hbuffer, -⟩ := map_eq_some_iff.mp h
      exact emittableAll_of_elementsLoop (all_emittable_of_generateValue (value :: values)) hbuffer
  | .structLiteral type fields values, _, h | .tupleExpr type values, _, h => by
    rw [Emittable]
    rw [generateValue] at h
    split_ifs at h with hempty
    · rw [isEmpty_iff.mp hempty, EmittableAll]
      trivial
    · obtain ⟨buffer, hbuffer, -⟩ := bind_eq_some_iff.mp h
      exact emittableAll_of_membersLoop (all_emittable_of_generateValue values) hbuffer
  | .intLiteral _ _, _, _ | .fpLiteral _ _, _, _ | .boolLiteral _ _, _, _ | .charLiteral _ _, _, _
  | .nullLiteral _, _, _ => by simp only [Emittable]
  | .other _, _, h => by rw [generateValue] at h; cases h

theorem all_emittable_of_generateValue : ∀ (values : List Expr), ∀ value ∈ values, ∀ generated,
    generateValue platform toF32 value = some generated → Emittable value
  | [] => nofun
  | value :: values => forall_mem_cons.mpr
    ⟨emittable_of_generateValue value, all_emittable_of_generateValue values⟩

end

section

/-- `{ a: 1, b: (-2, [3, 4]) }` in the order of the fields. -/
def sample : Expr :=
  .structLiteral (.struct_ [.primitive .U8, .struct_ [.primitive .I32, .primitive .U16 2]]) [0, 1]
    [.intLiteral (.primitive .U8) ⟨1, false⟩,
      .tupleExpr (.struct_ [.primitive .I32, .primitive .U16 2])
        [.intLiteral (.primitive .I32) ⟨2, true⟩,
          .arrayLiteral (.primitive .U16 2)
            [.intLiteral (.primitive .U16) ⟨3, false⟩, .intLiteral (.primitive .U16) ⟨4, false⟩]]]

/-- `{ y: 2, x: 1 }` for a structure in which `x` is the first field. -/
def swapped : Expr :=
  .structLiteral (.struct_ [.primitive .I32, .primitive .I32]) [1, 0]
    [.intLiteral (.primitive .I32) ⟨2, false⟩, .intLiteral (.primitive .I32) ⟨1, false⟩]

end

end Banjo.SSAGen.GlobalSSAGenerator
