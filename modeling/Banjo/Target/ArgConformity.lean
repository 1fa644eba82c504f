import Banjo.Lib.ArgumentPassing
import Banjo.Target.ArgStorage

/-!
# Conformity with the binary interfaces

The rules of System V AMD64, Microsoft x64 and AAPCS64 for scalar parameters, and `get_arg_storage`
of the conventions that stand for them. The System V convention has a ninth register for
floating-point numbers, which the rules do not have; otherwise the places agree as long as the
offsets fit in 32 bits.
-/

open List

namespace Banjo.Target

open MCode ArgumentPassing
open SSA (SSAType Primitive)

/-! ## Scalars and where the rules put them -/

/-- The classes of scalars: `INTEGER`, which has the pointers, and `SSE` in the terms of System
V. -/
inductive ArgClass where
  | general | float
  deriving DecidableEq

instance : Fintype ArgClass := ⟨{.general, .float}, fun c ↦ by cases c <;> decide⟩

/-- A type with values. -/
abbrev Scalar := {primitive : Primitive // primitive ≠ .VOID}

namespace Scalar

def type (scalar : Scalar) : SSAType := (scalar.1 : SSAType)

def argClass (scalar : Scalar) : ArgClass :=
  match scalar.1 with
  | .F32 | .F64 => .float
  | _ => .general

theorem isFloatingPoint_type (scalar : Scalar) :
    scalar.type.isFloatingPoint = true ↔ scalar.argClass = .float := by
  obtain ⟨primitive, h⟩ := scalar
  cases primitive <;> simp [type, argClass, SSAType.isFloatingPoint]

end Scalar

/-- The function type with scalar parameters. -/
def functionType (params : List Scalar) : FunctionType := { params := params.map Scalar.type }

open X8664Register in
def SysVABI.regs : ArgClass → List PhysicalReg
  | .general => [RDI, RSI, RDX, RCX, R8, R9]
  | .float => [XMM0, XMM0 + 1, XMM0 + 2, XMM0 + 3, XMM0 + 4, XMM0 + 5, XMM0 + 6, XMM0 + 7]

open X8664Register in
/-- Four positions; the words of these positions on the stack are the shadow space. -/
def MicrosoftABI.regs : ArgClass → List PhysicalReg
  | .general => [RCX, RDX, R8, R9]
  | .float => [XMM0, XMM0 + 1, XMM0 + 2, XMM0 + 3]

open AArch64Register in
def AAPCS64.regs : ArgClass → List PhysicalReg
  | .general => [R0, R0 + 1, R0 + 2, R0 + 3, R0 + 4, R0 + 5, R0 + 6, R0 + 7]
  | .float => [V0, V0 + 1, V0 + 2, V0 + 3, V0 + 4, V0 + 5, V0 + 6, V0 + 7]

/-- The place a storage stands for. -/
def placeOf : ArgStorage → Place PhysicalReg
  | .inReg reg => .reg reg
  | .onStack _ stackOffset => .stack stackOffset

/-- The function ends, the places are those of the rules, and no two parameters share one. -/
def Conforms (Returns : List ArgStorage → Prop) (rules : List (Place PhysicalReg)) : Prop :=
  ∃ r, Returns r ∧ r.map placeOf = rules ∧ (r.map placeOf).Nodup

/-! ## Offsets of 32 bits -/

/-- A place with its offset in 32 bits. -/
def cutPlace : Place PhysicalReg → Place PhysicalReg
  | .reg reg => .reg reg
  | .stack offset => .stack (offset % 2 ^ 32)

theorem placeOf_cutStorage (storage : ArgStorage) :
    placeOf (cutStorage storage) = cutPlace (placeOf storage) := by
  cases storage <;> rfl

theorem cutPlace_of_lt {p : Place PhysicalReg} (h : ∀ offset, p = .stack offset → offset < 2 ^ 32) :
    cutPlace p = p := by
  cases p with
  | reg reg => rfl
  | stack offset => rw [cutPlace, Nat.mod_eq_of_lt (h offset rfl)]

section Offsets

variable {regs : ArgClass → List PhysicalReg} {before classes : List ArgClass}

theorem onStack_eq :
    onStack regs classes = overflow regs classes .general + overflow regs classes .float := by
  rw [onStack, show (Finset.univ : Finset ArgClass) = {.general, .float} from rfl,
    Finset.sum_pair (by decide)]

theorem map_cutPlace_byClass_iff :
    (places (byClass regs) classes).map cutPlace = places (byClass regs) classes
      ↔ onStack regs classes ≤ 2 ^ 29 := by
  constructor
  · intro heq
    by_contra hlt
    have hmem := exists_stack regs (not_le.mp hlt)
    rw [← heq, mem_map] at hmem
    obtain ⟨p, -, hp⟩ := hmem
    cases p with
    | reg reg => simp [cutPlace] at hp
    | stack offset =>
      have hmod : offset % 2 ^ 32 < 2 ^ 32 := Nat.mod_lt _ (Nat.two_pow_pos 32)
      rw [cutPlace, Place.stack.injEq] at hp
      omega
  · intro hle
    rw [map_congr_left fun p hp ↦ cutPlace_of_lt fun offset hoffset ↦ ?_, map_id']
    have hlt := lt_of_stack_mem (hoffset ▸ hp)
    omega

theorem map_cutPlace_byPosition_iff (hregs : ∀ c, (regs c).length < 2 ^ 29) :
    (places (byPosition regs) classes).map cutPlace = places (byPosition regs) classes
      ↔ classes.length ≤ 2 ^ 29 := by
  constructor
  · intro heq
    by_contra hlt
    obtain ⟨front, c, back, rfl, hfront⟩ : ∃ front c back,
        classes = front ++ c :: back ∧ front.length = 2 ^ 29 := by
      have hlt := not_le.mp hlt
      exact ⟨classes.take (2 ^ 29), classes[2 ^ 29], classes.drop (2 ^ 29 + 1),
        by rw [← drop_eq_getElem_cons hlt, take_append_drop],
        by rw [length_take, Nat.min_eq_left hlt.le]⟩
    rw [places, map_placesFrom] at heq
    have hplace := placesFrom_inj heq
    rw [nil_append, byPosition_of_le (hfront ▸ (hregs c).le), cutPlace, hfront,
      Place.stack.injEq] at hplace
    omega
  · intro hle
    rw [map_congr_left fun p hp ↦ cutPlace_of_lt fun offset hoffset ↦ ?_, map_id']
    obtain ⟨front, c, back, rfl, hplace⟩ := mem_placesFrom.mp (hoffset ▸ hp)
    rw [length_append, length_cons] at hle
    rcases Nat.lt_or_ge front.length (regs c).length with hlt | hge
    · rw [nil_append, byPosition_of_lt hlt] at hplace
      simp at hplace
    · rw [nil_append, byPosition_of_le hge, Place.stack.injEq] at hplace
      omega

end Offsets

/-! ## The places of the code -/

def SysVCallingConv.regs : ArgClass → List PhysicalReg
  | .general => argRegsInt
  | .float => argRegsFloat

/-- The counters of a loop that counts the registers taken for each class and the words. -/
structure Counted (regs : ArgClass → List PhysicalReg) (before : List ArgClass)
    (general float words : ℕ) : Prop where
  general : general = min (before.count .general) (regs .general).length
  float : float = min (before.count .float) (regs .float).length
  words : words = onStack regs before

section Counted

variable {regs : ArgClass → List PhysicalReg} {before : List ArgClass} {general float words : ℕ}

theorem Counted.start : Counted regs [] 0 0 0 := ⟨by simp, by simp, onStack_nil.symm⟩

theorem Counted.general_reg (h : Counted regs before general float words)
    (hlt : general < (regs .general).length) :
    byClass regs before .general = .reg ((regs .general).getD general 0) ∧
      Counted regs (before ++ [.general]) (general + 1) float words := by
  obtain ⟨rfl, rfl, rfl⟩ := h
  have hcount : before.count .general < (regs .general).length := by omega
  refine ⟨?_, ⟨?_, by simp, (onStack_concat_of_lt hcount).symm⟩⟩
  · rw [byClass_of_lt hcount, Nat.min_eq_left hcount.le, getD_eq_getElem _ _ hcount]
  · rw [count_append, count_singleton_self]
    omega

theorem Counted.float_reg (h : Counted regs before general float words)
    (hlt : float < (regs .float).length) :
    byClass regs before .float = .reg ((regs .float).getD float 0) ∧
      Counted regs (before ++ [.float]) general (float + 1) words := by
  obtain ⟨rfl, rfl, rfl⟩ := h
  have hcount : before.count .float < (regs .float).length := by omega
  refine ⟨?_, ⟨by simp, ?_, (onStack_concat_of_lt hcount).symm⟩⟩
  · rw [byClass_of_lt hcount, Nat.min_eq_left hcount.le, getD_eq_getElem _ _ hcount]
  · rw [count_append, count_singleton_self]
    omega

theorem Counted.general_stack (h : Counted regs before general float words)
    (hge : ¬general < (regs .general).length) :
    byClass regs before .general = .stack (8 * words) ∧
      Counted regs (before ++ [.general]) general float (words + 1) := by
  obtain ⟨rfl, rfl, rfl⟩ := h
  have hcount : (regs .general).length ≤ before.count .general := by omega
  refine ⟨byClass_of_le hcount, ⟨?_, by simp, (onStack_concat_of_le hcount).symm⟩⟩
  rw [count_append, count_singleton_self]
  omega

theorem Counted.float_stack (h : Counted regs before general float words)
    (hge : ¬float < (regs .float).length) :
    byClass regs before .float = .stack (8 * words) ∧
      Counted regs (before ++ [.float]) general float (words + 1) := by
  obtain ⟨rfl, rfl, rfl⟩ := h
  have hcount : (regs .float).length ≤ before.count .float := by omega
  refine ⟨byClass_of_le hcount, ⟨by simp, ?_, (onStack_concat_of_le hcount).symm⟩⟩
  rw [count_append, count_singleton_self]
  omega

end Counted

variable (params : List Scalar)

variable {before : List ArgClass} {float general : ℕ}

theorem SysVCallingConv.argStorageFrom_places
    {slot : ℕ} (h : Counted regs before general float slot) :
    (argStorageFrom general float slot (params.map Scalar.type)).map placeOf
      = placesFrom (byClass regs) before (params.map Scalar.argClass) := by
  induction params generalizing before general float slot with
  | nil => rfl
  | cons param params ih =>
    have hfp := param.isFloatingPoint_type
    rw [map_cons, map_cons, argStorageFrom, placesFrom]
    cases hclass : param.argClass with
    | general =>
      have hnot : param.type.isFloatingPoint = false := by simpa [hclass] using hfp
      rw [if_neg (by simp [hnot])]
      by_cases hlt : general < argRegsInt.length
      · obtain ⟨hplace, hnext⟩ := h.general_reg hlt
        rw [if_pos ⟨by simp [hnot], hlt⟩, map_cons, ih hnext, hplace]
        rfl
      · obtain ⟨hplace, hnext⟩ := h.general_stack hlt
        rw [if_neg fun h ↦ hlt h.2, map_cons, ih hnext, hplace]
        rfl
    | float =>
      have hyes : param.type.isFloatingPoint = true := hfp.mpr hclass
      by_cases hlt : float < argRegsFloat.length
      · obtain ⟨hplace, hnext⟩ := h.float_reg hlt
        rw [if_pos ⟨hyes, hlt⟩, map_cons, ih hnext, hplace]
        rfl
      · obtain ⟨hplace, hnext⟩ := h.float_stack hlt
        rw [if_neg fun h ↦ hlt h.2, if_neg fun h ↦ h.1 hyes, map_cons, ih hnext, hplace]
        rfl

theorem SysVCallingConv.getArgStorage_places :
    (getArgStorage (functionType params)).map placeOf
      = places (byClass regs) (params.map Scalar.argClass) :=
  argStorageFrom_places params .start

theorem AAPCSCallingConv.argStorageFrom_places {variant : Variant} {type : FunctionType}
    (htype : type.variadic = false) (params : List Scalar) (i : ℕ)
    {words : ℕ} (h : Counted AAPCS64.regs before general float words) :
    (argStorageFrom variant type i general float (8 * words) (params.map Scalar.type)).map placeOf
      = placesFrom (byClass AAPCS64.regs) before (params.map Scalar.argClass) := by
  induction params generalizing before i general float words with
  | nil => rfl
  | cons param params ih =>
    have hfp := param.isFloatingPoint_type
    have hvar : ¬(variant = .APPLE ∧ type.variadic = true ∧ i ≥ type.firstVariadicIndex) := by
      simp [htype]
    rw [map_cons, map_cons, argStorageFrom, placesFrom, if_neg hvar]
    cases hclass : param.argClass with
    | general =>
      have hnot : param.type.isFloatingPoint = false := by simpa [hclass] using hfp
      rw [if_neg (by simp [hnot])]
      by_cases hlt : general < argRegsInt.length
      · obtain ⟨hplace, hnext⟩ := h.general_reg hlt
        rw [if_pos ⟨by simp [hnot], hlt⟩, map_cons, ih (i + 1) hnext, hplace]
        rfl
      · obtain ⟨hplace, hnext⟩ := h.general_stack hlt
        rw [if_neg fun h ↦ hlt h.2, map_cons, hplace, ← ih (i + 1) hnext]
        rfl
    | float =>
      have hyes : param.type.isFloatingPoint = true := hfp.mpr hclass
      by_cases hlt : float < argRegsFp.length
      · obtain ⟨hplace, hnext⟩ := h.float_reg hlt
        rw [if_pos ⟨hyes, hlt⟩, map_cons, ih (i + 1) hnext, hplace]
        rfl
      · obtain ⟨hplace, hnext⟩ := h.float_stack hlt
        rw [if_neg fun h ↦ hlt h.2, if_neg fun h ↦ h.1 hyes, map_cons, hplace, ← ih (i + 1) hnext]
        rfl

theorem AAPCSCallingConv.getArgStorage_places (variant : Variant) (params : List Scalar) :
    (getArgStorage variant (functionType params)).map placeOf
      = places (byClass AAPCS64.regs) (params.map Scalar.argClass) :=
  argStorageFrom_places rfl params 0 .start

theorem MSABICallingConv.argReg_eq (param : Scalar) (i : ℕ) :
    argReg param.type i = (MicrosoftABI.regs param.argClass).getD i 0 := by
  have hfp := param.isFloatingPoint_type
  rw [argReg]
  cases hclass : param.argClass with
  | general => rw [if_neg (by simp [hfp, hclass])]; rfl
  | float => rw [if_pos (hfp.mpr hclass)]; rfl

theorem MSABICallingConv.getArgStorage_places :
    (getArgStorage (functionType params)).map placeOf
      = places (byPosition MicrosoftABI.regs) (params.map Scalar.argClass) := by
  have hregs : ∀ c, (MicrosoftABI.regs c).length = argRegsInt.length := by
    rintro (_ | _) <;> rfl
  have hfrom : ∀ (before : List ArgClass) (params : List Scalar),
      ((params.map Scalar.type).mapIdx fun i param ↦
        if before.length + i < argRegsInt.length then .inReg (argReg param (before.length + i))
        else .onStack 0 (8 * (before.length + i))).map placeOf
      = placesFrom (byPosition MicrosoftABI.regs) before (params.map Scalar.argClass) := by
    intro before params
    induction params generalizing before with
    | nil => rfl
    | cons param params ih =>
      have hrest := ih (before ++ [param.argClass])
      rw [length_append, length_singleton] at hrest
      rw [map_cons, mapIdx_cons, map_cons, map_cons, placesFrom, ← hrest, Nat.add_zero]
      congr 1
      · by_cases hlt : before.length < argRegsInt.length
        · have hlt' : before.length < (MicrosoftABI.regs param.argClass).length := hregs _ ▸ hlt
          rw [if_pos hlt, placeOf, argReg_eq, byPosition_of_lt hlt', getD_eq_getElem _ _ hlt']
        · rw [if_neg hlt, placeOf, byPosition_of_le (hregs _ ▸ not_lt.mp hlt)]
      · simp only [Nat.add_assoc, Nat.add_comm 1]
  have h := hfrom [] params
  simp only [length_nil, Nat.zero_add] at h
  exact h

/-! ## System V has a register too many -/

section SysV

variable {classes before : List ArgClass}

theorem length_classes (classes : List ArgClass) :
    classes.length = classes.count .general + classes.count .float := by
  induction classes with
  | nil => rfl
  | cons c classes ih =>
    cases c <;> simp <;> omega

/-- The ninth floating-point number of a list. -/
theorem exists_ninth (h : 8 < classes.count .float) :
    ∃ front back, classes = front ++ .float :: back ∧ front.count .float = 8 := by
  induction classes using List.reverseRecOn with
  | nil => simp at h
  | append_singleton front c ih =>
    rw [count_append] at h
    rcases Nat.lt_or_ge 8 (front.count .float) with hlt | hge
    · obtain ⟨front', back, rfl, hcount⟩ := ih hlt
      exact ⟨front', back ++ [c], by simp, hcount⟩
    · cases c with
      | general => simp at h; omega
      | float =>
        rw [count_singleton_self] at h
        exact ⟨front, [], rfl, by omega⟩

theorem byClass_sysV (h : before.count .float ≤ 8) (c : ArgClass)
    (hc : c = .float → before.count .float < 8) :
    byClass SysVCallingConv.regs before c = byClass SysVABI.regs before c := by
  have hwords : onStack SysVCallingConv.regs before = onStack SysVABI.regs before := by
    have hfloat : overflow SysVCallingConv.regs before .float
        = overflow SysVABI.regs before .float := by
      have hcode : (SysVCallingConv.regs .float).length = 9 := rfl
      have habi : (SysVABI.regs .float).length = 8 := rfl
      rw [overflow, overflow]
      omega
    rw [onStack_eq, onStack_eq, hfloat]
    rfl
  cases c with
  | general =>
    rw [byClass, byClass, hwords]
    rfl
  | float =>
    have hcount := hc rfl
    have hcode : before.count .float < (SysVCallingConv.regs .float).length := by
      rw [show (SysVCallingConv.regs .float).length = 9 from rfl]
      omega
    have habi : before.count .float < (SysVABI.regs .float).length := hcount
    rw [byClass_of_lt hcode, byClass_of_lt habi]
    have hstarts : SysVCallingConv.regs .float = SysVABI.regs .float ++ [X8664Register.XMM0 + 8] :=
      by decide
    congr 1
    simp only [hstarts]
    exact getElem_append_left hcount

/-- The places agree up to the eighth floating-point number, and the ninth is in `XMM8`. -/
theorem places_sysV_iff :
    (places (byClass SysVCallingConv.regs) classes).map cutPlace
        = places (byClass SysVABI.regs) classes
      ↔ classes.count .float ≤ 8 ∧ onStack SysVABI.regs classes ≤ 2 ^ 29 := by
  have hsame : classes.count .float ≤ 8 →
      places (byClass SysVCallingConv.regs) classes = places (byClass SysVABI.regs) classes := by
    intro hcount
    refine placesFrom_congr fun front c back hclasses ↦ ?_
    rw [hclasses, count_append, count_cons] at hcount
    refine byClass_sysV (by simp only [nil_append]; omega) c ?_
    rintro rfl
    simp only [nil_append, beq_self_eq_true, if_true] at hcount ⊢
    omega
  constructor
  · intro heq
    have hcount : classes.count .float ≤ 8 := by
      by_contra hlt
      obtain ⟨front, back, rfl, hfront⟩ := exists_ninth (not_le.mp hlt)
      rw [places, map_placesFrom] at heq
      have hplace := placesFrom_inj heq
      have hcode : front.count .float < (SysVCallingConv.regs .float).length := by
        rw [hfront]
        decide
      have habi : (SysVABI.regs .float).length ≤ front.count .float := hfront.ge
      rw [nil_append, byClass_of_lt hcode, byClass_of_le habi] at hplace
      simp [cutPlace] at hplace
    rw [hsame hcount] at heq
    exact ⟨hcount, map_cutPlace_byClass_iff.mp heq⟩
  · rintro ⟨hcount, hwords⟩
    rw [hsame hcount]
    exact map_cutPlace_byClass_iff.mpr hwords

end SysV

/-! ## Each convention against its rules -/

section Conformity

variable {Returns : List ArgStorage → Prop} {rules code : List (Place PhysicalReg)}
  {storage : List ArgStorage} {params : List Scalar}

/-- The rules give no two parameters one place, so that the places need only agree. -/
theorem conforms_iff
    (hreturns : ∀ r, Returns r ↔ params.length < 2 ^ 32 ∧ r = storage.map cutStorage)
    (hcode : storage.map placeOf = code) (hnodup : rules.Nodup) :
    Conforms Returns rules ↔ params.length < 2 ^ 32 ∧ code.map cutPlace = rules := by
  have hplaces : (storage.map cutStorage).map placeOf = code.map cutPlace := by
    rw [← hcode, map_map, map_map]
    exact map_congr_left fun s _ ↦ placeOf_cutStorage s
  constructor
  · rintro ⟨r, hr, heq, -⟩
    obtain ⟨hlen, rfl⟩ := (hreturns r).mp hr
    exact ⟨hlen, hplaces.symm.trans heq⟩
  · rintro ⟨hlen, heq⟩
    exact ⟨_, (hreturns _).mpr ⟨hlen, rfl⟩, hplaces.trans heq, by rwa [hplaces, heq]⟩

theorem length_functionType (params : List Scalar) :
    (functionType params).params.length = params.length := by
  simp [functionType]

theorem conforms_sysV_iff (params : List Scalar) :
    Conforms (SysVCallingConv.GetArgStorage (functionType params))
        (places (byClass SysVABI.regs) (params.map Scalar.argClass))
      ↔ (params.map Scalar.argClass).count .float ≤ 8 ∧
        (params.map Scalar.argClass).count .general - 6 ≤ 2 ^ 29 := by
  have hreturns : ∀ r, SysVCallingConv.GetArgStorage (functionType params) r ↔
      params.length < 2 ^ 32 ∧
        r = (SysVCallingConv.getArgStorage (functionType params)).map cutStorage := by
    intro r
    rw [SysVCallingConv.getArgStorage_iff, length_functionType]
  have hnodup := nodup_byClass SysVABI.regs (by decide) (by decide) (params.map Scalar.argClass)
  have hlength := length_classes (params.map Scalar.argClass)
  have hgeneral : (SysVABI.regs .general).length = 6 := rfl
  have hfloat : (SysVABI.regs .float).length = 8 := rfl
  rw [length_map] at hlength
  rw [conforms_iff hreturns (SysVCallingConv.getArgStorage_places params) hnodup, places_sysV_iff,
    onStack_eq, overflow, overflow]
  omega

theorem conforms_microsoft_iff (params : List Scalar) :
    Conforms (MSABICallingConv.GetArgStorage (functionType params))
        (places (byPosition MicrosoftABI.regs) (params.map Scalar.argClass))
      ↔ params.length ≤ 2 ^ 29 := by
  have hreturns : ∀ r, MSABICallingConv.GetArgStorage (functionType params) r ↔
      params.length < 2 ^ 32 ∧
        r = (MSABICallingConv.getArgStorage (functionType params)).map cutStorage := by
    intro r
    rw [MSABICallingConv.getArgStorage_iff, length_functionType]
  have hnodup :=
    nodup_byPosition MicrosoftABI.regs (by decide) (by decide) (params.map Scalar.argClass)
  rw [conforms_iff hreturns (MSABICallingConv.getArgStorage_places params) hnodup,
    map_cutPlace_byPosition_iff (by decide), length_map]
  omega

theorem conforms_aapcs_iff (variant : AAPCSCallingConv.Variant) (params : List Scalar) :
    Conforms (AAPCSCallingConv.GetArgStorage variant (functionType params))
        (places (byClass AAPCS64.regs) (params.map Scalar.argClass))
      ↔ ((params.map Scalar.argClass).count .general - 8)
        + ((params.map Scalar.argClass).count .float - 8) ≤ 2 ^ 29 := by
  have hreturns : ∀ r, AAPCSCallingConv.GetArgStorage variant (functionType params) r ↔
      params.length < 2 ^ 32 ∧
        r = (AAPCSCallingConv.getArgStorage variant (functionType params)).map cutStorage := by
    intro r
    rw [AAPCSCallingConv.getArgStorage_iff, length_functionType]
  have hnodup := nodup_byClass AAPCS64.regs (by decide) (by decide) (params.map Scalar.argClass)
  have hlength := length_classes (params.map Scalar.argClass)
  have hgeneral : (AAPCS64.regs .general).length = 8 := rfl
  have hfloat : (AAPCS64.regs .float).length = 8 := rfl
  rw [length_map] at hlength
  rw [conforms_iff hreturns (AAPCSCallingConv.getArgStorage_places variant params) hnodup,
    map_cutPlace_byClass_iff, onStack_eq, overflow, overflow]
  omega

/-- **Every parameter is where the rules put it**, in each convention as long as its offsets fit,
and in the System V convention for at most eight floating-point numbers. -/
theorem getArgStorage_conforms_iff (params : List Scalar) :
    (Conforms (SysVCallingConv.GetArgStorage (functionType params))
        (places (byClass SysVABI.regs) (params.map Scalar.argClass))
      ↔ (params.map Scalar.argClass).count .float ≤ 8 ∧
        (params.map Scalar.argClass).count .general - 6 ≤ 2 ^ 29) ∧
    (Conforms (MSABICallingConv.GetArgStorage (functionType params))
        (places (byPosition MicrosoftABI.regs) (params.map Scalar.argClass))
      ↔ params.length ≤ 2 ^ 29) ∧
    ∀ variant, Conforms (AAPCSCallingConv.GetArgStorage variant (functionType params))
        (places (byClass AAPCS64.regs) (params.map Scalar.argClass))
      ↔ ((params.map Scalar.argClass).count .general - 8)
        + ((params.map Scalar.argClass).count .float - 8) ≤ 2 ^ 29 :=
  ⟨conforms_sysV_iff params, conforms_microsoft_iff params,
    fun variant ↦ conforms_aapcs_iff variant params⟩

end Conformity

/-- Nine numbers of the type `f64`: the last one is passed in `XMM8`. -/
theorem not_conforms_nine :
    ¬Conforms (SysVCallingConv.GetArgStorage (functionType (replicate 9 ⟨.F64, by decide⟩)))
      (places (byClass SysVABI.regs) (replicate 9 .float)) := by
  rintro ⟨r, hr, hplaces, -⟩
  obtain ⟨-, rfl⟩ := SysVCallingConv.getArgStorage_iff.mp hr
  exact absurd hplaces (by decide)

end Banjo.Target
