import Banjo.Lib.Loops
import Banjo.Target.X8664.CallingConvs
import Banjo.Target.AArch64.AAPCSCallingConv

/-!
# The loops that place arguments

`get_arg_storage` of the three calling conventions as it runs, with counters and offsets of 32 bits.
For fewer than `2 ^ 32` parameters the loop ends with the storage of `getArgStorage`, its offsets
cut to 32 bits; for more it never ends.
-/

open List

namespace Banjo.Target

open MCode Loops
open SSA (SSAType)

variable {κ : Type} {place : ℕ → κ → SSAType → ArgStorage × κ} {params : List SSAType}
  {r : List ArgStorage}

/-- A turn: `place` gives the storage of a parameter from its index and the counters. The entries of
`result` are written in order. -/
def argTurn (place : ℕ → κ → SSAType → ArgStorage × κ) (params : List SSAType) :
    ℕ × κ × List ArgStorage → (ℕ × κ × List ArgStorage) ⊕ List ArgStorage
  | (i, counters, result) =>
    match params[i]? with
    | some param =>
      .inl (next i, (place i counters param).2, result ++ [(place i counters param).1])
    | none => .inr result

def placeAll (place : ℕ → κ → SSAType → ArgStorage × κ) (i : ℕ) (counters : κ) :
    List SSAType → List ArgStorage
  | [] => []
  | param :: params =>
    (place i counters param).1 :: placeAll place (i + 1) (place i counters param).2 params

theorem ends_argTurn_from (done rest : List SSAType) (counters : κ) (result : List ArgStorage)
    (hlen : (done ++ rest).length < 2 ^ 32) :
    Ends (argTurn place (done ++ rest)) (done.length, counters, result) r
      ↔ r = result ++ placeAll place done.length counters rest := by
  induction rest generalizing done counters result with
  | nil => exact ends_iff_of_inr (by simp [argTurn, placeAll])
  | cons param rest ih =>
    have hread : (done ++ param :: rest)[done.length]? = some param := by simp
    rw [length_append, length_cons] at hlen
    have hturn : argTurn place (done ++ param :: rest) (done.length, counters, result)
        = .inl ((done ++ [param]).length, (place done.length counters param).2,
          result ++ [(place done.length counters param).1]) := by
      simp only [argTurn, hread, next_eq (show done.length + 1 < 2 ^ 32 by omega),
        length_append, length_singleton]
    have hrest := ih (done ++ [param]) (place done.length counters param).2
      (result ++ [(place done.length counters param).1])
      (by simpa [Nat.add_assoc, Nat.add_comm 1] using hlen)
    rw [append_assoc, singleton_append] at hrest
    rw [ends_iff_of_inl hturn, hrest, placeAll, length_append, length_singleton,
      append_assoc, singleton_append]

theorem ends_argTurn_iff {counters : κ} (hlen : params.length < 2 ^ 32) :
    Ends (argTurn place params) (0, counters, []) r ↔ r = placeAll place 0 counters params :=
  ends_argTurn_from [] params counters [] hlen

theorem not_ends_argTurn {counters : κ} (hlen : 2 ^ 32 ≤ params.length) :
    ¬Ends (argTurn place params) (0, counters, []) r := by
  refine not_ends_of_closed (I := fun s ↦ s.1 < 2 ^ 32) (fun s hs ↦ ?_) (Nat.two_pow_pos 32)
  obtain ⟨i, counters, result⟩ := s
  have hread : params[i]? = some params[i] := getElem?_eq_getElem (lt_of_lt_of_le hs hlen)
  refine ⟨(next i, (place i counters params[i]).2, result ++ [(place i counters params[i]).1]), ?_,
    next_lt i⟩
  simp only [argTurn, hread]

/-- A storage with its offset in 32 bits. -/
def cutStorage : ArgStorage → ArgStorage
  | .inReg reg => .inReg reg
  | .onStack argSlotIndex stackOffset => .onStack argSlotIndex (stackOffset % 2 ^ 32)

/-! ## System V -/

namespace SysVCallingConv

structure Counters where
  general : ℕ := 0
  float : ℕ := 0
  slot : ℕ := 0

/-- The body of the loop. -/
def placeArg (_ : ℕ) (counters : Counters) (param : SSAType) : ArgStorage × Counters :=
  if param.isFloatingPoint ∧ counters.float < argRegsFloat.length then
    (.inReg (argRegsFloat.getD counters.float 0), { counters with float := next counters.float })
  else if ¬param.isFloatingPoint ∧ counters.general < argRegsInt.length then
    (.inReg (argRegsInt.getD counters.general 0),
      { counters with general := next counters.general })
  else
    (.onStack counters.slot (8 * counters.slot % 2 ^ 32),
      { counters with slot := next counters.slot })

/-- `get_arg_storage` ends and returns `r`. -/
def GetArgStorage (type : FunctionType) (r : List ArgStorage) : Prop :=
  Ends (argTurn placeArg type.params) (0, {}, []) r

theorem placeAll_eq (i general float slot : ℕ) (hslot : slot + params.length < 2 ^ 32) :
    placeAll placeArg i ⟨general, float, slot⟩ params
      = (argStorageFrom general float slot params).map cutStorage := by
  induction params generalizing i general float slot with
  | nil => rfl
  | cons param params ih =>
    rw [length_cons] at hslot
    have hfloat : argRegsFloat.length = 9 := rfl
    have hint : argRegsInt.length = 6 := rfl
    by_cases hfp : param.isFloatingPoint ∧ float < argRegsFloat.length
    · have hplace : placeArg i ⟨general, float, slot⟩ param
          = (.inReg (argRegsFloat.getD float 0), ⟨general, float + 1, slot⟩) := by
        rw [placeArg, if_pos hfp, next_eq (show float + 1 < 2 ^ 32 by omega)]
      rw [placeAll, hplace, argStorageFrom, if_pos hfp, map_cons,
        ih (i + 1) general (float + 1) slot (by omega)]
      rfl
    · by_cases hgp : ¬param.isFloatingPoint ∧ general < argRegsInt.length
      · have hplace : placeArg i ⟨general, float, slot⟩ param
            = (.inReg (argRegsInt.getD general 0), ⟨general + 1, float, slot⟩) := by
          rw [placeArg, if_neg hfp, if_pos hgp, next_eq (show general + 1 < 2 ^ 32 by omega)]
        rw [placeAll, hplace, argStorageFrom, if_neg hfp, if_pos hgp, map_cons,
          ih (i + 1) (general + 1) float slot (by omega)]
        rfl
      · have hplace : placeArg i ⟨general, float, slot⟩ param
            = (.onStack slot (8 * slot % 2 ^ 32), ⟨general, float, slot + 1⟩) := by
          rw [placeArg, if_neg hfp, if_neg hgp, next_eq (show slot + 1 < 2 ^ 32 by omega)]
        rw [placeAll, hplace, argStorageFrom, if_neg hfp, if_neg hgp, map_cons,
          ih (i + 1) general float (slot + 1) (by omega)]
        rfl

theorem getArgStorage_iff {type : FunctionType} :
    GetArgStorage type r
      ↔ type.params.length < 2 ^ 32 ∧ r = (getArgStorage type).map cutStorage := by
  rcases Nat.lt_or_ge type.params.length (2 ^ 32) with hlen | hlen
  · rw [GetArgStorage, ends_argTurn_iff hlen, placeAll_eq 0 0 0 0 (by omega)]
    simp only [hlen, true_and, getArgStorage]
  · simp only [GetArgStorage, not_ends_argTurn hlen, not_lt.mpr hlen, false_and]

end SysVCallingConv

/-! ## Microsoft x64 -/

namespace MSABICallingConv

/-- The body of the loop. -/
def placeArg (i : ℕ) (_ : Unit) (param : SSAType) : ArgStorage × Unit :=
  if i < argRegsInt.length then (.inReg (argReg param i), ())
  else (.onStack 0 (8 * i % 2 ^ 32), ())

/-- `get_arg_storage` ends and returns `r`. -/
def GetArgStorage (type : FunctionType) (r : List ArgStorage) : Prop :=
  Ends (argTurn placeArg type.params) (0, (), []) r

theorem placeAll_eq (i : ℕ) :
    placeAll placeArg i () params = (params.mapIdx fun j param ↦
      if i + j < argRegsInt.length then .inReg (argReg param (i + j))
      else .onStack 0 (8 * (i + j))).map cutStorage := by
  induction params generalizing i with
  | nil => rfl
  | cons param params ih =>
    rw [placeAll, ih, mapIdx_cons, map_cons]
    congr 1
    · rw [Nat.add_zero]
      by_cases hi : i < argRegsInt.length
      · rw [placeArg, if_pos hi, if_pos hi]
        rfl
      · rw [placeArg, if_neg hi, if_neg hi]
        rfl
    · simp only [Nat.add_assoc, Nat.add_comm 1]

theorem getArgStorage_iff {type : FunctionType} :
    GetArgStorage type r
      ↔ type.params.length < 2 ^ 32 ∧ r = (getArgStorage type).map cutStorage := by
  rcases Nat.lt_or_ge type.params.length (2 ^ 32) with hlen | hlen
  · rw [GetArgStorage, ends_argTurn_iff hlen, placeAll_eq 0]
    simp only [hlen, true_and, getArgStorage, Nat.zero_add]
  · simp only [GetArgStorage, not_ends_argTurn hlen, not_lt.mpr hlen, false_and]

end MSABICallingConv

/-! ## AAPCS -/

namespace AAPCSCallingConv

variable {variant : Variant} {type : FunctionType}

structure Counters where
  general : ℕ := 0
  float : ℕ := 0
  stackOffset : ℕ := 0

/-- The body of the loop. -/
def placeArg (variant : Variant) (type : FunctionType) (i : ℕ) (counters : Counters)
    (param : SSAType) : ArgStorage × Counters :=
  if variant = .APPLE ∧ type.variadic ∧ i ≥ type.firstVariadicIndex then
    (.onStack 0 counters.stackOffset,
      { counters with stackOffset := (counters.stackOffset + 8) % 2 ^ 32 })
  else if param.isFloatingPoint ∧ counters.float < argRegsFp.length then
    (.inReg (argRegsFp.getD counters.float 0), { counters with float := next counters.float })
  else if ¬param.isFloatingPoint ∧ counters.general < argRegsInt.length then
    (.inReg (argRegsInt.getD counters.general 0),
      { counters with general := next counters.general })
  else
    (.onStack 0 counters.stackOffset,
      { counters with stackOffset := (counters.stackOffset + 8) % 2 ^ 32 })

/-- `get_arg_storage` ends and returns `r`. -/
def GetArgStorage (variant : Variant) (type : FunctionType) (r : List ArgStorage) : Prop :=
  Ends (argTurn (placeArg variant type) type.params) (0, {}, []) r

theorem placeAll_eq (i general float stackOffset : ℕ) :
    placeAll (placeArg variant type) i ⟨general, float, stackOffset % 2 ^ 32⟩ params
      = (argStorageFrom variant type i general float stackOffset params).map cutStorage := by
  induction params generalizing i general float stackOffset with
  | nil => rfl
  | cons param params ih =>
    have hfloat : argRegsFp.length = 8 := rfl
    have hint : argRegsInt.length = 8 := rfl
    have hoffset : (stackOffset % 2 ^ 32 + 8) % 2 ^ 32 = (stackOffset + 8) % 2 ^ 32 :=
      Nat.mod_add_mod stackOffset (2 ^ 32) 8
    by_cases hvar : variant = .APPLE ∧ type.variadic ∧ i ≥ type.firstVariadicIndex
    · have hplace : placeArg variant type i ⟨general, float, stackOffset % 2 ^ 32⟩ param
          = (.onStack 0 (stackOffset % 2 ^ 32), ⟨general, float, (stackOffset + 8) % 2 ^ 32⟩) := by
        rw [placeArg, if_pos hvar, hoffset]
      rw [placeAll, hplace, argStorageFrom, if_pos hvar, map_cons, ih]
      rfl
    · by_cases hfp : param.isFloatingPoint ∧ float < argRegsFp.length
      · have hplace : placeArg variant type i ⟨general, float, stackOffset % 2 ^ 32⟩ param
            = (.inReg (argRegsFp.getD float 0), ⟨general, float + 1, stackOffset % 2 ^ 32⟩) := by
          rw [placeArg, if_neg hvar, if_pos hfp, next_eq (show float + 1 < 2 ^ 32 by omega)]
        rw [placeAll, hplace, argStorageFrom, if_neg hvar, if_pos hfp, map_cons, ih]
        rfl
      · by_cases hgp : ¬param.isFloatingPoint ∧ general < argRegsInt.length
        · have hplace : placeArg variant type i ⟨general, float, stackOffset % 2 ^ 32⟩ param
              = (.inReg (argRegsInt.getD general 0),
                ⟨general + 1, float, stackOffset % 2 ^ 32⟩) := by
            rw [placeArg, if_neg hvar, if_neg hfp, if_pos hgp,
              next_eq (show general + 1 < 2 ^ 32 by omega)]
          rw [placeAll, hplace, argStorageFrom, if_neg hvar, if_neg hfp, if_pos hgp, map_cons, ih]
          rfl
        · have hplace : placeArg variant type i ⟨general, float, stackOffset % 2 ^ 32⟩ param
              = (.onStack 0 (stackOffset % 2 ^ 32),
                ⟨general, float, (stackOffset + 8) % 2 ^ 32⟩) := by
            rw [placeArg, if_neg hvar, if_neg hfp, if_neg hgp, hoffset]
          rw [placeAll, hplace, argStorageFrom, if_neg hvar, if_neg hfp, if_neg hgp, map_cons, ih]
          rfl

theorem getArgStorage_iff :
    GetArgStorage variant type r ↔ type.params.length < 2 ^ 32 ∧
      r = (getArgStorage variant type).map cutStorage := by
  rcases Nat.lt_or_ge type.params.length (2 ^ 32) with hlen | hlen
  · have hall : placeAll (placeArg variant type) 0 ⟨0, 0, 0 % 2 ^ 32⟩ type.params
        = (argStorageFrom variant type 0 0 0 0 type.params).map cutStorage := placeAll_eq 0 0 0 0
    rw [Nat.zero_mod] at hall
    rw [GetArgStorage, ends_argTurn_iff hlen, hall]
    simp only [hlen, true_and, getArgStorage]
  · simp only [GetArgStorage, not_ends_argTurn hlen, not_lt.mpr hlen, false_and]

end AAPCSCallingConv

end Banjo.Target
