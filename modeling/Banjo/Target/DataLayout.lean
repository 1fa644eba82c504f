import Banjo.SSA.Instruction
import Mathlib.Tactic.IntervalCases

/-!
# Data layouts

The sizes of types, and how an argument of a type is passed: in one register, in parts, or by a
pointer to a copy.
-/

namespace Banjo.Target

open SSA (Primitive)

/-- An `ssa::Type`, with the members of its structure. -/
inductive LayoutType where
  | primitive (primitive : Primitive) (arrayLength : ℕ := 1)
  | struct_ (members : List LayoutType) (isUnion : Bool := false) (arrayLength : ℕ := 1)

namespace LayoutType

def arrayLength : LayoutType → ℕ
  | primitive _ arrayLength => arrayLength
  | struct_ _ _ arrayLength => arrayLength

instance : Coe Primitive LayoutType := ⟨fun p ↦ primitive p⟩

/-- `ssa::Type::sized`. Larger sizes are unreachable. -/
def sized (size : ℕ) : LayoutType :=
  match size with
  | 0 => Primitive.VOID
  | 1 => Primitive.U8
  | 2 => Primitive.U16
  | 3 | 4 => Primitive.U32
  | _ => Primitive.U64

end LayoutType

structure LayoutParams where
  registerSize : ℕ
  usizeType : Primitive
  maxRegsPerArg : ℕ
  supportsStructsInRegs : Bool

inductive Platform where
  | X86_64 (isWindows : Bool)
  | AARCH64
  | WASM
  deriving DecidableEq, Repr

def Platform.params : Platform → LayoutParams
  | X86_64 isWindows => ⟨8, .U64, if isWindows then 1 else 2, true⟩
  | AARCH64 => ⟨8, .U64, 2, true⟩
  | WASM => ⟨8, .U32, 1, false⟩

/-- `utils::align`. -/
def alignTo (value boundary : ℕ) : ℕ :=
  if boundary = 0 then value
  else if value % boundary = 0 then value
  else value + boundary - value % boundary

variable (platform : Platform)

/-- The size of a primitive other than an address. -/
def scalarSize : Primitive → ℕ
  | .VOID => 0
  | .U8 | .I8 => 1
  | .U16 | .I16 => 2
  | .U32 | .I32 | .F32 => 4
  | .U64 | .I64 | .F64 => 8
  | .ADDR => 0

def primitiveSize : Primitive → ℕ
  | .ADDR => scalarSize platform.params.usizeType
  | p => scalarSize p

mutual

def getAlignment : LayoutType → ℕ
  | .primitive p _ => primitiveSize platform p
  | .struct_ members _ _ => if members.isEmpty then 1 else maxAlignment members

def maxAlignment : List LayoutType → ℕ
  | [] => 0
  | member :: members => max (getAlignment member) (maxAlignment members)

end

mutual

def getSize : LayoutType → ℕ
  | .primitive p arrayLength => primitiveSize platform p * arrayLength
  | .struct_ members isUnion arrayLength =>
    let size := if isUnion then unionSize members else structSize 0 members
    let alignment := if members.isEmpty then 1 else maxAlignment platform members
    alignTo size alignment * arrayLength

def structSize (size : ℕ) : List LayoutType → ℕ
  | [] => size
  | member :: members =>
    structSize (alignTo size (getAlignment platform member) + getSize member) members

def unionSize : List LayoutType → ℕ
  | [] => 0
  | member :: members => max (getSize member) (unionSize members)

end

/-- `is_single_member`, of the members of a structure. -/
def isSingleMember : List LayoutType → Bool
  | [.primitive _ arrayLength] => decide (arrayLength ≤ 1)
  | [.struct_ members _ arrayLength] => decide (arrayLength ≤ 1) && isSingleMember members
  | _ => false

def fitsInRegister (type : LayoutType) : Bool :=
  if platform.params.supportsStructsInRegs then
    decide (getSize platform type ≤ platform.params.registerSize)
  else if type.arrayLength ≠ 1 then false
  else
    match type with
    | .struct_ members _ _ => isSingleMember members
    | .primitive _ _ => decide (getSize platform type ≤ platform.params.registerSize)

structure ArgPassMethod where
  viaPointer : Bool
  numArgs : ℕ
  lastArgType : LayoutType

/-- The argument is passed by a pointer to it. -/
def ArgPassMethod.pointer : ArgPassMethod := ⟨true, 1, platform.params.usizeType⟩

/-- The choice by size. -/
def getArgPassMethodBySize (type : LayoutType) : ArgPassMethod :=
  let size := getSize platform type
  let registerSize := platform.params.registerSize
  let numArgs := max ((size + registerSize - 1) / registerSize) 1
  if numArgs = 1 then ⟨false, 1, type⟩
  else if numArgs ≤ platform.params.maxRegsPerArg then
    let lastArgSize := if size % registerSize = 0 then registerSize else size % registerSize
    ⟨false, numArgs, .sized lastArgSize⟩
  else .pointer platform

def getArgPassMethod (type : LayoutType) : ArgPassMethod :=
  if platform.params.supportsStructsInRegs then getArgPassMethodBySize platform type
  else if type.arrayLength ≠ 1 then .pointer platform
  else
    match type with
    | .struct_ members _ _ =>
      if isSingleMember members then ⟨false, 1, type⟩ else .pointer platform
    | .primitive _ _ => getArgPassMethodBySize platform type

/-! ## The three ways -/

/-- Is the argument passed in parts? -/
def Splits (type : LayoutType) : Prop :=
  platform.params.maxRegsPerArg = 2 ∧ 8 < getSize platform type ∧ getSize platform type ≤ 16

instance (type : LayoutType) : Decidable (Splits platform type) :=
  inferInstanceAs (Decidable (_ ∧ _ ∧ _))

/-- The bytes behind the first register. -/
def tailSize (type : LayoutType) : ℕ := getSize platform type - 8

theorem registerSize_eq : platform.params.registerSize = 8 := by
  cases platform <;> rfl

theorem maxRegsPerArg_eq_one_or_two :
    platform.params.maxRegsPerArg = 1 ∨ platform.params.maxRegsPerArg = 2 := by
  cases platform with
  | X86_64 isWindows => cases isWindows <;> simp [Platform.params]
  | AARCH64 => exact Or.inr rfl
  | WASM => exact Or.inl rfl

theorem getArgPassMethodBySize_eq (type : LayoutType) :
    getArgPassMethodBySize platform type =
      if getSize platform type ≤ 8 then ⟨false, 1, type⟩
      else if Splits platform type then ⟨false, 2, .sized (tailSize platform type)⟩
      else .pointer platform := by
  have hmax := maxRegsPerArg_eq_one_or_two platform
  unfold getArgPassMethodBySize tailSize
  rw [registerSize_eq]
  dsimp only
  by_cases hsmall : getSize platform type ≤ 8
  · rw [if_pos (by omega), if_pos hsmall]
  · rw [if_neg (by omega), if_neg hsmall]
    by_cases hsplit : Splits platform type
    · obtain ⟨hregs, -, hhigh⟩ := id hsplit
      have hlast : (if getSize platform type % 8 = 0 then 8 else getSize platform type % 8) =
          getSize platform type - 8 := by
        split_ifs <;> omega
      have hnum : max ((getSize platform type + 8 - 1) / 8) 1 = 2 := by omega
      rw [if_pos (by omega), if_pos hsplit, hlast, hnum]
    · have hpointer : ¬(platform.params.maxRegsPerArg = 2 ∧ getSize platform type ≤ 16) :=
        fun h ↦ hsplit ⟨h.1, by omega, h.2⟩
      rw [if_neg (by omega), if_neg hsplit]

/-- A type is passed as a value when it fits into a register, else in two parts or by a pointer. -/
theorem getArgPassMethod_eq (type : LayoutType) :
    getArgPassMethod platform type =
      if fitsInRegister platform type then ⟨false, 1, type⟩
      else if Splits platform type then ⟨false, 2, .sized (tailSize platform type)⟩
      else .pointer platform := by
  unfold getArgPassMethod fitsInRegister
  cases hsupports : platform.params.supportsStructsInRegs with
  | true =>
    simp only [if_true, registerSize_eq, getArgPassMethodBySize_eq, decide_eq_true_eq]
  | false =>
    have hsplits : ¬Splits platform type := by
      cases platform <;> simp_all [Platform.params, Splits]
    simp only [Bool.false_eq_true, if_false, if_neg hsplits]
    by_cases harray : type.arrayLength = 1
    · cases type with
      | primitive p arrayLength =>
        simp only [harray, ne_eq, not_true_eq_false, if_false, getArgPassMethodBySize_eq,
          registerSize_eq, decide_eq_true_eq, if_neg hsplits]
      | struct_ members isUnion arrayLength => simp [harray]
    · simp [harray]

theorem getSize_sized_le (size : ℕ) : getSize platform (.sized size) ≤ 8 := by
  unfold LayoutType.sized
  split <;> simp [getSize, primitiveSize, scalarSize]

/-- A part of an argument is at least as long as the bytes it is for. -/
theorem tailSize_le_getSize_sized {type : LayoutType} (h : Splits platform type) :
    tailSize platform type ≤ getSize platform (.sized (tailSize platform type)) := by
  obtain ⟨-, hlow, hhigh⟩ := h
  have hle : tailSize platform type ≤ 8 := by
    unfold tailSize
    omega
  generalize tailSize platform type = size at hle
  interval_cases size <;> simp [LayoutType.sized, getSize, primitiveSize, scalarSize]

end Banjo.Target
