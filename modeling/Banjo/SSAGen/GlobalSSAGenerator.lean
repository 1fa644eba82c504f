import Banjo.Emit.BinaryBuilder
import Banjo.Target.StandardDataLayout

/-!
# Initial values of globals

A constant is turned into the value of a global in two stages. Literals of arrays, structures and
tuples become bytes, with zeros for the padding, and the value is then written to the data section.
The offsets at which the rest of the program accesses a field come from the data layout, so the
bytes have to be at these.

The entries of a structure literal are written in their own order, each behind the previous one.
They are found at the offsets of their fields if the literal has the order of the definition.
-/

namespace Banjo.SSAGen.GlobalSSAGenerator

open Emit (Mcode.Global Mcode.Module BinaryBuilder)
open Target (LayoutType Platform getAlignment)
open Target.StandardDataLayout
open Target.Wasm (GlobalValue)
open WriteBuffer

/-! ## Constants -/

/-- A constant with its type. The entries of a structure literal are in two lists, the numbers of
the fields and the values. -/
inductive Expr where
  | intLiteral (type : LayoutType) (value : LargeInt)
  | fpLiteral (type : LayoutType) (value : Double)
  | boolLiteral (type : LayoutType) (value : Bool)
  | charLiteral (type : LayoutType) (value : BitVec 8)
  | nullLiteral (type : LayoutType)
  | arrayLiteral (type : LayoutType) (values : List Expr)
  | structLiteral (type : LayoutType) (fields : List ℕ) (values : List Expr)
  | tupleExpr (type : LayoutType) (exprs : List Expr)
  | other (type : LayoutType)

namespace Expr

/-- `get_type`, as it is in memory. -/
def type : Expr → LayoutType
  | intLiteral type _ | fpLiteral type _ | boolLiteral type _ | charLiteral type _ => type
  | nullLiteral type | arrayLiteral type _ | structLiteral type _ _ | tupleExpr type _ => type
  | other type => type

/-- The literals without a value in them, which have no bytes of their own. -/
def isEmpty : Expr → Bool
  | arrayLiteral _ values | structLiteral _ _ values | tupleExpr _ values => values.isEmpty
  | _ => false

end Expr

/-! ## The generator -/

section

variable (platform : Platform) (toF32 : Double → BitVec 32)

def padBytes (buffer : List Byte) (alignment : ℕ) : Option (List Byte) :=
  if alignment = 0 then none
  else some (buffer ++ List.replicate (BinaryBuilder.padding buffer.length alignment) 0)

def generateBytes (buffer : List Byte) (size : ℕ) : GlobalValue → Option (List Byte)
  | .integer value =>
    if size ∈ [1, 2, 4, 8] then some (buffer ++ Memory.toBytes value.toBits size) else none
  | .floatingPoint value =>
    match size with
    | 4 => some (buffer ++ u32 ((toF32 value).setWidth 64))
    | 8 => some (buffer ++ u64 value.bits)
    | _ => none
  | .bytes bytes => some (buffer ++ bytes)
  | _ => none

mutual

/-- An `unsigned` of a `char` has the sign of the character. -/
def generateValue : Expr → Option GlobalValue
  | .intLiteral _ value => some (.integer value)
  | .fpLiteral _ value => some (.floatingPoint value)
  | .boolLiteral _ value => some (.integer ⟨BitVec.ofNat 64 value.toNat, false⟩)
  | .charLiteral _ value => some (.integer ⟨(value.signExtend 32).setWidth 64, false⟩)
  | .nullLiteral _ => some (.integer ⟨0, false⟩)
  | .arrayLiteral _ values =>
    match values.head? with
    | none => some .none
    | some first =>
      (elementsLoop (getSize platform first.type) (getAlignment platform first.type) [] values).map
        .bytes
  | .structLiteral type _ values =>
    if values.isEmpty then some .none
    else do
      let buffer ← membersLoop [] values
      let buffer ← padBytes buffer (getAlignment platform type)
      some (.bytes buffer)
  | .tupleExpr type exprs =>
    if exprs.isEmpty then some .none
    else do
      let buffer ← membersLoop [] exprs
      let buffer ← padBytes buffer (getAlignment platform type)
      some (.bytes buffer)
  | .other _ => none

/-- The loop over the values of an array. -/
def elementsLoop (size alignment : ℕ) (buffer : List Byte) : List Expr → Option (List Byte)
  | [] => some buffer
  | value :: values => do
    let generated ← generateValue value
    let buffer ← generateBytes toF32 buffer size generated
    let buffer ← padBytes buffer alignment
    elementsLoop size alignment buffer values

/-- The loop over the entries of a structure literal, or over the values of a tuple. -/
def membersLoop (buffer : List Byte) : List Expr → Option (List Byte)
  | [] => some buffer
  | value :: values => do
    let buffer ← padBytes buffer (getAlignment platform value.type)
    let generated ← generateValue value
    let buffer ← generateBytes toF32 buffer (getSize platform value.type) generated
    membersLoop buffer values

end

/-- `lower_globals`. -/
def lowerGlobal (name : String) (type : LayoutType) (value : GlobalValue) : Mcode.Global :=
  ⟨name, getSize platform type, getAlignment platform type, value⟩

/-- A global with an initial value, from the constant to the data section. -/
def generateGlobal (mod : Mcode.Module) (builder : BinaryBuilder) (name : String) (expr : Expr) :
    Option BinaryBuilder :=
  (generateValue platform toF32 expr).bind fun value ↦
    builder.generateGlobal toF32 mod (lowerGlobal platform name expr.type value)

end

/-! ## What is accepted -/

/-- The type of an array of values of a type. -/
def arrayOf : LayoutType → ℕ → LayoutType
  | .primitive p arrayLength, length => .primitive p (arrayLength * length)
  | .struct_ members isUnion arrayLength, length => .struct_ members isUnion (arrayLength * length)

/-- The entries of a structure literal are one for each field, in any order, or only one if the
fields overlap. -/
def Covers (isUnion : Bool) (members : List LayoutType) (fields : List ℕ) : Prop :=
  if isUnion then fields.length = 1 else fields.Perm (List.range members.length)

mutual

/-- What is left of an initial value behind the semantic analysis. -/
def Accepted : Expr → Prop
  | .intLiteral type _ => ∃ p, type = .primitive p ∧ p ∉ [.VOID, .F32, .F64]
  | .fpLiteral type _ => type = .primitive .F32 ∨ type = .primitive .F64
  | .boolLiteral type _ | .charLiteral type _ => type = .primitive .U8
  | .nullLiteral type => type = .primitive .ADDR
  | .arrayLiteral type values =>
    (∃ element, (∀ value ∈ values, value.type = element) ∧ type = arrayOf element values.length) ∧
      AcceptedAll values
  | .structLiteral type fields values =>
    (∃ members isUnion, type = .struct_ members isUnion ∧ Covers isUnion members fields ∧
      fields.map (members[·]?) = values.map (some ·.type)) ∧ AcceptedAll values
  | .tupleExpr type exprs => type = .struct_ (exprs.map (·.type)) ∧ AcceptedAll exprs
  | .other _ => True

def AcceptedAll : List Expr → Prop
  | [] => True
  | value :: values => Accepted value ∧ AcceptedAll values

end

mutual

/-- Every constant in the initial value has a case in the generator, and those inside of others have
bytes. -/
def Emittable : Expr → Prop
  | .arrayLiteral _ values | .structLiteral _ _ values | .tupleExpr _ values => EmittableAll values
  | .other _ => False
  | _ => True

def EmittableAll : List Expr → Prop
  | [] => True
  | value :: values => (value.isEmpty = false ∧ Emittable value) ∧ EmittableAll values

end

section

variable (platform : Platform)

/-- The entries of a structure literal are in the order of the fields, and the only entry for a
structure whose fields overlap is as large as the structure, up to its padding. -/
def EntriesInPlace : LayoutType → List ℕ → List Expr → Prop
  | .struct_ members true arrayLength, _, values =>
    ∀ value ∈ values, Target.alignTo (Target.getSize platform value.type)
        (getAlignment platform (.struct_ members true arrayLength))
      = Target.getSize platform (.struct_ members true arrayLength)
  | _, fields, values => fields = List.range values.length

mutual

def InPlace : Expr → Prop
  | .arrayLiteral _ values | .tupleExpr _ values => InPlaceAll values
  | .structLiteral type fields values =>
    EntriesInPlace platform type fields values ∧ InPlaceAll values
  | _ => True

def InPlaceAll : List Expr → Prop
  | [] => True
  | value :: values => InPlace value ∧ InPlaceAll values

end

/-! ## What the bytes are to be -/

variable (toF32 : Double → BitVec 32)

/-- Where a field is accessed, from the start of its structure. Overlapping fields are all at the
start. -/
def fieldOffset : LayoutType → ℕ → Option ℕ
  | .struct_ _ true _, _ => some 0
  | .struct_ members false _, field => getMemberOffset platform members false field
  | .primitive _ _, _ => none

mutual

/-- The bytes from an offset on are those of a constant. -/
def Holds (bytes : List Byte) (offset : ℕ) : Expr → Prop
  | .intLiteral type value =>
    Memory.toBytes value.toBits (getSize platform type) <+: bytes.drop offset
  | .fpLiteral type value =>
    (if getSize platform type = 4 then Memory.toBytes ((toF32 value).setWidth 64) 4
      else Memory.toBytes value.bits 8) <+: bytes.drop offset
  | .boolLiteral _ value => [BitVec.ofNat 8 value.toNat] <+: bytes.drop offset
  | .charLiteral _ value => [value] <+: bytes.drop offset
  | .nullLiteral type => List.replicate (getSize platform type) 0 <+: bytes.drop offset
  | .arrayLiteral _ values => HoldsElements bytes offset values
  | .structLiteral type fields values => HoldsFields bytes offset type fields values
  | .tupleExpr type exprs => HoldsFields bytes offset type (List.range exprs.length) exprs
  | .other _ => False

def HoldsElements (bytes : List Byte) (offset : ℕ) : List Expr → Prop
  | [] => True
  | value :: values =>
    Holds bytes offset value ∧ HoldsElements bytes (offset + getSize platform value.type) values

def HoldsFields (bytes : List Byte) (offset : ℕ) (type : LayoutType) (fields : List ℕ) :
    List Expr → Prop
  | [] => True
  | value :: values =>
    (∃ field o, fields.head? = some field ∧ fieldOffset platform type field = some o ∧
      Holds bytes (offset + o) value) ∧ HoldsFields bytes offset type fields.tail values

end

/-- The bytes behind those that align a global. -/
def globalBytes (builder builder' : BinaryBuilder) (alignment : ℕ) : List Byte :=
  builder'.data.cur.buffer.drop (builder.data.cur.buffer.length
    + BinaryBuilder.padding builder.data.cur.buffer.length alignment)

/-- The bytes of a global have the size of its type and are those of its initial value. -/
def Correct (mod : Mcode.Module) (builder : BinaryBuilder) (name : String) (expr : Expr) : Prop :=
  ∃ builder', generateGlobal platform toF32 mod builder name expr = some builder' ∧
    (globalBytes builder builder' (getAlignment platform expr.type)).length
      = getSize platform expr.type ∧
    Holds platform toF32 (globalBytes builder builder' (getAlignment platform expr.type)) 0 expr

end

end Banjo.SSAGen.GlobalSSAGenerator
