import Banjo.Target.X8664.Encoder

/-!
# Decoding x86-64 instructions

How a processor reads the instructions the encoder emits: prefixes, of which `REX` only counts
directly before the opcode, the opcode with the layout of its operands, the `ModRM` and `SIB` bytes,
the displacement and the immediate.
-/

namespace Banjo.Target.X8664.Decoder

open WriteBuffer
open Encoder (RegCode Scale)

/-! ## Prefixes -/

structure Rex where
  w : Bool := false
  r : Bool := false
  x : Bool := false
  b : Bool := false
  deriving DecidableEq, Repr

def Rex.ofByte (byte : Byte) : Rex where
  w := byte.getLsbD 3
  r := byte.getLsbD 2
  x := byte.getLsbD 1
  b := byte.getLsbD 0

structure Prefixes where
  operandSize : Bool := false
  mandatory : Option Byte := none
  rex : Option Rex := none
  deriving DecidableEq, Repr

def decodePrefixes (found : Prefixes) : List Byte → Prefixes × List Byte
  | [] => (found, [])
  | byte :: rest =>
    if byte = 0x66 then decodePrefixes { found with operandSize := true, rex := none } rest
    else if byte = 0xF2 ∨ byte = 0xF3 then
      decodePrefixes { found with mandatory := some byte, rex := none } rest
    else if byte >>> 4 = 4 then decodePrefixes { found with rex := some (.ofByte byte) } rest
    else (found, byte :: rest)

/-! ## Addresses -/

/-- What the `rm` field says. -/
inductive Location where
  | reg (number : RegCode)
  | mem (base : Option RegCode) (index : Option (RegCode × Scale)) (displacement : BitVec 32)
  | ripRelative (displacement : BitVec 32)
  deriving DecidableEq, Repr

/-- Three bits and the bit that extends them. -/
def extended (extension : Bool) (bits : Byte) : RegCode :=
  (bits &&& 7).setWidth 4 ||| if extension then 8 else 0

def decodeScale (bits : Byte) : Scale :=
  if bits = 0 then .one else if bits = 1 then .two else if bits = 2 then .four else .eight

def read32 (bytes : List Byte) : BitVec 32 := (Memory.ofBytes bytes).setWidth 32

/-- The displacement that comes with a `mod` field. -/
def takeDisplacement (mod : Byte) (bytes : List Byte) : Option (BitVec 32 × List Byte) :=
  if mod = 0 then some (0, bytes)
  else if mod = 1 then
    match bytes with
    | byte :: rest => some (byte.signExtend 32, rest)
    | [] => none
  else
    match bytes with
    | a :: b :: c :: d :: rest => some (read32 [a, b, c, d], rest)
    | _ => none

def decodeSib (rex : Rex) (mod : Byte) : List Byte → Option (Location × List Byte)
  | [] => none
  | sib :: rest =>
    let index := extended rex.x (sib >>> 3)
    let scaled := if index = 4 then none else some (index, decodeScale (sib >>> 6))
    let noBase := mod = 0 ∧ sib &&& 7 = 5
    (takeDisplacement (if noBase then 2 else mod) rest).map fun (displacement, rest) ↦
      (.mem (if noBase then none else some (extended rex.b sib)) scaled displacement, rest)

def decodeModrm (rex : Rex) : List Byte → Option (RegCode × Location × List Byte)
  | [] => none
  | modrm :: rest =>
    let mod := modrm >>> 6
    let field := extended rex.r (modrm >>> 3)
    if mod = 3 then some (field, .reg (extended rex.b modrm), rest)
    else if modrm &&& 7 = 4 then
      (decodeSib rex mod rest).map fun (location, rest) ↦ (field, location, rest)
    else if mod = 0 ∧ modrm &&& 7 = 5 then
      (takeDisplacement 2 rest).map fun (displacement, rest) ↦
        (field, .ripRelative displacement, rest)
    else
      (takeDisplacement mod rest).map fun (displacement, rest) ↦
        (field, .mem (some (extended rex.b modrm)) none displacement, rest)

/-! ## Opcodes -/

inductive RegKind where
  | byte | general | sse
  deriving DecidableEq, Repr

/-- Where an operand is: in the fields of `ModRM`, in the opcode, or in a register of its own. -/
inductive Slot where
  | field (kind : RegKind)
  | rm (kind : RegKind)
  | combined (kind : RegKind)
  | accumulator
  | count
  deriving DecidableEq, Repr

inductive ImmKind where
  | none | imm8 | immZ | immV | rel8 | rel32
  deriving DecidableEq, Repr

structure Layout where
  slots : List Slot := []
  modrm : Bool := true
  imm : ImmKind := .none
  deriving DecidableEq, Repr

section Layouts

open Slot RegKind

/-- The six forms of an operation. -/
def basicLayout (form : Byte) : Option Layout :=
  if form = 0 then some { slots := [rm byte, field byte] }
  else if form = 1 then some { slots := [rm general, field general] }
  else if form = 2 then some { slots := [field byte, rm byte] }
  else if form = 3 then some { slots := [field general, rm general] }
  else if form = 4 then some { slots := [accumulator], modrm := false, imm := .imm8 }
  else if form = 5 then some { slots := [accumulator], modrm := false, imm := .immZ }
  else none

/-- Of the opcodes of one byte, those that are emitted. -/
def layout1 (opcode : Byte) : Option Layout :=
  if opcode < 0x40 then basicLayout (opcode &&& 7)
  else if 0x50 ≤ opcode ∧ opcode < 0x60 then some { slots := [.combined general], modrm := false }
  else if opcode = 0x63 then some { slots := [field general, rm general] }
  else if opcode = 0x69 then some { slots := [field general, rm general], imm := .immZ }
  else if 0x70 ≤ opcode ∧ opcode < 0x80 then some { modrm := false, imm := .rel8 }
  else if opcode = 0x80 then some { slots := [rm byte], imm := .imm8 }
  else if opcode = 0x81 then some { slots := [rm general], imm := .immZ }
  else if opcode = 0x83 then some { slots := [rm general], imm := .imm8 }
  else if opcode = 0x88 then some { slots := [rm byte, field byte] }
  else if opcode = 0x89 then some { slots := [rm general, field general] }
  else if opcode = 0x8A then some { slots := [field byte, rm byte] }
  else if opcode = 0x8B ∨ opcode = 0x8D then some { slots := [field general, rm general] }
  else if opcode = 0x99 ∨ opcode = 0xC3 then some { modrm := false }
  else if 0xB0 ≤ opcode ∧ opcode < 0xB8 then
    some { slots := [.combined byte], modrm := false, imm := .imm8 }
  else if 0xB8 ≤ opcode ∧ opcode < 0xC0 then
    some { slots := [.combined general], modrm := false, imm := .immV }
  else if opcode = 0xC0 ∨ opcode = 0xC6 then some { slots := [rm byte], imm := .imm8 }
  else if opcode = 0xC1 then some { slots := [rm general], imm := .imm8 }
  else if opcode = 0xC7 then some { slots := [rm general], imm := .immZ }
  else if opcode = 0xD0 ∨ opcode = 0xF6 then some { slots := [rm byte] }
  else if opcode = 0xD1 ∨ opcode = 0xF7 ∨ opcode = 0xFF then some { slots := [rm general] }
  else if opcode = 0xD2 then some { slots := [rm byte, count] }
  else if opcode = 0xD3 then some { slots := [rm general, count] }
  else if opcode = 0xE8 ∨ opcode = 0xE9 then some { modrm := false, imm := .rel32 }
  else if opcode = 0xEB then some { modrm := false, imm := .rel8 }
  else none

/-- Of the opcodes after `0F`, those that are emitted. -/
def layout2 (opcode : Byte) : Option Layout :=
  if opcode = 0x10 ∨ opcode = 0x28 ∨ opcode = 0x2E ∨ opcode = 0x51 ∨
      (0x57 ≤ opcode ∧ opcode < 0x60) then
    some { slots := [field sse, rm sse] }
  else if opcode = 0x11 ∨ opcode = 0x29 then some { slots := [rm sse, field sse] }
  else if opcode = 0x2A then some { slots := [field sse, rm general] }
  else if opcode = 0x2D then some { slots := [field general, rm sse] }
  else if 0x40 ≤ opcode ∧ opcode < 0x50 then some { slots := [field general, rm general] }
  else if opcode = 0x7E then some { slots := [rm general, field sse] }
  else if 0x80 ≤ opcode ∧ opcode < 0x90 then some { modrm := false, imm := .rel32 }
  else if opcode = 0xAF ∨ opcode = 0xB7 ∨ opcode = 0xBF then
    some { slots := [field general, rm general] }
  else if opcode = 0xB6 ∨ opcode = 0xBE then some { slots := [field general, rm byte] }
  else none

end Layouts

/-- The last byte of the opcode, its layout and what follows. -/
def decodeOpcode : List Byte → Option (Byte × Layout × List Byte)
  | [] => none
  | opcode :: rest =>
    if opcode = 0x0F then
      match rest with
      | [] => none
      | opcode :: rest => (layout2 opcode).map fun layout ↦ (opcode, layout, rest)
    else (layout1 opcode).map fun layout ↦ (opcode, layout, rest)

/-! ## Instructions -/

/-- A register; without a `REX` prefix four numbers are the second bytes of others. -/
inductive Register where
  | general (number : RegCode)
  | high (number : RegCode)
  | sse (number : RegCode)
  deriving DecidableEq, Repr

inductive Operand where
  | reg (reg : Register)
  | mem (base : Option RegCode) (index : Option (RegCode × Scale)) (displacement : BitVec 32)
  | ripRelative (displacement : BitVec 32)
  deriving DecidableEq, Repr

def register (rex : Option Rex) (number : RegCode) : RegKind → Register
  | .byte => if rex.isNone ∧ 4 ≤ number then .high (number - 4) else .general number
  | .general => .general number
  | .sse => .sse number

def Location.operand (rex : Option Rex) (kind : RegKind) : Location → Operand
  | .reg number => .reg (register rex number kind)
  | .mem base index displacement => .mem base index displacement
  | .ripRelative displacement => .ripRelative displacement

/-- An instruction up to its immediate. -/
structure Head where
  prefixes : Prefixes
  opcode : Byte
  field : RegCode
  operands : List Operand
  imm : ImmKind
  deriving DecidableEq, Repr

def slotOperand (rex : Option Rex) (opcode : Byte) (field : RegCode) (location : Location) :
    Slot → Operand
  | .field kind => .reg (register rex field kind)
  | .rm kind => location.operand rex kind
  | .combined kind => .reg (register rex (extended (rex.getD {}).b opcode) kind)
  | .accumulator => .reg (.general 0)
  | .count => .reg (.general 1)

/-- The register and the location of a `ModRM` byte, where there is one. -/
def decodeFields (rex : Rex) (modrm : Bool) (bytes : List Byte) :
    Option (RegCode × Location × List Byte) :=
  if modrm then decodeModrm rex bytes else some (0, .reg 0, bytes)

/-- Everything up to the immediate, and what follows. -/
def decodeHead (bytes : List Byte) : Option (Head × List Byte) := do
  let (prefixes, bytes) := decodePrefixes {} bytes
  let (opcode, layout, bytes) ← decodeOpcode bytes
  let (field, location, bytes) ← decodeFields (prefixes.rex.getD {}) layout.modrm bytes
  some (⟨prefixes, opcode, field,
    layout.slots.map (slotOperand prefixes.rex opcode field location), layout.imm⟩, bytes)

def Head.wide (head : Head) : Bool := (head.prefixes.rex.getD {}).w

/-- How many bytes the immediate has. -/
def Head.immLength (head : Head) : ℕ :=
  match head.imm with
  | .none => 0
  | .imm8 | .rel8 => 1
  | .immZ => if head.wide then 4 else if head.prefixes.operandSize then 2 else 4
  | .immV => if head.wide then 8 else if head.prefixes.operandSize then 2 else 4
  | .rel32 => 4

/-- An instruction, the bytes of its immediate and what follows. -/
def decode (bytes : List Byte) : Option (Head × List Byte × List Byte) := do
  let (head, bytes) ← decodeHead bytes
  if bytes.length < head.immLength then none
  else some (head, bytes.take head.immLength, bytes.drop head.immLength)

end Banjo.Target.X8664.Decoder
