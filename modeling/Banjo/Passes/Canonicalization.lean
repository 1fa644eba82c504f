import Banjo.Lib.OptionLists
import Banjo.Passes.StackLayout
import Banjo.Target.DataLayout

/-!
# Canonicalization

`OFFSETPTR` instructions that lead to a member of a structure become `MEMBERPTR` instructions. The
structure is the one the definition of the base says its result points to, so that a rewritten
instruction serves as the base of others. Offsets and sizes are `unsigned` numbers. What fails an
assertion of the source, or goes through a null pointer, is `none`.
-/

namespace Banjo.Passes

open SSA Target

/-- How deep the structures of a type are nested. -/
def StructTable.typeDepth (structs : StructTable) (type : SSAType) : ℕ :=
  match type.kind with
  | .struct_ id => structs.depth id + 1
  | .primitive _ => 0

theorem StructTable.typeDepth_lt (structs : StructTable) {type member : SSAType} {id : StructId}
    (hkind : type.kind = .struct_ id) (hmem : member ∈ structs.members id) :
    structs.typeDepth member < structs.typeDepth type := by
  rw [typeDepth, typeDepth, hkind]
  cases hmember : member.kind with
  | primitive p => exact Nat.succ_pos _
  | struct_ inner => exact Nat.succ_lt_succ (structs.nested hmem hmember)

namespace StandardDataLayout

/-- `utils::align`. -/
def align (value boundary : BitVec 32) : BitVec 32 :=
  if boundary = 0 then value
  else if value % boundary = 0 then value
  else value + boundary - value % boundary

/-- `std::max`. -/
def max (a b : BitVec 32) : BitVec 32 := if a < b then b else a

variable (platform : Platform) (structs : StructTable)

def getAlignment (type : SSAType) : BitVec 32 :=
  match _hkind : type.kind with
  | .primitive p => BitVec.ofNat 32 (primitiveSize platform p)
  | .struct_ id =>
    if (structs.members id).isEmpty then 1
    else (structs.members id).attach.foldl (fun alignment member ↦
      max alignment (getAlignment member.1)) 0
termination_by structs.typeDepth type
decreasing_by exact structs.typeDepth_lt _hkind member.2

def getSize (type : SSAType) : BitVec 32 :=
  match _hkind : type.kind with
  | .primitive p => BitVec.ofNat 32 (primitiveSize platform p) * BitVec.ofNat 32 type.arrayLength
  | .struct_ id =>
    let size :=
      if structs.isUnion id then
        (structs.members id).attach.foldl (fun size member ↦ max size (getSize member.1)) 0
      else
        (structs.members id).attach.foldl (fun size member ↦
          align size (getAlignment platform structs member.1) + getSize member.1) 0
    align size (getAlignment platform structs type) * BitVec.ofNat 32 type.arrayLength
termination_by structs.typeDepth type
decreasing_by all_goals exact structs.typeDepth_lt _hkind member.2

/-- The end of the members before `index`. -/
def membersEnd (id : StructId) (index : ℕ) : BitVec 32 :=
  ((structs.members id).take index).foldl (fun offset member ↦
    align offset (getAlignment platform structs member) + getSize platform structs member) 0

def getMemberOffset (id : StructId) (index : ℕ) : Option (BitVec 32) :=
  if structs.isUnion id then none
  else
    (structs.members id)[index]?.map fun member ↦
      align (membersEnd platform structs id index) (getAlignment platform structs member)

end StandardDataLayout

namespace Canonicalization

open StandardDataLayout

/-- `Instruction::get_type`. -/
def getType (structs : StructTable) (instr : Instruction) : Option SSAType :=
  match instr.opcode with
  | .STORE | .JMP | .CJMP | .FCJMP | .RET | .COPY => some Primitive.VOID
  | .OFFSETPTR => some Primitive.ADDR
  | .UEXTEND | .SEXTEND | .TRUNCATE | .FPROMOTE | .FDEMOTE | .UTOF | .STOF | .FTOU | .FTOS =>
    some (instr.getOperand 1).type
  | .SELECT => some (instr.getOperand 3).type
  | .CALL => some (if instr.dest.isSome then (instr.getOperand 0).type else Primitive.VOID)
  | .MEMBERPTR =>
    match (instr.getOperand 0).type.kind, (instr.getOperand 2).value with
    | .struct_ id, .intImmediate index =>
      if index.negative then none
      else (structs.members id)[(index.magnitude.setWidth 32).toNat]?
    | _, _ => none
  | _ => some (instr.getOperand 0).type

section Pass

variable (platform : Platform) (structs : StructTable)

/-- The loop over the members, from the ones that are left. -/
def matchMember (id : StructId) (byteOffset : BitVec 32) : List ℕ → Option (Option ℕ)
  | [] => some none
  | i :: rest =>
    (getMemberOffset platform structs id i).bind fun memberOffset ↦
      if memberOffset = byteOffset then some (some i)
      else if byteOffset < memberOffset then some none
      else matchMember id byteOffset rest

def byteOffset (offset : LargeInt) (type : SSAType) : BitVec 32 :=
  offset.magnitude.setWidth 32 * getSize platform structs type

def memberptr (instr : Instruction) (baseType : SSAType) (i : ℕ) : Instruction where
  opcode := .MEMBERPTR
  dest := instr.dest
  operands := [⟨.type, baseType⟩, instr.getOperand 0,
    ⟨.intImmediate ⟨BitVec.ofNat 64 i, false⟩, Primitive.VOID⟩]

/-- The instruction that takes the place of one with a base and a constant offset. -/
def rewriteOffset (instr : Instruction) (offset : LargeInt) (baseType : SSAType) :
    Option Instruction :=
  match baseType.kind with
  | .struct_ id =>
    if baseType.arrayLength ≠ 1 then some instr
    else if offset.negative then none
    else
      (matchMember platform structs id
        (byteOffset platform structs offset (instr.getOperand 2).type)
        (List.range (structs.members id).length)).map fun i ↦
          match i with
          | some i => memberptr instr baseType i
          | none => instr
  | .primitive _ => some instr

/-- What the body of the loop over the instructions makes of one. -/
def canonicalize (func : Function) (instr : Instruction) : Option Instruction :=
  if instr.opcode ≠ .OFFSETPTR then some instr
  else
    match (instr.getOperand 0).value, (instr.getOperand 1).value with
    | .register reg, .intImmediate offset =>
      (PassUtils.findDef func reg).bind fun baseDef ↦
        (getType structs baseDef).bind (rewriteOffset platform structs instr offset)
    | _, _ => some instr

/-- The places of a function: a block of the list and an instruction of it. -/
abbrev Place := ℕ × ℕ

def instrAt (func : Function) (place : Place) : Option Instruction :=
  func.blocks[place.1]?.bind fun entry ↦ entry.2.instrs[place.2]?

def setInstr (func : Function) (place : Place) (instr : Instruction) : Function :=
  { func with
    blocks := func.blocks.modify place.1 fun entry ↦
      (entry.1, { entry.2 with instrs := entry.2.instrs.set place.2 instr }) }

def places (func : Function) : List Place :=
  (List.range func.blocks.length).flatMap fun b ↦
    (List.range (((func.blocks[b]?).map fun entry ↦ entry.2.instrs.length).getD 0)).map (b, ·)

def visit (func : Function) (place : Place) : Option Function :=
  (instrAt func place).bind fun instr ↦
    (canonicalize platform structs func instr).map (setInstr func place)

def run (func : Function) : Option Function :=
  (places func).foldlM (visit platform structs) func

end Pass

/-! ## Addresses -/

/-- The width of an address. -/
def addressWidth : Platform → ℕ
  | .WASM => 32
  | _ => 64

section Address

variable (platform : Platform) (structs : StructTable)

/-- The values of registers, and of what is neither a register nor an integer. -/
structure Env (n : ℕ) where
  reg : VirtualRegister → BitVec n
  symbol : Value → BitVec n

def Env.value {n : ℕ} (env : Env n) (operand : Operand) : BitVec n :=
  match operand.value with
  | .register reg => env.reg reg
  | .intImmediate immediate => immediate.toBits.setWidth n
  | value => env.symbol value

/-- What the target computes for the two instructions. -/
def address (env : Env (addressWidth platform)) (instr : Instruction) :
    Option (BitVec (addressWidth platform)) :=
  match instr.opcode with
  | .OFFSETPTR => some (env.value (instr.getOperand 0) +
      (getSize platform structs (instr.getOperand 2).type).setWidth (addressWidth platform) *
        env.value (instr.getOperand 1))
  | .MEMBERPTR =>
    match (instr.getOperand 0).type.kind, (instr.getOperand 2).value with
    | .struct_ id, .intImmediate index =>
      (getMemberOffset platform structs id (index.magnitude.setWidth 32).toNat).map fun offset ↦
        env.value (instr.getOperand 1) + offset.setWidth (addressWidth platform)
    | _, _ => none
  | _ => none

end Address

end Canonicalization

end Banjo.Passes
