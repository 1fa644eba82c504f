import Banjo.SSA.Execution
import Banjo.Passes.PassUtils

/-!
# Stack layouts

The stack slots of a function are taken apart into members: the parts of a structure that are not
themselves structures, with their offsets in the slot. `find_member` follows the definitions of a
pointer back to the slot it points into and adds up the offsets, as `unsigned` numbers, on the way.
-/

namespace Banjo.Passes

open SSA

/-- The structures of a module. A structure is deeper than the structures it has as members. -/
structure StructTable where
  members : StructId → List SSAType
  isUnion : StructId → Bool
  depth : StructId → ℕ
  nested : ∀ {id inner type}, type ∈ members id → type.kind = .struct_ inner →
    depth inner < depth id

namespace StructTable

/-- Structures without members. -/
theorem nested_nil : ∀ {id inner : StructId} {type : SSAType}, type ∈ ([] : List SSAType) →
    type.kind = .struct_ inner → (fun _ : StructId ↦ 0) inner < (fun _ ↦ 0) id :=
  fun h ↦ by cases h

/-- `is_struct_aggregate`, with the structure. -/
def aggregate (structs : StructTable) (type : SSAType) : Option StructId :=
  match type.kind with
  | .struct_ id => if !structs.isUnion id && type.arrayLength = 1 then some id else none
  | .primitive _ => none

/-- How deep the structures in a type are nested. -/
def nesting (structs : StructTable) (type : SSAType) : ℕ :=
  match structs.aggregate type with
  | some id => structs.depth id + 1
  | none => 0

end StructTable

namespace StackLayout

structure Member where
  index : ℕ
  slot : VirtualRegister
  offset : BitVec 32
  type : SSAType
  deriving DecidableEq, Repr

end StackLayout

open StackLayout

structure StackLayout where
  slots : List (VirtualRegister × List Member) := []
  numMembers : ℕ := 0
  deriving DecidableEq, Repr

namespace StackLayout

section Build

variable (structs : StructTable) (layout : DataLayout)

/-- The members collected for a slot so far, and how many there are in all slots. `fuel` is used up
by nested structures only. -/
def collectMembers (slotReg : VirtualRegister) : ℕ → SSAType → BitVec 32 → List Member × ℕ →
    List Member × ℕ
  | fuel, type, baseOffset, (members, numMembers) =>
    match structs.aggregate type, fuel with
    | some id, fuel + 1 =>
      (structs.members id).zipIdx.foldl
        (fun acc (member, i) ↦ collectMembers slotReg fuel member
          (baseOffset + BitVec.ofNat 32 (layout.memberOffset type i)) acc)
        (members, numMembers)
    | some _, 0 => (members, numMembers)
    | none, _ => (members ++ [⟨numMembers, slotReg, baseOffset, type⟩], numMembers + 1)

/-- `slots.emplace`, which keeps a slot that is there. -/
def emplace (slots : List (VirtualRegister × List Member)) (reg : VirtualRegister)
    (members : List Member) : List (VirtualRegister × List Member) :=
  if (slots.lookup reg).isSome then slots else slots ++ [(reg, members)]

def addSlot (stack : StackLayout) (instr : Instruction) : StackLayout :=
  match instr.opcode, instr.dest with
  | .ALLOCA, some reg =>
    let type := (instr.getOperand 0).type
    let (members, numMembers) :=
      collectMembers structs layout reg (structs.nesting type) type 0 ([], stack.numMembers)
    ⟨emplace stack.slots reg members, numMembers⟩
  | _, _ => stack

def build (func : Function) : StackLayout :=
  func.instrs.foldl (addSlot structs layout) {}

end Build

/-! ## Finding members -/

section Find

variable (layout : DataLayout)

/-- Where the definition of a pointer takes its address from and what it adds to it. -/
def pointerBase (instr : Instruction) : Option (Option (VirtualRegister × BitVec 32)) :=
  match instr.opcode with
  | .OFFSETPTR =>
    match (instr.getOperand 0).value, (instr.getOperand 1).value with
    | .register base, .intImmediate offset =>
      some (some (base, offset.toBits.setWidth 32 *
        BitVec.ofNat 32 (layout.size (instr.getOperand 2).type)))
    | _, _ => some none
  | .MEMBERPTR =>
    match (instr.getOperand 2).value, (instr.getOperand 1).value with
    | .intImmediate index, .register base =>
      some (some (base, BitVec.ofNat 32
        (layout.memberOffset (instr.getOperand 0).type (index.magnitude.setWidth 32).toNat)))
    | .intImmediate _, _ => some none
    | _, _ => none
  | _ => some none

/-- One turn of the loop of `find_member`; `none` where an operand is not what is asked for. -/
def follow (func : Function) (reg : VirtualRegister) :
    Option (Option (VirtualRegister × BitVec 32)) :=
  match PassUtils.findDef func reg with
  | some instr => pointerBase layout instr
  | none => some none

/-- The member of a slot that starts at an offset. -/
def memberAt (stack : StackLayout) (reg : VirtualRegister) (offset : BitVec 32) : Option Member :=
  (stack.slots.lookup reg).bind fun members ↦ members.find? fun member ↦ member.offset = offset

def findMemberFrom (stack : StackLayout) (func : Function) :
    ℕ → VirtualRegister → BitVec 32 → Option (Option Member)
  | 0, _, _ => none
  | fuel + 1, reg, offset =>
    match stack.memberAt reg offset with
    | some member => some (some member)
    | none =>
      match follow layout func reg with
      | some (some (base, added)) => findMemberFrom stack func fuel base (offset + added)
      | some none => some none
      | none => none

/-- `find_member`, which does not end where pointers are defined by themselves: a pointer goes
through no more registers than there are. -/
def findMember (stack : StackLayout) (func : Function) (reg : VirtualRegister) :
    Option (Option Member) :=
  findMemberFrom layout stack func (func.lastVirtualReg + 1) reg 0

/-- `is_non_overlapping`. -/
def isNonOverlapping (stack : StackLayout) (func : Function) (a b : VirtualRegister)
    (size : BitVec 32) : Option Bool :=
  match findMember layout stack func a, findMember layout stack func b with
  | some (some memberA), some (some memberB) =>
    some (memberA.slot ≠ memberB.slot ||
      !(memberA.offset < memberB.offset + size && memberB.offset < memberA.offset + size))
  | some _, some _ => some false
  | _, _ => none

end Find

end StackLayout

end Banjo.Passes
