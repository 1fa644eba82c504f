import Banjo.SIR.Proto
import Banjo.SSA.Instruction

/-!
# Vtables and calls through protos

The vtables of a struct are globals that lie one behind the other in the data section, one for each
method. A pointer to a proto is a pair of pointers, to the struct and to a vtable, and a call takes
the method from the vtable by its index in the proto.
-/

namespace Banjo.SSAGen

open SIR SSA

variable {τ : Type}

/-- The `ssa::Function` of a method: the struct and the name it was created for. -/
structure SSAFunc where
  parent : StructDefId
  ident : Ident
  deriving DecidableEq, Repr

/-- The value of a global. Of one that is not a function, the number of bytes that the object file
has for it matters. -/
inductive InitialValue where
  | func (func : SSAFunc)
  | bytes (alignment size : ℕ)
  deriving DecidableEq, Repr

structure Global where
  name : String
  initialValue : InitialValue
  deriving DecidableEq, Repr

namespace Global

def alignment (global : Global) : ℕ :=
  match global.initialValue with
  | .func _ => 8
  | .bytes alignment _ => alignment

def size (global : Global) : ℕ :=
  match global.initialValue with
  | .func _ => 8
  | .bytes _ size => size

end Global

structure Context where
  globals : List Global := []
  ssaVtables : List (StructDefId × List GlobalId) := []
  deriving DecidableEq, Repr

/-! ## Vtables -/

/-- `ssa_funcs.find`, which throws for a function that exists for generic arguments only. -/
def findFunc (id : StructDefId) (funcDef : FuncDef τ) : Option SSAFunc :=
  if funcDef.isGeneric then none else some ⟨id, funcDef.ident⟩

/-- The globals with the entry for method `entry.2` of the `i`-th proto, and the globals at which
vtables start. -/
def addVtableEntry (structDef : StructDef τ) (id : StructDefId) (i : ℕ)
    (state : List Global × List GlobalId) (entry : ProtoFuncDecl τ × ℕ) :
    Option (List Global × List GlobalId) := do
  let funcDef ← structDef.lookUpFunc entry.1.ident
  let ssaFunc ← findFunc id funcDef
  let vtableName := "vtable." ++ structDef.ident ++ "." ++ toString i
  let name := if entry.2 ≠ 0 then vtableName ++ "." ++ toString entry.2 else vtableName
  let globals := state.1 ++ [{ name, initialValue := .func ssaFunc }]
  return (globals, if entry.2 = 0 then state.2 ++ [globals.length - 1] else state.2)

def addVtable (structDef : StructDef τ) (id : StructDefId) (state : List Global × List GlobalId)
    (entry : ConcreteProto τ × ℕ) : Option (List Global × List GlobalId) :=
  entry.1.proto.funcDecls.zipIdx.foldlM (addVtableEntry structDef id entry.2) state

def createVtables (structDef : StructDef τ) (id : StructDefId) (ctx : Context) :
    Option (List GlobalId × Context) :=
  match ctx.ssaVtables.lookup id with
  | some vtables => some (vtables, ctx)
  | none => do
    let (globals, vtables) ←
      structDef.impls.zipIdx.foldlM (addVtable structDef id) (ctx.globals, [])
    return (vtables, { globals, ssaVtables := ctx.ssaVtables ++ [(id, vtables)] })

/-! ## Expressions -/

/-- The instructions that coercions to protos and calls through protos emit. -/
inductive Instr where
  | memberptr (dst : VirtualRegister) (type : SSAType) (base : Operand) (member : ℕ)
  | load (dst : VirtualRegister) (src : Operand)
  | store (src dst : Operand)
  deriving DecidableEq, Repr

def fromRegister (reg : VirtualRegister) : Operand := ⟨.register reg, Primitive.ADDR⟩

def fromGlobal (global : GlobalId) : Operand := ⟨.global global, Primitive.ADDR⟩

/-- The last implementation of the proto. -/
def implIndex [DecidableEq τ] (structDef : StructDef τ) (impl : ConcreteProto τ) : Option ℕ :=
  structDef.impls.zipIdx.foldl
    (fun result (other, i) ↦ if impl.eq other then some i else result) none

variable (fatPointerType : SSAType)

/-- The vtable pointer of a coercion. -/
def vtableOperand [DecidableEq τ] (structDef : StructDef τ) (impl : ConcreteProto τ)
    (vtables : List GlobalId) (globals : List Global) : Option Operand :=
  if vtables = [] then some ⟨.intImmediate ⟨0, false⟩, Primitive.ADDR⟩
  else do
    let index ← implIndex structDef impl
    -- The source reads both vectors without a check.
    let vtable ← vtables[index]?
    if vtable < globals.length then some (fromGlobal vtable) else none

/-- The coercion of the struct pointer `value` to a pointer to the proto, which is built at `dst`.
The registers from `next` on are new. -/
def generateCoercionExpr [DecidableEq τ] (structDef : StructDef τ) (id : StructDefId)
    (impl : ConcreteProto τ) (value dst : Operand) (next : VirtualRegister) (ctx : Context) :
    Option (List Instr × Context) := do
  let (vtables, ctx) ← createVtables structDef id ctx
  let vtable ← vtableOperand structDef impl vtables ctx.globals
  return ([.memberptr next fatPointerType dst 0, .store value (fromRegister next),
    .memberptr (next + 1) fatPointerType dst 1, .store vtable (fromRegister (next + 1))], ctx)

/-- A call of a method through the pointer to the proto at `self`: the code that loads the method
and the struct pointer, and the operands of the call. `returnPtr` is where a large result goes. -/
def generateProtoCall (vtableType : SSAType) (proto : ProtoDef τ) (name : Ident) (self : Operand)
    (returnPtr : Option Operand) (args : List Operand) (next : VirtualRegister) :
    Option (List Instr × List Operand) := do
  let index ← proto.getIndex name
  return ([.memberptr next fatPointerType self 1, .load (next + 1) (fromRegister next),
    .memberptr (next + 2) vtableType (fromRegister (next + 1)) index,
    .load (next + 3) (fromRegister (next + 2)),
    .memberptr (next + 4) fatPointerType self 0, .load (next + 5) (fromRegister (next + 4))],
    fromRegister (next + 3) :: returnPtr.toList ++ fromRegister (next + 5) :: args)

/-! ## The data section -/

/-- The section is filled up to the alignment of the next global. -/
def alignUp (size alignment : ℕ) : ℕ :=
  if size % alignment = 0 then size else size + (alignment - size % alignment)

/-- `generate_data_slices`: where the globals lie behind `size` bytes. -/
def dataOffsets (size : ℕ) : List Global → List ℕ
  | [] => []
  | global :: globals =>
    alignUp size global.alignment ::
      dataOffsets (alignUp size global.alignment + global.size) globals

/-- The address of a global in a section that is loaded at `base`. -/
def globalAddr (base : ℕ) (globals : List Global) (global : GlobalId) : ℕ :=
  base + (dataOffsets 0 globals).getD global 0

/-! ## Runs -/

inductive Word where
  | addr (addr : ℕ)
  | func (func : SSAFunc)
  | other
  deriving DecidableEq, Repr

structure State where
  regs : VirtualRegister → Word
  mem : ℕ → Word

variable (base : ℕ) (globals : List Global)

def eval (s : State) (operand : Operand) : Word :=
  match operand.value with
  | .register reg => s.regs reg
  | .global global => .addr (globalAddr base globals global)
  | _ => .other

/-- The members of the structures here are pointers. -/
def memberOffset (member : ℕ) : ℕ := 8 * member

def exec (s : State) : Instr → Option State
  | .memberptr dst _ ptr member =>
    match eval base globals s ptr with
    | .addr a =>
      some { s with regs := Function.update s.regs dst (.addr (a + memberOffset member)) }
    | _ => none
  | .load dst src =>
    match eval base globals s src with
    | .addr a => some { s with regs := Function.update s.regs dst (s.mem a) }
    | _ => none
  | .store src dst =>
    match eval base globals s dst with
    | .addr a => some { s with mem := Function.update s.mem a (eval base globals s src) }
    | _ => none

def execAll (s : State) (code : List Instr) : Option State := code.foldlM (exec base globals) s

/-- The memory has the functions that are in the data section. -/
def HasData (mem : ℕ → Word) : Prop :=
  ∀ (i : GlobalId) (global : Global) (func : SSAFunc), globals[i]? = some global →
    global.initialValue = .func func → mem (globalAddr base globals i) = .func func

end Banjo.SSAGen
