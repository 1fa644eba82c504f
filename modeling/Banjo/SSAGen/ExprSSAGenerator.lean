import Mathlib.Data.List.Infix

/-!
# Stored values

The memory that generated code works on, and the values it keeps in registers and in memory.
-/

namespace Banjo.SSAGen.InPlace

/-- The fields and elements that lead to a part of a value. -/
abbrev Path := List ℕ

/-- The scalars of a value. The parts of a union that belong to other cases are not defined. -/
abbrev Value := Path → Option ℕ

/-- The variables of the program: locals, parameters, globals and the return slot. -/
abbrev SymbolId := ℕ

abbrev Symbols := SymbolId → Path → ℕ

inductive Base where
  | symbol (id : SymbolId)
  | alloca (reg : ℕ)
  deriving DecidableEq

structure Addr where
  base : Base
  path : Path
  deriving DecidableEq

/-- A pointer to a field or an element. -/
def Addr.child (addr : Addr) (index : ℕ) : Addr := ⟨addr.base, addr.path ++ [index]⟩

abbrev Memory := Base → Path → ℕ

def Memory.symbols (mem : Memory) : Symbols := fun id ↦ mem (.symbol id)

/-- What is in the symbols after a call. The stack slots of the caller are not accessed by
callees. -/
def Memory.setSymbols (mem : Memory) (symbols : Symbols) : Memory
  | .symbol id => symbols id
  | .alloca reg => mem (.alloca reg)

def Memory.load (mem : Memory) (addr : Addr) : Value :=
  fun path ↦ some (mem addr.base (addr.path ++ path))

/-- Stores what is defined of a value. -/
def Memory.store (mem : Memory) (addr : Addr) (value : Value) : Memory := fun base path ↦
  if base = addr.base ∧ addr.path <+: path then
    (value (path.drop addr.path.length)).getD (mem base path)
  else mem base path

/-! ## Values with less defined parts -/

/-- The second value is the same where the first one is defined. -/
def Value.Le (v w : Value) : Prop := ∀ path x, v path = some x → w path = some x

theorem Value.Le.refl (v : Value) : Value.Le v v := fun _ _ h ↦ h

def Value.field (v : Value) (index : ℕ) : Value := fun path ↦ v (index :: path)

def Value.setField (v : Value) (index : ℕ) (w : Value) : Value
  | [] => v []
  | head :: path => if head = index then w path else v (head :: path)

def Value.scalar (n : ℕ) : Value
  | [] => some n
  | _ => none

def Value.undefined : Value := fun _ ↦ none

/-! ## Loads after stores -/

def Addr.Covers (addr : Addr) (base : Base) (path : Path) : Prop :=
  base = addr.base ∧ addr.path <+: path

variable {addr : Addr} {mem : Memory}

variable {base : Base} {path : Path} {value : Value}

theorem store_of_not_covers
    (h : ¬addr.Covers base path) : mem.store addr value base path = mem base path :=
  if_neg h

theorem store_append (mem : Memory) (addr : Addr) (value : Value) (path : Path) :
    mem.store addr value addr.base (addr.path ++ path) =
      (value path).getD (mem addr.base (addr.path ++ path)) := by
  rw [Memory.store, if_pos ⟨rfl, List.prefix_append _ _⟩, List.drop_left]

/-- The memory has the value at the address. -/
def Memory.Holds (mem : Memory) (addr : Addr) (value : Value) : Prop :=
  Value.Le value (mem.load addr)

theorem Memory.holds_iff :
    mem.Holds addr value ↔ ∀ path x, value path = some x →
      mem addr.base (addr.path ++ path) = x := by
  simp [Holds, Value.Le, load]

theorem holds_store {v w : Value} (h : Value.Le v w) : (mem.store addr w).Holds addr v := by
  refine Memory.holds_iff.mpr fun path x hx ↦ ?_
  rw [store_append, h path x hx, Option.getD_some]

theorem Addr.Covers.of_child {index : ℕ}
    (h : (addr.child index).Covers base path) : addr.Covers base path :=
  ⟨h.1, (List.prefix_append _ _).trans h.2⟩

end Banjo.SSAGen.InPlace

/-!
## Aggregates, accesses and calls

What an expression evaluates to, and what the code does that is generated for it. Aggregates are
built in place: the destination of a statement is passed down through literals and calls.
-/

namespace Banjo.SSAGen.InPlace

/-- An expression that is built from literals, accesses and calls. -/
inductive Expr where
  | scalar (n : ℕ)
  | symbol (id : SymbolId)
  -- Struct, tuple, array and union case literals, with the fields in the order of their stores.
  | literal (entries : List (ℕ × Expr))
  | field (base : Expr) (fieldIndex : ℕ)
  | index (base index : Expr)
  | call (func : ℕ) (args : List Expr)

/-- The coercion of a union case to the union: the tag is stored before the data. -/
def Expr.coercion (tag : ℕ) (value : Expr) : Expr := .literal [(0, .scalar tag), (1, value)]

/-- What functions do with the symbols, and how they are called. A callee writes to the pointer for
its return value when it exits. -/
structure Callees where
  call : ℕ → List Value → Symbols → Value × Symbols
  /-- Nothing depends on parts of the arguments that are not defined. -/
  mono : ∀ (func : ℕ) (symbols : Symbols) {args args' : List Value},
    List.Forall₂ Value.Le args args' →
    Value.Le (call func args symbols).1 (call func args' symbols).1 ∧
      (call func args symbols).2 = (call func args' symbols).2
  isReturnedViaPointer : ℕ → Bool
  isPassedInReg : ℕ → ℕ → Bool

variable (callees : Callees)

/-! ## Meaning -/

/-- An expression is a place or has a value of its own. -/
inductive Result where
  | place (id : SymbolId) (path : Path)
  | value (v : Value)

def Result.read (symbols : Symbols) : Result → Value
  | place id path => fun rest ↦ some (symbols id (path ++ rest))
  | value v => v

def Result.field (index : ℕ) : Result → Result
  | place id path => .place id (path ++ [index])
  | value v => .value (v.field index)

mutual

def eval : Expr → Symbols → Option (Result × Symbols)
  | .scalar n, symbols => some (.value (.scalar n), symbols)
  | .symbol id, symbols => some (.place id [], symbols)
  | .literal entries, symbols => do
    let (v, symbols) ← evalEntries .undefined entries symbols
    return (.value v, symbols)
  | .field base fieldIndex, symbols => do
    let (result, symbols) ← eval base symbols
    return (result.field fieldIndex, symbols)
  | .index base index, symbols => do
    let (result, symbols) ← eval index symbols
    let i ← result.read symbols []
    let (result, symbols) ← eval base symbols
    return (result.field i, symbols)
  | .call func args, symbols => do
    let (args, symbols) ← evalArgs args symbols
    return (.value (callees.call func args symbols).1, (callees.call func args symbols).2)

def evalEntries (v : Value) : List (ℕ × Expr) → Symbols → Option (Value × Symbols)
  | [], symbols => some (v, symbols)
  | (fieldIndex, expr) :: entries, symbols => do
    let (result, symbols) ← eval expr symbols
    evalEntries (v.setField fieldIndex (result.read symbols)) entries symbols

def evalArgs : List Expr → Symbols → Option (List Value × Symbols)
  | [], symbols => some ([], symbols)
  | arg :: args, symbols => do
    let (result, symbols) ← eval arg symbols
    let v := result.read symbols
    let (vs, symbols) ← evalArgs args symbols
    return (v :: vs, symbols)

end

/-! ## Generated code -/

structure State where
  mem : Memory
  nextReg : ℕ

inductive StoredValue where
  | value (v : Value)
  | reference (addr : Addr)

def StoredValue.get (mem : Memory) : StoredValue → Value
  | value v => v
  | reference addr => mem.load addr

def appendAlloca (s : State) : Addr × State :=
  (⟨.alloca s.nextReg, []⟩, { s with nextReg := s.nextReg + 1 })

def appendStore (dst : Addr) (v : Value) (s : State) : State :=
  { s with mem := s.mem.store dst v }

/-- The hint is where the value will be stored. -/
def StoredValue.alloc (dst : Option Addr) (s : State) : Addr × State :=
  match dst with
  | some dst => (dst, s)
  | none => appendAlloca s

def StoredValue.turnIntoReference (s : State) : StoredValue → Addr × State
  | value v => ((appendAlloca s).1, appendStore (appendAlloca s).1 v (appendAlloca s).2)
  | reference addr => (addr, s)

def StoredValue.turnIntoValueOrCopy (isInReg : Bool) (s : State) : StoredValue → StoredValue × State
  | value v => (.value v, s)
  | reference addr =>
    if isInReg then (.value (s.mem.load addr), s)
    else
      -- A pointer to the copy is passed.
      (.reference (appendAlloca s).1, appendStore (appendAlloca s).1 (s.mem.load addr)
        (appendAlloca s).2)

def StoredValue.copyTo (dst : Addr) (s : State) : StoredValue → State
  | value v => appendStore dst v s
  -- What is built in place is there already.
  | reference addr => if addr = dst then s else appendStore dst (s.mem.load addr) s

/-- A call, without the store of its value. -/
def appendCall (func : ℕ) (args : List StoredValue) (s : State) : Value × State :=
  let (v, symbols) := callees.call func (args.map (·.get s.mem)) s.mem.symbols
  (v, { s with mem := s.mem.setSymbols symbols })

mutual

def generate : Expr → Option Addr → State → Option (StoredValue × State)
  | .scalar n, _, s => some (.value (.scalar n), s)
  | .symbol id, _, s => some (.reference ⟨.symbol id, []⟩, s)
  | .literal entries, dst, s => do
    let addr := (StoredValue.alloc dst s).1
    let s ← generateEntries addr entries (StoredValue.alloc dst s).2
    return (.reference addr, s)
  | .field base fieldIndex, _, s => do
    let (base, s) ← generate base none s
    return (.reference ((base.turnIntoReference s).1.child fieldIndex),
      (base.turnIntoReference s).2)
  | .index base index, _, s => do
    let (index, s) ← generate index none s
    let i ← index.get s.mem []
    -- Only a reference has a pointer.
    match ← generate base none s with
    | (.reference base, s) => return (.reference (base.child i), s)
    | (.value _, _) => none
  | .call func args, dst, s =>
    if callees.isReturnedViaPointer func then do
      -- The pointer for the return value comes before the arguments.
      let addr := (StoredValue.alloc dst s).1
      let (args, s) ← generateArgs func 0 args (StoredValue.alloc dst s).2
      let (v, s) := appendCall callees func args s
      return (.reference addr, appendStore addr v s)
    else do
      let (args, s) ← generateArgs func 0 args s
      let (v, s) := appendCall callees func args s
      return (.value v, s)

def generateEntries (addr : Addr) : List (ℕ × Expr) → State → Option State
  | [], s => some s
  | (fieldIndex, expr) :: entries, s => do
    let (stored, s) ← generate expr (some (addr.child fieldIndex)) s
    generateEntries addr entries (stored.copyTo (addr.child fieldIndex) s)

def generateArgs (func : ℕ) (i : ℕ) : List Expr → State → Option (List StoredValue × State)
  | [], s => some ([], s)
  | arg :: args, s => do
    let (stored, s) ← generate arg none s
    let (stored, s) := stored.turnIntoValueOrCopy (callees.isPassedInReg func i) s
    let (args, s) ← generateArgs func (i + 1) args s
    return (stored :: args, s)

end

def generateIntoDst (expr : Expr) (dst : Addr) (s : State) : Option State := do
  let (stored, s) ← generate callees expr (some dst) s
  return stored.copyTo dst s

/-! ## Statements -/

/-- A statement that stores a value. The return slot is a symbol that no expression names. -/
inductive Stmt where
  | varStmt (local_ : SymbolId) (value : Expr)
  | assignStmt (lhs rhs : Expr)
  | returnStmt (returnSlot : SymbolId) (value : Expr)

def generateStmt : Stmt → State → Option State
  | .varStmt local_ value, s => generateIntoDst callees value ⟨.symbol local_, []⟩ s
  | .assignStmt lhs rhs, s => do
    match ← generate callees lhs none s with
    | (.reference dst, s) => generateIntoDst callees rhs dst s
    | (.value _, _) => none
  | .returnStmt returnSlot value, s => generateIntoDst callees value ⟨.symbol returnSlot, []⟩ s

end Banjo.SSAGen.InPlace
