import Banjo.Target.DataLayout

/-!
# The arguments of a call

The code that the call builder emits for the arguments of a call, and the code at the entry of a
function that stores them into the slots of the parameters. The code has no branches, so that each
piece is given by what it does when it runs: it allocates stack slots, loads, stores and copies.
-/

open List Option

namespace Banjo.SSAGen.CallArgs

open SSA (Primitive)
open Target

/-- A byte in memory. The bytes of an address are kept apart from the bytes of numbers. -/
inductive Cell where
  | byte (byte : BitVec 8)
  | pointer (addr : ℤ) (i : ℕ)
  deriving DecidableEq, Repr

/-- A value in a register. -/
inductive Word where
  | addr (addr : ℤ)
  | data (cells : List Cell)
  deriving DecidableEq, Repr

/-- The objects are the stack slots and variables that exist, with their addresses and sizes. -/
structure State where
  mem : ℤ → Cell
  objects : List (ℤ × ℕ) := []

/-- Where stack slots go: apart from all other objects. -/
structure Allocator where
  place : List (ℤ × ℕ) → ℕ → ℤ
  fresh : ∀ objects size, ∀ object ∈ objects,
    place objects size + size ≤ object.1 ∨ object.1 + object.2 ≤ place objects size

abbrev GenM := StateT State Option

theorem statePure_apply {σ α : Type} (a : α) (s : σ) :
    (StateT.pure a : StateT σ Option α) s = some (a, s) :=
  rfl

variable (platform : Platform)

def Word.cells : Word → List Cell
  | .addr a => (range (primitiveSize platform .ADDR)).map (Cell.pointer a)
  | .data cells => cells

/-! ## Instructions -/

def read (mem : ℤ → Cell) (addr : ℤ) (size : ℕ) : List Cell :=
  (range size).map fun i : ℕ ↦ mem (addr + i)

def write (mem : ℤ → Cell) (addr : ℤ) (cells : List Cell) : ℤ → Cell := fun a ↦
  if addr ≤ a then cells.getD (a - addr).toNat (mem a) else mem a

variable (alloc : Allocator)

def alloca (type : LayoutType) : GenM ℤ := fun s ↦
  let addr := alloc.place s.objects (getSize platform type)
  some (addr, { s with objects := s.objects ++ [(addr, getSize platform type)] })

def load (type : LayoutType) (addr : ℤ) : GenM Word := fun s ↦
  some (.data (read s.mem addr (getSize platform type)), s)

def store (word : Word) (addr : ℤ) : GenM Unit := fun s ↦
  some ((), { s with mem := write s.mem addr (word.cells platform) })

def copy (dst src : ℤ) (type : LayoutType) : GenM Unit := fun s ↦
  some ((), { s with mem := write s.mem dst (read s.mem src (getSize platform type)) })

def offsetptr (addr : ℤ) (offset : ℕ) (type : LayoutType) : ℤ :=
  addr + offset * getSize platform type

def loadarg (args : List Word) (index : ℕ) : GenM Word := fun s ↦
  args[index]?.map fun word ↦ (word, s)

/-! ## The caller -/

inductive StoredValue where
  | value (word : Word) (type : LayoutType)
  | reference (addr : ℤ) (type : LayoutType)
  | undefined (type : LayoutType)

namespace StoredValue

def type : StoredValue → LayoutType
  | value _ type | reference _ type | undefined type => type

/-- An operand: a word and its type. -/
def turnIntoValueOrCopy : StoredValue → GenM (Word × LayoutType)
  | value word type => return (word, type)
  | reference addr type =>
    if fitsInRegister platform type then
      return (← load platform type addr, type)
    else do
      let dst ← alloca platform alloc type
      copy platform dst addr type
      return (.addr dst, Primitive.ADDR)
  | undefined type =>
    if fitsInRegister platform type then
      return (.data (replicate (getSize platform type) (.byte 0)), type)
    else do
      -- The register with the slot is left without a type.
      let slot ← alloca platform alloc type
      return (.addr slot, Primitive.VOID)

def turnIntoReference : StoredValue → GenM ℤ
  | value word type => do
    let dst ← alloca platform alloc type
    store platform word dst
    return dst
  | reference addr _ => return addr
  | undefined _ => failure

end StoredValue

/-- `CallSSABuilder::add_arg`: the operands of an argument. -/
def addArg (value : StoredValue) : GenM (List (Word × LayoutType)) := do
  let passMethod := getArgPassMethod platform value.type
  if passMethod.numArgs = 1 then
    return [← value.turnIntoValueOrCopy platform alloc]
  else
    let arg ← value.turnIntoReference platform alloc
    (range passMethod.numArgs).mapM fun i ↦ do
      let ptr := offsetptr platform arg i Primitive.U64
      let type := if i = passMethod.numArgs - 1 then passMethod.lastArgType else Primitive.U64
      return (← load platform type ptr, type)

inductive ReturnMethod where
  | NO_RETURN_VALUE | IN_REGISTER | VIA_POINTER_ARG
  deriving DecidableEq, Repr

def getReturnMethod (returnType : LayoutType) : ReturnMethod :=
  match returnType with
  | .primitive .VOID 1 => .NO_RETURN_VALUE
  | _ => if fitsInRegister platform returnType then .IN_REGISTER else .VIA_POINTER_ARG

/-- `CallSSABuilder::set_callee`: the operands before the arguments. -/
def setCallee (callee : Word) (returnType : LayoutType) (hint : Option ℤ) :
    GenM (List (Word × LayoutType)) := do
  if getReturnMethod platform returnType = .VIA_POINTER_ARG then
    let returnValuePtr ← match hint with
      | some dst => pure dst
      | none => alloca platform alloc returnType
    return [(callee, Primitive.VOID), (.addr returnValuePtr, Primitive.ADDR)]
  else
    return [(callee, returnType)]

/-- The operands of a call. -/
def generateCall (callee : Word) (returnType : LayoutType) (hint : Option ℤ)
    (values : List StoredValue) : GenM (List (Word × LayoutType)) := do
  let operands ← setCallee platform alloc callee returnType hint
  let args ← values.mapM (addArg platform alloc)
  return operands ++ args.flatten

/-! ## The callee -/

/-- The types that an argument of this type is passed as. -/
def paramTypes (type : LayoutType) : List LayoutType :=
  let passMethod := getArgPassMethod platform type
  if passMethod.viaPointer then [.primitive .ADDR]
  else replicate (passMethod.numArgs - 1) (.primitive platform.params.usizeType) ++
    [passMethod.lastArgType]

def generateParams (returnType : LayoutType) (types : List LayoutType) : List LayoutType :=
  (if getReturnMethod platform returnType = .VIA_POINTER_ARG then [.primitive .ADDR] else []) ++
    types.flatMap (paramTypes platform)

/-- The slot of a parameter whose first operand is number `index`. -/
def generateParamSlot (args : List Word) (type : LayoutType) (index : ℕ) : GenM ℤ := do
  let passMethod := getArgPassMethod platform type
  let slot ← alloca platform alloc (if passMethod.viaPointer then Primitive.ADDR else type)
  (range passMethod.numArgs).forM fun i ↦ do
    let word ← loadarg args (index + i)
    let dst := if i ≠ 0 then offsetptr platform slot 1 platform.params.usizeType else slot
    store platform word dst
  return slot

def generateParamSlots (args : List Word) : List LayoutType → ℕ → GenM (List ℤ)
  | [], _ => return []
  | type :: types, index => do
    let slot ← generateParamSlot platform alloc args type index
    let slots ← generateParamSlots args types
      (index + (getArgPassMethod platform type).numArgs)
    return slot :: slots

/-- The code at the entry of a function, up to the slots of its parameters. -/
def generateFuncEntry (returnType : LayoutType) (types : List LayoutType) (args : List Word) :
    GenM (List ℤ) := do
  if getReturnMethod platform returnType = .VIA_POINTER_ARG then
    let slot ← alloca platform alloc Primitive.ADDR
    store platform (← loadarg args 0) slot
    generateParamSlots platform alloc args types 1
  else
    generateParamSlots platform alloc args types 0

/-!
## What a call passes

An argument that fits into a register is passed as its value. A larger one is passed in two parts,
the second of which may read a few bytes behind the argument, or by a pointer to a new copy. Nothing
that the call builder emits changes an object that exists already.
-/

variable {platform : Platform}

/-! ## Memory -/

@[simp]
theorem length_read (mem : ℤ → Cell) (addr : ℤ) (size : ℕ) :
    (read mem addr size).length = size := by
  simp [read]

variable {mem : ℤ → Cell}

theorem getElem?_read {addr : ℤ} {size k : ℕ} (h : k < size) :
    (read mem addr size)[k]? = some (mem (addr + k)) := by
  rw [read, getElem?_map, getElem?_range h, map_some]

theorem read_add (mem : ℤ → Cell) (addr : ℤ) (m n : ℕ) :
    read mem addr (m + n) = read mem addr m ++ read mem (addr + m) n := by
  simp only [read, List.range_add, List.map_append, List.map_map]
  congr 2
  funext k
  simp [add_assoc]

theorem take_read {addr : ℤ} {m n : ℕ} (h : m ≤ n) :
    (read mem addr n).take m = read mem addr m := by
  obtain ⟨k, rfl⟩ := Nat.exists_eq_add_of_le h
  rw [read_add, take_left' (length_read _ _ _)]

theorem read_congr {mem mem' : ℤ → Cell} {addr : ℤ} {size : ℕ}
    (h : ∀ k < size, mem' (addr + k) = mem (addr + k)) : read mem' addr size = read mem addr size :=
  map_congr_left fun k hk ↦ h k (mem_range.mp hk)

theorem write_of_outside {addr a : ℤ} {cells : List Cell} (h : a < addr ∨ addr + cells.length ≤ a) :
    write mem addr cells a = mem a := by
  unfold write
  split_ifs with hle
  · rw [getD_eq_getElem?_getD, getElem?_eq_none (by omega), getD_none]
  · rfl

theorem write_of_inside {addr : ℤ} {cells : List Cell} {k : ℕ} (h : k < cells.length) :
    write mem addr cells (addr + k) = cells[k] := by
  unfold write
  rw [if_pos (by omega), getD_eq_getElem?_getD, show (addr + k - addr).toNat = k by omega,
    getElem?_eq_getElem h, getD_some]

theorem read_write_of_disjoint {addr a : ℤ} {cells : List Cell} {size : ℕ}
    (h : a + size ≤ addr ∨ addr + cells.length ≤ a) :
    read (write mem addr cells) a size = read mem a size :=
  read_congr fun k hk ↦ write_of_outside (by omega)

theorem read_write_self (mem : ℤ → Cell) (addr : ℤ) (cells : List Cell) {size : ℕ}
    (h : size ≤ cells.length) : read (write mem addr cells) addr size = cells.take size := by
  refine ext_getElem (by simp [h]) fun k hk hk' ↦ ?_
  rw [length_read] at hk
  have hget := @getElem?_read (write mem addr cells) addr size k hk
  rw [getElem?_eq_getElem (by rwa [length_read]), write_of_inside (by omega)] at hget
  rw [some.inj hget, getElem_take]

@[simp]
theorem write_nil (mem : ℤ → Cell) (addr : ℤ) : write mem addr [] = mem := by
  funext a
  simp [write]

theorem write_append (mem : ℤ → Cell) (addr : ℤ) (cells cells' : List Cell) :
    write (write mem addr cells) (addr + cells.length) cells' =
      write mem addr (cells ++ cells') := by
  funext a
  by_cases hlow : a < addr
  · rw [write_of_outside (by omega), write_of_outside (by omega), write_of_outside (by omega)]
  · obtain ⟨k, rfl⟩ : ∃ k : ℕ, a = addr + k := ⟨(a - addr).toNat, by omega⟩
    obtain hk | hk := lt_or_ge k cells.length
    · rw [write_of_outside (by omega), write_of_inside hk,
        write_of_inside (by rw [length_append]; omega), getElem_append_left hk]
    · obtain ⟨j, rfl⟩ : ∃ j, k = cells.length + j := ⟨k - cells.length, by omega⟩
      obtain hj | hj := lt_or_ge j cells'.length
      · have hlength : cells.length + j < (cells ++ cells').length := by
          rw [length_append]
          omega
        rw [show addr + ((cells.length + j : ℕ) : ℤ) = addr + cells.length + j by push_cast; omega,
          write_of_inside hj,
          show addr + (cells.length : ℤ) + j = addr + ((cells.length + j : ℕ) : ℤ) by
            push_cast; omega,
          write_of_inside hlength, getElem_append_right (by omega)]
        congr 1
        omega
      · rw [write_of_outside (by push_cast; omega), write_of_outside (by push_cast; omega),
          write_of_outside (by rw [length_append]; push_cast; omega)]

/-! ## Objects -/

/-- The objects are still there, and their contents. -/
structure Keeps (s s' : State) : Prop where
  objects : s.objects ⊆ s'.objects
  mem : ∀ object ∈ s.objects, read s'.mem object.1 object.2 = read s.mem object.1 object.2

theorem Keeps.refl (s : State) : Keeps s s := ⟨List.Subset.refl _, fun _ _ ↦ rfl⟩

theorem Keeps.trans {s s' s'' : State} (h : Keeps s s') (h' : Keeps s' s'') : Keeps s s'' :=
  ⟨List.Subset.trans h.objects h'.objects, fun object hobject ↦
    (h'.mem object (h.objects hobject)).trans (h.mem object hobject)⟩

/-- A new object may be written. -/
theorem keeps_write (alloc : Allocator) (s : State) {size : ℕ} {cells : List Cell}
    (h : cells.length ≤ size) :
    Keeps s ⟨write s.mem (alloc.place s.objects size) cells,
      s.objects ++ [(alloc.place s.objects size, size)]⟩ := by
  refine ⟨subset_append_left _ _, fun object hobject ↦ ?_⟩
  have := alloc.fresh s.objects size object hobject
  exact read_write_of_disjoint (by omega)

/-! ## Values -/

inductive Kind where
  | VALUE | REFERENCE | UNDEFINED
  deriving DecidableEq, Repr

namespace StoredValue

def kind : StoredValue → Kind
  | value _ _ => .VALUE
  | reference _ _ => .REFERENCE
  | undefined _ => .UNDEFINED

variable (platform) (s : State)

/-- The bytes of a value that has any. -/
def cells : StoredValue → Option (List Cell)
  | value word _ => some (word.cells platform)
  | reference addr type => some (read s.mem addr (getSize platform type))
  | undefined _ => none

/-- A value in a register has the size of its type, and fits; a reference is to an object. -/
def Valid : StoredValue → Prop
  | value word type =>
    fitsInRegister platform type ∧ (word.cells platform).length = getSize platform type
  | reference addr type => (addr, getSize platform type) ∈ s.objects
  | undefined _ => True

variable {platform} {s} {s' : State} {value : StoredValue}

theorem Valid.keeps (h : value.Valid platform s) (hkeeps : Keeps s s') :
    value.Valid platform s' := by
  cases value with
  | value word type => exact h
  | reference addr type => exact hkeeps.objects h
  | undefined type => trivial

theorem cells_keeps (h : value.Valid platform s) (hkeeps : Keeps s s') :
    value.cells platform s' = value.cells platform s := by
  cases value with
  | value word type => rfl
  | reference addr type => exact congrArg some (hkeeps.mem _ h)
  | undefined type => rfl

end StoredValue

/-! ## Operands -/

/-- The sizes of the words that an argument is passed as. -/
def wordSizes (platform : Platform) (type : LayoutType) : List ℕ :=
  if fitsInRegister platform type then [getSize platform type]
  else if Splits platform type then [8, getSize platform (.sized (tailSize platform type))]
  else [primitiveSize platform .ADDR]

/-- The bytes that are passed. For a split argument these may be more than it has. -/
def passedSize (platform : Platform) (type : LayoutType) : ℕ := (wordSizes platform type).sum

/-- The words are those of an argument of this type. -/
def Fills (platform : Platform) (type : LayoutType) (words : List Word) : Prop :=
  words.map (fun word ↦ (word.cells platform).length) = wordSizes platform type

/-- The words carry the bytes, or a pointer to an object that has them. -/
def Encodes (platform : Platform) (s : State) (type : LayoutType) (cells : List Cell)
    (words : List Word) : Prop :=
  if fitsInRegister platform type ∨ Splits platform type then
    cells.length = getSize platform type ∧ cells <+: words.flatMap (Word.cells platform)
  else ∃ copy, words = [.addr copy] ∧ (copy, getSize platform type) ∈ s.objects ∧
    read s.mem copy (getSize platform type) = cells

variable {type : LayoutType}

theorem Encodes.keeps {s s' : State} {cells : List Cell} {words : List Word}
    (h : Encodes platform s type cells words) (hkeeps : Keeps s s') :
    Encodes platform s' type cells words := by
  unfold Encodes at h ⊢
  split_ifs at h ⊢
  · exact h
  · obtain ⟨copy, hwords, hobject, hread⟩ := h
    exact ⟨copy, hwords, hkeeps.objects hobject, (hkeeps.mem _ hobject).trans hread⟩

theorem length_addr_cells (addr : ℤ) :
    ((Word.addr addr).cells platform).length = primitiveSize platform .ADDR := by
  simp [Word.cells]

theorem usizeType_of_splits (h : Splits platform type) : platform.params.usizeType = .U64 := by
  cases platform with
  | WASM => exact absurd h.1 (by decide)
  | _ => rfl

/-- The types of the operands are the types of the parameters. -/
theorem paramTypes_eq (platform : Platform) (type : LayoutType) :
    paramTypes platform type =
      if fitsInRegister platform type then [type]
      else if Splits platform type then
        [.primitive .U64, .sized (tailSize platform type)]
      else [.primitive .ADDR] := by
  unfold paramTypes
  rw [getArgPassMethod_eq]
  split_ifs with hfits hsplits
  · rfl
  · simp [usizeType_of_splits hsplits]
  · simp [ArgPassMethod.pointer]

theorem numArgs_eq (platform : Platform) (type : LayoutType) :
    (getArgPassMethod platform type).numArgs = (wordSizes platform type).length := by
  rw [getArgPassMethod_eq, wordSizes]
  split_ifs <;> rfl

theorem viaPointer_eq (platform : Platform) (type : LayoutType) :
    (getArgPassMethod platform type).viaPointer =
      decide ¬(fitsInRegister platform type ∨ Splits platform type) := by
  rw [getArgPassMethod_eq]
  split_ifs with hfits hsplits
  · simp [hfits]
  · simp [hsplits]
  · simp [hfits, hsplits, ArgPassMethod.pointer]

theorem passedSize_of_splits (hfits : ¬fitsInRegister platform type)
    (hsplits : Splits platform type) :
    passedSize platform type = 8 + getSize platform (.sized (tailSize platform type)) := by
  simp [passedSize, wordSizes, hfits, hsplits]

theorem Fills.length {words : List Word} (h : Fills platform type words) :
    words.length = (getArgPassMethod platform type).numArgs := by
  rw [numArgs_eq, ← h, length_map]

theorem Fills.length_flatMap {words : List Word} (h : Fills platform type words) :
    (words.flatMap (Word.cells platform)).length = passedSize platform type := by
  rw [List.length_flatMap, passedSize, ← h]

/-! ## One argument -/

/-- The operands are those for the value. -/
structure Passes (platform : Platform) (s s' : State) (value : StoredValue)
    (operands : List (Word × LayoutType)) : Prop where
  types : operands.map Prod.snd = paramTypes platform value.type
  fills : Fills platform value.type (operands.map Prod.fst)
  encodes : ∀ cells, value.cells platform s = some cells →
    Encodes platform s' value.type cells (operands.map Prod.fst)
  -- The second part is read where the first one ends, whatever is there.
  parts : ∀ addr type, value = .reference addr type → ¬fitsInRegister platform type →
    Splits platform type → ∀ size, (addr, size) ∈ s.objects → passedSize platform type ≤ size →
      (operands.map Prod.fst).flatMap (Word.cells platform) =
        read s.mem addr (passedSize platform type)

theorem Passes.keeps_left {s₀ s s' : State} {value : StoredValue}
    {operands : List (Word × LayoutType)} (h : Passes platform s s' value operands)
    (hvalid : value.Valid platform s₀) (hkeeps : Keeps s₀ s) :
    Passes platform s₀ s' value operands where
  types := h.types
  fills := h.fills
  encodes := fun cells hcells ↦ h.encodes cells
    (by rw [StoredValue.cells_keeps hvalid hkeeps, hcells])
  parts := fun addr type hvalue hfits hsplits size hobject hsize ↦ by
    rw [h.parts addr type hvalue hfits hsplits size (hkeeps.objects hobject) hsize,
      ← take_read hsize, hkeeps.mem _ hobject, take_read hsize]

theorem Passes.keeps_right {s s' s'' : State} {value : StoredValue}
    {operands : List (Word × LayoutType)} (h : Passes platform s s' value operands)
    (hkeeps : Keeps s' s'') : Passes platform s s'' value operands where
  types := h.types
  fills := h.fills
  encodes := fun cells hcells ↦ (h.encodes cells hcells).keeps hkeeps
  parts := h.parts

theorem forall₂_keeps_left {s₀ s s' : State} {values : List StoredValue}
    {operandss : List (List (Word × LayoutType))}
    (hvalid : ∀ value ∈ values, value.Valid platform s₀) (hkeeps : Keeps s₀ s)
    (hall : List.Forall₂ (Passes platform s s') values operandss) :
    List.Forall₂ (Passes platform s₀ s') values operandss := by
  induction hall with
  | nil => exact .nil
  | cons hpasses _ ih =>
    rw [forall_mem_cons] at hvalid
    exact .cons (hpasses.keeps_left hvalid.1 hkeeps) (ih hvalid.2)

theorem addArg_of_numArgs_eq_one (alloc : Allocator) {value : StoredValue}
    (h : fitsInRegister platform value.type ∨ ¬Splits platform value.type) :
    addArg platform alloc value = (do return [← value.turnIntoValueOrCopy platform alloc]) := by
  have hnum : (getArgPassMethod platform value.type).numArgs = 1 := by
    rw [getArgPassMethod_eq]
    split_ifs with hfits hsplits
    · rfl
    · exact absurd hsplits (h.resolve_left hfits)
    · rfl
  exact if_pos hnum

/-- A reference that is passed in parts is read up to the end of the second part. -/
theorem addArg_reference_of_splits (alloc : Allocator) (s : State) (addr : ℤ)
    (hfits : ¬fitsInRegister platform type) (hsplits : Splits platform type) :
    addArg platform alloc (.reference addr type) s =
      some ([(.data (read s.mem addr 8), .primitive .U64),
        (.data (read s.mem (addr + 8) (getSize platform (.sized (tailSize platform type)))),
          .sized (tailSize platform type))], s) := by
  have hmethod : getArgPassMethod platform type = ⟨false, 2, .sized (tailSize platform type)⟩ := by
    rw [getArgPassMethod_eq, if_neg hfits, if_pos hsplits]
  have hsize : getSize platform (.primitive .U64) = 8 := rfl
  simp only [addArg, StoredValue.type, hmethod, StoredValue.turnIntoReference,
    show range 2 = [0, 1] from rfl, mapM_cons, mapM_nil]
  simp [load, offsetptr, hsize, bind, StateT.bind, pure, statePure_apply]

theorem addArg_spec (alloc : Allocator) {s : State} {value : StoredValue}
    (hvalid : value.Valid platform s)
    (hundefined : value.kind = .UNDEFINED → fitsInRegister platform value.type) :
    ∃ operands s', addArg platform alloc value s = some (operands, s') ∧ Keeps s s' ∧
      Passes platform s s' value operands := by
  cases value with
  | value word type =>
    obtain ⟨hfits, hlength⟩ := hvalid
    refine ⟨[(word, type)], s, ?_, .refl s, ?_, ?_, ?_, nofun⟩
    · rw [addArg_of_numArgs_eq_one alloc (Or.inl hfits)]
      rfl
    · simp [paramTypes_eq, StoredValue.type, hfits]
    · simp [Fills, wordSizes, StoredValue.type, hfits, hlength]
    · rintro cells hcells
      obtain rfl : word.cells platform = cells := some.inj hcells
      simp [Encodes, StoredValue.type, hfits, hlength]
  | undefined type =>
    have hfits : fitsInRegister platform type := hundefined rfl
    refine ⟨[(.data (replicate (getSize platform type) (.byte 0)), type)], s, ?_, .refl s,
      ?_, ?_, nofun, nofun⟩
    · rw [addArg_of_numArgs_eq_one alloc (Or.inl hfits)]
      simp [StoredValue.turnIntoValueOrCopy, hfits, bind, StateT.bind, pure, statePure_apply]
    · simp [paramTypes_eq, StoredValue.type, hfits]
    · simp [Fills, wordSizes, StoredValue.type, hfits, Word.cells]
  | reference addr type =>
    by_cases hfits : fitsInRegister platform type
    · refine ⟨[(.data (read s.mem addr (getSize platform type)), type)], s, ?_, .refl s,
        ?_, ?_, ?_, ?_⟩
      · rw [addArg_of_numArgs_eq_one alloc (Or.inl hfits)]
        simp [StoredValue.turnIntoValueOrCopy, hfits, load, bind, StateT.bind, pure,
          statePure_apply]
      · simp [paramTypes_eq, StoredValue.type, hfits]
      · simp [Fills, wordSizes, StoredValue.type, hfits, Word.cells]
      · rintro cells hcells
        obtain rfl : read s.mem addr (getSize platform type) = cells := some.inj hcells
        simp [Encodes, StoredValue.type, hfits, Word.cells]
      · rintro _ _ ⟨⟩ hfits'
        exact absurd hfits hfits'
    · by_cases hsplits : Splits platform type
      · refine ⟨_, s, addArg_reference_of_splits alloc s addr hfits hsplits, .refl s,
          ?_, ?_, ?_, ?_⟩
        · simp [paramTypes_eq, StoredValue.type, hfits, hsplits]
        · simp [Fills, wordSizes, StoredValue.type, hfits, hsplits, Word.cells]
        · rintro cells hcells
          obtain rfl : read s.mem addr (getSize platform type) = cells := some.inj hcells
          have htail := tailSize_le_getSize_sized platform hsplits
          have hle : getSize platform type ≤ passedSize platform type := by
            rw [passedSize_of_splits hfits hsplits]
            unfold tailSize at htail ⊢
            omega
          have hread := take_prefix (getSize platform type)
            (read s.mem addr (passedSize platform type))
          rw [take_read hle, passedSize_of_splits hfits hsplits, read_add] at hread
          simpa [Encodes, StoredValue.type, hfits, hsplits, Word.cells] using hread
        · rintro _ _ ⟨⟩ - - size - -
          rw [passedSize_of_splits hfits hsplits, read_add]
          simp [Word.cells]
      · -- The argument is copied into a slot of its own.
        have hlength : (read s.mem addr (getSize platform type)).length ≤ getSize platform type :=
          (length_read _ _ _).le
        refine ⟨[(.addr (alloc.place s.objects (getSize platform type)), .primitive .ADDR)],
          ⟨write s.mem (alloc.place s.objects (getSize platform type))
              (read s.mem addr (getSize platform type)),
            s.objects ++ [(alloc.place s.objects (getSize platform type), getSize platform type)]⟩,
          ?_, keeps_write alloc s hlength, ?_, ?_, ?_, ?_⟩
        · rw [addArg_of_numArgs_eq_one alloc (Or.inr hsplits)]
          simp [StoredValue.turnIntoValueOrCopy, hfits, alloca, copy, bind, StateT.bind, pure,
            statePure_apply]
        · simp [paramTypes_eq, StoredValue.type, hfits, hsplits]
        · simp [Fills, wordSizes, StoredValue.type, hfits, hsplits, length_addr_cells]
        · rintro cells hcells
          obtain rfl : read s.mem addr (getSize platform type) = cells := some.inj hcells
          have hself := read_write_self s.mem (alloc.place s.objects (getSize platform type))
            (read s.mem addr (getSize platform type)) (length_read _ _ _).ge
          rw [take_read le_rfl] at hself
          simp [Encodes, StoredValue.type, hfits, hsplits, hself]
        · rintro _ _ ⟨⟩ - hsplits'
          exact absurd hsplits' hsplits

/-! ## All arguments -/

theorem mapM_addArg_spec (alloc : Allocator) (values : List StoredValue) {s : State}
    (hvalid : ∀ value ∈ values, value.Valid platform s)
    (hundefined : ∀ value ∈ values, value.kind = .UNDEFINED → fitsInRegister platform value.type) :
    ∃ operandss s', values.mapM (addArg platform alloc) s = some (operandss, s') ∧ Keeps s s' ∧
      List.Forall₂ (Passes platform s s') values operandss := by
  induction values generalizing s with
  | nil => exact ⟨[], s, rfl, .refl s, .nil⟩
  | cons value values ih =>
    rw [forall_mem_cons] at hvalid hundefined
    obtain ⟨operands, t, hadd, hkeeps, hpasses⟩ := addArg_spec alloc hvalid.1 hundefined.1
    obtain ⟨operandss, s', hmap, hkeeps', hall⟩ :=
      ih (fun value hvalue ↦ (hvalid.2 value hvalue).keeps hkeeps) hundefined.2
    refine ⟨operands :: operandss, s', ?_, hkeeps.trans hkeeps', ?_⟩
    · rw [mapM_cons]
      simp [bind, StateT.bind, hadd, hmap, pure, statePure_apply]
    · refine .cons (hpasses.keeps_right hkeeps') ?_
      exact forall₂_keeps_left hvalid.2 hkeeps hall

end Banjo.SSAGen.CallArgs
