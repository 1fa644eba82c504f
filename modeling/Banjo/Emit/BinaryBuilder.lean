import Banjo.Target.Wasm.WasmMcode
import Banjo.Utils.WriteBuffer

/-!
# Building binary modules

A section is built in slices, and a branch that can be relaxed is a slice of its own, so that it can
get longer. Definitions and uses of symbols are relative to their slice until the slices are laid
out, the branches relaxed and the symbols resolved. What the encoder of an instruction does to the
builder is a list of actions here, with symbols by number. Offsets are natural numbers, and what the
source cannot do, such as an access out of bounds, is `none`.
-/

namespace Banjo.Emit

open WriteBuffer
open Target.Wasm (GlobalValue)

/-! ## Sections -/

inductive BinSymbolKind where
  | TEXT_FUNC | TEXT_LABEL | DATA_LABEL | ADDR_TABLE | UNKNOWN
  deriving DecidableEq, Repr

inductive BinSymbolUseKind where
  | ABS64 | REL32 | GOTPCREL32 | PLT32
  deriving DecidableEq, Repr

inductive BinSectionKind where
  | TEXT | DATA | BNJATBL
  deriving DecidableEq, Repr

structure SymbolDef where
  name : String
  kind : BinSymbolKind
  global : Bool
  sliceIndex : ℕ := 0
  localOffset : ℕ := 0
  binIndex : ℕ := 0
  binOffset : ℕ := 0
  deriving DecidableEq, Repr

structure SymbolUse where
  index : ℕ
  localOffset : ℕ
  kind : BinSymbolUseKind
  addend : ℤ
  isResolved : Bool := false
  deriving DecidableEq, Repr

structure SectionSlice where
  uses : List SymbolUse := []
  relaxableBranch : Bool := false
  buffer : List Byte := []
  offset : ℕ := 0
  deriving DecidableEq, Repr

/-- The slices of a section, the current one apart. -/
structure SectionBuilder where
  closed : List SectionSlice := []
  cur : SectionSlice := {}
  deriving DecidableEq, Repr

namespace SectionBuilder

def slices (section_ : SectionBuilder) : List SectionSlice := section_.closed ++ [section_.cur]

/-- Where the section is at: the number of the current slice and the offset in it. -/
def mark (section_ : SectionBuilder) : ℕ × ℕ :=
  (section_.closed.length, section_.cur.buffer.length)

def write (section_ : SectionBuilder) (bytes : List Byte) : SectionBuilder :=
  { section_ with cur := { section_.cur with buffer := section_.cur.buffer ++ bytes } }

def addSymbolUse (section_ : SectionBuilder) (index : ℕ) (kind : BinSymbolUseKind) (addend : ℤ) :
    SectionBuilder :=
  { section_ with cur := { section_.cur with
      uses := section_.cur.uses ++ [⟨index, section_.cur.buffer.length, kind, addend, false⟩] } }

def createRelaxableSlice (section_ : SectionBuilder) : SectionBuilder where
  closed := section_.slices
  cur := { relaxableBranch := true }

def endRelaxableSlice (section_ : SectionBuilder) : SectionBuilder where
  closed := section_.slices
  cur := {}

/-- `encode_jmp` and `encode_jcc` of a short branch to a symbol. -/
def branch (section_ : SectionBuilder) (opcode : Byte) (target : ℕ) : SectionBuilder :=
  ((((section_.createRelaxableSlice).write [opcode]).addSymbolUse target .REL32 0).write
    [0]).endRelaxableSlice

end SectionBuilder

/-! ## Modules -/

/-- The conditions of the branches that are emitted. -/
inductive Condition where
  | E | NE | A | AE | B | BE | G | GE | L | LE
  deriving DecidableEq, Repr

namespace Condition

/-- The opcodes of the short branches. -/
def opcode : Condition → Byte
  | .E => 0x74
  | .NE => 0x75
  | .A => 0x77
  | .AE => 0x73
  | .B => 0x72
  | .BE => 0x76
  | .G => 0x7F
  | .GE => 0x7D
  | .L => 0x7C
  | .LE => 0x7E

end Condition

/-- What encoding instructions does to the builder. -/
inductive Action where
  | write (bytes : List Byte)
  /-- A use of a symbol and the zeros it is for, eight of them or four. -/
  | use (target : ℕ) (kind : BinSymbolUseKind) (addend : ℤ) (wide : Bool)
  | jmp (target : ℕ)
  | jcc (condition : Condition) (target : ℕ)
  | allocaStart
  | allocaEnd
  | pushReg (reg : ℕ)
  deriving DecidableEq, Repr

namespace Mcode

structure BasicBlock where
  label : String
  actions : List Action
  deriving DecidableEq, Repr

structure Function where
  name : String
  allocSize : ℕ
  blocks : List BasicBlock
  deriving DecidableEq, Repr

structure Global where
  name : String
  size : ℕ
  alignment : ℕ
  value : GlobalValue
  deriving DecidableEq, Repr

structure Module where
  externalSymbols : List String
  globalSymbols : List String
  functions : List Function
  globals : List Global
  addrTable : Option (List String)
  deriving DecidableEq, Repr

end Mcode

/-! ## The builder -/

structure PushedRegInfo where
  reg : ℕ
  endLabel : ℕ
  deriving DecidableEq, Repr

structure UnwindInfo where
  startSymbolIndex : ℕ := 0
  endSymbolIndex : ℕ := 0
  allocaSize : ℕ := 0
  allocaStartLabel : ℕ := 0
  allocaEndLabel : ℕ := 0
  pushedRegs : List PushedRegInfo := []
  deriving DecidableEq, Repr

structure BinaryBuilder where
  text : SectionBuilder := {}
  data : SectionBuilder := {}
  addrTable : Option SectionBuilder := none
  defs : List SymbolDef := []
  unwindInfo : List UnwindInfo := []
  symbolIndices : List (String × ℕ) := []
  deriving DecidableEq, Repr

namespace BinaryBuilder

variable (toF32 : Double → BitVec 32)

/-- `symbol_indices.insert` keeps what is there. -/
def addSymbolDef (builder : BinaryBuilder) (symbolDef : SymbolDef) : BinaryBuilder :=
  { builder with
    symbolIndices :=
      if (builder.symbolIndices.lookup symbolDef.name).isSome then builder.symbolIndices
      else builder.symbolIndices ++ [(symbolDef.name, builder.defs.length)]
    defs := builder.defs ++ [symbolDef] }

/-- A definition where a section is at. -/
def addDefIn (builder : BinaryBuilder) (section_ : SectionBuilder) (name : String)
    (kind : BinSymbolKind) (global : Bool) : BinaryBuilder :=
  builder.addSymbolDef
    { name, kind, global, sliceIndex := section_.mark.1, localOffset := section_.mark.2 }

def addEmptyLabel (builder : BinaryBuilder) : BinaryBuilder :=
  builder.addDefIn builder.text "" .TEXT_LABEL false

def attachSymbolDef (builder : BinaryBuilder) (index : ℕ) : BinaryBuilder :=
  { builder with
    defs := builder.defs.modify index fun symbolDef ↦
      { symbolDef with sliceIndex := builder.text.mark.1, localOffset := builder.text.mark.2 } }

def generateExternalSymbols (builder : BinaryBuilder) (mod : Mcode.Module) : BinaryBuilder :=
  mod.externalSymbols.foldl (fun builder name ↦
    builder.addSymbolDef { name, kind := .UNKNOWN, global := true }) builder

/-- The symbols of a function, before they are attached. -/
def addFuncSymbols (builder : BinaryBuilder) (func : Mcode.Function) : BinaryBuilder :=
  (func.blocks.foldl (fun builder block ↦
    if block.label = "" then builder else builder.addDefIn builder.text block.label
      .TEXT_LABEL false)
    (builder.addDefIn builder.text func.name .TEXT_FUNC true)).addEmptyLabel

def writeData (builder : BinaryBuilder) (bytes : List Byte) : BinaryBuilder :=
  { builder with data := builder.data.write bytes }

/-- The zeros up to the next multiple of the alignment. -/
def padding (size alignment : ℕ) : ℕ := (alignment - size % alignment) % alignment

def generateGlobal (mod : Mcode.Module) (builder : BinaryBuilder) (global : Mcode.Global) :
    Option BinaryBuilder :=
  let aligned := builder.writeData
    (List.replicate (padding builder.data.cur.buffer.length global.alignment) 0)
  let defined := aligned.addDefIn aligned.data global.name .DATA_LABEL
    (global.name ∈ mod.globalSymbols)
  match global.value with
  | .integer value =>
    if global.size ∈ [1, 2, 4, 8] then
      some (defined.writeData (Memory.toBytes value.toBits global.size))
    else none
  | .floatingPoint value =>
    match global.size with
    | 4 => some (defined.writeData (u32 ((toF32 value).setWidth 64)))
    | 8 => some (defined.writeData (u64 value.bits))
    | _ => none
  | .bytes value | .string value => some (defined.writeData value)
  | .symbolRef name =>
    (defined.symbolIndices.lookup name).map fun index ↦
      { defined with data := (defined.data.addSymbolUse index .ABS64 0).write (u64 0) }
  | .none => some (defined.writeData (List.replicate global.size 0))

def nameBytes (name : String) : List Byte :=
  name.toUTF8.toList.map fun byte ↦ byte.toBitVec

/-- The names in the address table, and then a place for the address of each. -/
def generateAddrTable (builder : BinaryBuilder) : Option (List String) → Option BinaryBuilder
  | none => some builder
  | some entries =>
    let names := entries.flatMap fun name ↦
      u32 (BitVec.ofNat 64 (nameBytes name).length) ++ nameBytes name
    let table := ({} : SectionBuilder).write (u32 (BitVec.ofNat 64 entries.length) ++ names)
    let defined := builder.addDefIn {} "addr_table" .ADDR_TABLE true
    (entries.foldlM (fun (table : SectionBuilder) name ↦
      (defined.symbolIndices.lookup name).map fun index ↦
        (table.addSymbolUse index .ABS64 0).write (List.replicate 8 0)) table).map
      fun table ↦ { defined with addrTable := some table }

/-! ### The text -/

def encodeAction (state : BinaryBuilder × UnwindInfo) : Action → BinaryBuilder × UnwindInfo
  | .write bytes => ({ state.1 with text := state.1.text.write bytes }, state.2)
  | .use target kind addend wide =>
    let zeros := List.replicate (if wide then 8 else 4) 0
    ({ state.1 with text := (state.1.text.addSymbolUse target kind addend).write zeros }, state.2)
  | .jmp target => ({ state.1 with text := state.1.text.branch 0xEB target }, state.2)
  | .jcc condition target =>
    ({ state.1 with text := state.1.text.branch condition.opcode target }, state.2)
  | .allocaStart =>
    (state.1.addEmptyLabel, { state.2 with allocaStartLabel := state.1.defs.length })
  | .allocaEnd => (state.1.addEmptyLabel, { state.2 with allocaEndLabel := state.1.defs.length })
  | .pushReg reg => (state.1.addEmptyLabel,
      { state.2 with pushedRegs := state.2.pushedRegs ++ [⟨reg, state.1.defs.length⟩] })

/-- The builder, the frame and the number of the next symbol. -/
def encodeBlock (state : (BinaryBuilder × UnwindInfo) × ℕ) (block : Mcode.BasicBlock) :
    (BinaryBuilder × UnwindInfo) × ℕ :=
  if block.label = "" then (block.actions.foldl encodeAction state.1, state.2)
  else (block.actions.foldl encodeAction (state.1.1.attachSymbolDef state.2,
    state.1.2), state.2 + 1)

def encodeFunc (state : BinaryBuilder × ℕ) (func : Mcode.Function) : BinaryBuilder × ℕ :=
  let frame : UnwindInfo := { startSymbolIndex := state.2, allocaSize := func.allocSize }
  let body := func.blocks.foldl encodeBlock ((state.1.attachSymbolDef state.2, frame), state.2 + 1)
  let ended := body.1.1.attachSymbolDef body.2
  ({ ended with
      unwindInfo := ended.unwindInfo ++ [{ body.1.2 with endSymbolIndex := body.2 }] }, body.2 + 1)

/-- Everything before the functions are encoded, and the number of the first of their symbols. -/
def prepare (mod : Mcode.Module) : Option (BinaryBuilder × ℕ) := do
  let builder := generateExternalSymbols {} mod
  let firstTextSymbolIndex := builder.defs.length
  let builder := mod.functions.foldl addFuncSymbols builder
  let builder ← mod.globals.foldlM (generateGlobal toF32 mod) builder
  let builder ← builder.generateAddrTable mod.addrTable
  pure (builder, firstTextSymbolIndex)

/-- `encode`, up to the layout. -/
def assemble (mod : Mcode.Module) : Option BinaryBuilder :=
  (prepare toF32 mod).map fun state ↦ (mod.functions.foldl encodeFunc state).1

end BinaryBuilder

/-! ## Layout -/

def computeSliceOffsets : ℕ → List SectionSlice → List SectionSlice
  | _, [] => []
  | offset, slice :: rest =>
    { slice with offset } :: computeSliceOffsets (offset + slice.buffer.length) rest

def pushOutSlices (slices : List SectionSlice) (start offset : ℕ) : List SectionSlice :=
  slices.mapIdx fun i slice ↦
    if start ≤ i then { slice with offset := slice.offset + offset } else slice

/-- Bytes written at a position, past the end of the buffer if need be. -/
def overwrite (buffer : List Byte) (pos : ℕ) (bytes : List Byte) : List Byte :=
  buffer.take pos ++ bytes ++ buffer.drop (pos + bytes.length)

def i8 (value : ℤ) : List Byte := [BitVec.ofInt 8 value]

def i32 (value : ℤ) : List Byte := u32 (BitVec.ofInt 64 value)

def fitsInI8 (value : ℤ) : Bool := -128 ≤ value ∧ value ≤ 127

def computeDisplacement (defs : List SymbolDef) (text : List SectionSlice) (slice : SectionSlice)
    (use : SymbolUse) : Option ℤ := do
  let symbolDef ← defs[use.index]?
  let defSlice ← text[symbolDef.sliceIndex]?
  pure ((defSlice.offset + symbolDef.localOffset : ℕ) - (slice.offset + use.localOffset : ℕ))

/-- The displacement of the branch a slice is, from its end. -/
def computeBranchDisplacement (defs : List SymbolDef) (text : List SectionSlice)
    (slice : SectionSlice) : Option ℤ := do
  let use ← slice.uses.head?
  let opcode ← slice.buffer.head?
  let displacement ← computeDisplacement defs text slice use
  pure (displacement - if opcode = 0x0F ∨ opcode = 0xE9 then 4 else 1)

def relaxJmp (text : List SectionSlice) (i : ℕ) (slice : SectionSlice) : List SectionSlice :=
  pushOutSlices (text.set i { slice with buffer := overwrite slice.buffer 0 (0xE9 :: i32 0) })
    (i + 1) 3

def relaxJcc (text : List SectionSlice) (i : ℕ) (slice : SectionSlice) (use : SymbolUse)
    (opcode : Byte) : List SectionSlice :=
  pushOutSlices (text.set i { slice with
      buffer := overwrite slice.buffer 0 (0x0F :: (opcode + 0x10) :: i32 0)
      uses := { use with localOffset := use.localOffset + 1 } :: slice.uses.tail }) (i + 1) 4

/-- The body of the loop over the slices, on the text and `continue_`. -/
def relaxSlice (defs : List SymbolDef) (state : List SectionSlice × Bool) (i : ℕ) :
    Option (List SectionSlice × Bool) := do
  let slice ← state.1[i]?
  if slice.relaxableBranch then
    let use ← slice.uses.head?
    let opcode ← slice.buffer.head?
    let displacement ← computeBranchDisplacement defs state.1 slice
    if fitsInI8 displacement then
      pure (state.1.set i { slice with
        buffer := overwrite slice.buffer use.localOffset (i8 displacement) }, state.2)
    else if opcode = 0xEB then pure (relaxJmp state.1 i slice, true)
    else if 0x72 ≤ opcode ∧ opcode ≤ 0x7E then pure (relaxJcc state.1 i slice use opcode, true)
    else pure state
  else pure state

def relaxRound (defs : List SymbolDef) (text : List SectionSlice) :
    Option (List SectionSlice × Bool) :=
  (List.range text.length).foldlM (relaxSlice defs) (text, false)

/-- Rounds until none of them relaxes a branch. -/
def applyRelaxation (defs : List SymbolDef) : ℕ → List SectionSlice → Option (List SectionSlice)
  | 0, _ => none
  | fuel + 1, text =>
    (relaxRound defs text).bind fun (text, continue_) ↦
      if continue_ then applyRelaxation defs fuel text else some text

def resolveRelaxableSlice (defs : List SymbolDef) (text : List SectionSlice)
    (slice : SectionSlice) : Option SectionSlice := do
  let use ← slice.uses.head?
  let displacement ← computeBranchDisplacement defs text slice
  pure { slice with
    buffer := overwrite slice.buffer use.localOffset
      (if fitsInI8 displacement then i8 displacement else i32 displacement)
    uses := { use with isResolved := true } :: slice.uses.tail }

/-- Only functions are resolved. The uses done so far are kept on the left. -/
def resolveSymbol (defs : List SymbolDef) (text : List SectionSlice) (slice : SectionSlice)
    (use : SymbolUse) : Option SectionSlice := do
  let symbolDef ← defs[use.index]?
  if symbolDef.kind = .TEXT_FUNC then
    let displacement ← computeDisplacement defs text slice use
    pure { slice with
      buffer := overwrite slice.buffer use.localOffset (i32 (displacement - 4))
      uses := slice.uses ++ [{ use with isResolved := true }] }
  else pure { slice with uses := slice.uses ++ [use] }

/-- Resolving does not move slices, so displacements are those of the text before. -/
def resolveSlice (defs : List SymbolDef) (text : List SectionSlice) (slice : SectionSlice) :
    Option SectionSlice :=
  if slice.relaxableBranch then resolveRelaxableSlice defs text slice
  else slice.uses.foldlM (resolveSymbol defs text) { slice with uses := [] }

def resolveInternalSymbols (defs : List SymbolDef) (text : List SectionSlice) :
    Option (List SectionSlice) := text.mapM (resolveSlice defs text)

/-! ## Baking -/

structure BinSymbolDef where
  name : String
  kind : BinSymbolKind
  offset : ℕ
  global : Bool
  deriving DecidableEq, Repr

structure BinSymbolUse where
  address : ℕ
  addend : ℤ
  symbolIndex : ℕ
  kind : BinSymbolUseKind
  section_ : BinSectionKind
  deriving DecidableEq, Repr

structure BinPushedRegInfo where
  reg : ℕ
  instrEnd : ℕ
  deriving DecidableEq, Repr

structure BinUnwindInfo where
  startAddr : ℕ
  endAddr : ℕ
  allocaSize : ℕ
  allocaInstrStart : ℕ
  allocaInstrEnd : ℕ
  pushedRegs : List BinPushedRegInfo
  deriving DecidableEq, Repr

structure BinModule where
  text : List Byte
  data : List Byte
  symbolDefs : List BinSymbolDef
  symbolUses : List BinSymbolUse
  unwindInfo : List BinUnwindInfo
  bnjatblData : Option (List Byte)
  deriving DecidableEq, Repr

/-- The slices of all the sections, laid out, and the definitions. -/
structure Laid where
  text : List SectionSlice
  data : List SectionSlice
  addrTable : Option (List SectionSlice)
  defs : List SymbolDef
  unwindInfo : List UnwindInfo
  deriving DecidableEq, Repr

namespace Laid

/-- The offset of a definition. Whatever is not a data label is looked up in the text. -/
def binOffset (laid : Laid) (symbolDef : SymbolDef) : Option ℕ :=
  if symbolDef.kind = .UNKNOWN then some 0
  else
    (if symbolDef.kind = .DATA_LABEL then laid.data else laid.text)[symbolDef.sliceIndex]?.map
      fun slice ↦ slice.offset + symbolDef.localOffset

/-- Labels have no index of their own. -/
def bakeSymbolLocation (laid : Laid) (state : List SymbolDef × ℕ) (symbolDef : SymbolDef) :
    Option (List SymbolDef × ℕ) :=
  (laid.binOffset symbolDef).map fun binOffset ↦
    if symbolDef.kind = .TEXT_LABEL then (state.1 ++ [{ symbolDef with binOffset }], state.2)
    else (state.1 ++ [{ symbolDef with binOffset, binIndex := state.2 }], state.2 + 1)

def bakeSymbolLocations (laid : Laid) : Option (List SymbolDef) :=
  (laid.defs.foldlM laid.bakeSymbolLocation ([], 0)).map Prod.fst

/-- The uses of a slice that are left, as `bake` appends them. -/
def bakeUses (defs : List SymbolDef) (kind : BinSectionKind) (slice : SectionSlice) :
    Option (List BinSymbolUse) :=
  (slice.uses.filter fun use ↦ !use.isResolved).mapM fun use ↦
    defs[use.index]?.map fun symbolDef ↦
      { address := slice.offset + use.localOffset, addend := use.addend
        symbolIndex := symbolDef.binIndex, kind := use.kind, section_ := kind }

def bake (defs : List SymbolDef) (kind : BinSectionKind) (slices : List SectionSlice) :
    Option (List Byte × List BinSymbolUse) :=
  (slices.mapM (bakeUses defs kind)).map fun uses ↦
    (slices.flatMap SectionSlice.buffer, uses.flatten)

/-- On Darwin, names start with an underscore. -/
def bakeSymbolDefs (isDarwin : Bool) (defs : List SymbolDef) : List BinSymbolDef :=
  (defs.filter fun symbolDef ↦ symbolDef.kind ≠ .TEXT_LABEL).map fun symbolDef ↦
    { name := if isDarwin then "_" ++ symbolDef.name else symbolDef.name
      kind := symbolDef.kind, offset := symbolDef.binOffset, global := symbolDef.global }

def bakeFrame (defs : List SymbolDef) (frame : UnwindInfo) : Option BinUnwindInfo := do
  let pushedRegs ← frame.pushedRegs.mapM fun pushed ↦
    defs[pushed.endLabel]?.map fun symbolDef ↦ ⟨pushed.reg, symbolDef.binOffset⟩
  let first ← defs[frame.startSymbolIndex]?
  let last ← defs[frame.endSymbolIndex]?
  let allocaStart ← defs[frame.allocaStartLabel]?
  let allocaEnd ← defs[frame.allocaEndLabel]?
  pure { startAddr := first.binOffset, endAddr := last.binOffset, allocaSize := frame.allocaSize
         allocaInstrStart := allocaStart.binOffset, allocaInstrEnd := allocaEnd.binOffset
         pushedRegs := pushedRegs.reverse }

def createModule (isDarwin : Bool) (laid : Laid) : Option (List SymbolDef × BinModule) := do
  let defs ← laid.bakeSymbolLocations
  let text ← bake defs .TEXT laid.text
  let data ← bake defs .DATA laid.data
  let addrTable ← (laid.addrTable.map (bake defs .BNJATBL)).getD (some ([], []))
  let unwindInfo ← laid.unwindInfo.mapM (bakeFrame defs)
  pure (defs, {
    text := text.1, data := data.1
    symbolDefs := bakeSymbolDefs isDarwin defs
    symbolUses := text.2 ++ data.2 ++ addrTable.2
    unwindInfo
    bnjatblData := laid.addrTable.map fun _ ↦ addrTable.1 })

end Laid

namespace BinaryBuilder

/-- The text with its branches relaxed. -/
def relaxed (fuel : ℕ) (builder : BinaryBuilder) : Option (List SectionSlice) :=
  applyRelaxation builder.defs fuel (computeSliceOffsets 0 builder.text.slices)

/-- The rest of `encode`: the slices are laid out, relaxed and resolved. -/
def layOut (fuel : ℕ) (builder : BinaryBuilder) : Option Laid := do
  let text ← builder.relaxed fuel
  let text ← resolveInternalSymbols builder.defs text
  pure { text, data := computeSliceOffsets 0 builder.data.slices
         addrTable := builder.addrTable.map fun table ↦ computeSliceOffsets 0 table.slices
         defs := builder.defs, unwindInfo := builder.unwindInfo }

end BinaryBuilder

end Banjo.Emit
