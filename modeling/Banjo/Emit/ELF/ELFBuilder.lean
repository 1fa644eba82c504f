import Banjo.Emit.BinaryBuilder

/-!
# ELF object files

`ELFBuilder`: the sections of an object file are made of a binary module. The definitions of the
module are put into the symbol table in two passes, the local ones first, and where each of them
went is kept by its index for the relocations. Offsets into a string table and indices of symbols
have 32 bits.
-/

namespace Banjo.Emit.ELF

open WriteBuffer (Byte)

/-! ## Binary modules -/

structure BinSymbolDef where
  name : List Byte
  kind : BinSymbolKind
  offset : ℕ
  global : Bool
  deriving DecidableEq, Repr

/-- All kinds of uses, those of Mach-O files too. -/
inductive BinSymbolUseKind where
  | ABS64 | REL32 | GOTPCREL32 | PLT32 | LABEL_BRANCH
  | ADR_PREL_PG_HI21 | ADD_ABS_LO12_NC | CALL26 | ADR_GOT_PAGE | LD64_GOT_LO12_NC
  | BRANCH26 | PAGE21 | PAGEOFF12 | GOT_LOAD_PAGE21 | GOT_LOAD_PAGEOFF12
  deriving DecidableEq, Repr

structure BinSymbolUse where
  address : ℕ
  addend : ℤ
  symbolIndex : ℕ
  kind : BinSymbolUseKind
  section_ : BinSectionKind
  deriving DecidableEq, Repr

structure BinModule where
  text : List Byte
  data : List Byte
  symbolDefs : List BinSymbolDef
  symbolUses : List BinSymbolUse
  bnjatblData : Option (List Byte)

/-! ## The format -/

structure ELFSymbol where
  nameOffset : ℕ
  binding : ℕ
  type : ℕ
  sectionIndex : ℕ
  value : ℕ
  size : ℕ := 0
  deriving DecidableEq, Repr

structure ELFRelocation where
  offset : ℕ
  symbolIndex : ℕ
  type : ℕ
  addend : ℤ
  deriving DecidableEq, Repr

inductive ELFData where
  | binary (data : List Byte)
  | symbols (symbols : List ELFSymbol)
  | relocations (relocations : List ELFRelocation)
  deriving DecidableEq, Repr

structure ELFSection where
  nameOffset : ℕ
  type : ℕ
  flags : ℕ := 0
  link : ℕ := 0
  info : ℕ := 0
  alignment : ℕ
  entrySize : ℕ := 0
  data : ELFData
  deriving DecidableEq, Repr

structure ELFFile where
  machine : ℕ
  sections : List ELFSection
  deriving DecidableEq, Repr

/-- The architectures object files can be built for. -/
inductive Architecture where
  | X86_64 | AARCH64
  deriving DecidableEq, Repr

def Architecture.machine : Architecture → ℕ
  | X86_64 => 62
  | AARCH64 => 183

/-! ## Symbols -/

/-- A `std::uint32_t`. -/
def wrap (n : ℕ) : ℕ := n % 2 ^ 32

/-- `add_string`: the offset of the string and the table with it. -/
def addString (data string : List Byte) : ℕ × List Byte :=
  (wrap data.length, data ++ (string ++ [0]))

/-- What the passes over the definitions change. -/
structure State where
  strtab : List Byte := [0]
  symbols : List ELFSymbol := [⟨0, 0, 0, 0, 0, 0⟩, ⟨0, 0, 3, 1, 0, 0⟩, ⟨0, 0, 3, 2, 0, 0⟩]
  info : ℕ := 0
  elfSymbolIndices : List ℕ

/-- The type of a symbol and the section it is in. Labels are unreachable here. -/
def symbolType : BinSymbolKind → Option (ℕ × ℕ)
  | .TEXT_FUNC => some (2, 1)
  | .DATA_LABEL => some (1, 2)
  | .ADDR_TABLE => some (0, 8)
  | .UNKNOWN => some (0, 0)
  | .TEXT_LABEL => none

def binding (global : Bool) : ℕ := if global then 1 else 0

def processDef (state : State) (symbolDef : BinSymbolDef) : Option State := do
  let (type, sectionIndex) ← symbolType symbolDef.kind
  let (nameOffset, strtab) := addString state.strtab symbolDef.name
  return { state with
    strtab
    symbols := state.symbols ++
      [⟨nameOffset, binding symbolDef.global, type, sectionIndex, symbolDef.offset, 0⟩] }

/-- The loop over the definitions that are global or not, from an index on. -/
def processPass (global : Bool) : ℕ → List BinSymbolDef → State → Option State
  | _, [], state => some state
  | i, symbolDef :: defs, state => do
    if symbolDef.global = global then
      let elfSymbolIndices := state.elfSymbolIndices.set i (wrap state.symbols.length)
      let state ← processDef { state with elfSymbolIndices } symbolDef
      processPass global (i + 1) defs state
    else
      processPass global (i + 1) defs state

def processDefs (defs : List BinSymbolDef) : Option State := do
  let state ← processPass false 0 defs { elfSymbolIndices := List.replicate defs.length 0 }
  processPass true 0 defs { state with info := wrap state.symbols.length }

/-! ## Relocations -/

/-- `process_x86_64_relocation` and `process_aarch64_relocation`. -/
def relocationType : Architecture → BinSymbolUseKind → Option (ℤ × ℕ)
  | .X86_64, .ABS64 => some (0, 1)
  | .X86_64, .REL32 => some (-4, 2)
  | .X86_64, .GOTPCREL32 => some (-4, 9)
  | .X86_64, .PLT32 => some (-4, 4)
  | .AARCH64, .ABS64 => some (0, 257)
  | .AARCH64, .ADR_PREL_PG_HI21 => some (0, 275)
  | .AARCH64, .ADD_ABS_LO12_NC => some (0, 277)
  | .AARCH64, .CALL26 => some (0, 283)
  | .AARCH64, .ADR_GOT_PAGE => some (0, 311)
  | .AARCH64, .LD64_GOT_LO12_NC => some (0, 312)
  | _, _ => none

def relocation (arch : Architecture) (elfSymbolIndices : List ℕ) (use : BinSymbolUse) :
    Option ELFRelocation := do
  let (addressOffset, type) ← relocationType arch use.kind
  let symbolIndex ← elfSymbolIndices[use.symbolIndex]?
  return ⟨use.address, symbolIndex, type, use.addend + addressOffset⟩

/-- The relocations of each section, if there is one. -/
abbrev Relocations := BinSectionKind → Option (List ELFRelocation)

def processUse (arch : Architecture) (elfSymbolIndices : List ℕ) (relocations : Relocations)
    (use : BinSymbolUse) : Option Relocations := do
  let list ← relocations use.section_
  let entry ← relocation arch elfSymbolIndices use
  return Function.update relocations use.section_ (some (list ++ [entry]))

def processUses (arch : Architecture) (elfSymbolIndices : List ℕ) (uses : List BinSymbolUse)
    (relocations : Relocations) : Option Relocations :=
  uses.foldlM (processUse arch elfSymbolIndices) relocations

/-! ## Files -/

def ascii (string : String) : List Byte := string.toList.map fun c ↦ BitVec.ofNat 8 c.toNat

def relaSection (nameOffset info : ℕ) (relocations : List ELFRelocation) : ELFSection :=
  { nameOffset, type := 4, link := 5, info, alignment := 8, entrySize := 24
    data := .relocations relocations }

def dataSection (nameOffset : ℕ) (data : List Byte) : ELFSection :=
  { nameOffset, type := 1, flags := 3, alignment := 16, data := .binary data }

/-- The sections of a file, the address table last if there is one. -/
def createFile (arch : Architecture) (module_ : BinModule) (state : State)
    (textRelocations dataRelocations : List ELFRelocation)
    (bnjatblRelocations : Option (List ELFRelocation)) : ELFFile :=
  let (textName, shstrtab) := addString [0] (ascii ".text")
  let (dataName, shstrtab) := addString shstrtab (ascii ".data")
  let (shstrtabName, shstrtab) := addString shstrtab (ascii ".shstrtab")
  let (strtabName, shstrtab) := addString shstrtab (ascii ".strtab")
  let (symtabName, shstrtab) := addString shstrtab (ascii ".symtab")
  let (textRelaName, shstrtab) := addString shstrtab (ascii ".rela.text")
  let (dataRelaName, shstrtab) := addString shstrtab (ascii ".rela.data")
  let (bnjatblName, withBnjatbl) := addString shstrtab (ascii ".bnjatbl")
  let (bnjatblRelaName, withBnjatbl) := addString withBnjatbl (ascii ".rela.bnjatbl")
  let shstrtab := if module_.bnjatblData.isSome then withBnjatbl else shstrtab
  { machine := arch.machine
    sections :=
      [{ nameOffset := textName, type := 1, flags := 6, alignment := 16
         data := .binary module_.text },
        dataSection dataName module_.data,
        { nameOffset := shstrtabName, type := 3, alignment := 1, data := .binary shstrtab },
        { nameOffset := strtabName, type := 3, alignment := 1, data := .binary state.strtab },
        { nameOffset := symtabName, type := 2, link := 4, info := state.info, alignment := 8
          entrySize := 24, data := .symbols state.symbols },
        relaSection textRelaName 1 textRelocations,
        relaSection dataRelaName 2 dataRelocations] ++
      match module_.bnjatblData, bnjatblRelocations with
      | some data, some relocations =>
        [dataSection bnjatblName data, relaSection bnjatblRelaName 8 relocations]
      | _, _ => [] }

/-- The sections that have relocations, before there are any. -/
def emptyRelocations (module_ : BinModule) : Relocations
  | .TEXT => some []
  | .DATA => some []
  | .BNJATBL => module_.bnjatblData.map fun _ ↦ []

def build (arch : Architecture) (module_ : BinModule) : Option ELFFile := do
  let state ← processDefs module_.symbolDefs
  let relocations ← processUses arch state.elfSymbolIndices module_.symbolUses
    (emptyRelocations module_)
  let textRelocations ← relocations .TEXT
  let dataRelocations ← relocations .DATA
  return createFile arch module_ state textRelocations dataRelocations (relocations .BNJATBL)

end Banjo.Emit.ELF
