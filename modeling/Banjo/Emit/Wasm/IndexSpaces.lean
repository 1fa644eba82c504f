import Banjo.Emit.Wasm.WasmBuilder
import Banjo.Lib.OptionLists

/-!
# The index spaces of a WebAssembly file

The numbers given out to the names of a module before anything is built are the positions the
symbols get later on, since the passes that number and those that build go through the module in the
same order. Imported functions come before defined ones among the functions, and the symbol of a
function has its number there. An undefined function symbol has no name of its own: its name is that
of the import.
-/

open List Option

namespace Banjo.Emit.Wasm

open Target.Wasm OptionLists

/-- The name of an imported function. -/
def WasmImport.funcName (imported : WasmImport) : Option String :=
  match imported.kind with
  | .typeIndex _ => some imported.name
  | _ => none

def WasmObjectFile.importedFuncs (file : WasmObjectFile) : List String :=
  file.imports.filterMap WasmImport.funcName

/-- The name a symbol has in a file. -/
def WasmObjectFile.symbolName (file : WasmObjectFile) (symbol : WasmSymbol) : Option String :=
  if symbol.type = .FUNCTION ∧ symbol.flags.undefined = true then
    file.importedFuncs[symbol.index]?
  else some symbol.name

/-- Every relocation but those to types names a symbol. -/
def WasmRelocation.refersToSymbol (reloc : WasmRelocation) : Bool := reloc.type ≠ .TYPE_INDEX_LEB

def operandSymbols : Option Operand → List String
  | some (.symbol symbol) => [symbol.name]
  | _ => []

/-- The names of the symbols an instruction refers to. -/
def usedSymbols (instr : Instruction) : List String :=
  match instr.opcode with
  | .CALL_INDIRECT => ["__indirect_function_table"]
  | .CALL | .GLOBAL_GET | .GLOBAL_SET | .I32_CONST => operandSymbols instr.operands.head?
  | opcode => if (memoryBytes opcode).isSome then operandSymbols instr.operands.head? else []

def Function.usedSymbols (func : Function) : List String :=
  func.blocks.flatten.flatMap Wasm.usedSymbols

def Global.usedSymbols (global : Global) : List String :=
  match global.value with
  | .symbolRef name => [name]
  | _ => []

/-- The relocations to symbols are for these names, in order. -/
def Refer (indices : List (String × ℕ)) (names : List String)
    (relocs : List WasmRelocation) : Prop :=
  List.Forall₂ (fun name reloc ↦ indices.lookup name = some reloc.index) names
    (relocs.filter WasmRelocation.refersToSymbol)

section Refer

variable {indices : List (String × ℕ)} {names names' : List String}
  {relocs relocs' : List WasmRelocation}

theorem Refer.nil : Refer indices [] [] := List.Forall₂.nil

theorem Refer.append (h : Refer indices names relocs) (h' : Refer indices names' relocs') :
    Refer indices (names ++ names') (relocs ++ relocs') := by
  rw [Refer, filter_append]
  exact rel_append h h'

theorem Refer.single {name : String} {reloc : WasmRelocation}
    (h : indices.lookup name = some reloc.index) (htype : reloc.refersToSymbol = true) :
    Refer indices [name] [reloc] := by
  rw [Refer, filter_cons_of_pos htype]
  exact .cons h .nil

end Refer

/-! ## The relocations of instructions -/

namespace Encoder

variable {enc : Encoder} {ctx ctx' : FuncContext}

/-- The relocations that were added are for these names. -/
def Adds (enc : Encoder) (ctx ctx' : FuncContext) (names : List String) : Prop :=
  ∃ added, ctx'.relocs = ctx.relocs ++ added ∧ Refer enc.symbolIndices names added

theorem Adds.write (bytes : List WriteBuffer.Byte) : Adds enc ctx (ctx.write bytes) [] :=
  ⟨[], (append_nil _).symm, .nil⟩

theorem Adds.of_symbolReloc {type : WasmRelocType} {name : String} (htype : type ≠ .TYPE_INDEX_LEB)
    (h : enc.symbolReloc ctx type name = some ctx') : Adds enc ctx ctx' [name] := by
  rw [symbolReloc, map_eq_some_iff] at h
  obtain ⟨index, hindex, rfl⟩ := h
  exact ⟨_, rfl, .single hindex (by simpa [WasmRelocation.refersToSymbol] using htype)⟩

/-- Bytes in front of a relocation do not matter. -/
theorem Adds.after_write {bytes : List WriteBuffer.Byte} {names : List String}
    (h : Adds enc (ctx.write bytes) ctx' names) : Adds enc ctx ctx' names := h

variable {operand : Operand}

theorem encodeLoadStoreAddr_adds (h : enc.encodeLoadStoreAddr ctx operand = some ctx') :
    Adds enc ctx ctx' (operandSymbols (some operand)) := by
  cases operand with
  | intImmediate offset =>
    obtain rfl := some.inj h
    exact .write _
  | fpImmediate value => cases h
  | symbol symbol => exact .of_symbolReloc (by decide) h
  | stackOffset slot offset =>
    rw [encodeLoadStoreAddr, map_eq_some_iff] at h
    obtain ⟨value, -, rfl⟩ := h
    exact .write _

theorem encodeGlobal_adds {opcode : WriteBuffer.Byte}
    (h : enc.encodeGlobal ctx opcode operand = some ctx') :
    Adds enc ctx ctx' (operandSymbols (some operand)) := by
  cases operand with
  | symbol symbol => exact .after_write (.of_symbolReloc (by decide) h)
  | _ =>
    obtain rfl := some.inj h
    exact .write _

theorem encodeI32Const_adds (h : enc.encodeI32Const ctx operand = some ctx') :
    Adds enc ctx ctx' (operandSymbols (some operand)) := by
  cases operand with
  | intImmediate value =>
    obtain rfl := some.inj h
    exact .write _
  | fpImmediate value => cases h
  | symbol symbol =>
    rw [encodeI32Const] at h
    split at h
    · exact .after_write (.of_symbolReloc (by decide) h)
    · exact .after_write (.of_symbolReloc (by decide) h)
    · cases h
  | stackOffset slot offset =>
    rw [encodeI32Const, map_eq_some_iff] at h
    obtain ⟨value, -, rfl⟩ := h
    exact .write _

theorem encodeCallIndirect_adds
    (h : enc.encodeCallIndirect ctx operand = some ctx') :
    Adds enc ctx ctx' ["__indirect_function_table"] := by
  cases operand with
  | intImmediate typeOffset =>
    rw [encodeCallIndirect] at h
    obtain ⟨added, hadded, hrefer⟩ := Adds.of_symbolReloc (by decide) h
    -- the relocation in front of it is for the type
    refine ⟨⟨.TYPE_INDEX_LEB, (ctx.write [0x11]).body.length,
      enc.indirectCallTypesOffset + (typeOffset.magnitude.setWidth 32).toNat, 0⟩ :: added, ?_, ?_⟩
    · rw [hadded, FuncContext.writeReloc, FuncContext.write, append_assoc]
      rfl
    · rw [Refer, filter_cons_of_neg (by simp [WasmRelocation.refersToSymbol])]
      exact hrefer
  | _ => cases h

variable {instr : Instruction}

theorem plainBytes_usedSymbols (h : (plainBytes instr.opcode).isSome = true) :
    usedSymbols instr = [] := by
  obtain ⟨opcode, operands⟩ := instr
  revert h
  cases opcode <;> first | exact fun _ ↦ rfl | exact fun h ↦ absurd h Bool.false_ne_true

theorem encodeOperand_adds (hhead : instr.operands.head? = some operand)
    (h : enc.encodeOperand ctx instr.opcode operand = some ctx') :
    Adds enc ctx ctx' (usedSymbols instr) := by
  obtain ⟨opcode, operands⟩ := instr
  dsimp only at hhead h
  have hmemory : ∀ {bytes}, memoryBytes opcode = some bytes →
      usedSymbols ⟨opcode, operands⟩ = operandSymbols (some operand) := by
    intro bytes hbytes
    rw [← hhead]
    revert hbytes
    cases opcode <;> first | exact fun _ ↦ rfl | exact fun h ↦ by cases h
  have hindex : ∀ {byte}, indexBytes opcode = some byte → usedSymbols ⟨opcode, operands⟩ = [] := by
    intro byte hbyte
    revert hbyte
    cases opcode <;> first | exact fun _ ↦ rfl | exact fun h ↦ by cases h
  unfold encodeOperand at h
  split at h
  · rw [usedSymbols, hhead]
    exact .after_write (.of_symbolReloc (by decide) h)
  · cases h
  · exact encodeCallIndirect_adds h
  · rw [usedSymbols, hhead]
    exact encodeGlobal_adds h
  · rw [usedSymbols, hhead]
    exact encodeGlobal_adds h
  · rw [usedSymbols, hhead]
    exact encodeI32Const_adds h
  · obtain rfl := some.inj h
    exact .write _
  · obtain rfl := some.inj h
    exact .write _
  · obtain rfl := some.inj h
    exact .write _
  · cases hbytes : memoryBytes opcode with
    | some bytes =>
      rw [hbytes] at h
      rw [hmemory hbytes]
      exact .after_write (encodeLoadStoreAddr_adds h)
    | none =>
      rw [hbytes] at h
      cases hbyte : indexBytes opcode with
      | none =>
        rw [hbyte] at h
        cases h
      | some byte =>
        rw [hbyte] at h
        rw [hindex hbyte]
        cases operand with
        | intImmediate index =>
          obtain rfl := some.inj h
          exact .write _
        | _ => cases h

theorem encodeInstr_adds (h : enc.encodeInstr ctx instr = some ctx') :
    Adds enc ctx ctx' (usedSymbols instr) := by
  rw [encodeInstr] at h
  split at h
  · rename_i bytes hbytes
    obtain rfl := some.inj h
    rw [plainBytes_usedSymbols (by rw [hbytes]; rfl)]
    exact .write _
  · split_ifs at h with htable
    · rw [encodeBrTable, map_eq_some_iff] at h
      obtain ⟨labels, -, rfl⟩ := h
      rw [usedSymbols, htable]
      exact .write _
    · rw [bind_eq_some_iff] at h
      obtain ⟨operand, hhead, h⟩ := h
      exact encodeOperand_adds hhead h

/-- The relocations of a function are for the symbols its instructions refer to. -/
theorem encodeInstrs_refer {func : Function} (h : enc.encodeInstrs func = some ctx) :
    Refer enc.symbolIndices (Function.usedSymbols func) ctx.relocs := by
  have hgo : ∀ (instrs : List Instruction) (ctx ctx' : FuncContext),
      instrs.foldlM enc.encodeInstr ctx = some ctx' →
      Adds enc ctx ctx' (instrs.flatMap Wasm.usedSymbols) := by
    intro instrs
    induction instrs with
    | nil =>
      intro ctx ctx' h
      obtain rfl := some.inj h
      exact ⟨[], (append_nil _).symm, .nil⟩
    | cons instr rest ih =>
      intro ctx ctx' h
      rw [foldlM_cons] at h
      obtain ⟨next, hnext, hrest⟩ := bind_eq_some_iff.mp h
      obtain ⟨added, hadded, hrefer⟩ := encodeInstr_adds hnext
      obtain ⟨added', hadded', hrefer'⟩ := ih next ctx' hrest
      refine ⟨added ++ added', ?_, hrefer.append hrefer'⟩
      rw [hadded', hadded, append_assoc]
  obtain ⟨added, hadded, hrefer⟩ := hgo _ _ _ h
  rw [hadded]
  exact hrefer

end Encoder
/-! ## The numbers of the names -/

namespace WasmBuilder

variable {name : String}

theorem lookup_zipIdx {names : List String} (hnodup : names.Nodup) {i : ℕ} :
    names.zipIdx.lookup name = some i ↔ names[i]? = some name := by
  have hgo : ∀ (names : List String) (k : ℕ), names.Nodup → ∀ i,
      (names.zipIdx k).lookup name = some i ↔ k ≤ i ∧ names[i - k]? = some name := by
    intro names
    induction names with
    | nil => simp
    | cons head rest ih =>
      intro k hnodup i
      obtain ⟨hhead, hrest⟩ := nodup_cons.mp hnodup
      rw [zipIdx_cons, lookup_cons]
      by_cases heq : name = head
      · -- the rest of the names has no second one
        subst heq
        rw [beq_self_eq_true]
        change some k = some i ↔ _
        rw [some_inj]
        constructor
        · rintro rfl
          simp
        · rintro ⟨hk, hi⟩
          cases hd : i - k with
          | zero => omega
          | succ d =>
            rw [hd, getElem?_cons_succ] at hi
            exact absurd (mem_of_getElem? hi) hhead
      · have hbeq : (name == head) = false := beq_false_of_ne heq
        rw [hbeq]
        change (rest.zipIdx (k + 1)).lookup name = some i ↔ _
        rw [ih (k + 1) hrest]
        constructor
        · rintro ⟨hk, hi⟩
          refine ⟨by omega, ?_⟩
          rwa [show i - k = (i - (k + 1)) + 1 by omega, getElem?_cons_succ]
        · rintro ⟨hk, hi⟩
          cases hd : i - k with
          | zero =>
            rw [hd] at hi
            exact absurd (some.inj hi).symm heq
          | succ d =>
            rw [hd, getElem?_cons_succ] at hi
            refine ⟨by omega, ?_⟩
            rwa [show i - (k + 1) = d by omega]
  simpa using hgo names 0 hnodup i

theorem foldl_insertSymbol : ∀ (names : List String) (acc : List (String × ℕ)) (k : ℕ),
    names.Nodup → (∀ name ∈ names, acc.lookup name = none) →
    (names.foldl insertSymbol (acc, k)).1 = acc ++ names.zipIdx k := by
  intro names
  induction names with
  | nil =>
    intro acc k _ _
    exact (append_nil acc).symm
  | cons name rest ih =>
    intro acc k hnodup hnone
    obtain ⟨hname, hrest⟩ := nodup_cons.mp hnodup
    have hnew : insertSymbol (acc, k) name = (acc ++ [(name, k)], k + 1) := by
      rw [insertSymbol, hnone name mem_cons_self, isSome_none, if_neg Bool.false_ne_true]
    rw [foldl_cons, hnew, ih _ _ hrest, zipIdx_cons, append_assoc]
    · rfl
    · intro other hother
      have hne : (other == name) = false := beq_false_of_ne fun h ↦ hname (h ▸ hother)
      rw [lookup_append, hnone other (mem_cons_of_mem _ hother), lookup_cons, hne]
      rfl

/-! ## What has been built -/

/-- The function index space: the imported functions and then the defined ones. -/
def funcSpace (imports : List String) (functions : List Function) : List String :=
  imports ++ functions.map Function.name

/-- What the builder holds once the symbols of `names`, the imported functions `imports`, the
values of `globals`, the data `segments` and the code of `functions` are in the file. -/
structure Built (indices : List (String × ℕ)) (names imports : List String)
    (globals : List Global) (segments : List WasmDataSegment) (functions : List Function)
    (builder : WasmBuilder) : Prop where
  symbolIndices : builder.symbolIndices = indices
  symbols : builder.file.symbols.map builder.file.symbolName = names.map some
  imported : builder.file.importedFuncs = imports
  numFuncImports : builder.numFuncImports = imports.length
  funcIndex : ∀ symbol ∈ builder.file.symbols, symbol.type = .FUNCTION →
    builder.file.symbolName symbol = (funcSpace imports functions)[symbol.index]?
  functions : List.Forall₂ (fun func built ↦
    Refer indices (Function.usedSymbols func) built.relocs) functions builder.file.functions
  dataRelocs : Refer indices (globals.flatMap Global.usedSymbols) builder.dataRelocs
  dataSegments : builder.file.dataSegments = segments

variable {indices : List (String × ℕ)} {names imports : List String} {globals : List Global}
  {segments : List WasmDataSegment} {functions : List Function} {builder builder' : WasmBuilder}

theorem symbolName_mono {file file' : WasmObjectFile} {symbol : WasmSymbol} {name : String}
    (himported : ∃ more, file'.importedFuncs = file.importedFuncs ++ more)
    (h : file.symbolName symbol = some name) : file'.symbolName symbol = some name := by
  obtain ⟨more, hmore⟩ := himported
  rw [WasmObjectFile.symbolName] at h ⊢
  split_ifs at h ⊢ with hundefined
  · rw [hmore]
    exact getElem?_append_left (List.getElem?_eq_some_iff.mp h).1 |>.trans h
  · exact h

variable {symbol : WasmSymbol}

/-- The symbols there were keep their names, and one comes after them. -/
theorem Built.add_symbol {more : List String}
    (h : Built indices names imports globals segments functions builder)
    (hsymbols : builder'.file.symbols = builder.file.symbols ++ [symbol])
    (himported : builder'.file.importedFuncs = builder.file.importedFuncs ++ more)
    (hname : builder'.file.symbolName symbol = some name) :
    builder'.file.symbols.map builder'.file.symbolName = (names ++ [name]).map some := by
  have hold : builder.file.symbols.map builder'.file.symbolName = names.map some := by
    rw [← h.symbols]
    refine map_congr_left fun other hother ↦ ?_
    have hmem : builder.file.symbolName other ∈ names.map some := by
      rw [← h.symbols]
      exact mem_map_of_mem hother
    obtain ⟨found, -, hfound⟩ := mem_map.mp hmem
    rw [← hfound]
    exact symbolName_mono ⟨more, himported⟩ hfound.symm
  rw [hsymbols, map_append, map_append, hold, map_singleton, hname]
  rfl

/-- Every symbol has a name. -/
theorem Built.exists_symbolName (h : Built indices names imports globals segments functions builder)
    (hsymbol : symbol ∈ builder.file.symbols) :
    ∃ name, builder.file.symbolName symbol = some name := by
  have hmem : builder.file.symbolName symbol ∈ names.map some := by
    rw [← h.symbols]
    exact mem_map_of_mem hsymbol
  obtain ⟨name, -, hname⟩ := mem_map.mp hmem
  exact ⟨name, hname.symm⟩

theorem built_empty : Built indices ["__stack_pointer", "__indirect_function_table"] [] [] [] []
    { file := emptyFile, symbolIndices := indices, funcSymbols := functionNames } where
  symbolIndices := rfl
  symbols := rfl
  imported := rfl
  numFuncImports := rfl
  funcIndex := by
    intro symbol hsymbol htype
    simp only [emptyFile, mem_cons, not_mem_nil, or_false] at hsymbol
    rcases hsymbol with rfl | rfl <;> cases htype
  functions := .nil
  dataRelocs := .nil
  dataSegments := rfl

theorem importedFuncs_append (file : WasmObjectFile) (funcImport : WasmFuncImport) (index : ℕ)
    (symbols : List WasmSymbol) (types : List WasmFunctionType) :
    WasmObjectFile.importedFuncs { file with
      types := types
      imports := file.imports ++ [⟨funcImport.mod, funcImport.name, .typeIndex index⟩]
      symbols := symbols } = file.importedFuncs ++ [funcImport.name] := by
  rw [WasmObjectFile.importedFuncs, filterMap_append]
  rfl

/-- The functions are imported before any is defined. -/
theorem Built.buildFuncImport (h : Built indices names imports globals segments [] builder)
    (funcImport : WasmFuncImport) :
    Built indices (names ++ [funcImport.name]) (imports ++ [funcImport.name]) globals segments []
      (builder.buildFuncImport funcImport) := by
  have himported : (builder.buildFuncImport funcImport).file.importedFuncs
      = builder.file.importedFuncs ++ [funcImport.name] := importedFuncs_append ..
  have hname : (builder.buildFuncImport funcImport).file.symbolName
      { type := .FUNCTION, flags := { undefined := true }, index := builder.numFuncImports }
      = some funcImport.name := by
    rw [WasmObjectFile.symbolName, if_pos ⟨rfl, rfl⟩, himported, h.imported, h.numFuncImports]
    exact getElem?_concat_length
  refine ⟨h.symbolIndices, h.add_symbol rfl himported hname, ?_, ?_, ?_, h.functions, h.dataRelocs,
    h.dataSegments⟩
  · rw [himported, h.imported]
  · rw [length_append, ← h.numFuncImports]
    rfl
  · intro symbol hsymbol htype
    rcases mem_append.mp hsymbol with hsymbol | hsymbol
    · obtain ⟨name, hold⟩ := h.exists_symbolName hsymbol
      have hindex := h.funcIndex symbol hsymbol htype
      rw [hold, funcSpace, map_nil, append_nil] at hindex
      rw [symbolName_mono ⟨_, himported⟩ hold, funcSpace, map_nil, append_nil,
        getElem?_append_left (List.getElem?_eq_some_iff.mp hindex.symm).1, hindex]
    · rw [mem_singleton.mp hsymbol, hname, funcSpace, map_nil, append_nil, h.numFuncImports]
      exact getElem?_concat_length.symm

theorem Built.buildExternGlobal (h : Built indices names imports globals segments functions builder)
    (externGlobal : String) :
    Built indices (names ++ [externGlobal]) imports globals segments functions
      (builder.buildExternGlobal externGlobal) where
  symbolIndices := h.symbolIndices
  symbols := h.add_symbol rfl (append_nil _).symm rfl
  imported := h.imported
  numFuncImports := h.numFuncImports
  funcIndex := by
    intro symbol hsymbol htype
    rcases mem_append.mp hsymbol with hsymbol | hsymbol
    · exact h.funcIndex symbol hsymbol htype
    · rw [mem_singleton.mp hsymbol] at htype
      cases htype
  functions := h.functions
  dataRelocs := h.dataRelocs
  dataSegments := h.dataSegments

variable {toF32 : Double → BitVec 32}

variable {global : Global}

theorem encodeGlobalValue_refer {bytes : List WriteBuffer.Byte} {relocs : List WasmRelocation}
    (h : builder.encodeGlobalValue toF32 global = some (bytes, relocs)) :
    Refer builder.symbolIndices (Global.usedSymbols global) relocs := by
  rw [encodeGlobalValue] at h
  rw [Global.usedSymbols]
  cases hvalue : global.value with
  | symbolRef name =>
    rw [hvalue] at h
    obtain ⟨index, hindex, heq⟩ := map_eq_some_iff.mp h
    obtain ⟨-, rfl⟩ := Prod.mk.inj heq
    apply Refer.single
    · exact hindex
    · by_cases hfunc : name ∈ builder.funcSymbols
      · rw [if_pos hfunc]
        rfl
      · rw [if_neg hfunc]
        rfl
  | integer value =>
    rw [hvalue] at h
    dsimp only at h
    split_ifs at h
    obtain ⟨-, rfl⟩ := Prod.mk.inj (some.inj h)
    exact .nil
  | floatingPoint value =>
    rw [hvalue] at h
    dsimp only at h
    split at h
    · obtain ⟨-, rfl⟩ := Prod.mk.inj (some.inj h)
      exact .nil
    · obtain ⟨-, rfl⟩ := Prod.mk.inj (some.inj h)
      exact .nil
    · cases h
  | _ =>
    rw [hvalue] at h
    obtain ⟨-, rfl⟩ := Prod.mk.inj (some.inj h)
    exact .nil

theorem Built.buildGlobal (h : Built indices names imports globals segments functions builder)
    (hbuild : builder.buildGlobal toF32 global = some builder') :
    Built indices (names ++ [global.name]) imports (globals ++ [global]) segments functions
      builder' := by
  rw [WasmBuilder.buildGlobal, map_eq_some_iff] at hbuild
  obtain ⟨⟨bytes, relocs⟩, hvalue, rfl⟩ := hbuild
  have hrefer := encodeGlobalValue_refer hvalue
  rw [h.symbolIndices] at hrefer
  refine ⟨h.symbolIndices, h.add_symbol rfl (append_nil _).symm rfl, h.imported,
    h.numFuncImports, ?_, h.functions, ?_, h.dataSegments⟩
  · intro symbol hsymbol htype
    rcases mem_append.mp hsymbol with hsymbol | hsymbol
    · exact h.funcIndex symbol hsymbol htype
    · rw [mem_singleton.mp hsymbol] at htype
      cases htype
  · rw [flatMap_append, flatMap_singleton]
    exact h.dataRelocs.append hrefer

theorem Built.buildData (h : Built indices names imports globals segments functions builder)
    (mod : Module) :
    Built indices names imports globals
      (segments ++ [⟨0x41 :: WriteBuffer.sleb128 0 ++ [0x0B], builder.dataBuffer,
        builder.dataRelocs⟩]) functions (builder.buildData mod) := by
  refine ⟨h.symbolIndices, h.symbols, h.imported, h.numFuncImports, h.funcIndex, h.functions,
    h.dataRelocs, ?_⟩
  rw [← h.dataSegments]
  rfl

theorem Built.buildFunc {toF32 : Double → BitVec 32} {func : Function}
    (h : Built indices names imports globals segments functions builder)
    (hbuild : builder.buildFunc toF32 func = some builder') :
    Built indices (names ++ [func.name]) imports globals segments (functions ++ [func])
      builder' := by
  rw [WasmBuilder.buildFunc, Option.map_eq_some_iff] at hbuild
  obtain ⟨ctx, hctx, rfl⟩ := hbuild
  have hrefer := Encoder.encodeInstrs_refer hctx
  rw [encoder, h.symbolIndices] at hrefer
  have hspace : funcSpace imports (functions ++ [func]) = funcSpace imports functions ++ [func.name]
      := by
    rw [funcSpace, funcSpace, List.map_append, ← List.append_assoc]
    rfl
  refine ⟨h.symbolIndices, h.add_symbol rfl (append_nil _).symm rfl, h.imported,
    h.numFuncImports, ?_, List.rel_append h.functions (.cons hrefer .nil), h.dataRelocs,
    h.dataSegments⟩
  intro symbol hsymbol htype
  rw [hspace]
  rcases mem_append.mp hsymbol with hsymbol | hsymbol
  · obtain ⟨name, hold⟩ := h.exists_symbolName hsymbol
    have hindex := h.funcIndex symbol hsymbol htype
    rw [hold] at hindex
    rw [getElem?_append_left (List.getElem?_eq_some_iff.mp hindex.symm).1, ← hindex]
    exact hold
  · rw [mem_singleton.mp hsymbol]
    -- the number of the function is the length of the space so far
    have hlength : builder.numFuncImports + builder.file.functions.length
        = (funcSpace imports functions).length := by
      rw [h.numFuncImports, ← h.functions.length_eq, funcSpace, length_append, List.length_map]
    rw [hlength]
    exact getElem?_concat_length.symm

/-! ## The whole run -/

variable {mod : Module}

theorem collectSymbolIndices_symbolIndices (hunique : (symbolNames mod).Nodup) :
    (collectSymbolIndices { file := emptyFile } mod).symbolIndices = (symbolNames mod).zipIdx := by
  rw [collectSymbolIndices]
  exact foldl_insertSymbol (symbolNames mod) [] 0 hunique fun _ _ ↦ rfl

/-- Everything of a module is in the file once it is built. -/
theorem built_build (hunique : (symbolNames mod).Nodup) (hbuild : build toF32 mod = some builder) :
    ∃ segment, Built (symbolNames mod).zipIdx (symbolNames mod)
        (mod.funcImports.map WasmFuncImport.name) mod.globals [segment] mod.functions builder ∧
      Refer (symbolNames mod).zipIdx (mod.globals.flatMap Global.usedSymbols) segment.relocs := by
  have hempty : Built (symbolNames mod).zipIdx ["__stack_pointer", "__indirect_function_table"]
      [] [] [] [] (collectSymbolIndices { file := emptyFile } mod) := by
    rw [← collectSymbolIndices_symbolIndices hunique]
    exact built_empty
  rw [build] at hbuild
  obtain ⟨built, hglobals, hfunctions⟩ := bind_eq_some_iff.mp hbuild
  have himports := foldl_done
    (P := fun done b ↦ Built (symbolNames mod).zipIdx
      (["__stack_pointer", "__indirect_function_table"] ++ done.map WasmFuncImport.name)
      (done.map WasmFuncImport.name) [] [] [] b)
    (fun done a b h ↦ by
      rw [map_append, ← append_assoc]
      exact h.buildFuncImport a)
    mod.funcImports [] _ hempty
  have hexterns := foldl_done
    (P := fun done b ↦ Built (symbolNames mod).zipIdx
      (["__stack_pointer", "__indirect_function_table"] ++ mod.funcImports.map WasmFuncImport.name
        ++ done) (mod.funcImports.map WasmFuncImport.name) [] [] [] b)
    (fun done a b h ↦ by
      rw [← append_assoc]
      exact h.buildExternGlobal a)
    mod.externGlobals [] _ (by rwa [append_nil])
  have hdata := foldlM_done
    (P := fun done b ↦ Built (symbolNames mod).zipIdx
      (["__stack_pointer", "__indirect_function_table"] ++ mod.funcImports.map WasmFuncImport.name
        ++ mod.externGlobals ++ done.map Global.name)
      (mod.funcImports.map WasmFuncImport.name) done [] [] b)
    (fun done a b b' h hstep ↦ by
      rw [map_append, ← append_assoc]
      exact h.buildGlobal hstep)
    mod.globals [] _ built (by rwa [map_nil, append_nil]) hglobals
  -- the segment takes the relocations the globals have left
  refine ⟨⟨0x41 :: WriteBuffer.sleb128 0 ++ [0x0B], built.dataBuffer, built.dataRelocs⟩, ?_,
    hdata.dataRelocs⟩
  exact foldlM_done
    (P := fun done b ↦ Built (symbolNames mod).zipIdx
      (["__stack_pointer", "__indirect_function_table"] ++ mod.funcImports.map WasmFuncImport.name
        ++ mod.externGlobals ++ mod.globals.map Global.name ++ done.map Function.name)
      (mod.funcImports.map WasmFuncImport.name) mod.globals _ done b)
    (fun done a b b' h hstep ↦ by
      rw [map_append, ← append_assoc]
      exact h.buildFunc hstep)
    mod.functions [] _ builder
    (by
      rw [map_nil, append_nil]
      exact hdata.buildData mod) hfunctions

/-! ## The index spaces agree -/

/-- The relocations to symbols are to the symbols of these names, in order. -/
def Named (file : WasmObjectFile) (names : List String) (relocs : List WasmRelocation) : Prop :=
  List.Forall₂ (fun name reloc ↦ file.symbols[reloc.index]?.bind file.symbolName = some name) names
    (relocs.filter WasmRelocation.refersToSymbol)

structure IndexSpacesAgree (mod : Module) (builder : WasmBuilder) : Prop where
  symbols : builder.file.symbols.map builder.file.symbolName = (symbolNames mod).map some
  symbolIndices : ∀ name i, builder.symbolIndices.lookup name = some i ↔
    builder.file.symbols[i]?.bind builder.file.symbolName = some name
  imported : builder.file.importedFuncs = mod.funcImports.map WasmFuncImport.name
  funcIndex : ∀ symbol ∈ builder.file.symbols, symbol.type = .FUNCTION →
    builder.file.symbolName symbol
      = (funcSpace builder.file.importedFuncs mod.functions)[symbol.index]?
  functions : List.Forall₂ (fun func built ↦
    Named builder.file (Function.usedSymbols func) built.relocs) mod.functions
      builder.file.functions
  data : ∃ segment, builder.file.dataSegments = [segment] ∧
    Named builder.file (mod.globals.flatMap Global.usedSymbols) segment.relocs

/-- The name at a position is the name of the symbol there. -/
theorem Built.symbolName_getElem?
    (h : Built indices names imports globals segments functions builder) (i : ℕ) :
    builder.file.symbols[i]?.bind builder.file.symbolName = names[i]? := by
  have hget : (builder.file.symbols.map builder.file.symbolName)[i]? = (names.map some)[i]? := by
    rw [h.symbols]
  rw [getElem?_map, getElem?_map] at hget
  cases hsymbol : builder.file.symbols[i]? with
  | none =>
    rw [hsymbol, map_none, eq_comm, map_eq_none_iff] at hget
    rw [hget]
    rfl
  | some symbol =>
    rw [hsymbol, map_some, eq_comm, map_eq_some_iff] at hget
    obtain ⟨name, hname, heq⟩ := hget
    rw [hname, bind_some, heq]

/-- Whatever a module has in it, the numbers in the built file are those of the right symbols. -/
theorem build_indexSpacesAgree (toF32 : Double → BitVec 32) (mod : Module) (builder : WasmBuilder)
    (hunique : (symbolNames mod).Nodup) (hbuild : build toF32 mod = some builder) :
    IndexSpacesAgree mod builder := by
  obtain ⟨segment, hbuilt, hsegment⟩ := built_build hunique hbuild
  have hnamed : ∀ {names relocs}, Refer (symbolNames mod).zipIdx names relocs →
      Named builder.file names relocs := by
    intro names relocs hrefer
    refine List.Forall₂.imp (fun name reloc hlookup ↦ ?_) hrefer
    rw [hbuilt.symbolName_getElem?]
    exact (lookup_zipIdx hunique).mp hlookup
  refine ⟨hbuilt.symbols, ?_, hbuilt.imported, ?_, ?_, ?_⟩
  · intro name i
    rw [hbuilt.symbolIndices, hbuilt.symbolName_getElem?]
    exact lookup_zipIdx hunique
  · rw [hbuilt.imported]
    exact hbuilt.funcIndex
  · exact hbuilt.functions.imp fun func built hrefer ↦ hnamed hrefer
  · exact ⟨segment, hbuilt.dataSegments, hnamed hsegment⟩

/-- A function that is imported, one that calls it, and a global that points to the import. -/
def callImport : Module where
  funcImports := [⟨"env", "puts", { params := [.I32], resultType := none }⟩]
  externGlobals := ["errno"]
  globals := [{ name := "table", size := 4, value := .symbolRef "puts" }]
  functions := [{
    name := "main", type := { params := [], resultType := none }, stackSlots := [], locals := []
    blocks := [[⟨.I32_CONST, [.symbol ⟨"table", .MEMORY_ADDR_SLEB⟩]⟩,
      ⟨.CALL, [.symbol ⟨"puts", .NONE⟩]⟩, ⟨.END_FUNCTION, []⟩]] }]
  indirectCallTypes := []

theorem build_indexSpacesAgree_callImport :
    ∃ builder, build (fun _ ↦ 0) callImport = some builder ∧ IndexSpacesAgree callImport builder :=
  ⟨_, rfl, build_indexSpacesAgree (fun _ ↦ 0) callImport _ (by decide) rfl⟩

end WasmBuilder

end Banjo.Emit.Wasm
