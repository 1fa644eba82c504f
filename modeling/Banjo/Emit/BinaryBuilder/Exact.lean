import Banjo.Emit.BinaryBuilder.Assembly

/-!
# When the layout of a module is exact

The module of a program is laid out exactly if and only if every `jg` reaches its target with a
displacement of eight bits. Every branch is followed by the end of its function, so a slice that got
longer after the offsets were fixed always has a definition after it that is out of place.
-/

open List Option

namespace Banjo.Emit

open WriteBuffer OptionLists BinaryBuilder

variable {toF32 : Double → BitVec 32} {isDarwin : Bool} {fuel : ℕ} {mod : Mcode.Module}
  {builder : BinaryBuilder} {text : List SectionSlice} {laid : Laid} {defs : List SymbolDef}
  {bin : BinModule}

/-- The unwind ranges are from where the text is before a function is encoded to where it is
after. -/
def ExactUnwind (toF32 : Double → BitVec 32) (mod : Mcode.Module) (laid : Laid) (bin : BinModule) :
    Prop :=
  ∀ prepared, prepare toF32 mod = some prepared → ∀ before func after,
    mod.functions = before ++ func :: after → ∃ frame, bin.unwindInfo[before.length]? = some frame ∧
      frame.startAddr = position laid.text (before.foldl encodeFunc prepared).1.text.mark ∧
      frame.endAddr = position laid.text ((before ++ [func]).foldl encodeFunc prepared).1.text.mark

structure ExactLayout (toF32 : Double → BitVec 32) (mod : Mcode.Module) (laid : Laid)
    (defs : List SymbolDef) (bin : BinModule) : Prop where
  symbols : ExactSymbols laid defs bin
  unwind : ExactUnwind toF32 mod laid bin

/-- The displacement of every `jg` fits in eight bits. -/
def JgInRange (defs : List SymbolDef) (text : List SectionSlice) : Prop :=
  ∀ slice ∈ text, InRange (fun opcode ↦ opcode = Condition.G.opcode) defs text slice

theorem isShort_iff (opcode : Byte) :
    isShort opcode = true ↔ isTested opcode = true ∨ opcode = Condition.G.opcode := by
  simp only [isShort, isTested, Condition.opcode, decide_eq_true_eq]
  bv_omega

theorem text_binOffset {symbolDef : SymbolDef} (h : isText symbolDef.kind = true) :
    laid.binOffset symbolDef = laid.text[symbolDef.sliceIndex]?.map
      fun slice ↦ slice.offset + symbolDef.localOffset := by
  obtain ⟨name, kind, global, sliceIndex, localOffset, binIndex, binOffset⟩ := symbolDef
  cases kind with
  | TEXT_FUNC => rfl
  | TEXT_LABEL => rfl
  | _ => cases h

theorem text_sectionOf {kind : BinSymbolKind} (h : isText kind = true) :
    laid.sectionOf kind = laid.text := by
  cases kind with
  | TEXT_FUNC => rfl
  | TEXT_LABEL => rfl
  | _ => cases h

/-! ## What is laid out -/

/-- The frames and marks of the functions, and where every branch is. -/
structure Encoded (toF32 : Double → BitVec 32) (mod : Mcode.Module) (builder : BinaryBuilder) :
    Prop where
  tidy : Tidy builder.text
  addrTable : ∀ symbolDef ∈ builder.defs, symbolDef.kind = .ADDR_TABLE → symbolDef.mark = (0, 0)
  frames : ∀ prepared, prepare toF32 mod = some prepared → ∀ before func after,
    mod.functions = before ++ func :: after → ∃ frame first last,
      builder.unwindInfo[before.length]? = some frame ∧
      (builder.defs[frame.startSymbolIndex]? = some first ∧ isText first.kind = true ∧
        first.mark = (before.foldl encodeFunc prepared).1.text.mark) ∧
      (builder.defs[frame.endSymbolIndex]? = some last ∧ isText last.kind = true ∧
        last.mark = ((before ++ [func]).foldl encodeFunc prepared).1.text.mark)
  ended : builder.text = {} ∨ ∃ symbolDef ∈ builder.defs, isText symbolDef.kind = true ∧
    symbolDef.mark = builder.text.mark

theorem encoded_assemble (h : assemble toF32 mod = some builder) : Encoded toF32 mod builder := by
  rw [assemble, map_eq_some_iff] at h
  obtain ⟨⟨start, first⟩, hprepare, rfl⟩ := h
  obtain ⟨hstart, htext, hunwind⟩ := prepare_spec hprepare
  obtain ⟨hall, -⟩ := Encoding.funcs mod.functions (start, first) hstart le_rfl
  have hframes : ∀ before func after, mod.functions = before ++ func :: after →
      ∃ frame first' last', (mod.functions.foldl encodeFunc
        (start, first)).1.unwindInfo[before.length]?
          = some frame ∧
        ((mod.functions.foldl encodeFunc (start,
          first)).1.defs[frame.startSymbolIndex]? = some first' ∧
          isText first'.kind = true ∧
          first'.mark = (before.foldl encodeFunc (start, first)).1.text.mark) ∧
        ((mod.functions.foldl encodeFunc (start,
          first)).1.defs[frame.endSymbolIndex]? = some last' ∧
          isText last'.kind = true ∧
          last'.mark = ((before ++ [func]).foldl encodeFunc (start, first)).1.text.mark) := by
    intro before func after hsplit
    rw [hsplit, map_append, sum_append, map_cons, sum_cons] at hstart
    obtain ⟨hbefore, hcount, -, frames, hframes, hlength⟩ :=
      Encoding.funcs before (start, first) hstart (by dsimp only; omega)
    obtain ⟨builder', k, heq⟩ : ∃ builder' k,
        encodeFunc (before.foldl encodeFunc (start, first)) func = (builder', k) := ⟨_, _, rfl⟩
    obtain ⟨hk, hnext, -, ⟨frame, hframe, hfirstindex, hlastindex⟩,
      ⟨first', hfirst, hfirsttext, hfirstmark⟩, last', hlast, hlasttext, hlastmark⟩ :=
      hbefore.func (by rw [hcount]; dsimp only; omega) heq
    have hpos : 0 < symbolCount func := Nat.succ_pos _
    obtain ⟨-, -, hkeeps, more, hmore, -⟩ := Encoding.funcs after (builder', k) hnext
      (by dsimp only at hcount ⊢; omega)
    have hrun : mod.functions.foldl encodeFunc (start, first)
        = after.foldl encodeFunc (builder', k) := by
      rw [hsplit, foldl_append, foldl_cons, heq]
    refine ⟨frame, first', last', ?_, ⟨?_, hfirsttext, hfirstmark⟩, ?_, hlasttext, ?_⟩
    · rw [hrun, hmore, hframe, hframes, hunwind, nil_append, append_assoc, ← hlength,
        getElem?_append_right le_rfl, Nat.sub_self]
      rfl
    · rw [hrun, hfirstindex]
      exact hkeeps _ _ (by dsimp only; omega) hfirst
    · rw [hrun, hlastindex]
      exact hkeeps _ _ (by dsimp only; omega) hlast
    · rw [foldl_append, foldl_cons, foldl_nil, heq]
      exact hlastmark
  refine ⟨hall.tidy, hall.addrTable, ?_, ?_⟩
  · intro prepared hprepared
    obtain rfl := some.inj (hprepare.symm.trans hprepared)
    exact hframes
  · rcases eq_nil_or_concat mod.functions with hnil | ⟨before, func, hconcat⟩
    · rw [hnil]
      exact Or.inl htext
    · rw [concat_eq_append] at hconcat
      obtain ⟨frame, -, last, -, -, hlast, hlasttext, hlastmark⟩ := hframes before func [] hconcat
      refine Or.inr ⟨last, mem_of_getElem? hlast, hlasttext, ?_⟩
      rw [hlastmark, ← hconcat]

theorem good_computeSliceOffsets (h : Tidy builder.text) :
    Good (computeSliceOffsets 0 builder.text.slices) := by
  refine ⟨placed_computeSliceOffsets _, fun slice hslice ↦ ?_⟩
  obtain ⟨k, hk⟩ := getElem?_of_mem hslice
  rw [computeSliceOffsets_spec, map_eq_some_iff] at hk
  obtain ⟨before, hbefore, rfl⟩ := hk
  exact (h.shaped_slices before (mem_of_getElem? hbefore)).of_offset _

section Layout

variable (hencoded : Encoded toF32 mod builder) (hrelaxed : builder.relaxed fuel = some text)
  (hlaid : builder.layOut fuel = some laid) (hbin : laid.createModule isDarwin = some (defs, bin))

include hrelaxed hlaid in
theorem layOut_spec : resolveInternalSymbols builder.defs text = some laid.text ∧
    laid.data = computeSliceOffsets 0 builder.data.slices ∧
    laid.addrTable = builder.addrTable.map (fun table ↦ computeSliceOffsets 0 table.slices) ∧
    laid.defs = builder.defs ∧ laid.unwindInfo = builder.unwindInfo := by
  rw [layOut, hrelaxed] at hlaid
  obtain ⟨text', htext', hlaid⟩ := bind_eq_some_iff.mp hlaid
  obtain rfl : text = text' := some.inj htext'
  obtain ⟨resolved, hresolved, hlaid⟩ := bind_eq_some_iff.mp hlaid
  obtain rfl := some.inj hlaid
  exact ⟨hresolved, rfl, rfl, rfl, rfl⟩

include hbin in
theorem createModule_spec : laid.bakeSymbolLocations = some defs ∧
    ∃ text data addrTable, Laid.bake defs .TEXT laid.text = some text ∧
      Laid.bake defs .DATA laid.data = some data ∧
      (laid.addrTable.map (Laid.bake defs .BNJATBL)).getD (some ([], [])) = some addrTable ∧
      bin.text = text.1 ∧ bin.data = data.1 ∧ bin.symbolUses = text.2 ++ data.2 ++ addrTable.2 ∧
      laid.unwindInfo.mapM (Laid.bakeFrame defs) = some bin.unwindInfo := by
  rw [Laid.createModule] at hbin
  obtain ⟨defs', hdefs, hbin⟩ := bind_eq_some_iff.mp hbin
  obtain ⟨text, htext, hbin⟩ := bind_eq_some_iff.mp hbin
  obtain ⟨data, hdata, hbin⟩ := bind_eq_some_iff.mp hbin
  obtain ⟨addrTable, haddrTable, hbin⟩ := bind_eq_some_iff.mp hbin
  obtain ⟨unwindInfo, hunwind, hbin⟩ := bind_eq_some_iff.mp hbin
  obtain ⟨rfl, rfl⟩ := Prod.mk.inj (some.inj hbin)
  exact ⟨hdefs, text, data, addrTable, htext, hdata, haddrTable, rfl, rfl, rfl, hunwind⟩

theorem bake_bytes {kind : BinSectionKind} {slices : List SectionSlice}
    {baked : List Byte × List BinSymbolUse} (h : Laid.bake defs kind slices = some baked) :
    baked.1 = slices.flatMap SectionSlice.buffer := by
  rw [Laid.bake, map_eq_some_iff] at h
  obtain ⟨uses, -, rfl⟩ := h
  rfl

include hencoded hrelaxed hlaid hbin

/-- With the slices in place, everything is. -/
theorem exactLayout_of_placed (hplaced : Placed laid.text) :
    ExactLayout toF32 mod laid defs bin := by
  obtain ⟨-, hdata, haddrTable, hdefs, hunwind⟩ := layOut_spec hrelaxed hlaid
  obtain ⟨hlocations, textBaked, dataBaked, tableBaked, htextBaked, hdataBaked,
    htableBaked, hbintext,
    hbindata, huses, hframes⟩ := createModule_spec hbin
  have hdataPlaced : Placed laid.data := hdata ▸ placed_computeSliceOffsets _
  have htablePlaced : Placed (laid.addrTable.getD []) := by
    rw [haddrTable]
    cases builder.addrTable with
    | none => exact fun h ↦ by cases h
    | some table => exact placed_computeSliceOffsets _
  have hforall := Laid.bakeSymbolLocations_spec hlocations
  have htext : ∀ {j : ℕ} {symbolDef : SymbolDef}, builder.defs[j]? = some symbolDef →
      isText symbolDef.kind = true → ∃ baked : SymbolDef, defs[j]? = some baked ∧
        baked.binOffset = position laid.text symbolDef.mark := by
    intro j symbolDef hdef hkind
    rw [← hdefs] at hdef
    obtain ⟨baked, hbaked, hoffset, -⟩ := forall₂_getElem? hforall hdef
    rw [text_binOffset hkind, map_eq_some_iff] at hoffset
    obtain ⟨slice, hslice, hoffset⟩ := hoffset
    refine ⟨baked, hbaked, ?_⟩
    rw [← hoffset, hplaced hslice]
    rfl
  refine ⟨⟨hbintext.trans (bake_bytes htextBaked),
    hbindata.trans (bake_bytes hdataBaked), ?_, ?_⟩, ?_⟩
  · intro symbolDef hmem hkind
    obtain ⟨j, hj⟩ := getElem?_of_mem hmem
    obtain ⟨before, hbefore, hoffset, hsame, hslice, hlocal⟩ :=
      forall₂_getElem? (List.Forall₂.flip hforall) hj
    have hbuilder := hbefore
    rw [hdefs] at hbuilder
    rw [Laid.binOffset] at hoffset
    cases hk : symbolDef.kind with
    | UNKNOWN => exact absurd hk hkind
    | DATA_LABEL =>
      rw [← hsame, hk, if_neg (by decide), if_pos rfl, map_eq_some_iff] at hoffset
      obtain ⟨slice, hfound, hoffset⟩ := hoffset
      rw [← hoffset, hdataPlaced hfound, hslice, hlocal]
      rfl
    | ADDR_TABLE =>
      -- looked up in the text, where it has the same place as in its own section: the beginning
      have hmark := hencoded.addrTable before (mem_of_getElem? hbuilder) (hsame ▸ hk)
      obtain ⟨hzero, hzero'⟩ := Prod.mk.inj hmark
      rw [← hsame, hk, if_neg (by decide), if_neg (by decide), hzero, hzero',
        map_eq_some_iff] at hoffset
      obtain ⟨slice, hfound, hoffset⟩ := hoffset
      rw [← hoffset, hplaced hfound, hslice, hlocal, hzero, hzero', position,
        start_zero, start_zero]
    | TEXT_FUNC =>
      rw [← hsame, hk, if_neg (by decide), if_neg (by decide), map_eq_some_iff] at hoffset
      obtain ⟨slice, hfound, hoffset⟩ := hoffset
      rw [← hoffset, hplaced hfound, hslice, hlocal]
      rfl
    | TEXT_LABEL =>
      rw [← hsame, hk, if_neg (by decide), if_neg (by decide), map_eq_some_iff] at hoffset
      obtain ⟨slice, hfound, hoffset⟩ := hoffset
      rw [← hoffset, hplaced hfound, hslice, hlocal]
      rfl
  · rw [huses, map_append, map_append, Laid.bake_uses htextBaked hplaced,
      Laid.bake_uses hdataBaked hdataPlaced]
    congr 1
    cases htable : laid.addrTable with
    | none =>
      rw [htable] at htableBaked
      obtain rfl := some.inj htableBaked
      rfl
    | some table =>
      rw [htable] at htableBaked htablePlaced
      exact Laid.bake_uses htableBaked htablePlaced
  · intro prepared hprepared before func after hsplit
    obtain ⟨frame, first, last, hframe, ⟨hfirst, hfirsttext, hfirstmark⟩, hlast, hlasttext,
      hlastmark⟩ := hencoded.frames prepared hprepared before func after hsplit
    rw [← hunwind] at hframe
    obtain ⟨baked, hbaked, hbakeFrame⟩ := forall₂_getElem? (forall₂_of_mapM hframes) hframe
    obtain ⟨first', hfirst', hfirstoffset⟩ := htext hfirst hfirsttext
    obtain ⟨last', hlast', hlastoffset⟩ := htext hlast hlasttext
    rw [Laid.bakeFrame] at hbakeFrame
    obtain ⟨pushed, -, hbakeFrame⟩ := bind_eq_some_iff.mp hbakeFrame
    obtain ⟨f, hf, hbakeFrame⟩ := bind_eq_some_iff.mp hbakeFrame
    obtain ⟨l, hl, hbakeFrame⟩ := bind_eq_some_iff.mp hbakeFrame
    obtain ⟨allocaStart, -, hbakeFrame⟩ := bind_eq_some_iff.mp hbakeFrame
    obtain ⟨allocaEnd, -, hbakeFrame⟩ := bind_eq_some_iff.mp hbakeFrame
    obtain rfl := some.inj hbakeFrame
    obtain rfl := some.inj (hfirst'.symm.trans hf)
    obtain rfl := some.inj (hlast'.symm.trans hl)
    exact ⟨_, hbaked, hfirstoffset.trans (by rw [hfirstmark]),
      hlastoffset.trans (by rw [hlastmark])⟩

/-- The end of a function after a branch out of range is out of place. -/
theorem not_exactSymbols (hgood : Good text)
    (hflags : flags text = flags (computeSliceOffsets 0 builder.text.slices))
    {slice : SectionSlice} (hslice : slice ∈ text)
    (hrange : ¬InRange isShort builder.defs text slice) : ¬ExactSymbols laid defs bin := by
  intro hexact
  obtain ⟨hresolve, -, -, hdefs, -⟩ := layOut_spec hrelaxed hlaid
  obtain ⟨hlocations, -⟩ := createModule_spec hbin
  obtain ⟨i, hi⟩ := getElem?_of_mem hslice
  have hbranch : slice.relaxableBranch = true := by
    rw [InRange] at hrange
    push Not at hrange
    exact hrange.1
  -- the slice is not the current one, which is no branch
  have hclosed : i < builder.text.closed.length := by
    have hflag : (flags (computeSliceOffsets 0 builder.text.slices))[i]? = some true := by
      rw [← hflags, flags, getElem?_map, hi, map_some, hbranch]
    rw [flags, getElem?_map, computeSliceOffsets_spec, Option.map_map, map_eq_some_iff] at hflag
    obtain ⟨before, hbefore, hflag⟩ := hflag
    rw [SectionBuilder.slices] at hbefore
    by_contra hge
    rw [getElem?_append_right (Nat.le_of_not_lt hge)] at hbefore
    have hcur := mem_of_getElem? hbefore
    rw [mem_singleton] at hcur
    change before.relaxableBranch = true at hflag
    rw [hcur, hencoded.tidy.cur] at hflag
    cases hflag
  rcases hencoded.ended with hempty | ⟨symbolDef, hdef, htext, hmark⟩
  · rw [hempty] at hclosed
    exact absurd hclosed (Nat.not_lt_zero i)
  · obtain ⟨j, hj⟩ := getElem?_of_mem hdef
    rw [← hdefs] at hj
    obtain ⟨baked, hbaked, hoffset, hkind, hsliceIndex, hlocal⟩ :=
      forall₂_getElem? (Laid.bakeSymbolLocations_spec hlocations) hj
    rw [text_binOffset htext, map_eq_some_iff] at hoffset
    obtain ⟨last, hlast, hoffset⟩ := hoffset
    have hindex : symbolDef.sliceIndex = builder.text.closed.length := congrArg Prod.fst hmark
    have hlt := resolve_lt_start hgood hresolve hi hrange (hindex ▸ hclosed) hlast
    have hplace := hexact.defs baked (mem_of_getElem? hbaked) (by
      rw [hkind]
      rintro hunknown
      rw [hunknown] at htext
      cases htext)
    rw [hkind, text_sectionOf htext, hsliceIndex, hlocal, position, ← hoffset] at hplace
    dsimp only at hplace
    omega

theorem exactLayout_iff : ExactLayout toF32 mod laid defs bin ↔ JgInRange builder.defs text := by
  have hgood' := good_computeSliceOffsets hencoded.tidy
  obtain ⟨hgood, hflags, htested⟩ := applyRelaxation_spec fuel _ hgood' hrelaxed
  obtain ⟨hresolve, -⟩ := layOut_spec hrelaxed hlaid
  constructor
  · intro hexact slice hslice hbranch opcode hopcode hjg displacement hdisp
    by_contra hfits
    refine not_exactSymbols hencoded hrelaxed hlaid hbin hgood hflags hslice ?_ hexact.symbols
    exact fun hrange ↦ hfits (hrange hbranch opcode hopcode
      ((isShort_iff opcode).mpr (Or.inr (of_decide_eq_true hjg))) displacement hdisp)
  · intro hjg
    apply exactLayout_of_placed hencoded hrelaxed hlaid hbin
    apply resolve_placed hgood hresolve
    intro slice hslice hbranch opcode hopcode hshort
    rcases (isShort_iff opcode).mp hshort with htest | rfl
    · exact htested slice hslice hbranch opcode hopcode htest
    · exact hjg slice hslice hbranch _ hopcode (decide_eq_true rfl)

end Layout

/-- A function that branches over some bytes to a label. -/
def branchOver (condition : Condition) (bytes : ℕ) : Mcode.Module where
  externalSymbols := []
  globalSymbols := []
  functions := [{
    name := "f", allocSize := 0
    blocks := [⟨"", [.jcc condition 1, .write (List.replicate bytes 0x90)]⟩,
      ⟨"end", [.write [0xC3]]⟩] }]
  globals := []
  addrTable := none

end Banjo.Emit
