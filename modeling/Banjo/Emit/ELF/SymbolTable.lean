import Banjo.Emit.ELF.ELFBuilder

/-!
# The symbol table of an object file

A definition is placed once, in the pass for its binding, and stays where it is: the table and the
names only grow, and each index is set once. So after the two passes the definitions and the symbols
behind the first three correspond, and a relocation refers to the symbol of the definition that the
code used.
-/

open List Option Function

namespace Banjo.Emit.ELF

open WriteBuffer (Byte)

variable {defs : List BinSymbolDef} {state state' : State} {d d' : BinSymbolDef} {global : Bool}
  {i j k : ℕ}

/-! ## Where a definition is -/

/-- The symbol has what the definition says, apart from its name. -/
structure Describes (sym : ELFSymbol) (d : BinSymbolDef) : Prop where
  binding : sym.binding = binding d.global
  section_ : symbolType d.kind = some (sym.type, sym.sectionIndex)
  value : sym.value = d.offset

/-- The definition with index `j` is the symbol with index `k`, before indices and offsets are cut
to 32 bits. -/
structure PlacedAt (state : State) (d : BinSymbolDef) (j k : ℕ) : Prop where
  behind : 3 ≤ k
  index : state.elfSymbolIndices[j]? = some (wrap k)
  symbol : ∃ sym offset, state.symbols[k]? = some sym ∧ Describes sym d ∧
    sym.nameOffset = wrap offset ∧ offset < state.strtab.length ∧
    d.name ++ [0] <+: state.strtab.drop offset

/-- The state after one definition, with its index. -/
def placed (state : State) (d : BinSymbolDef) (i type sectionIndex : ℕ) : State where
  strtab := state.strtab ++ (d.name ++ [0])
  symbols := state.symbols ++
    [⟨wrap state.strtab.length, binding d.global, type, sectionIndex, d.offset, 0⟩]
  info := state.info
  elfSymbolIndices := state.elfSymbolIndices.set i (wrap state.symbols.length)

variable {type sectionIndex : ℕ}

theorem processDef_eq (h : symbolType d.kind = some (type, sectionIndex)) :
    processDef { state with
      elfSymbolIndices := state.elfSymbolIndices.set i (wrap state.symbols.length) } d
      = some (placed state d i type sectionIndex) := by
  rw [processDef, h]
  rfl

theorem placedAt_placed (h : symbolType d.kind = some (type, sectionIndex))
    (hbehind : 3 ≤ state.symbols.length) (hi : i < state.elfSymbolIndices.length) :
    PlacedAt (placed state d i type sectionIndex) d i state.symbols.length where
  behind := hbehind
  index := getElem?_set_self hi
  symbol := by
    refine ⟨_, state.strtab.length, getElem?_concat_length, ⟨rfl, h, rfl⟩, rfl, ?_, ?_⟩
    · simp [placed]
    · simp [placed]

/-- What is placed stays, as its index is not set again. -/
theorem PlacedAt.placed (h : PlacedAt state d j k) (hne : i ≠ j) :
    PlacedAt (placed state d' i type sectionIndex) d j k where
  behind := h.behind
  index := (List.getElem?_set_ne hne).trans h.index
  symbol := by
    obtain ⟨sym, offset, hsym, hdescribes, hname, hlt, hprefix⟩ := h.symbol
    refine ⟨sym, offset, ?_, hdescribes, hname, ?_, ?_⟩
    · exact getElem?_append_left (List.getElem?_eq_some_iff.mp hsym).1 ▸ hsym
    · exact hlt.trans_le (by simp [ELF.placed])
    · change _ <+: (state.strtab ++ _).drop offset
      rw [List.drop_append_of_le_length hlt.le]
      exact hprefix.trans (List.prefix_append _ _)

/-! ## One pass -/

/-- The definitions that have been placed when the pass has come to index `i`. -/
def Done (global : Bool) (i : ℕ) (d : BinSymbolDef) (j : ℕ) : Prop :=
  d.global = false ∧ global = true ∨ d.global = global ∧ j < i

structure Inv (defs : List BinSymbolDef) (global : Bool) (i : ℕ) (state : State) : Prop where
  indices : state.elfSymbolIndices.length = defs.length
  behind : 3 ≤ state.symbols.length
  placed : ∀ j d, defs[j]? = some d → Done global i d j → ∃ k, PlacedAt state d j k
  owned : ∀ k, 3 ≤ k → k < state.symbols.length →
    ∃ j d, defs[j]? = some d ∧ Done global i d j ∧ PlacedAt state d j k

theorem Done.lt_or (h : Done global (i + 1) d j) :
    Done global i d j ∨ d.global = global ∧ j = i := by
  obtain h | ⟨h, hlt⟩ := h
  · exact .inl (.inl h)
  · obtain hlt | rfl := Nat.lt_succ_iff_lt_or_eq.mp hlt
    · exact .inl (.inr ⟨h, hlt⟩)
    · exact .inr ⟨h, rfl⟩

theorem Done.succ (h : Done global i d j) : Done global (i + 1) d j :=
  h.imp_right fun h ↦ ⟨h.1, Nat.lt_succ_of_lt h.2⟩

/-- A definition that has been placed is not the one that the pass is at. -/
theorem Done.ne (h : Done global i d j) (hi : defs[i]? = some d') (hj : defs[j]? = some d)
    (hglobal : d'.global = global) : i ≠ j := by
  rintro rfl
  obtain rfl := some.inj (hi.symm.trans hj)
  obtain ⟨hlocal, rfl⟩ | ⟨-, hlt⟩ := h
  · rw [hlocal] at hglobal
    cases hglobal
  · exact lt_irrefl _ hlt

theorem Inv.skip (h : Inv defs global i state) (hi : defs[i]? = some d) (hne : d.global ≠ global) :
    Inv defs global (i + 1) state where
  indices := h.indices
  behind := h.behind
  placed j d' hj hdone := by
    obtain hdone | ⟨heq, rfl⟩ := hdone.lt_or
    · exact h.placed j d' hj hdone
    · obtain rfl := some.inj (hi.symm.trans hj)
      exact absurd heq hne
  owned k hk hlt := by
    obtain ⟨j, d', hj, hdone, hplaced⟩ := h.owned k hk hlt
    exact ⟨j, d', hj, hdone.succ, hplaced⟩

theorem Inv.step (h : Inv defs global i state) (hi : defs[i]? = some d)
    (hglobal : d.global = global) (htype : symbolType d.kind = some (type, sectionIndex)) :
    Inv defs global (i + 1) (ELF.placed state d i type sectionIndex) where
  indices := (List.length_set ..).trans h.indices
  behind := h.behind.trans (by simp [ELF.placed])
  placed j d' hj hdone := by
    obtain hdone | ⟨heq, rfl⟩ := hdone.lt_or
    · obtain ⟨k, hplaced⟩ := h.placed j d' hj hdone
      exact ⟨k, hplaced.placed (hdone.ne hi hj hglobal)⟩
    · obtain rfl := some.inj (hi.symm.trans hj)
      refine ⟨_, placedAt_placed htype h.behind ?_⟩
      rw [h.indices]
      exact (List.getElem?_eq_some_iff.mp hi).1
  owned k hk hlt := by
    have hlength : (ELF.placed state d i type sectionIndex).symbols.length
        = state.symbols.length + 1 := length_append
    rw [hlength] at hlt
    obtain hlt | rfl := Nat.lt_succ_iff_lt_or_eq.mp hlt
    · obtain ⟨j, d', hj, hdone, hplaced⟩ := h.owned k hk hlt
      exact ⟨j, d', hj, hdone.succ, hplaced.placed (hdone.ne hi hj hglobal)⟩
    · refine ⟨i, d, hi, .inr ⟨hglobal, Nat.lt_succ_self i⟩, placedAt_placed htype h.behind ?_⟩
      rw [h.indices]
      exact (List.getElem?_eq_some_iff.mp hi).1

/-- The bytes of the names that a pass adds, each with its end. -/
def namesLength (global : Bool) (defs : List BinSymbolDef) : ℕ :=
  ((defs.filter (·.global = global)).map fun d ↦ d.name.length + 1).sum

/-- What a pass does to the state. -/
structure PassSpec (global : Bool) (defs : List BinSymbolDef) (state state' : State) : Prop where
  info : state'.info = state.info
  symbols : ∃ new, state'.symbols = state.symbols ++ new ∧
    new.length = (defs.filter (·.global = global)).length ∧
    ∀ sym ∈ new, sym.binding = binding global
  strtab : state'.strtab.length = state.strtab.length + namesLength global defs

/-- By induction on the definitions that are left. -/
theorem exists_processPass (front rest : List BinSymbolDef)
    (hkinds : ∀ d ∈ rest, d.kind ≠ .TEXT_LABEL)
    (hinv : Inv (front ++ rest) global front.length state) :
    ∃ state', processPass global front.length rest state = some state' ∧
      Inv (front ++ rest) global (front ++ rest).length state' ∧
      PassSpec global rest state state' := by
  induction rest generalizing front state with
  | nil =>
    rw [append_nil] at hinv ⊢
    exact ⟨state, rfl, hinv, rfl, ⟨[], by simp⟩, rfl⟩
  | cons d rest ih =>
    have hi : (front ++ d :: rest)[front.length]? = some d := by simp
    have hkinds' : ∀ d ∈ rest, d.kind ≠ .TEXT_LABEL := fun d hd ↦ hkinds d (mem_cons_of_mem _ hd)
    have hsplit : front ++ d :: rest = front ++ [d] ++ rest := by simp
    have hlength : (front ++ [d]).length = front.length + 1 := length_append
    rw [processPass]
    by_cases hglobal : d.global = global
    · obtain ⟨⟨type, sectionIndex⟩, htype⟩ : ∃ p, symbolType d.kind = some p := by
        have hkind := hkinds d mem_cons_self
        revert hkind
        cases d.kind <;> simp [symbolType]
      have hinv' := hinv.step hi hglobal htype
      rw [hsplit, ← hlength] at hinv'
      obtain ⟨state', hrun, hend, hinfo, ⟨new, hsymbols, hcount, hnew⟩, hstrtab⟩ :=
        ih (front ++ [d]) hkinds' hinv'
      rw [hlength] at hrun
      have hfilter : (d :: rest).filter (·.global = global)
          = d :: rest.filter (·.global = global) := filter_cons_of_pos (by simpa using hglobal)
      refine ⟨state', ?_, hsplit ▸ hend, hinfo,
        ⟨⟨wrap state.strtab.length, binding d.global, type, sectionIndex, d.offset, 0⟩ :: new,
          ?_, ?_, ?_⟩, ?_⟩
      · rw [if_pos hglobal]
        change (processDef _ d).bind _ = _
        rw [processDef_eq htype]
        exact hrun
      · rw [hsymbols, ELF.placed, append_assoc]
        rfl
      · rw [hfilter, length_cons, length_cons, hcount]
      · exact forall_mem_cons.mpr ⟨congrArg binding hglobal, hnew⟩
      · rw [hstrtab, ELF.placed, namesLength, namesLength, hfilter, map_cons, sum_cons,
          length_append, length_append, length_singleton, Nat.add_assoc]
    · have hinv' := hinv.skip hi hglobal
      rw [hsplit, ← hlength] at hinv'
      obtain ⟨state', hrun, hend, hinfo, hsymbols, hstrtab⟩ := ih (front ++ [d]) hkinds' hinv'
      rw [hlength] at hrun
      have hfilter : (d :: rest).filter (·.global = global) = rest.filter (·.global = global) :=
        filter_cons_of_neg (by simpa using hglobal)
      refine ⟨state', ?_, hsplit ▸ hend, hinfo, ?_, ?_⟩
      · rw [if_neg hglobal]
        exact hrun
      · rwa [hfilter]
      · rw [hstrtab, namesLength, namesLength, hfilter]

/-! ## Both passes -/

/-- The bytes of all names, each with its end. -/
def totalLength (defs : List BinSymbolDef) : ℕ := (defs.map fun d ↦ d.name.length + 1).sum

theorem namesLength_add (defs : List BinSymbolDef) :
    namesLength false defs + namesLength true defs = totalLength defs := by
  induction defs with
  | nil => rfl
  | cons d defs ih =>
    rw [totalLength, map_cons, sum_cons, ← totalLength, ← ih]
    cases hglobal : d.global <;> simp [namesLength, hglobal] <;> omega

theorem length_filter_add (defs : List BinSymbolDef) :
    (defs.filter (·.global = false)).length + (defs.filter (·.global = true)).length
      = defs.length := by
  induction defs with
  | nil => rfl
  | cons d defs ih => cases hglobal : d.global <;> simp [hglobal] at ih ⊢ <;> omega

/-- The state after both passes; `locals` is where the global symbols start. -/
structure Complete (defs : List BinSymbolDef) (locals : ℕ) (state : State) : Prop where
  placed : ∀ j d, defs[j]? = some d → ∃ k, PlacedAt state d j k
  owned : ∀ k, 3 ≤ k → k < state.symbols.length → ∃ j d, defs[j]? = some d ∧ PlacedAt state d j k
  strtab : state.strtab.length = 1 + totalLength defs
  symbols : state.symbols.length = 3 + defs.length
  info : state.info = wrap locals
  le : locals ≤ state.symbols.length
  bindings : ∀ k sym, state.symbols[k]? = some sym →
    sym.binding = if k < locals then binding false else binding true

theorem exists_processDefs (defs : List BinSymbolDef) (hkinds : ∀ d ∈ defs, d.kind ≠ .TEXT_LABEL) :
    ∃ state locals, processDefs defs = some state ∧ Complete defs locals state := by
  let start : State := { elfSymbolIndices := replicate defs.length 0 }
  have hstart : Inv defs false 0 start := by
    refine ⟨List.length_replicate, le_rfl, ?_, fun k hk hlt ↦ absurd hlt (not_lt.mpr hk)⟩
    rintro j d - (⟨-, ⟨⟩⟩ | ⟨-, hlt⟩)
    exact absurd hlt (Nat.not_lt_zero _)
  obtain ⟨middle, hrun, hinv, hinfo, ⟨localSyms, hlocals, hlocalsLength, hlocal⟩, hstrtab⟩ :=
    exists_processPass [] defs hkinds hstart
  have hmiddle : Inv defs true 0 { middle with info := wrap middle.symbols.length } := by
    refine ⟨hinv.indices, hinv.behind, ?_, ?_⟩
    · rintro j d hj (⟨hlocal, -⟩ | ⟨-, hlt⟩)
      · exact (hinv.placed j d hj (.inr ⟨hlocal, (List.getElem?_eq_some_iff.mp hj).1⟩)).imp
          fun k hplaced ↦ ⟨hplaced.behind, hplaced.index, hplaced.symbol⟩
      · exact absurd hlt (Nat.not_lt_zero _)
    · intro k hk hlt
      obtain ⟨j, d, hj, hdone, hplaced⟩ := hinv.owned k hk hlt
      refine ⟨j, d, hj, .inl ⟨?_, rfl⟩, hplaced.behind, hplaced.index, hplaced.symbol⟩
      obtain ⟨-, ⟨⟩⟩ | ⟨hlocal, -⟩ := hdone
      exact hlocal
  obtain ⟨state, hrun', hinv', hinfo', ⟨globalSyms, hglobals, hglobalsLength, hglobal⟩, hstrtab'⟩ :=
    exists_processPass [] defs hkinds hmiddle
  have hcount := length_filter_add defs
  have hnames := namesLength_add defs
  have hlength : middle.symbols.length = 3 + localSyms.length := by
    rw [hlocals, length_append]
    rfl
  have hlength' : state.symbols.length = middle.symbols.length + globalSyms.length := by
    rw [hglobals, length_append]
  refine ⟨state, middle.symbols.length, ?_, ?_, ?_, ?_, by omega, hinfo', by omega, ?_⟩
  · change (processPass false 0 defs start).bind _ = _
    rw [show processPass false 0 defs start = some middle from hrun]
    exact hrun'
  · intro j d hj
    refine hinv'.placed j d hj ?_
    cases hd : d.global with
    | false => exact .inl ⟨hd, rfl⟩
    | true => exact .inr ⟨hd, (List.getElem?_eq_some_iff.mp hj).1⟩
  · intro k hk hlt
    obtain ⟨j, d, hj, -, hplaced⟩ := hinv'.owned k hk hlt
    exact ⟨j, d, hj, hplaced⟩
  · rw [hstrtab']
    change middle.strtab.length + _ = _
    rw [hstrtab, ← hnames]
    change 1 + _ + _ = _
    omega
  · intro k sym hsym
    rw [hglobals] at hsym
    split_ifs with hlt
    · rw [getElem?_append_left hlt, hlocals] at hsym
      obtain hmem | hmem := List.mem_append.mp (mem_of_getElem? hsym)
      · have hall : ∀ sym ∈ ([⟨0, 0, 0, 0, 0, 0⟩, ⟨0, 0, 3, 1, 0, 0⟩, ⟨0, 0, 3, 2, 0, 0⟩] :
            List ELFSymbol), sym.binding = binding false := by decide
        exact hall sym hmem
      · exact hlocal sym hmem
    · rw [List.getElem?_append_right (not_lt.mp hlt)] at hsym
      exact hglobal sym (mem_of_getElem? hsym)

/-! ## Relocations -/

variable {arch : Architecture}

/-- Appending one entry to the list of each use's section gives each section the entries of its
uses, in order. -/
theorem exists_processUses {indices : List ℕ}
    {R : BinSymbolUse → ELFRelocation → Prop} (uses : List BinSymbolUse) (relocations : Relocations)
    (h : ∀ use ∈ uses, ∃ entry, relocation arch indices use = some entry ∧ R use entry)
    (hsections : ∀ use ∈ uses, (relocations use.section_).isSome) :
    ∃ relocations', processUses arch indices uses relocations = some relocations' ∧
      ∀ section_, ∀ list, relocations section_ = some list → ∃ new,
        relocations' section_ = some (list ++ new) ∧
        List.Forall₂ R (uses.filter (·.section_ = section_)) new := by
  induction uses generalizing relocations with
  | nil => exact ⟨relocations, rfl, fun _ list hlist ↦ ⟨[], by simpa using hlist, by simp⟩⟩
  | cons use uses ih =>
    obtain ⟨entry, hentry, hR⟩ := h use mem_cons_self
    obtain ⟨list, hlist⟩ := isSome_iff_exists.mp (hsections use mem_cons_self)
    obtain ⟨relocations', hrun, hspec⟩ := ih
      (Function.update relocations use.section_ (some (list ++ [entry])))
      (fun use huse ↦ h use (mem_cons_of_mem _ huse)) (by
        intro other hother
        by_cases heq : other.section_ = use.section_
        · rw [heq, update_self]
          rfl
        · rw [update_of_ne heq]
          exact hsections other (mem_cons_of_mem _ hother))
    refine ⟨relocations', ?_, fun section_ old hold ↦ ?_⟩
    · rw [processUses, foldlM_cons, processUse, hlist, hentry]
      exact hrun
    · by_cases heq : use.section_ = section_
      · subst heq
        obtain rfl := some.inj (hlist.symm.trans hold)
        obtain ⟨new, hnew, hforall⟩ := hspec use.section_ _ (update_self ..)
        refine ⟨entry :: new, by rw [hnew, append_assoc, singleton_append], ?_⟩
        rw [filter_cons_of_pos (by simp)]
        exact .cons hR hforall
      · obtain ⟨new, hnew, hforall⟩ := hspec section_ old
          ((update_of_ne (Ne.symm heq) ..).trans hold)
        refine ⟨new, hnew, ?_⟩
        rwa [filter_cons_of_neg (by simpa using heq)]

/-! ## Object files -/

/-- What the code relies on of a binary module: labels are gone, uses are of definitions, in
sections that are there, and of kinds that the architecture has. -/
structure WellFormed (arch : Architecture) (module_ : BinModule) : Prop where
  kinds : ∀ d ∈ module_.symbolDefs, d.kind ≠ .TEXT_LABEL
  uses : ∀ use ∈ module_.symbolUses, use.symbolIndex < module_.symbolDefs.length ∧
    (relocationType arch use.kind).isSome
  bnjatbl : ∀ use ∈ module_.symbolUses, use.section_ = .BNJATBL → module_.bnjatblData.isSome

/-- The symbol has the name of the definition in the string table, and what the definition says. -/
structure Denotes (names : List Byte) (sym : ELFSymbol) (d : BinSymbolDef) : Prop where
  describes : Describes sym d
  name : d.name ++ [0] <+: names.drop sym.nameOffset

/-- The relocation is the one of the use, and its symbol is the one that the use is of. -/
structure Refers (defs : List BinSymbolDef) (symbols : List ELFSymbol) (names : List Byte)
    (use : BinSymbolUse) (entry : ELFRelocation) : Prop where
  offset : entry.offset = use.address
  symbol : ∃ d sym, defs[use.symbolIndex]? = some d ∧ symbols[entry.symbolIndex]? = some sym ∧
    Denotes names sym d

/-- The symbol table with its names, and the relocations of each section. -/
structure Correct (module_ : BinModule) (file : ELFFile) (info : ℕ) (symbols : List ELFSymbol)
    (names : List Byte) : Prop where
  symtab : ∃ symtab, file.sections[4]? = some symtab ∧ symtab.data = .symbols symbols ∧
    symtab.info = info
  strtab : ∃ strtab, file.sections[3]? = some strtab ∧ strtab.data = .binary names
  localsFirst : info ≤ symbols.length ∧
    ∀ k sym, symbols[k]? = some sym → (k < info ↔ sym.binding = binding false)
  defined : ∀ d ∈ module_.symbolDefs, ∃ sym ∈ symbols.drop 3, Denotes names sym d
  denoting : ∀ sym ∈ symbols.drop 3, ∃ d ∈ module_.symbolDefs, Denotes names sym d
  count : symbols.length = 3 + module_.symbolDefs.length
  relocations : ∀ section_ index, (section_, index) ∈
      [(BinSectionKind.TEXT, 5), (.DATA, 6)] ++
        (if module_.bnjatblData.isSome then [(.BNJATBL, 8)] else []) →
    ∃ rela entries, file.sections[index]? = some rela ∧ rela.data = .relocations entries ∧
      List.Forall₂ (Refers module_.symbolDefs symbols names)
        (module_.symbolUses.filter (·.section_ = section_)) entries

/-- The names and the symbols can be counted with 32 bits. -/
def Fits (module_ : BinModule) : Prop := 3 + totalLength module_.symbolDefs < 2 ^ 32

theorem length_le_totalLength (defs : List BinSymbolDef) : defs.length ≤ totalLength defs := by
  induction defs with
  | nil => exact le_rfl
  | cons d defs ih =>
    rw [totalLength, map_cons, sum_cons, ← totalLength, length_cons]
    omega

theorem wrap_of_lt {n : ℕ} (h : n < 2 ^ 32) : wrap n = n := Nat.mod_eq_of_lt h

/-- Where nothing is cut, what is placed is denoted. -/
theorem PlacedAt.denotes (h : PlacedAt state d j k) (hsymbols : state.symbols.length < 2 ^ 32)
    (hstrtab : state.strtab.length < 2 ^ 32) : 3 ≤ k ∧ state.elfSymbolIndices[j]? = some k ∧
      ∃ sym, state.symbols[k]? = some sym ∧ Denotes state.strtab sym d := by
  obtain ⟨sym, offset, hsym, hdescribes, hname, hlt, hprefix⟩ := h.symbol
  have hk := (List.getElem?_eq_some_iff.mp hsym).1
  rw [wrap_of_lt (by omega)] at hname
  refine ⟨h.behind, ?_, sym, hsym, hdescribes, ?_⟩
  · rw [h.index, wrap_of_lt (by omega)]
  · rwa [hname]

variable {module_ : BinModule}

/-- The relocations of a section are those of its uses. -/
theorem Complete.refers {locals : ℕ}
    (h : Complete module_.symbolDefs locals state) (hwell : WellFormed arch module_)
    (hsymbols : state.symbols.length < 2 ^ 32) (hstrtab : state.strtab.length < 2 ^ 32)
    {use : BinSymbolUse} (huse : use ∈ module_.symbolUses) :
    ∃ entry, relocation arch state.elfSymbolIndices use = some entry ∧
      Refers module_.symbolDefs state.symbols state.strtab use entry := by
  obtain ⟨hindex, hkind⟩ := hwell.uses use huse
  obtain ⟨⟨addressOffset, type⟩, hkind⟩ := isSome_iff_exists.mp hkind
  have hd := getElem?_eq_getElem hindex
  obtain ⟨k, hplaced⟩ := h.placed _ _ hd
  obtain ⟨-, hk, sym, hsym, hdenotes⟩ := hplaced.denotes hsymbols hstrtab
  rw [relocation, hkind, hk]
  exact ⟨_, rfl, rfl, _, sym, hd, hsym, hdenotes⟩

theorem getElem?_createFile (arch : Architecture) (state : State)
    (text data entries : List ELFRelocation) {bnjatbl : List Byte}
    (h : module_.bnjatblData = some bnjatbl) :
    ∃ rela, (createFile arch module_ state text data (some entries)).sections[8]? = some rela ∧
      rela.data = .relocations entries := by
  rw [createFile, h]
  exact ⟨_, rfl, rfl⟩

theorem exists_correct {arch : Architecture} {module_ : BinModule} (h : WellFormed arch module_)
    (hfits : Fits module_) :
    ∃ file info symbols names, build arch module_ = some file ∧
      Correct module_ file info symbols names := by
  obtain ⟨state, locals, hdefs, hcomplete⟩ := exists_processDefs module_.symbolDefs h.kinds
  have hcount := length_le_totalLength module_.symbolDefs
  unfold Fits at hfits
  have hsymbols : state.symbols.length < 2 ^ 32 := by
    rw [hcomplete.symbols]
    omega
  have hstrtab : state.strtab.length < 2 ^ 32 := by
    rw [hcomplete.strtab]
    omega
  have hrefers : ∀ use ∈ module_.symbolUses, ∃ entry,
      relocation arch state.elfSymbolIndices use = some entry ∧
        Refers module_.symbolDefs state.symbols state.strtab use entry :=
    fun use ↦ hcomplete.refers h hsymbols hstrtab
  obtain ⟨relocations, huses, hspec⟩ := exists_processUses module_.symbolUses
    (emptyRelocations module_) hrefers (by
      intro use huse
      cases hsection : use.section_ with
      | TEXT => rfl
      | DATA => rfl
      | BNJATBL => rw [emptyRelocations, Option.isSome_map, h.bnjatbl use huse hsection])
  obtain ⟨textEntries, htext, hrefersText⟩ := hspec .TEXT [] rfl
  obtain ⟨dataEntries, hdata, hrefersData⟩ := hspec .DATA [] rfl
  refine ⟨createFile arch module_ state textEntries dataEntries (relocations .BNJATBL), locals,
    state.symbols, state.strtab, ?_, ?_⟩
  · rw [build, hdefs]
    change (processUses _ _ _ _).bind _ = _
    rw [huses]
    change (relocations .TEXT).bind _ = _
    rw [htext]
    change (relocations .DATA).bind _ = _
    rw [hdata]
    rfl
  constructor
  · refine ⟨_, rfl, rfl, ?_⟩
    change state.info = locals
    rw [hcomplete.info, wrap_of_lt (hcomplete.le.trans_lt hsymbols)]
  · exact ⟨_, rfl, rfl⟩
  · refine ⟨hcomplete.le, fun k sym hsym ↦ ?_⟩
    rw [hcomplete.bindings k sym hsym]
    split_ifs with hlt <;> simp [hlt, binding]
  · intro d hd
    obtain ⟨j, hj⟩ := mem_iff_getElem?.mp hd
    obtain ⟨k, hplaced⟩ := hcomplete.placed j d hj
    obtain ⟨hk, -, sym, hsym, hdenotes⟩ := hplaced.denotes hsymbols hstrtab
    refine ⟨sym, List.mem_iff_getElem?.mpr ⟨k - 3, ?_⟩, hdenotes⟩
    rw [getElem?_drop, Nat.add_sub_cancel' hk, hsym]
  · intro sym hsym
    obtain ⟨k, hk⟩ := mem_iff_getElem?.mp hsym
    rw [getElem?_drop] at hk
    obtain ⟨j, d, hj, hplaced⟩ := hcomplete.owned (3 + k) (by omega)
      (List.getElem?_eq_some_iff.mp hk).1
    obtain ⟨-, -, sym', hsym', hdenotes⟩ := hplaced.denotes hsymbols hstrtab
    obtain rfl := some.inj (hk.symm.trans hsym')
    exact ⟨d, mem_of_getElem? hj, hdenotes⟩
  · exact hcomplete.symbols
  · intro section_ index hmem
    cases hbnjatbl : module_.bnjatblData with
    | none =>
      rw [hbnjatbl] at hmem
      simp only [Option.isSome_none, Bool.false_eq_true, if_false, List.append_nil, mem_cons,
        Prod.mk.injEq, not_mem_nil, or_false] at hmem
      obtain ⟨rfl, rfl⟩ | ⟨rfl, rfl⟩ := hmem
      · exact ⟨_, textEntries, rfl, rfl, hrefersText⟩
      · exact ⟨_, dataEntries, rfl, rfl, hrefersData⟩
    | some data =>
      rw [hbnjatbl] at hmem
      simp only [Option.isSome_some, if_true, List.cons_append, List.nil_append, mem_cons,
        Prod.mk.injEq, not_mem_nil, or_false] at hmem
      obtain ⟨rfl, rfl⟩ | ⟨rfl, rfl⟩ | ⟨rfl, rfl⟩ := hmem
      · exact ⟨_, textEntries, rfl, rfl, hrefersText⟩
      · exact ⟨_, dataEntries, rfl, rfl, hrefersData⟩
      · obtain ⟨entries, hentries, hrefersEntries⟩ := hspec .BNJATBL []
          (by rw [emptyRelocations, hbnjatbl, Option.map_some])
        obtain ⟨rela, hrela, hdata⟩ := getElem?_createFile arch state textEntries dataEntries
          entries hbnjatbl
        exact ⟨rela, entries, by rw [hentries]; exact hrela, hdata, hrefersEntries⟩

/-- A function that calls an external one and uses a constant. -/
def callExternal : BinModule where
  text := replicate 20 0
  data := replicate 8 0
  symbolDefs := [⟨ascii "main", .TEXT_FUNC, 0, true⟩, ⟨ascii "constant", .DATA_LABEL, 0, false⟩,
    ⟨ascii "puts", .UNKNOWN, 0, true⟩]
  symbolUses := [⟨2, 0, 1, .REL32, .TEXT⟩, ⟨8, 0, 2, .PLT32, .TEXT⟩]
  bnjatblData := none

theorem exists_correct_callExternal : WellFormed .X86_64 callExternal ∧ Fits callExternal ∧
    ∃ file info symbols names, build .X86_64 callExternal = some file ∧
      Correct callExternal file info symbols names := by
  have hwell : WellFormed .X86_64 callExternal := ⟨by decide, by decide, by decide⟩
  have hfits : Fits callExternal := by
    change 3 + totalLength callExternal.symbolDefs < 2 ^ 32
    decide
  exact ⟨hwell, hfits, exists_correct hwell hfits⟩

/-! ### Names that do not fit -/

variable {file : ELFFile}

theorem exists_createFile (h : build arch module_ = some file) : ∃ state text data bnjatbl,
      processDefs module_.symbolDefs = some state ∧
      file = createFile arch module_ state text data bnjatbl := by
  obtain ⟨state, hstate, h⟩ := bind_eq_some_iff.mp h
  obtain ⟨relocations, -, h⟩ := bind_eq_some_iff.mp h
  obtain ⟨text, -, h⟩ := bind_eq_some_iff.mp h
  obtain ⟨data, -, h⟩ := bind_eq_some_iff.mp h
  exact ⟨state, text, data, _, hstate, (some.inj h).symm⟩

variable {info : ℕ} {names : List Byte} {symbols : List ELFSymbol}

/-- The table and the names of a file are those of the passes. -/
theorem Correct.eq {text data : List ELFRelocation} {bnjatbl : Option (List ELFRelocation)}
    (h : Correct module_ (createFile arch module_ state text data bnjatbl) info symbols names) :
    symbols = state.symbols ∧ names = state.strtab := by
  obtain ⟨symtab, hsymtab, hsymbols, -⟩ := h.symtab
  obtain ⟨strtab, hstrtab, hnames⟩ := h.strtab
  obtain rfl := some.inj hsymtab
  obtain rfl := some.inj hstrtab
  exact ⟨(ELFData.symbols.inj hsymbols).symm, (ELFData.binary.inj hnames).symm⟩

/-- Two functions, the name of the first one as long as the rest and one more. -/
def twoFuncs (rest : List Byte) : BinModule where
  text := []
  data := []
  symbolDefs := [⟨97 :: rest, .TEXT_FUNC, 0, false⟩, ⟨[98], .TEXT_FUNC, 0, false⟩]
  symbolUses := []
  bnjatblData := none

/-- The name of the second function would be at an offset that is zero modulo `2 ^ 32`. -/
theorem not_correct_twoFuncs {rest : List Byte} (h : rest.length = 2 ^ 32 - 3)
    (hbuild : build .X86_64 (twoFuncs rest) = some file) :
    ¬Correct (twoFuncs rest) file info symbols names := by
  intro hcorrect
  obtain ⟨state, text, data, bnjatbl, hstate, rfl⟩ := exists_createFile hbuild
  obtain ⟨rfl, rfl⟩ := hcorrect.eq
  obtain ⟨sym, hsym, hdenotes⟩ := hcorrect.defined ⟨[98], .TEXT_FUNC, 0, false⟩
    (mem_cons_of_mem _ mem_cons_self)
  have hname := hdenotes.name
  obtain rfl := some.inj (hstate.symm.trans (rfl : processDefs _ = some
    { strtab := [0] ++ (97 :: rest ++ [0]) ++ ([98] ++ [0])
      symbols := [⟨0, 0, 0, 0, 0, 0⟩, ⟨0, 0, 3, 1, 0, 0⟩, ⟨0, 0, 3, 2, 0, 0⟩,
        ⟨1, 0, 2, 1, 0, 0⟩, ⟨wrap ([0] ++ (97 :: rest ++ [0])).length, 0, 2, 1, 0, 0⟩]
      info := 5
      elfSymbolIndices := [3, 4] }))
  have hoffset : wrap ([0] ++ (97 :: rest ++ [0])).length = 0 := by
    simp [wrap, h]
  have hcases : sym.nameOffset = 1 ∨ sym.nameOffset = 0 := by
    simp only [hoffset, drop_succ_cons, drop_zero, mem_cons, not_mem_nil, or_false] at hsym
    obtain rfl | rfl := hsym
    · exact .inl rfl
    · exact .inr rfl
  obtain hone | hzero := hcases
  · rw [hone] at hname
    exact absurd (cons_prefix_cons.mp hname).1 (by decide)
  · rw [hzero] at hname
    exact absurd (cons_prefix_cons.mp hname).1 (by decide)

theorem wellFormed_twoFuncs (rest : List Byte) : WellFormed .X86_64 (twoFuncs rest) where
  kinds d hd := by
    obtain rfl | hd := mem_cons.mp hd
    · exact BinSymbolKind.noConfusion
    · obtain rfl := mem_singleton.mp hd
      exact BinSymbolKind.noConfusion
  uses use huse := absurd huse not_mem_nil
  bnjatbl use huse := absurd huse not_mem_nil

theorem not_exists_correct : ∃ module_, WellFormed .X86_64 module_ ∧
    ¬∃ file info symbols names, build .X86_64 module_ = some file ∧
      Correct module_ file info symbols names := by
  obtain ⟨rest, hrest⟩ : ∃ rest : List Byte, rest.length = 2 ^ 32 - 3 :=
    ⟨_, length_replicate (a := 97)⟩
  refine ⟨twoFuncs rest, wellFormed_twoFuncs rest, ?_⟩
  rintro ⟨file, info, symbols, names, hbuild, hcorrect⟩
  exact not_correct_twoFuncs hrest hbuild hcorrect

end Banjo.Emit.ELF
