import Banjo.SIR.Proto

/-!
# The analysis of proto implementations

A struct needs a function for every method of its protos. A missing one is filled in from the
default of the proto, if it has one.
-/

open List

namespace Banjo.Sema

open SIR

variable {τ : Type} (compare : τ → τ → Bool) (specialize : ConcreteProto τ → τ → τ)

inductive Report where
  | implMissingFunc (name : Ident)
  | duplicateProtoImpl (proto : ProtoId)
  | implTypeMismatch (name : Ident)
  deriving DecidableEq, Repr

/-- `insert_default_impl`. -/
def insertDefaultImpl (structDef : StructDef τ) (funcDef : FuncDef τ) : StructDef τ :=
  { structDef with
    symbols := structDef.symbols ++ [(funcDef.ident, .funcDef funcDef)]
    named := by
      intro entry hentry
      obtain hentry | hentry := mem_append.mp hentry
      · exact structDef.named entry hentry
      · rw [mem_singleton.mp hentry]
        rintro _ ⟨⟩
        rfl }

/-- A round of `DeclInterfaceAnalyzer::analyze_proto_impl`. -/
def analyzeProtoFunc (state : StructDef τ × List Report) (funcDecl : ProtoFuncDecl τ) :
    StructDef τ × List Report :=
  match state.1.symbols.lookup funcDecl.ident, funcDecl with
  | none, .funcDef default => (insertDefaultImpl state.1 default, state.2)
  | none, .funcDecl name _ _ => (state.1, state.2 ++ [.implMissingFunc name])
  | some (.funcDef _), _ => state
  | some .other, funcDecl => (state.1, state.2 ++ [.implMissingFunc funcDecl.ident])

def analyzeProtoImpl (proto : ProtoDef τ) (structDef : StructDef τ) : StructDef τ × List Report :=
  proto.funcDecls.foldl analyzeProtoFunc (structDef, [])

/-- A round of `DeclInterfaceAnalyzer::analyze_struct_def`. -/
def analyzeImpl (state : StructDef τ × List Report) (entry : ConcreteProto τ × ℕ) :
    StructDef τ × List Report :=
  let (structDef, reports) := analyzeProtoImpl entry.1.proto state.1
  let isDuplicate := (structDef.impls.take entry.2).any (·.proto.id = entry.1.proto.id)
  (structDef, state.2 ++ (reports ++
    if isDuplicate then [.duplicateProtoImpl entry.1.proto.id] else []))

def analyzeInterface (structDef : StructDef τ) : StructDef τ × List Report :=
  structDef.impls.zipIdx.foldl analyzeImpl (structDef, [])

/-- `DeclBodyAnalyzer::analyze_struct_def`. -/
def analyzeBody (structDef : StructDef τ) : List Report :=
  structDef.impls.flatMap fun impl ↦ impl.proto.funcDecls.flatMap fun funcDecl ↦
    match structDef.lookUpFunc funcDecl.ident with
    | some funcDef =>
      if compare funcDef.type (specialize impl funcDecl.type) then []
      else [.implTypeMismatch funcDecl.ident]
    | none => []

/-- The struct `structDef` of the source passes the analysis and becomes `analyzed`. -/
structure Accepts (structDef analyzed : StructDef τ) : Prop where
  interface : analyzeInterface structDef = (analyzed, [])
  body : analyzeBody compare specialize analyzed = []

/-! ## What an accepted struct has -/

theorem lookup_append {symbols : List (Ident × Symbol τ)} {name : Ident} {symbol : Symbol τ}
    (h : symbols.lookup name = some symbol) (rest : List (Ident × Symbol τ)) :
    (symbols ++ rest).lookup name = some symbol := by
  rw [List.lookup_append, h, Option.some_or]

/-- Names keep their symbols. -/
def Keeps (structDef structDef' : StructDef τ) : Prop :=
  structDef'.impls = structDef.impls ∧ ∀ name symbol,
    structDef.symbols.lookup name = some symbol → structDef'.symbols.lookup name = some symbol

theorem Keeps.trans {a b c : StructDef τ} (h : Keeps a b) (h' : Keeps b c) : Keeps a c :=
  ⟨h'.1.trans h.1, fun name symbol hsymbol ↦ h'.2 name symbol (h.2 name symbol hsymbol)⟩

variable {name : Ident} {structDef structDef' : StructDef τ}

theorem Keeps.lookUpFunc (h : Keeps structDef structDef') {funcDef : FuncDef τ}
    (hfunc : structDef.lookUpFunc name = some funcDef) :
    structDef'.lookUpFunc name = some funcDef := by
  unfold StructDef.lookUpFunc at hfunc ⊢
  split at hfunc
  · rename_i symbol hsymbol
    rw [h.2 name _ hsymbol]
    exact hfunc
  · cases hfunc

theorem keeps_insertDefaultImpl (structDef : StructDef τ) (funcDef : FuncDef τ) :
    Keeps structDef (insertDefaultImpl structDef funcDef) :=
  ⟨rfl, fun _ _ h ↦ lookup_append h _⟩

theorem Keeps.refl (structDef : StructDef τ) : Keeps structDef structDef := ⟨rfl, fun _ _ h ↦ h⟩

/-- What a round establishes when it reports nothing holds of all rounds of an analysis that reports
nothing: the reports only grow. -/
theorem foldl_reports {α : Type} {step : StructDef τ × List Report → α → StructDef τ × List Report}
    (found : α → StructDef τ → Prop)
    (hkeeps : ∀ a structDef structDef', found a structDef → Keeps structDef structDef' →
      found a structDef')
    (hround : ∀ state a, Keeps state.1 (step state a).1 ∧
      (∃ rest, (step state a).2 = state.2 ++ rest) ∧
        ((step state a).2 = [] → found a (step state a).1))
    (rounds : List α) (state : StructDef τ × List Report) :
    Keeps state.1 (rounds.foldl step state).1 ∧
      (∃ rest, (rounds.foldl step state).2 = state.2 ++ rest) ∧
        ((rounds.foldl step state).2 = [] → ∀ a ∈ rounds, found a (rounds.foldl step state).1) := by
  induction rounds generalizing state with
  | nil => exact ⟨Keeps.refl _, ⟨[], by simp⟩, by simp⟩
  | cons a rounds ih =>
    obtain ⟨hkeep, ⟨rest, hrest⟩, hfound⟩ := hround state a
    obtain ⟨hkeep', ⟨rest', hrest'⟩, hfound'⟩ := ih (step state a)
    rw [foldl_cons]
    refine ⟨hkeep.trans hkeep', ⟨rest ++ rest', ?_⟩, fun hnil b hb ↦ ?_⟩
    · rw [hrest', hrest, append_assoc]
    · obtain rfl | hb := mem_cons.mp hb
      · rw [hrest'] at hnil
        exact hkeeps b _ _ (hfound (append_eq_nil_iff.mp hnil).1) hkeep'
      · exact hfound' hnil b hb

/-- The struct has a function for this method. -/
def Has (name : Ident) (structDef : StructDef τ) : Prop :=
  ∃ funcDef, structDef.lookUpFunc name = some funcDef

theorem Has.keeps (h : Has name structDef)
    (hkeep : Keeps structDef structDef') : Has name structDef' :=
  h.imp fun _ hfunc ↦ hkeep.lookUpFunc hfunc

theorem analyzeProtoFunc_spec (state : StructDef τ × List Report) (funcDecl : ProtoFuncDecl τ) :
    Keeps state.1 (analyzeProtoFunc state funcDecl).1 ∧
      (∃ rest, (analyzeProtoFunc state funcDecl).2 = state.2 ++ rest) ∧
        ((analyzeProtoFunc state funcDecl).2 = [] →
          Has funcDecl.ident (analyzeProtoFunc state funcDecl).1) := by
  unfold analyzeProtoFunc
  split
  · rename_i default hlookup
    refine ⟨keeps_insertDefaultImpl _ _, ⟨[], (append_nil _).symm⟩, fun _ ↦ ⟨default, ?_⟩⟩
    have hlookup' : state.1.symbols.lookup default.ident = none := hlookup
    simp [StructDef.lookUpFunc, insertDefaultImpl, List.lookup_append, hlookup',
      ProtoFuncDecl.ident]
  · exact ⟨Keeps.refl _, ⟨_, rfl⟩, fun h ↦ absurd h (by simp)⟩
  · rename_i funcDef hlookup
    refine ⟨Keeps.refl _, ⟨[], (append_nil _).symm⟩, fun _ ↦ ⟨funcDef, ?_⟩⟩
    simp only [StructDef.lookUpFunc, hlookup]
  · exact ⟨Keeps.refl _, ⟨_, rfl⟩, fun h ↦ absurd h (by simp)⟩

/-- A proto whose analysis has nothing to report has a function for each of its methods. -/
theorem analyzeProtoImpl_spec (proto : ProtoDef τ) (structDef : StructDef τ) :
    Keeps structDef (analyzeProtoImpl proto structDef).1 ∧
      ((analyzeProtoImpl proto structDef).2 = [] → ∀ name ∈ proto.names,
        Has name (analyzeProtoImpl proto structDef).1) := by
  obtain ⟨hkeep, -, hfound⟩ := foldl_reports (fun funcDecl ↦ Has funcDecl.ident)
    (fun _ _ _ ↦ Has.keeps) analyzeProtoFunc_spec proto.funcDecls (structDef, [])
  refine ⟨hkeep, fun hnil name hname ↦ ?_⟩
  obtain ⟨funcDecl, hmem, rfl⟩ := mem_map.mp hname
  exact hfound hnil funcDecl hmem

/-- What the analysis of the `i`-th implementation checks. -/
def Implements (entry : ConcreteProto τ × ℕ) (structDef : StructDef τ) : Prop :=
  (∀ name ∈ entry.1.proto.names, Has name structDef) ∧
    ∀ other ∈ structDef.impls.take entry.2, other.proto.id ≠ entry.1.proto.id

theorem analyzeImpl_spec (state : StructDef τ × List Report) (entry : ConcreteProto τ × ℕ) :
    Keeps state.1 (analyzeImpl state entry).1 ∧
      (∃ rest, (analyzeImpl state entry).2 = state.2 ++ rest) ∧
        ((analyzeImpl state entry).2 = [] → Implements entry (analyzeImpl state entry).1) := by
  obtain ⟨hkeep, hfound⟩ := analyzeProtoImpl_spec entry.1.proto state.1
  refine ⟨hkeep, ⟨_, rfl⟩, fun hnil ↦ ?_⟩
  obtain ⟨hreports, hduplicate⟩ :=
    append_eq_nil_iff.mp (append_eq_nil_iff.mp hnil).2
  refine ⟨hfound hreports, fun other hother hid ↦ ?_⟩
  split_ifs at hduplicate with hany
  exact hany (any_eq_true.mpr ⟨other, hother, decide_eq_true hid⟩)

/-- An accepted struct has a function for each method of its protos, and implements none twice. -/
theorem analyzeInterface_spec {analyzed : StructDef τ}
    (h : analyzeInterface structDef = (analyzed, [])) :
    (∀ impl ∈ analyzed.impls, ∀ name ∈ impl.proto.names, Has name analyzed) ∧
      analyzed.impls.Pairwise fun impl impl' ↦ impl.proto.id ≠ impl'.proto.id := by
  obtain ⟨hkeep, -, hfound⟩ := foldl_reports Implements
    (fun entry _ _ h hkeep ↦ ⟨fun name hname ↦ (h.1 name hname).keeps hkeep, hkeep.1 ▸ h.2⟩)
    analyzeImpl_spec structDef.impls.zipIdx (structDef, [])
  rw [analyzeInterface] at h
  rw [h] at hkeep hfound
  have himpls : analyzed.impls = structDef.impls := hkeep.1
  have hall : ∀ i impl, analyzed.impls[i]? = some impl → Implements (impl, i) analyzed :=
    fun i impl hi ↦ hfound rfl (impl, i) (mem_zipIdx_iff_getElem?.mpr (himpls ▸ hi))
  refine ⟨fun impl himpl ↦ ?_, pairwise_iff_getElem.mpr fun i j hi hj hij ↦ ?_⟩
  · obtain ⟨i, hi⟩ := mem_iff_getElem?.mp himpl
    exact (hall i impl hi).1
  · refine (hall j _ (getElem?_eq_getElem hj)).2 _ ?_
    exact mem_take_iff_getElem.mpr ⟨i, Nat.lt_min.mpr ⟨hij, hi⟩, rfl⟩

end Banjo.Sema
