import Banjo.SSAGen.LinkNames
import Mathlib.Data.List.Pairwise

/-!
# When all link names are different

The names that the source gives are taken as they are, those of variables among them, and a vtable
has only the name of its struct. All other names differ, but for mangled names that run into their
numbers.
-/

open List Option

namespace Banjo.SSAGen.LinkNames

open SIR (Ident StructDef StructDefId ConcreteProto ProtoFuncDecl)
open NameMangling
open SSA (GlobalId)

variable {τ : Type}

/-! ## The creation of functions and variables -/

variable (source : Source τ)

/-- The names that the source gives: of functions with a link name, of the main function, of exposed
functions and of variables. -/
def givenNames (creations : List Creation) : List String :=
  creations.filterMap fun
    | .funcDef funcDef _ => givenName source.testing funcDef
    | .vtableType => none
    | .varDecl ident => some ident

/-- The mangled functions with their numbers when `draws` numbers have been drawn before. -/
def numbered : ℕ → List Creation → List Numbered
  | _, [] => []
  | draws, .funcDef funcDef genericArgs :: creations =>
    if (givenName source.testing funcDef).isSome then numbered draws creations
    else ⟨signature funcDef genericArgs, source.rand draws⟩ :: numbered (draws + 1) creations
  | draws, .vtableType :: creations => numbered (draws + 1) creations
  | draws, .varDecl _ :: creations => numbered draws creations

/-- What the creation adds. -/
theorem foldl_create (creations : List Creation) (s : State) :
    ∃ functions globals,
      (creations.foldl (create source) s).functions = s.functions ++ functions ∧
      (creations.foldl (create source) s).ctx = { s.ctx with globals := s.ctx.globals ++ globals } ∧
      (creations.foldl (create source) s).stringNameId = s.stringNameId ∧
      (functions ++ globals.map Global.name).Perm
        (givenNames source creations ++ (numbered source s.draws creations).map Numbered.name) := by
  induction creations generalizing s with
  | nil => exact ⟨[], [], by simp, by simp, rfl, .refl _⟩
  | cons creation creations ih =>
    obtain ⟨functions, globals, hfunctions, hctx, hstring, hperm⟩ := ih (create source s creation)
    rw [foldl_cons, hfunctions, hctx, hstring]
    cases creation with
    | vtableType => exact ⟨functions, globals, rfl, rfl, rfl, hperm⟩
    | varDecl ident =>
      refine ⟨functions, ⟨ident, .bytes 1 0⟩ :: globals, rfl, ?_, rfl, ?_⟩
      · simp [create, addGlobal]
      · exact perm_middle.trans (hperm.cons ident)
    | funcDef funcDef genericArgs =>
      refine ⟨getLinkName source.testing funcDef genericArgs (source.rand s.draws) :: functions,
        globals, by simp [create], rfl, rfl, ?_⟩
      cases hgiven : givenName source.testing funcDef with
      | some name =>
        simp only [create, hgiven, isSome_some, if_true] at hperm
        simpa [getLinkName, givenNames, numbered, hgiven] using hperm.cons name
      | none =>
        simp only [create, hgiven, isSome_none, Bool.false_eq_true, if_false] at hperm
        have hcons := (hperm.cons (mangleFuncName funcDef genericArgs (source.rand s.draws))).trans
          perm_middle.symm
        simpa [getLinkName, givenNames, numbered, hgiven, Numbered.name, mangleFuncName] using hcons

/-- No number is drawn twice. -/
theorem pairwise_numbered (creations : List Creation) (draws : ℕ) :
    (∀ f ∈ numbered source draws creations, ∃ draw ≥ draws, f.number = source.rand draw) ∧
      (numbered source draws creations).Pairwise fun a b ↦ a.number ≠ b.number := by
  induction creations generalizing draws with
  | nil => exact ⟨nofun, .nil⟩
  | cons creation creations ih =>
    have hlater : ∀ f ∈ numbered source (draws + 1) creations,
        ∃ draw ≥ draws, f.number = source.rand draw := fun f hf ↦ by
      obtain ⟨draw, hdraw, hnumber⟩ := (ih (draws + 1)).1 f hf
      exact ⟨draw, by omega, hnumber⟩
    cases creation with
    | vtableType => exact ⟨hlater, (ih (draws + 1)).2⟩
    | varDecl ident => exact ih draws
    | funcDef funcDef genericArgs =>
      rw [numbered]
      split_ifs with hgiven
      · exact ih draws
      · refine ⟨forall_mem_cons.mpr ⟨⟨draws, le_rfl, rfl⟩, hlater⟩,
          .cons (fun f hf heq ↦ ?_) (ih (draws + 1)).2⟩
        obtain ⟨draw, hdraw, hnumber⟩ := (ih (draws + 1)).1 f hf
        have := source.rand_injective (heq.trans hnumber)
        omega

/-! ## Vtables -/

/-- The names of the entries for the methods of some protos, the first of which is number `i`. -/
def entryNames (ident : Ident) (i : ℕ) (impls : List (ConcreteProto τ)) : List String :=
  (impls.zipIdx i).flatMap fun entry ↦
    entry.1.proto.funcDecls.zipIdx.map fun method ↦ vtableEntryName ident entry.2 method.2

theorem foldlM_appends {α β : Type} {step : β → α → Option β} {names : β → List String}
    {added : α → List String}
    (hstep : ∀ b a b', step b a = some b' → names b' = names b ++ added a) (l : List α) {b b' : β}
    (h : l.foldlM step b = some b') : names b' = names b ++ l.flatMap added := by
  induction l generalizing b with
  | nil =>
    cases h
    simp
  | cons a l ih =>
    rw [foldlM_cons] at h
    obtain ⟨c, hc, hrest⟩ := bind_eq_some_iff.mp h
    rw [ih hrest, hstep b a c hc, flatMap_cons, append_assoc]

variable {structDef : StructDef τ}

theorem names_addVtableEntry {id : StructDefId} {i : ℕ} {state state' : List Global × List GlobalId}
    {entry : ProtoFuncDecl τ × ℕ} (h : addVtableEntry structDef id i state entry = some state') :
    state'.1.map Global.name =
      state.1.map Global.name ++ [vtableEntryName structDef.ident i entry.2] := by
  obtain ⟨funcDef, -, h⟩ := bind_eq_some_iff.mp h
  obtain ⟨ssaFunc, -, h⟩ := bind_eq_some_iff.mp h
  rw [← some.inj h]
  simp [vtableEntryName]

theorem names_addVtable {id : StructDefId} {state state' : List Global × List GlobalId}
    {entry : ConcreteProto τ × ℕ} (h : addVtable structDef id state entry = some state') :
    state'.1.map Global.name = state.1.map Global.name ++
      entry.1.proto.funcDecls.zipIdx.map fun method ↦
        vtableEntryName structDef.ident entry.2 method.2 := by
  have hfold := foldlM_appends
    (fun state entry state' ↦ @names_addVtableEntry _ structDef id _ state state' entry) _ h
  rw [hfold, ← map_eq_flatMap]

variable {impls : List (ConcreteProto τ)}

theorem names_foldlM_addVtable {id : StructDefId} {state state' : List Global × List GlobalId}
    {i : ℕ} (h : (impls.zipIdx i).foldlM (addVtable structDef id) state = some state') :
    state'.1.map Global.name = state.1.map Global.name ++ entryNames structDef.ident i impls :=
  @foldlM_appends _ _ _ (fun state ↦ state.1.map Global.name) _
    (fun _ _ _ ↦ names_addVtable) _ _ _ h

/-- The vtables of a struct are made once. -/
theorem names_createVtables {id : StructDefId} {ctx ctx' : Context} {vtables : List GlobalId}
    (h : createVtables structDef id ctx = some (vtables, ctx')) :
    if id ∈ ctx.ssaVtables.map Prod.fst then ctx' = ctx
    else ctx'.globals.map Global.name =
        ctx.globals.map Global.name ++ entryNames structDef.ident 0 structDef.impls ∧
      ctx'.ssaVtables.map Prod.fst = ctx.ssaVtables.map Prod.fst ++ [id] := by
  unfold createVtables at h
  split at h
  · rename_i found hlookup
    cases h
    obtain ⟨before, after, hctx, -⟩ := lookup_eq_some_iff.mp hlookup
    rw [if_pos (by simp [hctx])]
  · rename_i hlookup
    rw [if_neg fun hmem ↦ ?_]
    · obtain ⟨⟨globals, vtables'⟩, hfold, h⟩ := bind_eq_some_iff.mp h
      cases h
      exact ⟨names_foldlM_addVtable hfold, by simp⟩
    · obtain ⟨entry, hentry, rfl⟩ := mem_map.mp hmem
      exact absurd (lookup_eq_none_iff.mp hlookup entry hentry) (by simp)

/-- Is there a method `j` of proto `i`? -/
def HasEntry (impls : List (ConcreteProto τ)) (i j : ℕ) : Prop :=
  ∃ impl, impls[i]? = some impl ∧ j < impl.proto.funcDecls.length

theorem mem_entryNames {ident : Ident} {k : ℕ} {name : String} :
    name ∈ entryNames ident k impls ↔
      ∃ i j, HasEntry impls i j ∧ name = vtableEntryName ident (k + i) j := by
  unfold entryNames HasEntry
  rw [mem_flatMap]
  constructor
  · rintro ⟨⟨impl, i⟩, himpl, hname⟩
    obtain ⟨⟨method, j⟩, hmethod, rfl⟩ := mem_map.mp hname
    obtain ⟨hle, hget⟩ := mk_mem_zipIdx_iff_le_and_getElem?_sub.mp himpl
    have hj := mk_mem_zipIdx_iff_getElem?.mp hmethod
    refine ⟨i - k, j, ⟨impl, hget, (List.getElem?_eq_some_iff.mp hj).1⟩, ?_⟩
    rw [Nat.add_sub_cancel' hle]
  · rintro ⟨i, j, ⟨impl, hget, hj⟩, rfl⟩
    refine ⟨(impl, k + i), mk_mem_zipIdx_iff_le_and_getElem?_sub.mpr ⟨by omega, by simpa⟩,
      mem_map.mpr ⟨(impl.proto.funcDecls[j], j), ?_, rfl⟩⟩
    exact mk_mem_zipIdx_iff_getElem?.mpr (getElem?_eq_getElem hj)

theorem nodup_entryNames {ident : Ident} (hdot : '.' ∉ ident.toList) (k : ℕ)
    (impls : List (ConcreteProto τ)) : (entryNames ident k impls).Nodup := by
  induction impls generalizing k with
  | nil => exact .nil
  | cons impl impls ih =>
    have hcons : entryNames ident k (impl :: impls) =
        (impl.proto.funcDecls.zipIdx.map fun method ↦ vtableEntryName ident k method.2) ++
          entryNames ident (k + 1) impls := by
      simp [entryNames, zipIdx_cons]
    rw [hcons, nodup_append]
    refine ⟨?_, ih (k + 1), fun name hname name' hname' heq ↦ ?_⟩
    · have hmap : (impl.proto.funcDecls.zipIdx.map fun method ↦
          vtableEntryName ident k method.2) =
          (range' 0 impl.proto.funcDecls.length).map (vtableEntryName ident k) := by
        rw [← List.zipIdx_map_snd, List.map_map]
        rfl
      rw [hmap]
      exact List.Nodup.map (fun j j' h ↦ (vtableEntryName_inj hdot hdot h).2.2) nodup_range'
    · obtain ⟨method, -, rfl⟩ := mem_map.mp hname
      obtain ⟨i, j, -, rfl⟩ := mem_entryNames.mp hname'
      have := (vtableEntryName_inj hdot hdot heq).2.1
      omega

/-! ## The generation of function bodies -/

def stringCount : List Event → ℕ
  | [] => 0
  | .stringLiteral _ :: events => stringCount events + 1
  | .vtables _ :: events => stringCount events

def vtableNames (id : StructDefId) : List String :=
  match source.structs id with
  | some structDef => entryNames structDef.ident 0 structDef.impls
  | none => []

def State.keys (s : State) : List StructDefId := s.ctx.ssaVtables.map Prod.fst

/-- What a run adds: the vtables of some structs, and strings. -/
structure Adds (events : List Event) (s s' : State) (ids : List StructDefId)
    (names : List String) : Prop where
  functions : s'.functions = s.functions
  globals : s'.ctx.globals.map Global.name = s.ctx.globals.map Global.name ++ names
  nodup : (s.keys ++ ids).Nodup
  complete : ∀ id, .vtables id ∈ events → id ∈ s.keys ++ ids
  sound : ∀ id ∈ ids, .vtables id ∈ events ∧ (source.structs id).isSome
  perm : names.Perm (ids.flatMap (vtableNames source) ++
    (range' s.stringNameId (stringCount events)).map stringName)

theorem foldlM_handle {events : List Event} {s s' : State} (hkeys : s.keys.Nodup)
    (h : events.foldlM (handle source) s = some s') :
    ∃ ids names, Adds source events s s' ids names := by
  induction events generalizing s with
  | nil =>
    cases h
    exact ⟨[], [], rfl, by simp, by simpa using hkeys, nofun, nofun, by simp [stringCount]⟩
  | cons event events ih =>
    rw [foldlM_cons] at h
    obtain ⟨t, ht, hrest⟩ := bind_eq_some_iff.mp h
    cases event with
    | stringLiteral size =>
      cases ht
      obtain ⟨ids, names, hadds⟩ := ih (by exact hkeys) hrest
      refine ⟨ids, stringName s.stringNameId :: names, hadds.functions, ?_, hadds.nodup,
        fun id hid ↦ ?_, fun id hid ↦ ?_, ?_⟩
      · rw [hadds.globals]
        simp [addGlobal]
      · obtain hid | hid := mem_cons.mp hid
        · cases hid
        · exact hadds.complete id hid
      · exact ⟨mem_cons_of_mem _ (hadds.sound id hid).1, (hadds.sound id hid).2⟩
      · rw [stringCount, range'_succ, map_cons]
        exact (hadds.perm.cons _).trans perm_middle.symm
    | vtables id =>
      obtain ⟨structDef, hstruct, ht⟩ := bind_eq_some_iff.mp ht
      obtain ⟨⟨vtables, ctx⟩, hcreate, ht⟩ := bind_eq_some_iff.mp ht
      cases ht
      have hnames := names_createVtables hcreate
      split_ifs at hnames with hmem
      · -- The vtables are there.
        subst hnames
        obtain ⟨ids, names, hadds⟩ := ih (by exact hkeys) hrest
        refine ⟨ids, names, hadds.functions, hadds.globals, hadds.nodup, fun other hother ↦ ?_,
          fun other hother ↦ ?_, hadds.perm⟩
        · obtain hother | hother := mem_cons.mp hother
          · cases hother
            exact mem_append_left _ hmem
          · exact hadds.complete other hother
        · exact ⟨mem_cons_of_mem _ (hadds.sound other hother).1, (hadds.sound other hother).2⟩
      · obtain ⟨hglobals, hkeys'⟩ := hnames
        have hnodup : (ctx.ssaVtables.map Prod.fst).Nodup := by
          rw [hkeys', nodup_append]
          refine ⟨hkeys, nodup_singleton _, fun other hother other' hother' heq ↦ hmem ?_⟩
          rwa [← mem_singleton.mp hother', ← heq]
        obtain ⟨ids, names, hadds⟩ := ih (by exact hnodup) hrest
        have hall : (s.keys ++ id :: ids) = ctx.ssaVtables.map Prod.fst ++ ids := by
          rw [hkeys', append_assoc]
          rfl
        refine ⟨id :: ids, entryNames structDef.ident 0 structDef.impls ++ names, hadds.functions,
          ?_, ?_, fun other hother ↦ ?_, forall_mem_cons.mpr ⟨?_, fun other hother ↦ ?_⟩, ?_⟩
        · rw [hadds.globals, ← append_assoc, ← hglobals]
        · rw [hall]
          exact hadds.nodup
        · rw [hall]
          obtain hother | hother := mem_cons.mp hother
          · cases hother
            rw [hkeys']
            simp
          · exact hadds.complete other hother
        · exact ⟨mem_cons_self, by rw [hstruct]; rfl⟩
        · exact ⟨mem_cons_of_mem _ (hadds.sound other hother).1, (hadds.sound other hother).2⟩
        · rw [flatMap_cons, vtableNames, hstruct, append_assoc]
          exact hadds.perm.append_left _

/-! ## Exactly when -/

def given : List String := givenNames source (creations source)

def mangled : List Numbered := numbered source 0 (creations source)

/-- The names that the generator makes up. -/
inductive Generated : String → Prop
  | mangled {f : Numbered} (h : f ∈ mangled source) : Generated f.name
  | vtable {id : StructDefId} {structDef : StructDef τ} {i j : ℕ}
      (hevent : .vtables id ∈ source.events) (hstruct : source.structs id = some structDef)
      (hentry : HasEntry structDef.impls i j) : Generated (vtableEntryName structDef.ident i j)
  | string {n : ℕ} (h : n < stringCount source.events) : Generated (stringName n)

structure Unambiguous : Prop where
  given : (given source).Nodup
  generated : ∀ name ∈ LinkNames.given source, ¬Generated source name
  mangled : ∀ a ∈ mangled source, ∀ b ∈ LinkNames.mangled source, ¬Absorbs a b
  -- No vtables for the same number of a proto in structs of the same name.
  vtables : ∀ id id' structDef structDef', .vtables id ∈ source.events →
    .vtables id' ∈ source.events → source.structs id = some structDef →
    source.structs id' = some structDef' → id ≠ id' → structDef.ident = structDef'.ident →
    ∀ i, ¬(HasEntry structDef.impls i 0 ∧ HasEntry structDef'.impls i 0)

variable {source}

theorem not_absorbs_self (a : Numbered) : ¬Absorbs a a := by
  rintro ⟨digits, hne, hsignature, -⟩
  have hlist := congrArg String.toList hsignature
  rw [String.toList_append] at hlist
  exact hne (String.toList_inj.mp (self_eq_append_right.mp hlist))

theorem nodup_mangled_iff :
    ((mangled source).map Numbered.name).Nodup ↔
      ∀ a ∈ mangled source, ∀ b ∈ mangled source, ¬Absorbs a b := by
  constructor
  · intro hnodup a ha b hb habsorbs
    obtain rfl := inj_on_of_nodup_map hnodup ha hb (name_eq_of_absorbs habsorbs)
    exact not_absorbs_self a habsorbs
  · intro h
    rw [List.Nodup, pairwise_map]
    refine (pairwise_numbered source (creations source) 0).2.imp_of_mem fun ha hb hne heq ↦ ?_
    obtain habsorbs | habsorbs := (name_eq_iff_absorbs hne).mp heq
    · exact h _ ha _ hb habsorbs
    · exact h _ hb _ ha habsorbs

theorem mem_vtableNames {id : StructDefId} {name : String} :
    name ∈ vtableNames source id ↔ ∃ structDef i j, source.structs id = some structDef ∧
      HasEntry structDef.impls i j ∧ name = vtableEntryName structDef.ident i j := by
  unfold vtableNames
  cases hstruct : source.structs id with
  | none => simp
  | some structDef =>
    simp only [mem_entryNames, Nat.zero_add, some.injEq]
    constructor
    · rintro ⟨i, j, hentry, hname⟩
      exact ⟨structDef, i, j, rfl, hentry, hname⟩
    · rintro ⟨_, i, j, rfl, hentry, hname⟩
      exact ⟨i, j, hentry, hname⟩

theorem HasEntry.zero {i j : ℕ} (h : HasEntry impls i j) : HasEntry impls i 0 := by
  obtain ⟨impl, hget, hj⟩ := h
  exact ⟨impl, hget, by omega⟩

theorem nodup_vtables_iff {ids : List StructDefId} (hnodup : ids.Nodup)
    (hids : ∀ id, .vtables id ∈ source.events → id ∈ ids)
    (hevents : ∀ id ∈ ids, .vtables id ∈ source.events) :
    (ids.flatMap (vtableNames source)).Nodup ↔
      ∀ id id' structDef structDef', .vtables id ∈ source.events → .vtables id' ∈ source.events →
        source.structs id = some structDef → source.structs id' = some structDef' → id ≠ id' →
        structDef.ident = structDef'.ident →
        ∀ i, ¬(HasEntry structDef.impls i 0 ∧ HasEntry structDef'.impls i 0) := by
  rw [nodup_flatMap]
  constructor
  · rintro ⟨-, hpairwise⟩ id id' structDef structDef' hid hid' hstruct hstruct' hne hident i
      ⟨hentry, hentry'⟩
    have : Std.Symm (Function.onFun List.Disjoint (vtableNames source)) := ⟨fun _ _ h ↦ h.symm⟩
    have hdisjoint : List.Disjoint (vtableNames source id) (vtableNames source id') :=
      hpairwise.forall (hids id hid) (hids id' hid') hne
    refine hdisjoint (mem_vtableNames.mpr ⟨structDef, i, 0, hstruct, hentry, rfl⟩)
      (mem_vtableNames.mpr ⟨structDef', i, 0, hstruct', hentry', by rw [hident]⟩)
  · intro h
    refine ⟨fun id _ ↦ ?_, hnodup.pairwise_of_forall_ne fun id hid id' hid' hne name
      hname hname' ↦ ?_⟩
    · unfold vtableNames
      cases hstruct : source.structs id with
      | none => exact .nil
      | some structDef => exact nodup_entryNames (source.dotless id structDef hstruct) 0 _
    · obtain ⟨structDef, i, j, hstruct, hentry, rfl⟩ := mem_vtableNames.mp hname
      obtain ⟨structDef', i', j', hstruct', hentry', heq⟩ := mem_vtableNames.mp hname'
      obtain ⟨hident, rfl, -⟩ := vtableEntryName_inj (source.dotless id structDef hstruct)
        (source.dotless id' structDef' hstruct') heq
      exact h id id' structDef structDef' (hevents id hid) (hevents id' hid') hstruct hstruct' hne
        hident i ⟨hentry.zero, hentry'.zero⟩

/-! The first letters. -/

theorem head_signature (funcDef : FuncDef) (genericArgs : List TypeExpr) :
    (signature funcDef genericArgs).toList.head? = some 'b' := by
  simp only [signature, String.append_assoc, String.toList_append]
  rfl

theorem head_mangled {f : Numbered} {draws : ℕ} {creations : List Creation}
    (h : f ∈ numbered source draws creations) : f.name.toList.head? = some 'b' := by
  induction creations generalizing draws with
  | nil => cases h
  | cons creation creations ih =>
    cases creation with
    | vtableType => exact ih h
    | varDecl ident => exact ih h
    | funcDef funcDef genericArgs =>
      rw [numbered] at h
      split_ifs at h
      · exact ih h
      · obtain rfl | h := mem_cons.mp h
        · have hhead := head_signature funcDef genericArgs
          rw [Numbered.name, String.toList_append, head?_append, hhead, some_or]
        · exact ih h

theorem head_vtableEntryName (ident : Ident) (i j : ℕ) :
    (vtableEntryName ident i j).toList.head? = some 'v' := by
  unfold vtableEntryName
  split_ifs <;> simp only [String.append_assoc, String.toList_append] <;> rfl

theorem head_stringName (n : ℕ) : (stringName n).toList.head? = some 's' := by
  simp only [stringName, String.toList_append]
  rfl

theorem ne_of_head {name name' : String} {c c' : Char} (h : name.toList.head? = some c)
    (h' : name'.toList.head? = some c') (hne : c ≠ c') : name ≠ name' := by
  rintro rfl
  exact hne (some.inj (h.symm.trans h'))

theorem nodup_strings (k count : ℕ) : ((range' k count).map stringName).Nodup := by
  refine List.Nodup.map (fun m n h ↦ ?_) nodup_range'
  have hlist := congrArg String.toList h
  rw [stringName, stringName, String.toList_append, String.toList_append] at hlist
  exact toString_inj (String.toList_inj.mp (append_cancel_left hlist))

/-- All names, whatever their order. -/
theorem perm_names {s : State} (h : generate source = some s) :
    ∃ ids : List StructDefId, ids.Nodup ∧ (∀ id, .vtables id ∈ source.events → id ∈ ids) ∧
      (∀ id ∈ ids, .vtables id ∈ source.events) ∧
      s.names.Perm (given source ++ ((mangled source).map Numbered.name ++
        (ids.flatMap (vtableNames source) ++
          (range' 0 (stringCount source.events)).map stringName))) := by
  obtain ⟨functions, globals, hfunctions, hctx, hstring, hperm⟩ :=
    foldl_create source (creations source) {}
  have hkeys : ((creations source).foldl (create source) {}).keys = [] := by
    rw [State.keys, hctx]
    rfl
  obtain ⟨ids, names, hadds⟩ := foldlM_handle source (by rw [hkeys]; exact .nil) h
  have hnodup := hadds.nodup
  have hcomplete := hadds.complete
  rw [hkeys, nil_append] at hnodup hcomplete
  refine ⟨ids, hnodup, hcomplete, fun id hid ↦ (hadds.sound id hid).1, ?_⟩
  have hnames : s.names = (functions ++ globals.map Global.name) ++ names := by
    rw [State.names, hadds.functions, hadds.globals, hfunctions, hctx]
    simp
  have hlater := hadds.perm
  rw [hstring] at hlater
  rw [hnames, ← append_assoc]
  exact hperm.append hlater

theorem names_nodup_iff {s : State} (h : generate source = some s) :
    s.names.Nodup ↔ Unambiguous source := by
  obtain ⟨ids, hids, hcomplete, hsound, hperm⟩ := perm_names h
  rw [hperm.nodup_iff, nodup_append, nodup_append, nodup_append, nodup_mangled_iff,
    nodup_vtables_iff hids hcomplete hsound]
  constructor
  · rintro ⟨hgiven, ⟨hmangled, ⟨hvtables, -, -⟩, -⟩, hne⟩
    refine ⟨hgiven, fun name hname hgenerated ↦ ?_, hmangled, hvtables⟩
    refine hne name hname name ?_ rfl
    cases hgenerated with
    | mangled hf => exact mem_append_left _ (mem_map_of_mem hf)
    | vtable hevent hstruct hentry =>
      refine mem_append_right _ (mem_append_left _ (mem_flatMap.mpr ?_))
      exact ⟨_, hcomplete _ hevent, mem_vtableNames.mpr ⟨_, _, _, hstruct, hentry, rfl⟩⟩
    | string hn =>
      refine mem_append_right _ (mem_append_right _ (mem_map_of_mem ?_))
      exact mem_range'_1.mpr (by omega)
  · intro hunambiguous
    refine ⟨hunambiguous.given, ⟨hunambiguous.mangled,
      ⟨hunambiguous.vtables, nodup_strings _ _, ?_⟩, ?_⟩, ?_⟩
    · intro name hname name' hname'
      obtain ⟨id, -, hname⟩ := mem_flatMap.mp hname
      obtain ⟨structDef, i, j, -, -, rfl⟩ := mem_vtableNames.mp hname
      obtain ⟨n, -, rfl⟩ := mem_map.mp hname'
      exact ne_of_head (head_vtableEntryName _ _ _) (head_stringName n) (by decide)
    · intro name hname name' hname'
      obtain ⟨f, hf, rfl⟩ := mem_map.mp hname
      obtain hname' | hname' := mem_append.mp hname'
      · obtain ⟨id, -, hname'⟩ := mem_flatMap.mp hname'
        obtain ⟨structDef, i, j, -, -, rfl⟩ := mem_vtableNames.mp hname'
        exact ne_of_head (head_mangled hf) (head_vtableEntryName _ _ _) (by decide)
      · obtain ⟨n, -, rfl⟩ := mem_map.mp hname'
        exact ne_of_head (head_mangled hf) (head_stringName n) (by decide)
    · rintro name hname _ hname' rfl
      refine hunambiguous.generated name hname ?_
      obtain hname' | hname' := mem_append.mp hname'
      · obtain ⟨f, hf, rfl⟩ := mem_map.mp hname'
        exact .mangled hf
      obtain hname' | hname' := mem_append.mp hname'
      · obtain ⟨id, hid, hname'⟩ := mem_flatMap.mp hname'
        obtain ⟨structDef, i, j, hstruct, hentry, rfl⟩ := mem_vtableNames.mp hname'
        exact .vtable (hsound id hid) hstruct hentry
      · obtain ⟨n, hn, rfl⟩ := mem_map.mp hname'
        exact .string (by have := mem_range'_1.mp hn; omega)

/-- No two symbols have one name, and every name stands for its own symbol. -/
structure Unique (names : List String) : Prop where
  nodup : names.Nodup
  resolves : ∀ i (h : i < names.length), resolve names names[i] = some i

theorem unique_of_nodup {names : List String} (h : names.Nodup) : Unique names where
  nodup := h
  resolves i hi := by
    refine findIdx?_eq_some_iff_getElem.mpr ⟨hi, by simp, fun j hj ↦ ?_⟩
    have hne := pairwise_iff_getElem.mp h j i (by omega) hi hj
    simpa using hne

/-- For every program that is generated. -/
theorem unique_names_iff {s : State} (h : generate source = some s) :
    Unique s.names ↔ Unambiguous source :=
  ⟨fun hunique ↦ (names_nodup_iff h).mp hunique.nodup,
    fun hunambiguous ↦ unique_of_nodup ((names_nodup_iff h).mpr hunambiguous)⟩

section

/-- Two modules with a variable each, and a function that uses a string. -/
private def twoModules (first second : Ident) : Source Unit where
  modules := [[.varDecl first,
    .funcDef { ident := "print", parent := .module ["main"] } []], [.varDecl second]]
  structs _ := none
  events := [.stringLiteral 4]
  rand := id
  dotless _ _ h := by cases h
  rand_injective := Function.injective_id

theorem unique_names_twoModules :
    ∃ s, generate (twoModules "size" "count") = some s ∧ Unique s.names := by
  have hgiven : given (twoModules "size" "count") = ["size", "count"] := rfl
  have hunambiguous : Unambiguous (twoModules "size" "count") := by
    refine ⟨by rw [hgiven]; decide, fun name hname hgenerated ↦ ?_, fun a ha b hb ↦ ?_, nofun⟩
    · rw [hgiven] at hname
      cases hgenerated with
      | mangled hf =>
        have hhead := head_mangled hf
        rw [mem_cons, mem_singleton] at hname
        obtain heq | heq := hname <;> rw [heq] at hhead <;> exact absurd hhead (by decide)
      | vtable hevent => nomatch hevent
      | @string n hn =>
        obtain rfl : n = 0 := Nat.lt_one_iff.mp hn
        exact absurd hname (by decide)
    · obtain rfl := mem_singleton.mp ha
      obtain rfl := mem_singleton.mp hb
      exact not_absorbs_self _
  exact ⟨_, rfl, (@unique_names_iff _ (twoModules "size" "count") _ rfl).mpr hunambiguous⟩

/-- Variables of one name in two modules are one symbol. -/
theorem not_unique_names_sameVariable :
    ∃ s, generate (twoModules "count" "count") = some s ∧ ¬Unique s.names :=
  ⟨_, rfl, fun h ↦ absurd h.nodup (by decide)⟩

end

end Banjo.SSAGen.LinkNames
