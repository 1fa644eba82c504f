import Banjo.Sema.ProtoImpl
import Banjo.SSAGen.Vtables

/-!
# Which function a call through a proto calls

The coercion takes the vtable from the list of the vtables of the struct by the number of the proto
among all protos of the struct, while a proto without methods has no vtable in that list. A call
then goes to the struct's own method exactly when the method is at its index behind the vtable
taken.
-/

open List Option Function

namespace Banjo.SSAGen

open Relation (ReflTransGen)
open SIR SSA

variable {τ : Type}

/-- What the generation of the function bodies does to the context. The globals of variables are
there before, and strings are not functions. -/
inductive GenStep (unit : StructDefId → Option (StructDef τ)) : Context → Context → Prop where
  | addString (ctx : Context) (name : String) (alignment size : ℕ) :
    GenStep unit ctx { ctx with globals := ctx.globals ++ [⟨name, .bytes alignment size⟩] }
  | createVtables {ctx ctx' : Context} {id : StructDefId} {structDef : StructDef τ}
    {vtables : List GlobalId} (hunit : unit id = some structDef)
    (hcreate : createVtables structDef id ctx = some (vtables, ctx')) : GenStep unit ctx ctx'

/-- A register of the operand is older than `next`. -/
def Older (next : VirtualRegister) (operand : Operand) : Prop := ∀ reg ∈ operand.uses, reg < next

/-- Calls of the method through the proto, for every struct pointer: the code of the coercion runs,
and wherever its result is kept until the call, and whatever the code in between does, the call gets
the struct's function, and the struct pointer in front of the other arguments. -/
def CallsMethod [DecidableEq τ] (unit : StructDefId → Option (StructDef τ))
    (fatPointerType : SSAType)
    (vtableType : ConcreteProto τ → SSAType) (structDef : StructDef τ) (id : StructDefId)
    (ctx : Context) (impl : ConcreteProto τ) (name : Ident) : Prop :=
  ∀ (value dst : Operand) (next : VirtualRegister), Older next value → Older next dst →
    ∃ code ctx', generateCoercionExpr fatPointerType structDef id impl value dst next ctx =
        some (code, ctx') ∧
      ∀ final, ReflTransGen (GenStep unit) ctx' final →
      ∀ (base : ℕ) (s : State) (d : ℕ), eval base final.globals s dst = .addr d →
        ∃ s', execAll base final.globals s code = some s' ∧
        ∀ (self : Operand) (returnPtr : Option Operand) (args : List Operand)
          (next' : VirtualRegister), Older next' self → (∀ ptr ∈ returnPtr, Older next' ptr) →
          (∀ arg ∈ args, Older next' arg) →
          ∃ call operands, generateProtoCall fatPointerType (vtableType impl) impl.proto name self
              returnPtr args next' = some (call, operands) ∧
            ∀ (t : State) (p : ℕ), eval base final.globals t self = .addr p →
              t.mem p = s'.mem d → t.mem (p + 8) = s'.mem (d + 8) →
              HasData base final.globals t.mem →
              ∃ t', execAll base final.globals t call = some t' ∧
                operands.map (eval base final.globals t') =
                  .func ⟨id, name⟩ :: (returnPtr.map (eval base final.globals t)).toList ++
                    eval base final.globals s value :: args.map (eval base final.globals t)

/-- Every method of every proto is at its index in its proto behind the vtable of the proto's
number, and if there is a method at all, then no function for any of the protos is generic. -/
structure Aligned (structDef : StructDef τ) : Prop where
  isGeneric : ∀ impl ∈ structDef.impls, impl.proto.methods ≠ [] →
    ∀ impl' ∈ structDef.impls, ∀ name ∈ impl'.proto.names, ∀ funcDef,
      structDef.lookUpFunc name = some funcDef → funcDef.isGeneric = false
  methods : ∀ (i : ℕ) (impl : ConcreteProto τ), structDef.impls[i]? = some impl →
    ∀ name ∈ impl.proto.methods, ∀ k : ℕ, impl.proto.getIndex name = some k →
      (methodsFrom structDef.impls i)[k]? = some name

/-! ## The vtables of all structs -/

/-- The vtables of a struct are in one piece, and no other global behind them has a function of the
struct. -/
structure Laid (structDef : StructDef τ) (id : StructDefId) (vtables : List GlobalId)
    (globals : List Global) : Prop where
  callable : ∀ name ∈ methodNames structDef.impls, Callable structDef name
  pieces : ∃ before entries after, globals = before ++ entries ++ after ∧
    List.Forall₂ (IsEntry id) entries (methodNames structDef.impls) ∧
      vtables = vtableStarts before.length structDef.impls ∧
        ∀ global ∈ after, ∀ func : SSAFunc, global.initialValue = .func func → func.parent ≠ id

variable {globals : List Global}

variable {id : StructDefId}

theorem Laid.append {structDef : StructDef τ} {vtables : List GlobalId}
    (h : Laid structDef id vtables globals) {more : List Global}
    (hmore : ∀ global ∈ more, ∀ func : SSAFunc, global.initialValue = .func func →
      func.parent ≠ id) :
    Laid structDef id vtables (globals ++ more) := by
  obtain ⟨before, entries, after, rfl, hentries, hvtables, hafter⟩ := h.pieces
  refine ⟨h.callable, before, entries, after ++ more, by simp, hentries, hvtables, ?_⟩
  intro global hglobal
  obtain hglobal | hglobal := mem_append.mp hglobal
  · exact hafter global hglobal
  · exact hmore global hglobal

/-- All vtables that the context has are laid out. -/
def AllLaid (unit : StructDefId → Option (StructDef τ)) (ctx : Context) : Prop :=
  ∀ id structDef vtables, unit id = some structDef → ctx.ssaVtables.lookup id = some vtables →
    Laid structDef id vtables ctx.globals

theorem parent_of_entries {entries : List Global} {names : List Ident}
    (h : List.Forall₂ (IsEntry id) entries names) :
    ∀ global ∈ entries, ∀ func : SSAFunc, global.initialValue = .func func → func.parent = id := by
  intro global hglobal func hfunc
  obtain ⟨i, hi, rfl⟩ := mem_iff_getElem.mp hglobal
  have := (forall₂_iff_get.mp h).2 i hi (h.length_eq ▸ hi)
  rw [IsEntry, get_eq_getElem, hfunc] at this
  cases this
  rfl

variable {unit : StructDefId → Option (StructDef τ)}

/-- New vtables are laid out, and those of other structs stay so. -/
theorem allLaid_createVtables {ctx ctx' : Context} {id : StructDefId} {structDef : StructDef τ}
    {vtables : List GlobalId} (hunit : unit id = some structDef) (h : AllLaid unit ctx)
    (hcreate : createVtables structDef id ctx = some (vtables, ctx')) :
    AllLaid unit ctx' ∧ ctx'.ssaVtables.lookup id = some vtables := by
  unfold createVtables at hcreate
  split at hcreate
  · rename_i vtables' hlookup
    cases hcreate
    exact ⟨h, hlookup⟩
  · rename_i hlookup
    obtain ⟨⟨globals, vtables'⟩, hfold, hcreate⟩ := bind_eq_some_iff.mp hcreate
    cases hcreate
    have hcallable := callable_of_foldlM_addVtable hfold
    obtain ⟨entries, hentries, hfold'⟩ :=
      @foldlM_addVtable _ structDef id (ctx.globals, []) structDef.impls hcallable 0
    rw [hfold'] at hfold
    cases hfold
    have hnew : (ctx.ssaVtables ++ [(id, [] ++
      vtableStarts ctx.globals.length structDef.impls)]).lookup
        id = some ([] ++ vtableStarts ctx.globals.length structDef.impls) := by
      rw [lookup_append, hlookup, none_or]
      simp
    refine ⟨fun other otherDef otherVtables hother hvtables ↦ ?_, hnew⟩
    by_cases hid : other = id
    · subst hid
      rw [hunit] at hother
      cases hother
      rw [hnew] at hvtables
      cases hvtables
      exact ⟨hcallable, ctx.globals, entries, [], by simp, hentries, by simp, by simp⟩
    · rw [lookup_append] at hvtables
      have hnone : lookup other
          [(id, [] ++ vtableStarts ctx.globals.length structDef.impls)] = none := by
        simp [hid]
      rw [hnone, or_none] at hvtables
      refine (h other otherDef otherVtables hother hvtables).append fun global
        hglobal func hfunc ↦ ?_
      rw [parent_of_entries hentries global hglobal func hfunc]
      exact Ne.symm hid

theorem allLaid_of_genStep {ctx ctx' : Context} (hstep : GenStep unit ctx ctx')
    (h : AllLaid unit ctx) :
    AllLaid unit ctx' ∧ ∀ id vtables, ctx.ssaVtables.lookup id = some vtables →
      ctx'.ssaVtables.lookup id = some vtables := by
  cases hstep with
  | addString name alignment size =>
    refine ⟨fun id structDef vtables hunit hvtables ↦ ?_, fun _ _ h ↦ h⟩
    refine (h id structDef vtables hunit hvtables).append ?_
    rintro global hglobal func hfunc
    rw [mem_singleton.mp hglobal] at hfunc
    cases hfunc
  | createVtables hunit hcreate =>
    refine ⟨(allLaid_createVtables hunit h hcreate).1, fun other otherVtables hother ↦ ?_⟩
    unfold createVtables at hcreate
    split at hcreate
    · cases hcreate
      exact hother
    · obtain ⟨⟨globals, vtables'⟩, -, hcreate⟩ := bind_eq_some_iff.mp hcreate
      cases hcreate
      rw [lookup_append, hother, some_or]

theorem allLaid_of_genSteps {ctx ctx' : Context} (hsteps : ReflTransGen (GenStep unit) ctx ctx')
    (h : AllLaid unit ctx) :
    AllLaid unit ctx' ∧ ∀ id vtables, ctx.ssaVtables.lookup id = some vtables →
      ctx'.ssaVtables.lookup id = some vtables := by
  induction hsteps with
  | refl => exact ⟨h, fun _ _ h ↦ h⟩
  | tail _ hstep ih =>
    obtain ⟨hlaid, hlookup⟩ := allLaid_of_genStep hstep ih.1
    exact ⟨hlaid, fun id vtables hvtables ↦ hlookup id vtables (ih.2 id vtables hvtables)⟩

theorem createVtables_of_callable {structDef : StructDef τ} {id : StructDefId} (ctx : Context)
    (h : ∀ name ∈ methodNames structDef.impls, Callable structDef name) :
    ∃ vtables ctx', createVtables structDef id ctx = some (vtables, ctx') := by
  unfold createVtables
  split
  · exact ⟨_, _, rfl⟩
  · obtain ⟨entries, -, hfold⟩ := @foldlM_addVtable _ structDef id (ctx.globals, []) _ h 0
    exact ⟨_, _, by rw [hfold]; rfl⟩

/-! ## The code -/

variable {base : ℕ} {operand : Operand}

theorem eval_update {regs : VirtualRegister → Word} {mem : ℕ → Word} {next reg : ℕ}
    (h : Older next operand) (hreg : next ≤ reg) (word : Word) :
    eval base globals ⟨update regs reg word, mem⟩ operand =
      eval base globals ⟨regs, mem⟩ operand := by
  unfold eval
  split
  · rename_i r hr
    have : r < next := h r (Operand.mem_uses.mpr hr)
    exact update_of_ne (this.trans_le hreg).ne _ _
  · rfl
  · rfl

/-- Operands are not in memory. -/
theorem eval_mk {s : State}
    (mem : ℕ → Word) : eval base globals ⟨s.regs, mem⟩ operand = eval base globals s operand :=
  rfl

theorem eval_fromRegister {base : ℕ} {globals : List Global} {s : State} {reg : VirtualRegister} :
    eval base globals s (fromRegister reg) = s.regs reg :=
  rfl

/-- The coercion leaves the struct pointer and the vtable pointer behind each other. -/
theorem execAll_coercion {base : ℕ} {globals : List Global} {s : State} {value dst vtable : Operand}
    {next d : ℕ} (fatPointerType : SSAType) (hvalue : Older next value) (hdst : Older next dst)
    (hvtable : Older next vtable) (hd : eval base globals s dst = .addr d) :
    ∃ s', execAll base globals s [.memberptr next fatPointerType dst 0,
        .store value (fromRegister next), .memberptr (next + 1) fatPointerType dst 1,
        .store vtable (fromRegister (next + 1))] = some s' ∧
      s'.mem d = eval base globals s value ∧ s'.mem (d + 8) = eval base globals s vtable := by
  simp only [execAll, foldlM_cons, foldlM_nil, exec, hd, bind_eq_bind,
    bind_some, Option.pure_def, eval_fromRegister, update_self,
    eval_update hvalue le_rfl, eval_update hdst le_rfl, eval_update hvtable le_rfl,
    eval_update hvtable (Nat.le_add_right next 1), eval_mk]
  refine ⟨_, rfl, ?_, ?_⟩
  · simp [memberOffset]
  · simp [memberOffset]

/-- The call reads the method from the vtable. -/
theorem execAll_protoCall {base : ℕ} {globals : List Global} {t : State} {self : Operand}
    {next p v index : ℕ} (fatPointerType vtableType : SSAType) (hself : Older next self)
    (hp : eval base globals t self = .addr p) (hvtable : t.mem (p + 8) = .addr v) :
    ∃ t', execAll base globals t [.memberptr next fatPointerType self 1,
        .load (next + 1) (fromRegister next),
        .memberptr (next + 2) vtableType (fromRegister (next + 1)) index,
        .load (next + 3) (fromRegister (next + 2)),
        .memberptr (next + 4) fatPointerType self 0, .load (next + 5) (fromRegister (next + 4))] =
          some t' ∧
      t'.regs (next + 3) = t.mem (v + 8 * index) ∧ t'.regs (next + 5) = t.mem p ∧
        ∀ operand, Older next operand →
          eval base globals t' operand = eval base globals t operand := by
  have hvtable' : t.mem (p + memberOffset 1) = .addr v := hvtable
  simp only [execAll, foldlM_cons, foldlM_nil, exec, hp, bind_eq_bind,
    bind_some, Option.pure_def, eval_fromRegister, update_self, hvtable',
    eval_update hself (Nat.le_add_right next 3), eval_update hself (Nat.le_add_right next 2),
    eval_update hself (Nat.le_add_right next 1), eval_update hself le_rfl]
  refine ⟨_, rfl, ?_, ?_, ?_⟩
  · simp [memberOffset]
  · simp [memberOffset]
  · intro operand holder
    simp only [eval_update holder (Nat.le_add_right next 5),
      eval_update holder (Nat.le_add_right next 4), eval_update holder (Nat.le_add_right next 3),
      eval_update holder (Nat.le_add_right next 2), eval_update holder (Nat.le_add_right next 1),
      eval_update holder le_rfl, eval_mk]

/-! ## The number of a proto -/

section

variable [DecidableEq τ]

theorem ConcreteProto.eq_self (impl : ConcreteProto τ) : impl.eq impl = true := by
  simp [SIR.ConcreteProto.eq]

/-- No proto is implemented twice, so that the last implementation of it is the only one. -/
theorem implIndex_eq {structDef : StructDef τ}
    (hpairwise : structDef.impls.Pairwise fun impl impl' ↦ impl.proto.id ≠ impl'.proto.id) {i : ℕ}
    {impl : ConcreteProto τ} (hi : structDef.impls[i]? = some impl) :
    implIndex structDef impl = some i := by
  have hskip : ∀ (impls : List (ConcreteProto τ)) (n : ℕ) (result : Option ℕ),
      (∀ other ∈ impls, impl.proto.id ≠ other.proto.id) →
      (impls.zipIdx n).foldl
        (fun result entry ↦ if impl.eq entry.1 then some entry.2 else result) result = result := by
    intro impls
    induction impls with
    | nil => exact fun _ _ _ ↦ rfl
    | cons other impls ih =>
      intro n result hother
      rw [zipIdx_cons, foldl_cons,
        ih _ _ fun other' hother' ↦ hother other' (mem_cons_of_mem _ hother')]
      have : impl.eq other = false := by
        simp [SIR.ConcreteProto.eq, hother other mem_cons_self]
      simp [this]
  have hfold : ∀ (impls : List (ConcreteProto τ)) (n i : ℕ) (result : Option ℕ),
      impls.Pairwise (fun impl impl' ↦ impl.proto.id ≠ impl'.proto.id) → impls[i]? = some impl →
      (impls.zipIdx n).foldl
        (fun result entry ↦ if impl.eq entry.1 then some entry.2 else result) result =
          some (n + i) := by
    intro impls
    induction impls with
    | nil => exact fun _ _ _ _ h ↦ by cases h
    | cons other impls ih =>
      intro n i result hpairwise hi
      obtain ⟨hother, hpairwise⟩ := pairwise_cons.mp hpairwise
      rw [zipIdx_cons, foldl_cons]
      cases i with
      | zero =>
        cases hi
        rw [hskip impls _ _ hother]
        simp [ConcreteProto.eq_self]
      | succ i =>
        rw [ih (n + 1) i _ hpairwise hi]
        congr 1
        omega
  exact (hfold structDef.impls 0 i none hpairwise hi).trans (by rw [Nat.zero_add])

end

/-! ## The methods behind a vtable -/

section

variable {structDef : StructDef τ} {id : StructDefId} {vtables : List GlobalId}
  {globals : List Global} {i k v : ℕ} {name : Ident}

theorem getElem?_entries {entries : List Global} {names : List Ident}
    (h : List.Forall₂ (IsEntry id) entries names) (before after : List Global) {j : ℕ}
    (hle : before.length ≤ j) (hlt : j < before.length + names.length) :
    ∃ global other, (before ++ entries ++ after)[j]? = some global ∧ IsEntry id global other ∧
      names[j - before.length]? = some other := by
  have hj : j - before.length < names.length := by omega
  have hj' : j - before.length < entries.length := by rwa [h.length_eq]
  refine ⟨entries[j - before.length], names[j - before.length], ?_,
    (forall₂_iff_get.mp h).2 _ hj' hj, getElem?_eq_getElem hj⟩
  rw [append_assoc, getElem?_append_right hle, getElem?_append_left hj', getElem?_eq_getElem hj']

/-- The methods behind the `i`-th vtable, as globals. -/
theorem Laid.entry (h : Laid structDef id vtables globals) (hv : vtables[i]? = some v)
    (hk : (methodsFrom structDef.impls i)[k]? = some name) (base : ℕ) :
    ∃ global, globals[v + k]? = some global ∧ IsEntry id global name ∧
      globalAddr base globals (v + k) = globalAddr base globals v + 8 * k := by
  obtain ⟨before, entries, after, rfl, hentries, rfl, -⟩ := h.pieces
  obtain ⟨hle, hdrop⟩ := methodsFrom_of_vtableStarts hv
  rw [← hdrop, List.getElem?_drop] at hk
  have hlength := (List.getElem?_eq_some_iff.mp hk).1
  obtain ⟨global, other, hglobal, hentry, hother⟩ :=
    @getElem?_entries id entries _ hentries before after (v + k) (by omega) (by omega)
  rw [show v + k - before.length = v - before.length + k by omega, hk] at hother
  cases hother
  refine ⟨global, hglobal, hentry, globalAddr_add fun j hj ↦ ?_⟩
  obtain ⟨global, other, hglobal, hentry, -⟩ :=
    @getElem?_entries id entries _ hentries before after (v + j) (by omega) (by omega)
  exact ⟨global, _, hglobal, hentry⟩

/-- A global with the method at the address of the `k`-th entry is that entry. -/
theorem Laid.methodsFrom_of_addr (h : Laid structDef id vtables globals)
    (hv : vtables[i]? = some v) {base q : ℕ} {global : Global} (hq : globals[q]? = some global)
    (hentry : IsEntry id global name)
    (haddr : globalAddr base globals q = globalAddr base globals v + 8 * k) :
    (methodsFrom structDef.impls i)[k]? = some name := by
  obtain ⟨before, entries, after, rfl, hentries, rfl, hafter⟩ := h.pieces
  obtain ⟨hle, hdrop⟩ := methodsFrom_of_vtableStarts hv
  have hlt := lt_of_vtableStarts hv
  have hlength := hentries.length_eq
  have hsize : global.size = 8 := by rw [Global.size, hentry]
  -- Earlier globals end before the vtable.
  have hvq : v ≤ q := by
    by_contra hlt'
    have := @globalAddr_lt base _ _ v _ hq (not_le.mp hlt') (by simp; omega)
    omega
  -- Later globals do not have the functions of this struct.
  have hqentries : q < before.length + (methodNames structDef.impls).length := by
    by_contra hge
    rw [append_assoc, getElem?_append_right (by omega), getElem?_append_right (by omega)] at hq
    exact hafter global (mem_of_getElem? hq) _ hentry rfl
  obtain rfl : q = v + k := by
    have := @globalAddr_add base (before ++ entries ++ after) v (q - v) fun j hj ↦ by
      obtain ⟨global, other, hglobal, hentry, -⟩ :=
        @getElem?_entries id entries _ hentries before after (v + j) (by omega) (by omega)
      exact ⟨global, _, hglobal, hentry⟩
    rw [Nat.add_sub_cancel' hvq] at this
    omega
  obtain ⟨global', other, hglobal, hentry', hother⟩ :=
    @getElem?_entries id entries _ hentries before after (v + k) (by omega) hqentries
  rw [hq] at hglobal
  cases hglobal
  rw [IsEntry, hentry] at hentry'
  cases hentry'
  rw [← hdrop, getElem?_drop, ← hother]
  congr 1
  omega

/-! ## Dispatch -/

theorem mem_names_of_getIndex {proto : ProtoDef τ} (h : proto.getIndex name = some k) :
    name ∈ proto.names := by
  obtain ⟨hk, hname, -⟩ := findIdx?_eq_some_iff_getElem.mp h
  rw [← of_decide_eq_true hname]
  exact mem_map_of_mem (getElem_mem hk)

theorem exists_getIndex {proto : ProtoDef τ} (h : name ∈ proto.names) :
    ∃ k, proto.getIndex name = some k := by
  obtain ⟨funcDecl, hmem, rfl⟩ := mem_map.mp h
  refine isSome_iff_exists.mp (findIdx?_isSome.trans ?_)
  exact any_eq_true.mpr ⟨funcDecl, hmem, decide_eq_true rfl⟩

theorem getElem?_names_of_getIndex {proto : ProtoDef τ} (h : proto.getIndex name = some k) :
    proto.names[k]? = some name := by
  obtain ⟨hk, hname, -⟩ := findIdx?_eq_some_iff_getElem.mp h
  rw [ProtoDef.names, getElem?_map, getElem?_eq_getElem hk, map_some, of_decide_eq_true hname]

/-- It is enough that no proto is empty. -/
theorem aligned_of_forall_ne_nil
    (hgeneric : ∀ impl ∈ structDef.impls, ∀ name ∈ impl.proto.names, ∀ funcDef,
      structDef.lookUpFunc name = some funcDef → funcDef.isGeneric = false)
    (hnames : ∀ impl ∈ structDef.impls, impl.proto.names ≠ []) : Aligned structDef where
  isGeneric _ _ _ := hgeneric
  methods := by
    intro i impl hi name _ k hindex
    have hfilter : (structDef.impls.filter fun impl ↦ impl.proto.names ≠ []) = structDef.impls :=
      List.filter_eq_self.mpr fun impl himpl ↦ decide_eq_true (hnames impl himpl)
    obtain ⟨hlt, hget⟩ := List.getElem?_eq_some_iff.mp hi
    have hname := getElem?_names_of_getIndex hindex
    rw [methodsFrom, hfilter, List.drop_eq_getElem_cons hlt, hget, methodNames,
      List.flatMap_cons, List.getElem?_append_left (List.getElem?_eq_some_iff.mp hname).1, hname]

variable [DecidableEq τ] {ctx : Context} {fatPointerType : SSAType}
  {vtableType : ConcreteProto τ → SSAType} {impl : ConcreteProto τ}

theorem callsMethod_of_aligned
    (hpairwise : structDef.impls.Pairwise fun impl impl' ↦ impl.proto.id ≠ impl'.proto.id)
    (hunit : unit id = some structDef) (hlaid : AllLaid unit ctx)
    (hcallable : ∀ name ∈ methodNames structDef.impls, Callable structDef name)
    (haligned : Aligned structDef) (hi : structDef.impls[i]? = some impl)
    (hname : name ∈ impl.proto.methods) :
    CallsMethod unit fatPointerType vtableType structDef id ctx impl name := by
  intro value dst next hvalue hdst
  obtain ⟨vtables, ctx', hcreate⟩ := @createVtables_of_callable _ structDef id ctx hcallable
  obtain ⟨hlaid', hlookup⟩ := allLaid_createVtables hunit hlaid hcreate
  obtain ⟨k, hindex⟩ := exists_getIndex (ProtoDef.mem_names_of_mem_methods hname)
  have hk := haligned.methods i impl hi name hname k hindex
  have hlaidStruct := hlaid' id structDef vtables hunit hlookup
  -- The proto has a method, so that there is a vtable of its number.
  obtain ⟨v, hv⟩ : ∃ v, vtables[i]? = some v := by
    obtain ⟨before, entries, after, -, -, rfl, -⟩ := hlaidStruct.pieces
    cases hv : (vtableStarts before.length structDef.impls)[i]? with
    | some v => exact ⟨v, rfl⟩
    | none =>
      rw [methodsFrom_eq_nil hv] at hk
      cases hk
  have hvtable : vtableOperand structDef impl vtables ctx'.globals = some (fromGlobal v) := by
    obtain ⟨global, hglobal, -, -⟩ := hlaidStruct.entry hv hk 0
    have hlt : v < ctx'.globals.length :=
      (Nat.le_add_right v k).trans_lt (List.getElem?_eq_some_iff.mp hglobal).1
    have hnil : vtables ≠ [] := by
      rintro rfl
      cases hv
    simp only [vtableOperand, if_neg hnil, implIndex_eq hpairwise hi, hv, bind_eq_bind,
      bind_some, if_pos hlt]
  have hcode : generateCoercionExpr fatPointerType structDef id impl value dst next ctx =
      some ([.memberptr next fatPointerType dst 0, .store value (fromRegister next),
        .memberptr (next + 1) fatPointerType dst 1,
        .store (fromGlobal v) (fromRegister (next + 1))], ctx') := by
    simp only [generateCoercionExpr, hcreate, hvtable, bind_eq_bind, bind_some]
    rfl
  refine ⟨_, ctx', hcode, fun final hfinal base s d hd ↦ ?_⟩
  obtain ⟨hlaidFinal, hkept⟩ := allLaid_of_genSteps hfinal hlaid'
  obtain ⟨global, hglobal, hentry, haddr⟩ :=
    (hlaidFinal id structDef vtables hunit (hkept id vtables hlookup)).entry hv hk base
  obtain ⟨s', hs', hdata, hvtable'⟩ := @execAll_coercion base final.globals s value dst
    (fromGlobal v) next d fatPointerType hvalue hdst (by simp [Older, fromGlobal, Operand.uses]) hd
  refine ⟨s', hs', fun self returnPtr args next' hself hreturn hargs ↦ ?_⟩
  refine ⟨_, _, by rw [generateProtoCall, hindex]; rfl, fun t p hp hdata' hvtable'' hhas ↦ ?_⟩
  have hp8 : t.mem (p + 8) = .addr (globalAddr base final.globals v) := hvtable''.trans hvtable'
  obtain ⟨t', ht', hcallee, hself', hother⟩ := @execAll_protoCall base final.globals t self next' p
    _ k fatPointerType (vtableType impl) hself hp hp8
  refine ⟨t', ht', ?_⟩
  have hfunc : t'.regs (next' + 3) = .func ⟨id, name⟩ := by
    rw [hcallee, ← haddr]
    exact hhas (v + k) global ⟨id, name⟩ hglobal hentry
  simp only [List.map_cons, List.map_append, eval_fromRegister, hfunc, hself',
    hdata'.trans hdata, List.cons_append, List.cons.injEq, true_and]
  congr 1
  · cases returnPtr with
    | none => rfl
    | some ptr => exact congrArg (· :: []) (hother ptr (hreturn ptr rfl))
  · exact congrArg _ (List.map_congr_left fun arg harg ↦ hother arg (hargs arg harg))

/-- A correct call shows where the method is. -/
theorem methods_of_callsMethod
    (hpairwise : structDef.impls.Pairwise fun impl impl' ↦ impl.proto.id ≠ impl'.proto.id)
    (hunit : unit id = some structDef) (hlaid : AllLaid unit ctx)
    (hi : structDef.impls[i]? = some impl) (hindex : impl.proto.getIndex name = some k)
    (h : CallsMethod unit fatPointerType vtableType structDef id ctx impl name) :
    (∀ name ∈ methodNames structDef.impls, Callable structDef name) ∧
      (methodsFrom structDef.impls i)[k]? = some name := by
  have hregister : ∀ reg next : ℕ, reg < next → Older next (fromRegister reg) := by
    intro reg next hlt other hother
    rw [mem_singleton.mp hother]
    exact hlt
  obtain ⟨code, ctx', hcode, h⟩ := h (fromRegister 0) (fromRegister 1) 2 (hregister 0 2 (by omega))
    (hregister 1 2 (by omega))
  obtain ⟨⟨vtables, ctx''⟩, hcreate, hcode⟩ := bind_eq_some_iff.mp hcode
  obtain ⟨vtable, hvtable, hcode⟩ := bind_eq_some_iff.mp hcode
  cases hcode
  obtain ⟨hlaid', hlookup⟩ := allLaid_createVtables hunit hlaid hcreate
  have hlaidStruct := hlaid' id structDef vtables hunit hlookup
  refine ⟨hlaidStruct.callable, ?_⟩
  -- The coercion has taken the vtable of the proto's number.
  obtain ⟨v, hv, rfl⟩ : ∃ v, vtables[i]? = some v ∧ vtable = fromGlobal v := by
    have hnil : vtables ≠ [] := by
      obtain ⟨before, -, -, -, -, rfl, -⟩ := hlaidStruct.pieces
      exact vtableStarts_ne_nil (mem_of_getElem? hi)
        (ne_nil_of_mem (mem_names_of_getIndex hindex))
    simp only [vtableOperand, if_neg hnil, implIndex_eq hpairwise hi, bind_eq_bind,
      bind_some] at hvtable
    obtain ⟨v, hv, hvtable⟩ := bind_eq_some_iff.mp hvtable
    split_ifs at hvtable
    cases hvtable
    exact ⟨v, hv, rfl⟩
  -- Run the call in a memory that has the data section and a pointer to the proto.
  let s : State := ⟨fun reg ↦ if reg = 1 then .addr 0 else .other, fun _ ↦ .other⟩
  obtain ⟨s', hs', h⟩ := h ctx' .refl 0 s 0 rfl
  obtain ⟨s'', hs'', hdata, hvtable'⟩ := @execAll_coercion 0 ctx'.globals s (fromRegister 0)
    (fromRegister 1) (fromGlobal v) 2 0 fatPointerType (hregister 0 2 (by omega))
    (hregister 1 2 (by omega)) (by simp [Older, fromGlobal, Operand.uses]) rfl
  cases hs'.symm.trans hs''
  obtain ⟨call, operands, hcall, h⟩ := h (fromRegister 0) none [] 1 (hregister 0 1 (by omega))
    (by simp) (by simp)
  rw [generateProtoCall, hindex] at hcall
  cases hcall
  let p := (dataOffsets 0 ctx'.globals).sum + 1
  have hp : ∀ q, globalAddr 0 ctx'.globals q < p := by
    intro q
    have := @globalAddr_le_sum 0 ctx'.globals q
    omega
  let t : State := ⟨fun _ ↦ .addr p, update (update (image 0 ctx'.globals) p .other)
    (p + 8) (.addr (globalAddr 0 ctx'.globals v))⟩
  have htp : t.mem p = .other := by simp [t]
  have htp8 : t.mem (p + 8) = .addr (globalAddr 0 ctx'.globals v) := by simp [t]
  have hhas : HasData 0 ctx'.globals t.mem := by
    intro q global func hq hfunc
    have := hp q
    simp only [t]
    rw [update_of_ne (by omega), update_of_ne (by omega)]
    exact hasData_image q global func hq hfunc
  obtain ⟨t', ht', hoperands⟩ := h t p rfl (htp.trans hdata.symm) (htp8.trans hvtable'.symm) hhas
  obtain ⟨t'', ht'', hcallee, -, -⟩ := @execAll_protoCall 0 ctx'.globals t (fromRegister 0) 1 p _ k
    fatPointerType (vtableType impl) (hregister 0 1 (by omega)) rfl htp8
  cases ht'.symm.trans ht''
  have hfunc : t.mem (globalAddr 0 ctx'.globals v + 8 * k) = .func ⟨id, name⟩ := by
    rw [← hcallee]
    exact (cons.inj hoperands).1
  simp only [t, update_apply] at hfunc
  split_ifs at hfunc
  obtain ⟨q, global, hq, hentry, haddr⟩ := exists_of_image hfunc
  exact hlaidStruct.methodsFrom_of_addr hv hq hentry haddr

/-- For every struct that the analysis accepts, at any point of the generation. -/
theorem callsMethod_iff_aligned (compare : τ → τ → Bool) (specialize : ConcreteProto τ → τ → τ)
    {source : StructDef τ} (haccepts : Sema.Accepts compare specialize source structDef)
    (hunit : unit id = some structDef) {start : Context} (hstart : start.ssaVtables = [])
    (hreach : ReflTransGen (GenStep unit) start ctx) (fatPointerType : SSAType)
    (vtableType : ConcreteProto τ → SSAType) :
    (∀ impl ∈ structDef.impls, ∀ name ∈ impl.proto.methods,
      CallsMethod unit fatPointerType vtableType structDef id ctx impl name) ↔
        Aligned structDef := by
  obtain ⟨hhas, hpairwise⟩ := Sema.analyzeInterface_spec haccepts.interface
  have hlaid : AllLaid unit ctx := by
    refine (allLaid_of_genSteps hreach fun other otherDef vtables _ hlookup ↦ ?_).1
    rw [hstart] at hlookup
    cases hlookup
  constructor
  · refine fun h ↦ ⟨fun impl himpl hmethods impl' himpl' other hother funcDef hfunc ↦ ?_,
      fun i impl hi name hname k hindex ↦ ?_⟩
    · obtain ⟨i, hi⟩ := mem_iff_getElem?.mp himpl
      obtain ⟨name, hname⟩ := exists_mem_of_ne_nil _ hmethods
      obtain ⟨k, hindex⟩ := exists_getIndex (ProtoDef.mem_names_of_mem_methods hname)
      obtain ⟨hcallable, -⟩ :=
        methods_of_callsMethod hpairwise hunit hlaid hi hindex (h impl himpl name hname)
      obtain ⟨otherDef, hotherDef, hgeneric⟩ :=
        hcallable other (mem_flatMap.mpr ⟨impl', himpl', hother⟩)
      rw [hfunc] at hotherDef
      cases hotherDef
      exact hgeneric
    · exact (methods_of_callsMethod hpairwise hunit hlaid hi hindex
        (h impl (mem_of_getElem? hi) name hname)).2
  · intro haligned impl himpl name hname
    obtain ⟨i, hi⟩ := mem_iff_getElem?.mp himpl
    refine callsMethod_of_aligned hpairwise hunit hlaid (fun other hother ↦ ?_) haligned hi hname
    obtain ⟨impl', himpl', hother⟩ := mem_flatMap.mp hother
    obtain ⟨funcDef, hfunc⟩ := hhas impl' himpl' other hother
    exact ⟨funcDef, hfunc, haligned.isGeneric impl himpl (ne_nil_of_mem hname) impl' himpl'
      other hother funcDef hfunc⟩

end

section

private def method (name : Ident) : Ident × Symbol Unit := (name, .funcDef ⟨name, (), false⟩)

private def withMethod (id : ProtoId) (name : Ident) : ConcreteProto Unit :=
  { proto := { id, funcDecls := [.funcDecl name ()] } }

/-- A struct with the methods `f` and `g`, which are those of its last two protos. -/
private def twoMethods (protos : List (ConcreteProto Unit)) : StructDef Unit where
  ident := "S"
  impls := protos ++ [withMethod 1 "f", withMethod 2 "g"]
  symbols := [method "f", method "g"]
  named := by
    intro entry hentry funcDef hfunc
    simp only [mem_cons, not_mem_nil, or_false] at hentry
    obtain rfl | rfl := hentry <;> cases hfunc <;> rfl

/-- With an empty proto in front, the pointer to the proto with `f` gets the vtable with `g`. -/
theorem not_callsMethod_emptyProto :
    Sema.Accepts (fun _ _ ↦ true) (fun _ type ↦ type) (twoMethods [{ proto := { id := 0 } }])
        (twoMethods [{ proto := { id := 0 } }]) ∧
      ¬CallsMethod (fun _ ↦ some (twoMethods [{ proto := { id := 0 } }])) Primitive.ADDR
        (fun _ ↦ Primitive.ADDR) (twoMethods [{ proto := { id := 0 } }]) 0 {} (withMethod 1 "f")
        "f" := by
  have haccepts : Sema.Accepts (fun _ _ ↦ true) (fun _ type ↦ type)
      (twoMethods [{ proto := { id := 0 } }]) (twoMethods [{ proto := { id := 0 } }]) :=
    ⟨rfl, rfl⟩
  refine ⟨haccepts, fun h ↦ ?_⟩
  obtain ⟨-, hpairwise⟩ := Sema.analyzeInterface_spec haccepts.interface
  obtain ⟨-, hmethods⟩ := @methods_of_callsMethod _ _ _ 0 1 0 "f" _ _ _ _ _ hpairwise rfl
    (fun _ _ _ _ hlookup ↦ by cases hlookup) rfl rfl h
  exact absurd hmethods (by decide)

/-- Without the empty proto both calls are right. -/
theorem callsMethod_twoMethods :
    CallsMethod (fun _ ↦ some (twoMethods [])) Primitive.ADDR (fun _ ↦ Primitive.ADDR)
        (twoMethods []) 0 {} (withMethod 1 "f") "f" ∧
      CallsMethod (fun _ ↦ some (twoMethods [])) Primitive.ADDR (fun _ ↦ Primitive.ADDR)
        (twoMethods []) 0 {} (withMethod 2 "g") "g" := by
  have haligned : Aligned (twoMethods []) := by
    refine aligned_of_forall_ne_nil (fun impl himpl name hname funcDef hfunc ↦ ?_) (by decide)
    rw [twoMethods, nil_append, mem_cons, mem_singleton] at himpl
    obtain rfl | rfl := himpl <;> rw [mem_singleton.mp hname] at hfunc <;> cases hfunc <;> rfl
  have hcalls := (@callsMethod_iff_aligned _ (fun _ ↦ some (twoMethods [])) (twoMethods []) 0 _
    {} (fun _ _ ↦ true)
    (fun _ type ↦ type) (twoMethods []) ⟨rfl, rfl⟩ rfl {} rfl .refl Primitive.ADDR
    (fun _ ↦ Primitive.ADDR)).mpr haligned
  constructor
  · exact hcalls (withMethod 1 "f") (by simp [twoMethods]) "f" (.head _)
  · exact hcalls (withMethod 2 "g") (by simp [twoMethods]) "g" (.head _)

end

end Banjo.SSAGen
