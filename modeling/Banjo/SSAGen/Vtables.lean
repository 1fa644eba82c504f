import Banjo.SSAGen.ProtoCalls
import Mathlib.Algebra.Order.BigOperators.Group.List

/-!
# The layout of the data section

A global lies behind all earlier ones, and globals that hold functions lie eight bytes apart when
there is nothing between them.
-/

open List Option

namespace Banjo.SSAGen

open SSA

theorem le_alignUp (size alignment : ℕ) : size ≤ alignUp size alignment := by
  unfold alignUp
  split_ifs <;> omega

theorem alignUp_eight_mod (size : ℕ) : alignUp size 8 % 8 = 0 := by
  unfold alignUp
  split_ifs <;> omega

/-- A later global lies behind the bytes of an earlier one. -/
theorem dataOffsets_lt {globals : List Global} {size i j : ℕ} {global : Global}
    (hi : globals[i]? = some global) (hij : i < j) (hj : j < globals.length) :
    (dataOffsets size globals).getD i 0 + global.size ≤ (dataOffsets size globals).getD j 0 := by
  have hbehind : ∀ (globals : List Global) (size j : ℕ), j < globals.length →
      size ≤ (dataOffsets size globals).getD j 0 := by
    intro globals
    induction globals with
    | nil => exact fun _ _ h ↦ absurd h (Nat.not_lt_zero _)
    | cons first globals ih =>
      intro size j hj
      cases j with
      | zero => exact le_alignUp _ _
      | succ j =>
        refine ((le_alignUp size first.alignment).trans (Nat.le_add_right _ first.size)).trans ?_
        exact ih _ j (Nat.lt_of_succ_lt_succ hj)
  induction globals generalizing size i j with
  | nil => cases hi
  | cons first globals ih =>
    cases j with
    | zero => cases hij
    | succ j =>
      have hj' := Nat.lt_of_succ_lt_succ hj
      cases i with
      | zero =>
        cases hi
        exact hbehind globals _ j hj'
      | succ i => exact ih hi (Nat.lt_of_succ_lt_succ hij) hj'

theorem globalAddr_lt {base : ℕ} {globals : List Global} {i j : ℕ} {global : Global}
    (hi : globals[i]? = some global) (hij : i < j) (hj : j < globals.length) :
    globalAddr base globals i + global.size ≤ globalAddr base globals j := by
  have := @dataOffsets_lt globals 0 i j global hi hij hj
  unfold globalAddr
  omega

/-- Two functions in a row lie eight bytes apart. -/
theorem dataOffsets_succ {globals : List Global} {size i : ℕ} {global next : Global}
    {f f' : SSAFunc} (hi : globals[i]? = some global) (hnext : globals[i + 1]? = some next)
    (hf : global.initialValue = .func f) (hf' : next.initialValue = .func f') :
    (dataOffsets size globals).getD (i + 1) 0 = (dataOffsets size globals).getD i 0 + 8 := by
  induction globals generalizing size i with
  | nil => cases hi
  | cons first globals ih =>
    cases i with
    | succ i => exact ih hi hnext
    | zero =>
      cases hi
      cases globals with
      | nil => cases hnext
      | cons second globals =>
        cases hnext
        have hmod := alignUp_eight_mod size
        simp only [dataOffsets, Global.alignment, Global.size, hf, hf', getD_cons_succ,
          getD_cons_zero]
        rw [alignUp.eq_1 (alignUp size 8 + 8), if_pos (by omega)]

/-- The globals from `start` to `start + count` hold functions. -/
theorem globalAddr_add {base : ℕ} {globals : List Global} {start count : ℕ}
    (h : ∀ k ≤ count, ∃ global f, globals[start + k]? = some global ∧
      global.initialValue = .func f) :
    globalAddr base globals (start + count) = globalAddr base globals start + 8 * count := by
  induction count with
  | zero => rfl
  | succ count ih =>
    obtain ⟨global, f, hglobal, hf⟩ := h count (Nat.le_succ count)
    obtain ⟨next, f', hnext, hf'⟩ := h (count + 1) le_rfl
    have hsucc := @dataOffsets_succ globals 0 _ _ _ _ _ hglobal hnext hf hf'
    have := ih fun k hk ↦ h k (Nat.le_succ_of_le hk)
    unfold globalAddr at this ⊢
    rw [← Nat.add_assoc] at *
    omega

/-! ## A memory that has the data -/

section

variable (base : ℕ) (globals : List Global)

open Classical in
/-- The memory that has the data section and nothing else. -/
noncomputable def image (a : ℕ) : Word :=
  if h : ∃ (i : GlobalId) (global : Global) (f : SSAFunc), globals[i]? = some global ∧
      global.initialValue = .func f ∧ globalAddr base globals i = a then
    .func h.choose_spec.choose_spec.choose
  else .other

variable {base globals}

theorem exists_of_image {a : ℕ} {f : SSAFunc} (h : image base globals a = .func f) :
    ∃ (i : GlobalId) (global : Global), globals[i]? = some global ∧
      global.initialValue = .func f ∧ globalAddr base globals i = a := by
  unfold image at h
  split_ifs at h with hexists
  obtain ⟨hi, hf, ha⟩ := hexists.choose_spec.choose_spec.choose_spec
  cases h
  exact ⟨_, _, hi, hf, ha⟩

theorem hasData_image : HasData base globals (image base globals) := by
  intro i global f hi hf
  have hexists : ∃ (j : GlobalId) (other : Global) (g : SSAFunc), globals[j]? = some other ∧
      other.initialValue = .func g ∧ globalAddr base globals j = globalAddr base globals i :=
    ⟨i, global, f, hi, hf, rfl⟩
  unfold image
  rw [dif_pos hexists]
  obtain ⟨hj, hg, haddr⟩ := hexists.choose_spec.choose_spec.choose_spec
  generalize hexists.choose_spec.choose_spec.choose = g at hg
  generalize hexists.choose_spec.choose = other at hj hg
  generalize hexists.choose = j at hj haddr
  -- Two functions never have the same address.
  have hsize : global.size = 8 := by rw [Global.size, hf]
  have hsize' : other.size = 8 := by rw [Global.size, hg]
  obtain hlt | rfl | hlt := lt_trichotomy i j
  · have := @globalAddr_lt base globals _ _ _ hi hlt (List.getElem?_eq_some_iff.mp hj).1
    omega
  · rw [hi] at hj
    cases hj
    rw [hf] at hg
    cases hg
    rfl
  · have := @globalAddr_lt base globals _ _ _ hj hlt (List.getElem?_eq_some_iff.mp hi).1
    omega

theorem globalAddr_le_sum (i : ℕ) :
    globalAddr base globals i ≤ base + (dataOffsets 0 globals).sum := by
  refine Nat.add_le_add_left ?_ base
  rw [getD_eq_getElem?_getD]
  cases hi : (dataOffsets 0 globals)[i]? with
  | none => exact Nat.zero_le _
  | some offset => exact le_sum_of_mem (mem_of_getElem? hi)

end

/-!
## Where the vtables of a struct are

The entries of all vtables of a struct follow each other in the order of its protos. Only a proto
with methods starts a vtable, so that the vtables are numbered like the protos that have methods.
-/

open SIR SSA

variable {τ : Type}

/-- The method of this name can be called at run time: it is a function, and it is not generic. -/
def Callable (structDef : StructDef τ) (name : Ident) : Prop :=
  ∃ funcDef, structDef.lookUpFunc name = some funcDef ∧ funcDef.isGeneric = false

/-- The methods of these protos, one proto after the other. -/
def methodNames (impls : List (ConcreteProto τ)) : List Ident :=
  impls.flatMap fun impl ↦ impl.proto.names

/-- Where the vtables start when the first one starts at `start`. -/
def vtableStarts (start : ℕ) : List (ConcreteProto τ) → List ℕ
  | [] => []
  | impl :: impls =>
    if impl.proto.names = [] then vtableStarts start impls
    else start :: vtableStarts (start + impl.proto.names.length) impls

/-- The methods from the `i`-th vtable on: those of the protos that have methods, without the first
`i` of these. -/
def methodsFrom (impls : List (ConcreteProto τ)) (i : ℕ) : List Ident :=
  methodNames ((impls.filter fun impl ↦ impl.proto.names ≠ []).drop i)

variable {i start : ℕ} {impls : List (ConcreteProto τ)}

theorem methodsFrom_of_vtableStarts {vtable : ℕ}
    (h : (vtableStarts start impls)[i]? = some vtable) :
    start ≤ vtable ∧ (methodNames impls).drop (vtable - start) = methodsFrom impls i := by
  induction impls generalizing start i with
  | nil => cases h
  | cons impl impls ih =>
    rw [vtableStarts] at h
    split_ifs at h with hnil
    · obtain ⟨hle, hdrop⟩ := ih h
      refine ⟨hle, ?_⟩
      simpa [methodNames, methodsFrom, hnil] using hdrop
    · cases i with
      | zero =>
        cases h
        refine ⟨le_rfl, ?_⟩
        simp only [Nat.sub_self, drop_zero, methodsFrom, methodNames]
        induction impl :: impls with
        | nil => rfl
        | cons other others ihOthers =>
          by_cases hother : other.proto.names = []
          · simp [hother, ihOthers]
          · simp [hother, ihOthers]
      | succ i =>
        obtain ⟨hle, hdrop⟩ := ih h
        refine ⟨by omega, ?_⟩
        have hlength : vtable - start =
            impl.proto.names.length + (vtable - (start + impl.proto.names.length)) := by omega
        rw [hlength, ← drop_drop]
        simpa [methodNames, methodsFrom, hnil] using hdrop

theorem methodsFrom_eq_nil
    (h : (vtableStarts start impls)[i]? = none) : methodsFrom impls i = [] := by
  induction impls generalizing start i with
  | nil => simp [methodsFrom, methodNames]
  | cons impl impls ih =>
    rw [vtableStarts] at h
    split_ifs at h with hnil
    · simpa [methodsFrom, hnil] using ih h
    · cases i with
      | zero => cases h
      | succ i => simpa [methodsFrom, hnil] using ih h

/-- A vtable has at least one method. -/
theorem lt_of_vtableStarts {vtable : ℕ} (h : (vtableStarts start impls)[i]? = some vtable) :
    vtable < start + (methodNames impls).length := by
  induction impls generalizing start i with
  | nil => cases h
  | cons impl impls ih =>
    rw [vtableStarts] at h
    simp only [methodNames, flatMap_cons, length_append] at ih ⊢
    split_ifs at h with hnil
    · have := ih h
      omega
    · have := length_pos_iff.mpr hnil
      cases i with
      | zero =>
        cases h
        omega
      | succ i =>
        have := ih h
        omega

theorem vtableStarts_ne_nil {impl : ConcreteProto τ} (h : impl ∈ impls)
    (hnames : impl.proto.names ≠ []) : vtableStarts start impls ≠ [] := by
  induction impls generalizing start with
  | nil => cases h
  | cons other impls ih =>
    rw [vtableStarts]
    split_ifs with hnil
    · obtain rfl | h := mem_cons.mp h
      · exact absurd hnil hnames
      · exact ih h
    · exact cons_ne_nil _ _

/-! ## The entries -/

/-- A global with the entry of a method. -/
def IsEntry (id : StructDefId) (global : Global) (name : Ident) : Prop :=
  global.initialValue = .func ⟨id, name⟩

variable {structDef : StructDef τ} {id : StructDefId}

theorem addVtableEntry_of_callable (i : ℕ) (state : List Global × List GlobalId)
    {entry : ProtoFuncDecl τ × ℕ} (h : Callable structDef entry.1.ident) :
    ∃ global, IsEntry id global entry.1.ident ∧ addVtableEntry structDef id i state entry =
      some (state.1 ++ [global], if entry.2 = 0 then state.2 ++ [state.1.length] else state.2) := by
  obtain ⟨funcDef, hfunc, hgeneric⟩ := h
  let vtableName := "vtable." ++ structDef.ident ++ "." ++ toString i
  refine ⟨⟨if entry.2 ≠ 0 then vtableName ++ "." ++ toString entry.2 else vtableName,
    .func ⟨id, funcDef.ident⟩⟩, ?_, ?_⟩
  · rw [IsEntry, StructDef.ident_of_lookUpFunc hfunc]
  · simp only [addVtableEntry, hfunc, findFunc, hgeneric, bind_eq_bind, bind_some,
      Bool.false_eq_true, if_false, length_append, length_singleton, Nat.add_sub_cancel]
    rfl

variable {state state' : List Global × List GlobalId}

theorem callable_of_addVtableEntry
    {entry : ProtoFuncDecl τ × ℕ} (h : addVtableEntry structDef id i state entry = some state') :
    Callable structDef entry.1.ident := by
  obtain ⟨funcDef, hfunc, h⟩ := bind_eq_some_iff.mp h
  obtain ⟨ssaFunc, hssa, -⟩ := bind_eq_some_iff.mp h
  refine ⟨funcDef, hfunc, ?_⟩
  unfold findFunc at hssa
  split_ifs at hssa with hgeneric
  simpa using hgeneric

/-- The entries of one vtable. -/
theorem addVtable_of_callable (state : List Global × List GlobalId) {entry : ConcreteProto τ × ℕ}
    (h : ∀ name ∈ entry.1.proto.names, Callable structDef name) :
    ∃ entries, List.Forall₂ (IsEntry id) entries entry.1.proto.names ∧
      addVtable structDef id state entry = some (state.1 ++ entries,
        if entry.1.proto.names = [] then state.2 else state.2 ++ [state.1.length]) := by
  have hfold : ∀ (funcDecls : List (ProtoFuncDecl τ)) (j : ℕ) (state : List Global × List GlobalId),
      (∀ funcDecl ∈ funcDecls, Callable structDef funcDecl.ident) →
      ∃ entries, List.Forall₂ (IsEntry id) entries (funcDecls.map ProtoFuncDecl.ident) ∧
        (funcDecls.zipIdx j).foldlM (addVtableEntry structDef id entry.2) state =
          some (state.1 ++ entries,
            if funcDecls = [] ∨ j ≠ 0 then state.2 else state.2 ++ [state.1.length]) := by
    intro funcDecls
    induction funcDecls with
    | nil => exact fun j state _ ↦ ⟨[], .nil, by simp⟩
    | cons funcDecl funcDecls ih =>
      intro j state hcallable
      obtain ⟨global, hentry, hadd⟩ := @addVtableEntry_of_callable _ _ id entry.2 state
        (funcDecl, j) (hcallable funcDecl mem_cons_self)
      obtain ⟨entries, hentries, hfold⟩ := ih (j + 1) _
        fun other hother ↦ hcallable other (mem_cons_of_mem _ hother)
      refine ⟨global :: entries, .cons hentry hentries, ?_⟩
      rw [zipIdx_cons, foldlM_cons, hadd, bind_eq_bind, bind_some, hfold]
      by_cases hj : j = 0 <;> simp [hj]
  obtain ⟨entries, hentries, hadd⟩ := hfold entry.1.proto.funcDecls 0 state
    fun funcDecl hmem ↦ h _ (mem_map_of_mem hmem)
  refine ⟨entries, hentries, hadd.trans ?_⟩
  simp [ProtoDef.names]

theorem callable_of_addVtable
    {entry : ConcreteProto τ × ℕ} (h : addVtable structDef id state entry = some state') :
    ∀ name ∈ entry.1.proto.names, Callable structDef name := by
  have hfold : ∀ (funcDecls : List (ProtoFuncDecl τ)) (j : ℕ) (state : List Global × List GlobalId),
      (funcDecls.zipIdx j).foldlM (addVtableEntry structDef id entry.2) state = some state' →
      ∀ name ∈ funcDecls.map ProtoFuncDecl.ident, Callable structDef name := by
    intro funcDecls
    induction funcDecls with
    | nil => simp
    | cons funcDecl funcDecls ih =>
      intro j state hfold name hname
      rw [zipIdx_cons, foldlM_cons] at hfold
      obtain ⟨state'', hadd, hrest⟩ := bind_eq_some_iff.mp hfold
      obtain rfl | hname := mem_cons.mp hname
      · exact callable_of_addVtableEntry hadd
      · exact ih _ _ hrest name hname
  exact hfold _ _ _ h

/-- The vtables of a struct. -/
theorem foldlM_addVtable (state : List Global × List GlobalId) (impls : List (ConcreteProto τ))
    (h : ∀ name ∈ methodNames impls, Callable structDef name) (i : ℕ) :
    ∃ entries, List.Forall₂ (IsEntry id) entries (methodNames impls) ∧
      (impls.zipIdx i).foldlM (addVtable structDef id) state =
        some (state.1 ++ entries, state.2 ++ vtableStarts state.1.length impls) := by
  induction impls generalizing state i with
  | nil => exact ⟨[], .nil, by simp [vtableStarts]⟩
  | cons impl impls ih =>
    simp only [methodNames, flatMap_cons, forall_mem_append] at h
    obtain ⟨entries, hentries, hadd⟩ := @addVtable_of_callable _ _ id state (impl, i) h.1
    obtain ⟨others, hothers, hfold⟩ := ih _ h.2 (i + 1)
    refine ⟨entries ++ others, rel_append hentries hothers, ?_⟩
    rw [zipIdx_cons, foldlM_cons, hadd, bind_eq_bind, bind_some, hfold,
      vtableStarts, ← hentries.length_eq]
    split_ifs with hnil
    · obtain rfl : entries = [] := length_eq_zero_iff.mp (by rw [hentries.length_eq, hnil]; rfl)
      simp
    · simp

theorem callable_of_foldlM_addVtable
    (h : (impls.zipIdx i).foldlM (addVtable structDef id) state = some state') :
    ∀ name ∈ methodNames impls, Callable structDef name := by
  induction impls generalizing state i with
  | nil => simp [methodNames]
  | cons impl impls ih =>
    rw [zipIdx_cons, foldlM_cons] at h
    obtain ⟨state'', hadd, hrest⟩ := bind_eq_some_iff.mp h
    simp only [methodNames, flatMap_cons, forall_mem_append]
    exact ⟨callable_of_addVtable hadd, ih hrest⟩

end Banjo.SSAGen
