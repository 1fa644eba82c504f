import Banjo.SSA.Function

/-!
# Dead function elimination

The pass walks from the functions that are global or the initial value of a global to every function
that the instructions of a walked function refer to, and drops the other functions. The functions
that have been walked are closed under references, since a walk goes on until every reference of the
functions it has added is known.
-/

open List Option

namespace Banjo.Passes.DeadFuncEliminationPass

open SSA

/-! ## Modules -/

/-- `Global::Value`. -/
inductive InitialValue where
  | none
  | integer (value : LargeInt)
  | floatingPoint (value : Double)
  | bytes (value : List (BitVec 8))
  | string (value : List (BitVec 8))
  | func (func : FuncId)
  | globalRef (name : String)
  | externFuncRef (name : String)
  | externGlobalRef (name : String)
  deriving DecidableEq, Repr

structure ModuleFunction where
  id : FuncId
  name : String
  global : Bool
  code : Function
  deriving DecidableEq, Repr

structure FunctionDecl where
  id : FuncId
  name : String
  deriving DecidableEq, Repr

structure Module where
  functions : List ModuleFunction
  globals : List InitialValue
  externalFunctions : List FunctionDecl
  dllExports : List String := []
  deriving DecidableEq, Repr

/-- The operands of an instruction, with the arguments of its branch targets. -/
def values (instr : Instruction) : List Value :=
  (instr.operands ++ instr.targets.flatMap BranchTarget.args).map Operand.value

namespace Module

variable (mod : Module)

/-- The values in the body of a function. -/
def body (func : FuncId) : List Value :=
  match mod.functions.find? (·.id = func) with
  | some func => func.code.blocks.flatMap fun (_, block) ↦ block.instrs.flatMap values
  | none => []

/-- The name of an external function. -/
def externName (func : FuncId) : Option String :=
  (mod.externalFunctions.find? (·.id = func)).map FunctionDecl.name

end Module

/-! ## The pass -/

variable (mod : Module)

structure State where
  usedFuncs : List FuncId := []
  usedExternFuncs : List String := []
  deriving DecidableEq, Repr

/-- `analyze_value`, after the arguments of branch targets have been listed. -/
def analyzeValue (walkCallGraph : State → FuncId → Option State) (state : State) :
    Value → Option State
  | .func func => if func ∈ state.usedFuncs then some state else walkCallGraph state func
  | .externFunc func =>
    some { state with usedExternFuncs := (mod.externName func).toList ++ state.usedExternFuncs }
  | _ => some state

namespace State

def use (state : State) (func : FuncId) : State :=
  { state with usedFuncs := func :: state.usedFuncs }

end State

def walkCallGraph : ℕ → State → FuncId → Option State
  | 0, _, _ => none
  | fuel + 1, state, func =>
    (mod.body func).foldlM (analyzeValue mod (walkCallGraph fuel)) (state.use func)

def roots : List FuncId :=
  (mod.functions.filter ModuleFunction.global).map ModuleFunction.id ++
    mod.globals.filterMap fun
      | .func func => some func
      | _ => none

def fuel : ℕ := mod.functions.length + 2

/-- What is left of the module. -/
def swept (state : State) : Module :=
  { mod with
    functions := mod.functions.filter fun func ↦ func.global || func.id ∈ state.usedFuncs
    externalFunctions := mod.externalFunctions.filter
      (·.name ∈ ["memcpy", "sqrt"] ++ state.usedExternFuncs) }

def run : Option Module := do
  let state ← (roots mod).foldlM (walkCallGraph mod (fuel mod)) {}
  return swept mod state

/-! ## References -/

/-- A function that is referenced, directly or through function bodies. -/
inductive Reachable : FuncId → Prop where
  | root {func : FuncId} (h : func ∈ roots mod) : Reachable func
  | step {func func' : FuncId} (h : Reachable func) (hbody : .func func' ∈ mod.body func) :
    Reachable func'

/-- An external function that the body of a referenced function refers to. -/
def ReachableExtern (name : String) : Prop :=
  ∃ func, Reachable mod func ∧ ∃ id, .externFunc id ∈ mod.body func ∧ mod.externName id = some name

/-- What is referenced is still there, and so is what the functions that are left refer to. -/
structure Keeps (mod mod' : Module) : Prop where
  functions : ∀ func ∈ mod.functions, Reachable mod func.id ∨ func.name ∈ mod.dllExports →
    func ∈ mod'.functions
  externalFunctions : ∀ decl ∈ mod.externalFunctions,
    ReachableExtern mod decl.name ∨ .externFuncRef decl.name ∈ mod.globals →
      decl ∈ mod'.externalFunctions
  references : ∀ func ∈ mod'.functions, ∀ func' ∈ mod.functions,
    .func func'.id ∈ mod.body func.id → func' ∈ mod'.functions

variable {mod}

/-! ## One walk -/

/-- The functions of the module that have not been walked. -/
def unwalked (mod : Module) (state : State) : ℕ :=
  (mod.functions.filter (·.id ∉ state.usedFuncs)).length

/-- The references of a function are known. -/
structure Known (mod : Module) (state : State) (func : FuncId) : Prop where
  funcs : ∀ {func'}, .func func' ∈ mod.body func → func' ∈ state.usedFuncs
  externFuncs : ∀ {id name}, .externFunc id ∈ mod.body func → mod.externName id = some name →
    name ∈ state.usedExternFuncs

/-- What some steps of a walk add: the references of what they have added are known, and everything
they have added is referenced. -/
structure Walked (mod : Module) (state state' : State) : Prop where
  usedFuncs : ∀ {func}, func ∈ state.usedFuncs → func ∈ state'.usedFuncs
  usedExternFuncs : ∀ {name}, name ∈ state.usedExternFuncs → name ∈ state'.usedExternFuncs
  known : ∀ {func}, func ∈ state'.usedFuncs → func ∉ state.usedFuncs → Known mod state' func

variable {func : FuncId} {state state' : State}

theorem Known.mono (h : Known mod state func)
    (hwalked : Walked mod state state') : Known mod state' func :=
  ⟨fun hbody ↦ hwalked.usedFuncs (h.funcs hbody),
    fun hbody hname ↦ hwalked.usedExternFuncs (h.externFuncs hbody hname)⟩

theorem Walked.refl (state : State) : Walked mod state state :=
  ⟨id, id, fun h hnot ↦ absurd h hnot⟩

theorem Walked.trans {state'' : State} (h : Walked mod state state')
    (h' : Walked mod state' state'') : Walked mod state state'' := by
  refine ⟨fun hmem ↦ h'.usedFuncs (h.usedFuncs hmem),
    fun hmem ↦ h'.usedExternFuncs (h.usedExternFuncs hmem), fun {func} hmem hnot ↦ ?_⟩
  by_cases hmiddle : func ∈ state'.usedFuncs
  · exact (h.known hmiddle hnot).mono h'
  · exact h'.known hmem hmiddle

/-- What one value refers to is known. -/
def ValueKnown (mod : Module) (value : Value) (state : State) : Prop :=
  (∀ func, value = .func func → func ∈ state.usedFuncs) ∧
    ∀ id name, value = .externFunc id → mod.externName id = some name → name ∈ state.usedExternFuncs

theorem ValueKnown.mono {value : Value} (h : ValueKnown mod value state)
    (hwalked : Walked mod state state') : ValueKnown mod value state' :=
  ⟨fun func hvalue ↦ hwalked.usedFuncs (h.1 func hvalue),
    fun id name hvalue hname ↦ hwalked.usedExternFuncs (h.2 id name hvalue hname)⟩

theorem known_of_values
    (h : ∀ value ∈ mod.body func, ValueKnown mod value state) : Known mod state func :=
  ⟨fun hbody ↦ (h _ hbody).1 _ rfl, fun hbody hname ↦ (h _ hbody).2 _ _ rfl hname⟩

variable {α : Type} {f : State → α → Option State}

/-- A loop whose steps only walk further, and which establish something that stays true. -/
theorem foldlM_walked {P : α → State → Prop}
    (hmono : ∀ {a state state'}, P a state → Walked mod state state' → P a state')
    (hstep : ∀ {a state state'}, f state a = some state' → Walked mod state state' ∧ P a state')
    (values : List α) (h : values.foldlM f state = some state') :
    Walked mod state state' ∧ ∀ value ∈ values, P value state' := by
  induction values generalizing state with
  | nil =>
    obtain rfl : state = state' := some.inj h
    exact ⟨Walked.refl state, fun value hvalue ↦ absurd hvalue not_mem_nil⟩
  | cons value values ih =>
    rw [foldlM_cons] at h
    obtain ⟨middle, hmiddle, hrest⟩ := bind_eq_some_iff.mp h
    obtain ⟨hwalked, hvalue⟩ := hstep hmiddle
    obtain ⟨hwalked', hvalues⟩ := ih hrest
    refine ⟨hwalked.trans hwalked', fun value' hmem ↦ ?_⟩
    rcases mem_cons.mp hmem with rfl | hmem
    · exact hmono hvalue hwalked'
    · exact hvalues value' hmem

theorem walked_analyzeValue {walk : State → FuncId → Option State}
    (hwalk : ∀ {state state' func}, walk state func = some state' →
      Walked mod state state' ∧ func ∈ state'.usedFuncs)
    {value : Value} (h : analyzeValue mod walk state value = some state') :
    Walked mod state state' ∧ ValueKnown mod value state' := by
  unfold analyzeValue at h
  split at h
  · next func =>
    split at h
    · next hused =>
      obtain rfl : state = state' := some.inj h
      refine ⟨Walked.refl state, fun func' heq ↦ ?_, fun id name heq ↦ by cases heq⟩
      obtain rfl : func = func' := Value.func.inj heq
      exact hused
    · obtain ⟨hwalked, hmem⟩ := hwalk h
      refine ⟨hwalked, fun func' heq ↦ ?_, fun id name heq ↦ by cases heq⟩
      obtain rfl : func = func' := Value.func.inj heq
      exact hmem
  · next id =>
    obtain rfl := some.inj h
    refine ⟨⟨fun hmem ↦ hmem, fun hmem ↦ mem_append_right _ hmem,
      fun hmem hnot ↦ absurd hmem hnot⟩, fun func heq ↦ (by cases heq), fun id' name heq hname ↦ ?_⟩
    obtain rfl : id = id' := Value.externFunc.inj heq
    exact mem_append_left _ (mem_toList.mpr hname)
  · next hfunc hother =>
    obtain rfl : state = state' := some.inj h
    exact ⟨Walked.refl state, fun func heq ↦ absurd heq (hfunc func),
      fun id name heq ↦ absurd heq (hother id)⟩

/-- A walk adds the function, and leaves nothing it has added with unknown references. -/
theorem walked_walkCallGraph {fuel : ℕ} (h : walkCallGraph mod fuel state func = some state') :
    Walked mod state state' ∧ func ∈ state'.usedFuncs ∧ Known mod state' func := by
  induction fuel generalizing state state' func with
  | zero => cases h
  | succ fuel ih =>
    rw [walkCallGraph] at h
    obtain ⟨hwalked, hvalues⟩ := foldlM_walked (P := ValueKnown mod)
      (f := analyzeValue mod (walkCallGraph mod fuel)) (fun hvalue ↦ hvalue.mono)
      (fun h ↦ walked_analyzeValue (fun h ↦ ⟨(ih h).1, (ih h).2.1⟩) h) (mod.body func) h
    have hknown : Known mod state' func := known_of_values hvalues
    refine ⟨⟨fun hmem ↦ hwalked.usedFuncs (mem_cons_of_mem _ hmem), hwalked.usedExternFuncs,
      fun {func'} hmem hnot ↦ ?_⟩, hwalked.usedFuncs mem_cons_self, hknown⟩
    by_cases heq : func' = func
    · exact heq ▸ hknown
    · exact hwalked.known hmem (fun hmem' ↦ (mem_cons.mp hmem').elim heq hnot)

/-! ## Only what is referenced -/

/-- Everything the pass has collected is referenced. -/
structure Sound (mod : Module) (state : State) : Prop where
  funcs : ∀ {func}, func ∈ state.usedFuncs → Reachable mod func
  externFuncs : ∀ {name}, name ∈ state.usedExternFuncs → ReachableExtern mod name

theorem foldlM_preserves {P : State → Prop} (values : List α)
    (hstep : ∀ a ∈ values, ∀ {state state'}, P state → f state a = some state' → P state')
    (hstate : P state) (h : values.foldlM f state = some state') : P state' := by
  induction values generalizing state with
  | nil =>
    obtain rfl : state = state' := some.inj h
    exact hstate
  | cons value values ih =>
    rw [foldlM_cons] at h
    obtain ⟨middle, hmiddle, hrest⟩ := bind_eq_some_iff.mp h
    exact ih (fun a ha ↦ hstep a (mem_cons_of_mem _ ha))
      (hstep value mem_cons_self hstate hmiddle) hrest

theorem sound_walkCallGraph {fuel : ℕ} (hstate : Sound mod state) (hfunc : Reachable mod func)
    (h : walkCallGraph mod fuel state func = some state') : Sound mod state' := by
  induction fuel generalizing state state' func with
  | zero => cases h
  | succ fuel ih =>
    rw [walkCallGraph] at h
    have huse : Sound mod (state.use func) := by
      refine ⟨fun hmem ↦ ?_, hstate.externFuncs⟩
      rcases mem_cons.mp hmem with rfl | hmem
      · exact hfunc
      · exact hstate.funcs hmem
    refine foldlM_preserves (P := Sound mod) (f := analyzeValue mod (walkCallGraph mod fuel))
      (mod.body func) (fun value hvalue {state state'} hstate h ↦ ?_) huse h
    unfold analyzeValue at h
    split at h
    · next func' =>
      split at h
      · obtain rfl := some.inj h
        exact hstate
      · exact ih hstate (.step hfunc hvalue) h
    · next id =>
      obtain rfl := some.inj h
      refine ⟨hstate.funcs, fun hmem ↦ ?_⟩
      rcases mem_append.mp hmem with hmem | hmem
      · exact ⟨func, hfunc, id, hvalue, mem_toList.mp hmem⟩
      · exact hstate.externFuncs hmem
    · obtain rfl := some.inj h
      exact hstate

theorem sound_of_roots
    (h : (roots mod).foldlM (walkCallGraph mod (fuel mod)) {} = some state) : Sound mod state :=
  foldlM_preserves (P := Sound mod) (roots mod)
    (fun _ hroot _ _ hstate h ↦ sound_walkCallGraph hstate (.root hroot) h)
    ⟨fun hmem ↦ absurd hmem not_mem_nil, fun hmem ↦ absurd hmem not_mem_nil⟩ h

/-! ## Termination -/

theorem unwalked_le (h : ∀ {func}, func ∈ state.usedFuncs → func ∈ state'.usedFuncs) :
    unwalked mod state' ≤ unwalked mod state := by
  refine (monotone_filter_right _ fun func hfunc ↦ ?_).length_le
  simp only [decide_eq_true_eq] at hfunc ⊢
  exact fun hmem ↦ hfunc (h hmem)

theorem unwalked_use_lt (h : func ∉ state.usedFuncs)
    (hbody : mod.body func ≠ []) : unwalked mod (state.use func) < unwalked mod state := by
  obtain ⟨entry, hentry⟩ : ∃ entry, mod.functions.find? (·.id = func) = some entry := by
    cases hfind : mod.functions.find? (·.id = func) with
    | none => exact absurd (by rw [Module.body, hfind]) hbody
    | some entry => exact ⟨entry, rfl⟩
  obtain rfl : entry.id = func := by simpa using find?_some hentry
  have hmem : entry ∈ mod.functions.filter (·.id ∉ state.usedFuncs) :=
    mem_filter.mpr ⟨mem_of_find?_eq_some hentry, by simpa using h⟩
  refine lt_of_le_of_ne (unwalked_le fun hmem ↦ mem_cons_of_mem _ hmem) fun hlength ↦ ?_
  have hsub : (mod.functions.filter (·.id ∉ (state.use entry.id).usedFuncs)).Sublist
      (mod.functions.filter (·.id ∉ state.usedFuncs)) := by
    refine monotone_filter_right _ fun func hfunc ↦ ?_
    simp only [decide_eq_true_eq] at hfunc ⊢
    exact fun hmem ↦ hfunc (mem_cons_of_mem _ hmem)
  rw [← hsub.eq_of_length hlength] at hmem
  simpa [State.use] using (mem_filter.mp hmem).2

theorem foldlM_isSome {P : State → Prop}
    (hstep : ∀ a {state}, P state → ∃ state', f state a = some state' ∧ P state') (values : List α)
    (hstate : P state) : ∃ state', values.foldlM f state = some state' := by
  induction values generalizing state with
  | nil => exact ⟨state, rfl⟩
  | cons value values ih =>
    obtain ⟨middle, hmiddle, hP⟩ := hstep value hstate
    obtain ⟨state', h⟩ := ih hP
    exact ⟨state', by rw [foldlM_cons, hmiddle]; exact h⟩

/-- A walk ends when there is fuel for every function that is left. -/
theorem exists_walkCallGraph (fuel : ℕ) (state : State) (func : FuncId)
    (hfuel : mod.body func ≠ [] → unwalked mod (state.use func) < fuel) :
    ∃ state', walkCallGraph mod (fuel + 1) state func = some state' := by
  induction fuel generalizing state func with
  | zero =>
    have hbody : mod.body func = [] := by
      by_contra hbody
      exact absurd (hfuel hbody) (Nat.not_lt_zero _)
    exact ⟨state.use func, by rw [walkCallGraph, hbody]; rfl⟩
  | succ fuel ih =>
    by_cases hbody : mod.body func = []
    · exact ⟨state.use func, by rw [walkCallGraph, hbody]; rfl⟩
    rw [walkCallGraph]
    refine foldlM_isSome (P := fun state ↦ unwalked mod state < fuel + 1)
      (fun value {state} hstate ↦ ?_) _ (hfuel hbody)
    have hwalk : ∀ func, func ∉ state.usedFuncs → ∃ state',
        walkCallGraph mod (fuel + 1) state func = some state' ∧ unwalked mod state' < fuel + 1 := by
      intro func hnot
      obtain ⟨state', h⟩ := ih state func fun hbody ↦
        (unwalked_use_lt hnot hbody).trans_le (Nat.le_of_lt_succ hstate)
      exact ⟨state', h, (unwalked_le (walked_walkCallGraph h).1.usedFuncs).trans_lt hstate⟩
    unfold analyzeValue
    split
    · next func =>
      split
      · exact ⟨state, rfl, hstate⟩
      · next hnot => exact hwalk func hnot
    · exact ⟨_, rfl, hstate⟩
    · exact ⟨state, rfl, hstate⟩

theorem unwalked_le_length (state : State) : unwalked mod state ≤ mod.functions.length :=
  length_filter_le _ _

theorem exists_roots (mod : Module) :
    ∃ state, (roots mod).foldlM (walkCallGraph mod (fuel mod)) {} = some state :=
  foldlM_isSome (P := fun _ ↦ True) (fun func {state} _ ↦
    (exists_walkCallGraph (mod.functions.length + 1) state func fun _ ↦
      Nat.lt_succ_of_le (unwalked_le_length _)).imp fun _ h ↦ ⟨h, trivial⟩)
    (roots mod) trivial

/-! ## The whole pass -/

theorem reachable_of_global {func : ModuleFunction} (hfunc : func ∈ mod.functions)
    (hglobal : func.global = true) : Reachable mod func.id :=
  .root (mem_append_left _ (mem_map_of_mem (mem_filter.mpr ⟨hfunc, hglobal⟩)))

section Roots

variable (h : (roots mod).foldlM (walkCallGraph mod (fuel mod)) {} = some state)

include h

/-- The functions a finished walk from the roots has collected. -/
theorem mem_usedFuncs_iff (func : FuncId) : func ∈ state.usedFuncs ↔ Reachable mod func := by
  obtain ⟨hwalked, hroots⟩ := foldlM_walked (P := fun func state ↦ func ∈ state.usedFuncs)
    (fun hmem hwalked ↦ hwalked.usedFuncs hmem)
    (fun h ↦ ⟨(walked_walkCallGraph h).1, (walked_walkCallGraph h).2.1⟩) (roots mod) h
  refine ⟨(sound_of_roots h).funcs, fun hreachable ↦ ?_⟩
  induction hreachable with
  | root hroot => exact hroots _ hroot
  | step _ hbody ih => exact (hwalked.known ih not_mem_nil).funcs hbody

/-- The external functions it has collected. -/
theorem mem_usedExternFuncs_iff (name : String) :
    name ∈ state.usedExternFuncs ↔ ReachableExtern mod name := by
  refine ⟨(sound_of_roots h).externFuncs, fun ⟨func, hfunc, id, hbody, hname⟩ ↦ ?_⟩
  obtain ⟨hwalked, -⟩ := foldlM_walked (P := fun _ _ ↦ True) (fun _ _ ↦ trivial)
    (fun h ↦ ⟨(walked_walkCallGraph h).1, trivial⟩) (roots mod) h
  exact (hwalked.known ((mem_usedFuncs_iff h func).mpr hfunc) not_mem_nil).externFuncs hbody
    hname

theorem mem_functions_swept_iff (func : ModuleFunction) :
    func ∈ (swept mod state).functions ↔ func ∈ mod.functions ∧ Reachable mod func.id := by
  simp only [swept, mem_filter, Bool.or_eq_true, decide_eq_true_eq, mem_usedFuncs_iff h]
  refine and_congr_right fun hfunc ↦ ⟨?_, .inr⟩
  rintro (hglobal | hreachable)
  · exact reachable_of_global hfunc hglobal
  · exact hreachable

theorem mem_externalFunctions_swept_iff (decl : FunctionDecl) :
    decl ∈ (swept mod state).externalFunctions ↔ decl ∈ mod.externalFunctions ∧
      (decl.name = "memcpy" ∨ decl.name = "sqrt" ∨ ReachableExtern mod decl.name) := by
  simp [swept, mem_usedExternFuncs_iff h]

end Roots

/-- A module after the pass keeps what it refers to. -/
def RunKeeps (mod : Module) : Prop :=
  ∃ mod', run mod = some mod' ∧ Keeps mod mod'

/-- The pass ends for every module. It keeps what is referenced if and only if every function that
is exported by its name is global or referenced as well, and every external function that the
initial value of a global refers to is referenced by a function body as well, or is one of the two
functions that are always kept. -/
theorem runKeeps_iff_referenced_elsewhere (mod : Module) :
    RunKeeps mod ↔
      (∀ func ∈ mod.functions, func.name ∈ mod.dllExports → Reachable mod func.id) ∧
      ∀ decl ∈ mod.externalFunctions, .externFuncRef decl.name ∈ mod.globals →
        decl.name = "memcpy" ∨ decl.name = "sqrt" ∨ ReachableExtern mod decl.name := by
  obtain ⟨state, hstate⟩ := exists_roots mod
  have hrun : run mod = some (swept mod state) := by
    rw [run, hstate]
    rfl
  constructor
  · rintro ⟨mod', hmod', hkeeps⟩
    obtain rfl : swept mod state = mod' := some.inj (hrun.symm.trans hmod')
    refine ⟨fun func hfunc hexport ↦ ?_, fun decl hdecl href ↦ ?_⟩
    · have hmem := hkeeps.functions func hfunc (.inr hexport)
      exact ((mem_functions_swept_iff hstate func).mp hmem).2
    · have hmem := hkeeps.externalFunctions decl hdecl (.inr href)
      exact ((mem_externalFunctions_swept_iff hstate decl).mp hmem).2
  · rintro ⟨hexports, hrefs⟩
    refine ⟨swept mod state, hrun, fun func hfunc href ↦ ?_, fun decl hdecl href ↦ ?_,
      fun func hfunc func' hfunc' hbody ↦ ?_⟩
    · exact (mem_functions_swept_iff hstate func).mpr ⟨hfunc, href.elim id (hexports func hfunc)⟩
    · refine (mem_externalFunctions_swept_iff hstate decl).mpr ⟨hdecl, ?_⟩
      rcases href with hreachable | href
      · exact .inr (.inr hreachable)
      · exact hrefs decl hdecl href
    · have hreachable : Reachable mod func.id := ((mem_functions_swept_iff hstate func).mp hfunc).2
      exact (mem_functions_swept_iff hstate func').mpr ⟨hfunc', .step hreachable hbody⟩

/-- A global that holds the address of an external function. -/
def callbackModule : Module where
  functions := [⟨0, "main", true, { blocks := [], lastVirtualReg := 0 }⟩]
  globals := [.externFuncRef "free"]
  externalFunctions := [{ id := 0, name := "free" }]

theorem not_runKeeps_callback : ¬RunKeeps callbackModule := by
  rintro ⟨mod', hrun, hkeeps⟩
  obtain rfl := some.inj ((by decide : run callbackModule = some
    { callbackModule with externalFunctions := [] }).symm.trans hrun)
  exact absurd (hkeeps.externalFunctions { id := 0, name := "free" } (by decide)
    (.inr (by decide))) (by decide)

/-! ## A second run -/

theorem body_swept (h : func ∈ state.usedFuncs) : (swept mod state).body func = mod.body func := by
  have hfind : (swept mod state).functions.find? (·.id = func)
      = mod.functions.find? (·.id = func) := by
    rw [swept, find?_filter]
    refine congrArg (find? · mod.functions) (funext fun entry ↦ ?_)
    by_cases heq : entry.id = func
    · simp [heq, h]
    · simp [heq]
  rw [Module.body, Module.body, hfind]

theorem externName_swept {id : FuncId} {name : String} (hname : mod.externName id = some name)
    (h : name ∈ state.usedExternFuncs) : (swept mod state).externName id = some name := by
  obtain ⟨decl, hdecl, rfl⟩ := map_eq_some_iff.mp hname
  obtain ⟨hid, before, after, heq, hbefore⟩ := find?_eq_some_iff_append.mp hdecl
  refine map_eq_some_iff.mpr ⟨decl, ?_, rfl⟩
  rw [swept, find?_filter, find?_eq_some_iff_append]
  exact ⟨by simp [h, hid], before, after, heq, fun other hother ↦ by simp [hbefore other hother]⟩

theorem roots_swept (mod : Module) (state : State) : roots (swept mod state) = roots mod := by
  have hfilter : (swept mod state).functions.filter ModuleFunction.global
      = mod.functions.filter ModuleFunction.global := by
    rw [swept, List.filter_filter]
    exact filter_congr fun func _ ↦ by cases func.global <;> rfl
  rw [roots, roots, hfilter]
  rfl

section Swept

variable (h : (roots mod).foldlM (walkCallGraph mod (fuel mod)) {} = some state)

include h

theorem reachable_swept {func : FuncId} (hfunc : Reachable mod func) :
    Reachable (swept mod state) func := by
  induction hfunc with
  | root hroot => exact .root (roots_swept mod state ▸ hroot)
  | step hfunc hbody ih =>
    exact .step ih ((body_swept ((mem_usedFuncs_iff h _).mpr hfunc)).symm ▸ hbody)

theorem reachableExtern_swept {name : String} (hname : ReachableExtern mod name) :
    ReachableExtern (swept mod state) name := by
  have hused := (mem_usedExternFuncs_iff h name).mpr hname
  obtain ⟨func, hfunc, id, hbody, hname⟩ := hname
  refine ⟨func, reachable_swept h hfunc, id, ?_, externName_swept hname hused⟩
  rwa [body_swept ((mem_usedFuncs_iff h _).mpr hfunc)]

theorem swept_swept {state' : State} (h' : (roots (swept mod state)).foldlM
      (walkCallGraph (swept mod state) (fuel (swept mod state))) {} = some state') :
    swept (swept mod state) state' = swept mod state := by
  have hfuncs : (swept (swept mod state) state').functions = (swept mod state).functions :=
    filter_eq_self.mpr fun func hmem ↦ by
      have hfunc := reachable_swept h ((mem_functions_swept_iff h func).mp hmem).2
      simp [(mem_usedFuncs_iff h' _).mpr hfunc]
  have hdecls : (swept (swept mod state) state').externalFunctions
      = (swept mod state).externalFunctions :=
    filter_eq_self.mpr fun decl hmem ↦ by
      rcases ((mem_externalFunctions_swept_iff h decl).mp hmem).2 with hname | hname | hname
      · simp [hname]
      · simp [hname]
      · simp [(mem_usedExternFuncs_iff h' _).mpr (reachableExtern_swept h hname)]
  exact congrArg₂ (fun functions externalFunctions ↦
    { swept mod state with functions, externalFunctions }) hfuncs hdecls

end Swept

/-- **The pass is exact**: it leaves the functions that are referenced and no others, and a second
run has nothing to remove, whatever the module. -/
theorem run_run (mod : Module) : ∃ mod', run mod = some mod' ∧ run mod' = some mod' ∧
    ∀ func, func ∈ mod'.functions ↔ func ∈ mod.functions ∧ Reachable mod func.id := by
  obtain ⟨state, hstate⟩ := exists_roots mod
  obtain ⟨state', hstate'⟩ := exists_roots (swept mod state)
  have hrun {mod : Module} {state : State}
      (h : (roots mod).foldlM (walkCallGraph mod (fuel mod)) {} = some state) :
      run mod = some (swept mod state) := by
    rw [run, h]
    rfl
  refine ⟨swept mod state, hrun hstate, ?_, mem_functions_swept_iff hstate⟩
  rw [hrun hstate', swept_swept hstate hstate']

end Banjo.Passes.DeadFuncEliminationPass
