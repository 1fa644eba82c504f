import Mathlib.Logic.Relation
import Mathlib.Tactic.Common

/-!
# The check for recursive structs

The analyzer follows the types of a struct's fields until it meets the struct again. It does not
remember the structs it has been through, so the search ends only where the containment below the
fields it tries does, and it looks through struct fields, tuples and generic parameters, but not
into static arrays.
-/

open List

namespace Banjo.Sema.RecursiveStructs

abbrev StructId := ℕ

abbrev ParamId := ℕ

/-! ## Types -/

/-- The types a field may have. A struct without generic arguments is a symbol, and one with
arguments is a specialization; `other` is every type that embeds nothing. -/
inductive TypeExpr where
  | struct (def_ : StructId) (args : List TypeExpr)
  | tuple (exprs : List TypeExpr)
  | staticArray (base : TypeExpr) (length : ℕ)
  | genericParam (param : ParamId)
  | pointer (base : TypeExpr)
  | other

structure Concrete where
  def_ : StructId
  args : List TypeExpr

structure StructDef where
  genericParams : List ParamId
  fields : List TypeExpr

/-- The definition of every struct. -/
abbrev Program := StructId → StructDef

variable (program : Program) (base : StructId)

/-! ## The check -/

/-- The generic argument for the first parameter that is equal. -/
def argFor (parent : Concrete) (param : ParamId) : Option TypeExpr :=
  (((program parent.def_).genericParams.zip parent.args).find? (·.1 = param)).map Prod.snd

/-- `is_recursive`, for one type. The fuel bounds how deep the calls are nested. -/
def isRecursive : ℕ → Concrete → TypeExpr → Option Bool
  | 0, _, _ => none
  | fuel + 1, parent, type =>
    match type with
    | .struct def_ args =>
      if def_ = base ∧ args.isEmpty then
        some true
      else
        (program def_).fields.anyM (isRecursive fuel ⟨def_, args⟩)
    | .tuple exprs => exprs.anyM (isRecursive fuel parent)
    | .genericParam param =>
      if (program parent.def_).genericParams.length ≠ parent.args.length then
        some false
      else
        match argFor program parent param with
        | some arg => isRecursive fuel parent arg
        | none => some false
    | _ => some false

/-- `is_recursive`, for the fields of the struct itself. -/
def run (fuel : ℕ) : Option Bool :=
  (program base).fields.anyM (isRecursive program base fuel ⟨base, []⟩)

/-- The check ends with an answer. -/
def Returns (answer : Bool) : Prop :=
  ∃ fuel, run program base fuel = some answer

/-! ## Containment by value -/

mutual

/-- The type with arguments in the place of parameters. -/
def TypeExpr.subst (args : List (ParamId × TypeExpr)) : TypeExpr → TypeExpr
  | .struct def_ structArgs => .struct def_ (substList args structArgs)
  | .tuple exprs => .tuple (substList args exprs)
  | .staticArray base length => .staticArray (base.subst args) length
  | .genericParam param => ((args.find? (·.1 = param)).map Prod.snd).getD (.genericParam param)
  | .pointer base => .pointer (base.subst args)
  | .other => .other

def TypeExpr.substList (args : List (ParamId × TypeExpr)) : List TypeExpr → List TypeExpr
  | [] => []
  | type :: types => type.subst args :: substList args types

end

/-- A value of the type holds a value of the struct. -/
inductive Embeds : TypeExpr → Concrete → Prop where
  | struct (def_ : StructId) (args : List TypeExpr) : Embeds (.struct def_ args) ⟨def_, args⟩
  | tuple {exprs : List TypeExpr} {type : TypeExpr} {concrete : Concrete} (hmem : type ∈ exprs)
    (h : Embeds type concrete) : Embeds (.tuple exprs) concrete
  | staticArray {type : TypeExpr} {length : ℕ} {concrete : Concrete} (h : Embeds type concrete) :
    Embeds (.staticArray type length) concrete

/-- A field of the first struct, with the generic arguments filled in, holds the second one. -/
def HasField (outer inner : Concrete) : Prop :=
  ∃ field ∈ (program outer.def_).fields,
    Embeds (field.subst ((program outer.def_).genericParams.zip outer.args)) inner

/-- The struct contains itself by value. -/
def ContainsItself : Prop :=
  ∃ args, Relation.TransGen (HasField program)
    ⟨base, (program base).genericParams.map .genericParam⟩ ⟨base, args⟩

/-- The check ends, and its answer is right. -/
def Decides : Prop :=
  ∃ answer, Returns program base answer ∧ (answer = true ↔ ContainsItself program base)

/-! ## The search -/

/-- A type, and the struct whose generic arguments it is read with. -/
structure Node where
  parent : Concrete
  type : TypeExpr

/-- The struct itself. -/
def Node.IsBase (node : Node) : Prop := node.type = .struct base []

/-- The types the check tries next. -/
def Node.children (node : Node) : List Node :=
  match node.type with
  | .struct def_ args => (program def_).fields.map (Node.mk ⟨def_, args⟩)
  | .tuple exprs => exprs.map (Node.mk node.parent)
  | .genericParam param =>
    if (program node.parent.def_).genericParams.length ≠ node.parent.args.length then
      []
    else
      ((argFor program node.parent param).map (Node.mk node.parent)).toList
  | _ => []

def fieldNodes : List Node := (program base).fields.map (Node.mk ⟨base, []⟩)

/-- Below the type, containment comes to an end wherever it does not meet the struct. -/
inductive Ends : Node → Prop where
  | intro {node : Node} (h : ¬node.IsBase base → ∀ child ∈ node.children program, Ends child) :
    Ends node

/-- The struct is somewhere below the type. -/
inductive Meets : Node → Prop where
  | base {node : Node} (h : node.IsBase base) : Meets node
  | child {node child : Node} (hmem : child ∈ node.children program) (h : Meets child) : Meets node

/-- A chain leads to the struct, and containment comes to an end below everything that is listed
before the types of the chain. -/
inductive MeetsFirst : Node → Prop where
  | base {node : Node} (h : node.IsBase base) : MeetsFirst node
  | child {node child : Node} {before after : List Node}
    (hchildren : node.children program = before ++ child :: after)
    (hbefore : ∀ other ∈ before, Ends program base other) (h : MeetsFirst child) : MeetsFirst node

/-- The same for the fields of the struct itself. -/
def FieldsMeetFirst : Prop :=
  ∃ before child after, fieldNodes program base = before ++ child :: after ∧
    (∀ other ∈ before, Ends program base other) ∧ MeetsFirst program base child

variable {program base}

/-- The check of one type, with what it is read with. -/
def check (program : Program) (base : StructId) (fuel : ℕ) (node : Node) : Option Bool :=
  isRecursive program base fuel node.parent node.type

theorem anyM_map {α β : Type} (f : α → β) (p : β → Option Bool) (values : List α) :
    (values.map f).anyM p = values.anyM fun value ↦ p (f value) := by
  induction values with
  | nil => rfl
  | cons value values ih => rw [map_cons, anyM, anyM, ih]

theorem anyM_eq_false_iff {α : Type} {p : α → Option Bool} {values : List α} :
    values.anyM p = some false ↔ ∀ value ∈ values, p value = some false := by
  induction values with
  | nil => exact ⟨fun _ value hvalue ↦ absurd hvalue not_mem_nil, fun _ ↦ rfl⟩
  | cons value values ih =>
    rw [anyM, forall_mem_cons, ← ih]
    cases hvalue : p value with
    | none => simp
    | some answer => cases answer <;> simp

/-- A search is successful where it is for one value and has failed for all before it. -/
theorem anyM_eq_true_iff {α : Type} {p : α → Option Bool} {values : List α} :
    values.anyM p = some true ↔ ∃ before value after, values = before ++ value :: after ∧
      (∀ other ∈ before, p other = some false) ∧ p value = some true := by
  induction values with
  | nil => simp [anyM]
  | cons value values ih =>
    rw [anyM]
    cases hvalue : p value with
    | none =>
      refine ⟨fun h ↦ by simp at h, ?_⟩
      rintro ⟨before, found, after, heq, hbefore, hfound⟩
      cases before with
      | nil => simp_all
      | cons other before => simp_all
    | some answer =>
      cases answer with
      | true => exact ⟨fun _ ↦ ⟨[], value, values, rfl, by simp, hvalue⟩, fun _ ↦ rfl⟩
      | false =>
        refine ih.trans ⟨?_, ?_⟩
        · rintro ⟨before, found, after, rfl, hbefore, hfound⟩
          exact ⟨value :: before, found, after, rfl, forall_mem_cons.mpr ⟨hvalue, hbefore⟩, hfound⟩
        · rintro ⟨before, found, after, heq, hbefore, hfound⟩
          cases before with
          | nil =>
            obtain ⟨rfl, -⟩ := cons.inj heq
            exact absurd (hvalue.symm.trans hfound) (by simp)
          | cons other before =>
            obtain ⟨rfl, rfl⟩ := cons.inj heq
            exact ⟨before, found, after, rfl, (forall_mem_cons.mp hbefore).2, hfound⟩

theorem check_succ (fuel : ℕ) (node : Node) [Decidable (node.IsBase base)] :
    check program base (fuel + 1) node = if node.IsBase base then some true else
      (node.children program).anyM (check program base fuel) := by
  obtain ⟨parent, type⟩ := node
  cases type with
  | struct def_ args =>
    simp only [check, isRecursive, Node.IsBase, Node.children, TypeExpr.struct.injEq,
      List.isEmpty_iff, anyM_map]
  | tuple exprs =>
    simp only [check, isRecursive, Node.IsBase, Node.children, reduceCtorEq, if_false, anyM_map]
  | genericParam param =>
    simp only [check, isRecursive, Node.IsBase, Node.children, reduceCtorEq, if_false]
    split
    · rfl
    · cases argFor program parent param with
      | none => rfl
      | some arg =>
        simp only [Option.map_some, Option.toList_some, anyM, check]
        cases isRecursive program base fuel parent arg with
        | none => rfl
        | some answer => cases answer <;> rfl
  | staticArray base length => simp [check, isRecursive, Node.IsBase, Node.children]
  | pointer base => simp [check, isRecursive, Node.IsBase, Node.children]
  | other => simp [check, isRecursive, Node.IsBase, Node.children]

variable {fuel : ℕ} {node : Node}

theorem check_of_isBase (h : node.IsBase base) :
    check program base (fuel + 1) node = some true := by
  classical rw [check_succ, if_pos h]

theorem check_of_not_isBase (h : ¬node.IsBase base) :
    check program base (fuel + 1) node =
      (node.children program).anyM (check program base fuel) := by
  classical rw [check_succ, if_neg h]

/-! ## More fuel -/

/-- More fuel does not change the answer for a list, when it does not for its members. -/
theorem anyM_mono {p q : Node → Option Bool} {nodes : List Node} {answer : Bool}
    (hmono : ∀ node answer, p node = some answer → q node = some answer)
    (h : nodes.anyM p = some answer) : nodes.anyM q = some answer := by
  cases answer with
  | true =>
    obtain ⟨before, node, after, heq, hbefore, hnode⟩ := anyM_eq_true_iff.mp h
    exact anyM_eq_true_iff.mpr ⟨before, node, after, heq,
      fun other hother ↦ hmono other false (hbefore other hother), hmono node true hnode⟩
  | false =>
    exact anyM_eq_false_iff.mpr fun node hnode ↦
      hmono node false (anyM_eq_false_iff.mp h node hnode)

theorem check_mono_succ (fuel : ℕ) (node : Node) (answer : Bool)
    (h : check program base fuel node = some answer) :
    check program base (fuel + 1) node = some answer := by
  induction fuel generalizing node answer with
  | zero => cases h
  | succ fuel ih =>
    by_cases hbase : node.IsBase base
    · rw [check_of_isBase hbase] at h ⊢
      exact h
    · rw [check_of_not_isBase hbase] at h ⊢
      exact anyM_mono ih h

theorem check_mono {fuel' : ℕ} (hfuel : fuel ≤ fuel') (node : Node) (answer : Bool)
    (h : check program base fuel node = some answer) :
    check program base fuel' node = some answer := by
  induction hfuel with
  | refl => exact h
  | step _ ih => exact check_mono_succ _ node answer ih

/-! ## What an answer says -/

theorem MeetsFirst.meets (h : MeetsFirst program base node) : Meets program base node := by
  induction h with
  | base hbase => exact .base hbase
  | child hchildren _ _ ih => exact .child (hchildren ▸ by simp) ih

theorem sound_check :
    (check program base fuel node = some true → MeetsFirst program base node) ∧
      (check program base fuel node = some false →
        Ends program base node ∧ ¬Meets program base node) := by
  induction fuel generalizing node with
  | zero => exact ⟨fun h ↦ (by cases h), fun h ↦ (by cases h)⟩
  | succ fuel ih =>
    by_cases hbase : node.IsBase base
    · rw [check_of_isBase hbase]
      exact ⟨fun _ ↦ .base hbase, fun h ↦ (by cases h)⟩
    rw [check_of_not_isBase hbase]
    constructor
    · intro h
      obtain ⟨before, child, after, hchildren, hbefore, hchild⟩ := anyM_eq_true_iff.mp h
      exact .child hchildren (fun other hother ↦ (ih.2 (hbefore other hother)).1) (ih.1 hchild)
    · intro h
      have hchildren := anyM_eq_false_iff.mp h
      refine ⟨.intro fun _ child hchild ↦ (ih.2 (hchildren child hchild)).1, fun hmeets ↦ ?_⟩
      cases hmeets with
      | base h => exact hbase h
      | child hmem h => exact (ih.2 (hchildren _ hmem)).2 h

/-! ## When there is an answer -/

/-- A list whose members all have answers has one. -/
theorem exists_anyM {nodes : List Node}
    (h : ∀ node ∈ nodes, ∃ fuel answer, check program base fuel node = some answer) :
    ∃ fuel answer, nodes.anyM (check program base fuel) = some answer := by
  induction nodes with
  | nil => exact ⟨0, false, rfl⟩
  | cons node nodes ih =>
    obtain ⟨fuel, answer, hnode⟩ := h node mem_cons_self
    obtain ⟨fuel', answer', hnodes⟩ := ih fun other hother ↦ h other (mem_cons_of_mem _ hother)
    have hnode' := check_mono (Nat.le_max_left fuel fuel') node answer hnode
    have hnodes' := anyM_mono (check_mono (Nat.le_max_right fuel fuel')) hnodes
    cases answer with
    | true => exact ⟨max fuel fuel', true, by rw [anyM, hnode']; rfl⟩
    | false => exact ⟨max fuel fuel', answer', by rw [anyM, hnode']; exact hnodes'⟩

theorem Ends.exists_check (h : Ends program base node) :
    ∃ fuel answer, check program base fuel node = some answer := by
  induction h with
  | @intro node _ ih =>
    by_cases hbase : node.IsBase base
    · exact ⟨1, true, check_of_isBase hbase⟩
    · obtain ⟨fuel, answer, hanswer⟩ := exists_anyM (ih hbase)
      exact ⟨fuel + 1, answer, by rw [check_of_not_isBase hbase, hanswer]⟩

/-- The search of a list ends with success when it does for one member and ends for those before. -/
theorem exists_anyM_true {before after : List Node} {child : Node}
    (hbefore : ∀ other ∈ before, Ends program base other)
    (hchild : ∃ fuel, check program base fuel child = some true) :
    ∃ fuel, (before ++ child :: after).anyM (check program base fuel) = some true := by
  induction before with
  | nil =>
    obtain ⟨fuel, hchild⟩ := hchild
    exact ⟨fuel, by rw [nil_append, anyM, hchild]; rfl⟩
  | cons node before ih =>
    obtain ⟨hnode, hbefore⟩ := forall_mem_cons.mp hbefore
    obtain ⟨fuel, answer, hanswer⟩ := hnode.exists_check
    obtain ⟨fuel', hrest⟩ := ih hbefore
    have hanswer' := check_mono (Nat.le_max_left fuel fuel') node answer hanswer
    have hrest' := anyM_mono (check_mono (Nat.le_max_right fuel fuel')) hrest
    refine ⟨max fuel fuel', ?_⟩
    rw [cons_append, anyM, hanswer']
    cases answer with
    | true => rfl
    | false => exact hrest'

theorem MeetsFirst.exists_check (h : MeetsFirst program base node) :
    ∃ fuel, check program base fuel node = some true := by
  induction h with
  | base hbase => exact ⟨1, check_of_isBase hbase⟩
  | @child node child before after hchildren hbefore _ ih =>
    by_cases hbase : node.IsBase base
    · exact ⟨1, check_of_isBase hbase⟩
    · obtain ⟨fuel, h⟩ := @exists_anyM_true _ _ before after child hbefore ih
      exact ⟨fuel + 1, by rw [check_of_not_isBase hbase, hchildren, h]⟩

/-! ## The check of a struct -/

theorem run_eq (fuel : ℕ) :
    run program base fuel = (fieldNodes program base).anyM (check program base fuel) :=
  (anyM_map (Node.mk ⟨base, []⟩) (check program base fuel) _).symm

theorem returns_true_iff : Returns program base true ↔ FieldsMeetFirst program base := by
  constructor
  · rintro ⟨fuel, h⟩
    rw [run_eq] at h
    obtain ⟨before, child, after, heq, hbefore, hchild⟩ := anyM_eq_true_iff.mp h
    exact ⟨before, child, after, heq, fun other hother ↦ (sound_check.2 (hbefore other hother)).1,
      sound_check.1 hchild⟩
  · rintro ⟨before, child, after, heq, hbefore, hchild⟩
    obtain ⟨fuel, h⟩ := @exists_anyM_true _ _ before after child hbefore hchild.exists_check
    exact ⟨fuel, by rw [run_eq, heq, h]⟩

theorem returns_false_iff : Returns program base false ↔
    ∀ node ∈ fieldNodes program base, Ends program base node ∧ ¬Meets program base node := by
  constructor
  · rintro ⟨fuel, h⟩ node hnode
    rw [run_eq] at h
    exact sound_check.2 (anyM_eq_false_iff.mp h node hnode)
  · intro h
    obtain ⟨fuel, answer, hanswer⟩ := exists_anyM fun node hnode ↦ (h node hnode).1.exists_check
    cases answer with
    | false => exact ⟨fuel, by rw [run_eq, hanswer]⟩
    | true =>
      obtain ⟨before, child, after, heq, -, hchild⟩ := anyM_eq_true_iff.mp hanswer
      exact absurd (sound_check.1 hchild).meets (h child (heq ▸ by simp)).2

/-- The check decides whether a struct contains itself if and only if, for a struct that does, a
chain of the types it follows leads back to the struct and containment comes to an end below all
that is listed before the chain, and for a struct that does not, containment comes to an end below
every field and never meets the struct. -/
theorem decides_iff_ends_before (program : Program) (base : StructId) :
    Decides program base ↔
      (ContainsItself program base → FieldsMeetFirst program base) ∧
      (¬ContainsItself program base →
        ∀ node ∈ fieldNodes program base, Ends program base node ∧ ¬Meets program base node) := by
  rw [← returns_true_iff, ← returns_false_iff]
  constructor
  · rintro ⟨answer, hreturns, hanswer⟩
    refine ⟨fun hself ↦ ?_, fun hself ↦ ?_⟩
    · exact hanswer.mpr hself ▸ hreturns
    · cases answer with
      | true => exact absurd (hanswer.mp rfl) hself
      | false => exact hreturns
  · rintro ⟨hyes, hno⟩
    by_cases hself : ContainsItself program base
    · exact ⟨true, hyes hself, iff_of_true rfl hself⟩
    · exact ⟨false, hno hself, iff_of_false Bool.false_ne_true hself⟩

/-- A struct with a field of the struct `1`, which contains itself. -/
def beforeOther : Program
  | 0 => ⟨[], [.struct 1 []]⟩
  | 1 => ⟨[], [.struct 1 []]⟩
  | _ => ⟨[], []⟩

theorem not_decides_beforeOther : ¬Decides beforeOther 0 := by
  have hother : ∀ fuel parent, isRecursive beforeOther 0 fuel parent (.struct 1 []) = none := by
    intro fuel
    induction fuel with
    | zero => exact fun _ ↦ rfl
    | succ fuel ih =>
      intro parent
      rw [isRecursive, if_neg (by decide), beforeOther, anyM, ih]
      rfl
  rintro ⟨answer, ⟨fuel, h⟩, -⟩
  rw [run, beforeOther, anyM, hother] at h
  cases h

end Banjo.Sema.RecursiveStructs
