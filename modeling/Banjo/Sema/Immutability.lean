import Banjo.Sema.ExprAnalyzer

/-!
# Immutable references

Assignments, pointers and coercions to mutable references are checked wherever they are formed. A
`ref mut` expression is not, nor is a method called on a generic type, and no check looks behind a
mutable reference.
-/

open List

namespace Banjo.Sema.AccessCheck

/-! ## What an analysis keeps -/

def AccessKind.isChecked : AccessKind → Bool
  | ASSIGN | POINTER | COERCION => true
  | REF_MUT | GENERIC_SELF | POINTER_TO => false

/-- The accesses that are checked are to places that the analyzer takes for mutable. -/
def Checked (accesses : List Access) : Prop :=
  ∀ access ∈ accesses, access.kind.isChecked → analyzeMutability access.operand ≠ .IMMUTABLE_REF

def Keeps {α : Type} (m : AnalyzerM α) : Prop :=
  ∀ s a t, m s = some (a, t) → Checked s → Checked t

variable {accesses : List Access}

theorem Checked.append (h : Checked accesses) {access : Access}
    (haccess : access.kind.isChecked → analyzeMutability access.operand ≠ .IMMUTABLE_REF) :
    Checked (accesses ++ [access]) := by
  intro other hother
  obtain hother | hother := mem_append.mp hother
  · exact h other hother
  · rw [mem_singleton.mp hother]
    exact haccess

variable {α : Type}

theorem keeps_pure (a : α) : Keeps (pure a : AnalyzerM α) := by
  intro s a' t h hs
  cases h
  exact hs

theorem keeps_failure : Keeps (failure : AnalyzerM α) := by
  intro s a t h
  cases h

theorem Keeps.bind {β : Type} {m : AnalyzerM α} {f : α → AnalyzerM β} (hm : Keeps m)
    (hf : ∀ a, Keeps (f a)) : Keeps (m >>= f) := by
  intro s b t h hs
  obtain ⟨⟨a, u⟩, hfirst, hrest⟩ := Option.bind_eq_some_iff.mp h
  exact hf a u b t hrest (hm s a u hfirst hs)

theorem keeps_form {kind : AccessKind} (hkind : kind.isChecked = false) (operand : Expr) :
    Keeps (form kind operand) := by
  intro s a t h hs
  cases h
  refine hs.append fun hchecked ↦ ?_
  rw [hkind] at hchecked
  cases hchecked

theorem keeps_checkMutable (kind : AccessKind) (operand : Expr) :
    Keeps (checkMutable kind operand) := by
  unfold checkMutable
  split_ifs with himmutable
  · exact keeps_failure
  · intro s a t h hs
    cases h
    exact hs.append fun _ ↦ himmutable

/-! ## Coercions -/

variable (env : Env)

variable (expr : Expr)

theorem keeps_convert (expected : SType) : Keeps (convert env expr expected) := by
  unfold convert
  split
  · exact keeps_pure _
  · exact keeps_pure _
  · exact keeps_failure

theorem keeps_finalizeByCoercion (expected : SType) :
    Keeps (finalizeByCoercion env expr expected) := by
  induction expected with
  | reference mut_ base ih =>
    unfold finalizeByCoercion
    by_cases htype : expr.type = .reference mut_ base
    · rw [if_pos htype]
      exact keeps_pure _
    · rw [if_neg htype]
      split
      · exact keeps_pure _
      · refine ih.bind fun value ↦ ?_
        cases mut_ with
        | false => exact keeps_pure _
        | true => exact (keeps_checkMutable _ _).bind fun _ ↦ keeps_pure _
  | _ =>
    unfold finalizeByCoercion
    split_ifs
    · exact keeps_pure _
    · exact keeps_convert env _ _

variable (args : List Expr)

theorem keeps_finalizeCallExprArgs (params : List SType) :
    Keeps (finalizeCallExprArgs env args params) := by
  induction args generalizing params with
  | nil =>
    cases params with
    | nil => exact keeps_pure _
    | cons param params => exact keeps_failure
  | cons arg args ih =>
    cases params with
    | nil => exact keeps_failure
    | cons param params =>
      refine (keeps_finalizeByCoercion env arg param).bind fun _ ↦ ?_
      exact (ih params).bind fun _ ↦ keeps_pure _

theorem keeps_finalizeOperands (operands : List Expr) (expected : List (Option SType)) :
    Keeps (finalizeOperands env operands expected) := by
  induction operands generalizing expected with
  | nil => exact keeps_pure _
  | cons operand operands ih =>
    cases expected with
    | nil => exact (ih []).bind fun _ ↦ keeps_pure _
    | cons type expected =>
      cases type with
      | none => exact (ih expected).bind fun _ ↦ keeps_pure _
      | some type =>
        refine (keeps_finalizeByCoercion env operand type).bind fun _ ↦ ?_
        exact (ih expected).bind fun _ ↦ keeps_pure _

/-! ## Expressions and statements -/

theorem keeps_analyzeCall (signature : Option Signature) :
    Keeps (analyzeCall env args signature) := by
  cases signature with
  | none => exact keeps_failure
  | some signature => exact (keeps_finalizeCallExprArgs env args _).bind fun _ ↦ keeps_pure _

variable (lhs : Expr) (rhs : String)

theorem keeps_analyzeMethodCall (args : List Expr) :
    Keeps (analyzeMethodCall env lhs rhs args) := by
  unfold analyzeMethodCall
  split
  · split
    · dsimp only
      split_ifs
      · refine (keeps_form rfl _).bind fun _ ↦ ?_
        exact (keeps_finalizeCallExprArgs env _ _).bind fun _ ↦ keeps_pure _
      · exact (keeps_finalizeCallExprArgs env _ _).bind fun _ ↦ keeps_pure _
    · exact keeps_failure
  · exact keeps_analyzeCall env _ _

theorem keeps_analyzeBracket (index : Expr) : Keeps (analyzeBracket env lhs index) := by
  unfold analyzeBracket
  split
  · exact keeps_pure _
  · exact keeps_pure _
  · split_ifs
    · exact keeps_analyzeCall env _ _
    · exact keeps_analyzeCall env _ _
  · exact keeps_failure

theorem keeps_analyzeStar (value : Expr) : Keeps (analyzeStar env value) := by
  unfold analyzeStar
  split
  · exact keeps_analyzeCall env _ _
  · exact keeps_pure _
  · exact keeps_pure _
  · exact keeps_failure

theorem keeps_analyzeDot : Keeps (analyzeDot env lhs rhs) := by
  unfold analyzeDot
  dsimp only
  split
  · exact keeps_pure _
  · exact keeps_failure

mutual

theorem keeps_analyzeUncoerced : ∀ raw : RawExpr, Keeps (analyzeUncoerced env raw)
  | .ident _ _ => by
    rw [analyzeUncoerced]
    exact keeps_pure _
  | .star value => by
    rw [analyzeUncoerced]
    refine (keeps_analyzeUncoerced value).bind fun _ ↦ ?_
    exact (keeps_analyzeStar env _).bind fun _ ↦ keeps_pure _
  | .dot lhs _ => by
    rw [analyzeUncoerced]
    refine (keeps_analyzeUncoerced lhs).bind fun _ ↦ ?_
    exact (keeps_analyzeDot env _ _).bind fun _ ↦ keeps_pure _
  | .bracket lhs index => by
    rw [analyzeUncoerced]
    refine (keeps_analyzeUncoerced lhs).bind fun _ ↦ (keeps_analyzeUncoerced index).bind fun _ ↦ ?_
    exact (keeps_analyzeBracket env _ _).bind fun _ ↦ keeps_pure _
  | .addr value => by
    rw [analyzeUncoerced]
    refine (keeps_analyzeUncoerced value).bind fun _ ↦ ?_
    exact (keeps_checkMutable _ _).bind fun _ ↦ keeps_pure _
  | .ref value => by
    rw [analyzeUncoerced]
    exact (keeps_analyzeUncoerced value).bind fun _ ↦ keeps_pure _
  | .refMut value => by
    rw [analyzeUncoerced]
    refine (keeps_analyzeUncoerced value).bind fun _ ↦ ?_
    exact (keeps_form rfl _).bind fun _ ↦ keeps_pure _
  | .call callee args _ => by
    rw [analyzeUncoerced]
    refine (keeps_analyzeUncoerced callee).bind fun _ ↦ (keeps_analyzeList args).bind fun _ ↦ ?_
    exact (keeps_analyzeCall env _ _).bind fun _ ↦ keeps_pure _
  | .methodCall lhs _ args => by
    rw [analyzeUncoerced]
    refine (keeps_analyzeUncoerced lhs).bind fun _ ↦ (keeps_analyzeList args).bind fun _ ↦ ?_
    exact (keeps_analyzeMethodCall env _ _ _).bind fun _ ↦ keeps_pure _
  | .pointerTo value => by
    rw [analyzeUncoerced]
    refine (keeps_analyzeUncoerced value).bind fun _ ↦ ?_
    exact (keeps_form rfl _).bind fun _ ↦ keeps_pure _
  | .value operands _ _ => by
    rw [analyzeUncoerced]
    refine (keeps_analyzeList operands).bind fun _ ↦ ?_
    exact (keeps_finalizeOperands env _ _).bind fun _ ↦ keeps_pure _

theorem keeps_analyzeList : ∀ raws : List RawExpr, Keeps (analyzeList env raws)
  | [] => by
    rw [analyzeList]
    exact keeps_pure _
  | raw :: raws => by
    rw [analyzeList]
    refine (keeps_analyzeUncoerced raw).bind fun _ ↦ ?_
    exact (keeps_analyzeList raws).bind fun _ ↦ keeps_pure _

end

theorem keeps_analyzeValue (raw : RawExpr) (expected : SType) :
    Keeps (analyzeValue env raw expected) :=
  (keeps_analyzeUncoerced env raw).bind fun _ ↦ keeps_finalizeByCoercion env _ _

theorem keeps_analyzeVarStmt (type : Option SType) (value : Option RawExpr) :
    Keeps (analyzeVarStmt env type value) := by
  unfold analyzeVarStmt
  split
  · exact keeps_pure _
  · exact (keeps_analyzeValue env _ _).bind fun _ ↦ keeps_pure _
  · exact (keeps_analyzeUncoerced env _).bind fun _ ↦ keeps_pure _

theorem keeps_analyzeRefStmt (mut_ : Bool) (value : RawExpr) :
    Keeps (analyzeRefStmt env mut_ value) := by
  refine (keeps_analyzeUncoerced env value).bind fun _ ↦ ?_
  exact (keeps_finalizeByCoercion env _ _).bind fun _ ↦ keeps_pure _

theorem keeps_analyzeAssignStmt (lhs rhs : RawExpr) : Keeps (analyzeAssignStmt env lhs rhs) := by
  refine (keeps_analyzeUncoerced env lhs).bind fun _ ↦ (keeps_checkMutable _ _).bind fun _ ↦ ?_
  exact (keeps_analyzeValue env _ _).bind fun _ ↦ keeps_pure _

mutual

theorem keeps_analyzeStmt : ∀ stmt : RawStmt, Keeps (analyzeStmt env stmt)
  | .varStmt type value => by
    rw [analyzeStmt]
    exact keeps_analyzeVarStmt env type value
  | .refStmt mut_ value => by
    rw [analyzeStmt]
    exact keeps_analyzeRefStmt env mut_ value
  | .assignStmt lhs rhs => by
    rw [analyzeStmt]
    exact keeps_analyzeAssignStmt env lhs rhs
  | .compAssignStmt lhs rhs type => by
    rw [analyzeStmt]
    exact keeps_analyzeAssignStmt env lhs _
  | .returnStmt value returnType => by
    rw [analyzeStmt]
    exact keeps_analyzeVarStmt env _ value
  | .ifStmt condition block elseBlock => by
    rw [analyzeStmt]
    refine (keeps_analyzeUncoerced env condition).bind fun _ ↦ ?_
    exact (keeps_analyzeBlock block).bind fun _ ↦ keeps_analyzeBlock elseBlock
  | .switchStmt value branches => by
    rw [analyzeStmt]
    exact (keeps_analyzeUncoerced env value).bind fun _ ↦ keeps_analyzeBlock branches
  | .loopStmt condition block latch => by
    rw [analyzeStmt]
    refine (keeps_analyzeUncoerced env condition).bind fun _ ↦ ?_
    exact (keeps_analyzeBlock block).bind fun _ ↦ keeps_analyzeBlock latch
  | .exprStmt expr => by
    rw [analyzeStmt]
    exact (keeps_analyzeUncoerced env expr).bind fun _ ↦ keeps_pure _
  | .blockStmt block => by
    rw [analyzeStmt]
    exact keeps_analyzeBlock block

theorem keeps_analyzeBlock : ∀ block : List RawStmt, Keeps (analyzeBlock env block)
  | [] => by
    rw [analyzeBlock]
    exact keeps_pure _
  | stmt :: stmts => by
    rw [analyzeBlock]
    exact (keeps_analyzeStmt stmt).bind fun _ ↦ keeps_analyzeBlock stmts

end

theorem checked_analyzeBody {body : List RawStmt}
    (h : analyzeBody env body = some accesses) : Checked accesses := by
  obtain ⟨⟨_, t⟩, hrun, rfl⟩ := Option.map_eq_some_iff.mp h
  exact keeps_analyzeBlock env body _ _ _ hrun nofun

/-! ## Soundness -/

/-- Nothing that is reached through an immutable reference can be written. -/
def Sound (accesses : List Access) : Prop :=
  ∀ access ∈ accesses, access.kind ≠ .POINTER_TO → ¬Immutable access.operand

/-- In every accepted body, exactly two kinds of accesses are to be looked after, and mutable
references in places that are reached through immutable ones. -/
theorem sound_iff {body : List RawStmt} {accesses : List Access}
    (h : analyzeBody env body = some accesses) :
    Sound accesses ↔
      ∀ access ∈ accesses,
        (access.kind = .REF_MUT ∨ access.kind = .GENERIC_SELF → ¬Immutable access.operand) ∧
          (access.kind.isChecked → ¬Nested access.operand) := by
  have hchecked := checked_analyzeBody env h
  constructor
  · intro hsound access haccess
    refine ⟨fun hkind ↦ hsound access haccess ?_,
      fun hkind hnested ↦ hsound access haccess ?_ hnested.immutable⟩
    · rintro hpointer
      rw [hpointer] at hkind
      obtain hkind | hkind := hkind <;> cases hkind
    · rintro hpointer
      rw [hpointer] at hkind
      cases hkind
  · intro hcondition access haccess hkind himmutable
    obtain ⟨hunchecked, hnested⟩ := hcondition access haccess
    cases hisChecked : access.kind.isChecked with
    -- A checked access is wrong only where the check itself does not look.
    | true =>
      obtain hmutability | hnested' := (immutable_iff _).mp himmutable
      · exact hchecked access haccess hisChecked hmutability
      · exact hnested hisChecked hnested'
    | false =>
      refine hunchecked ?_ himmutable
      cases hkind' : access.kind with
      | REF_MUT => exact Or.inl rfl
      | GENERIC_SELF => exact Or.inr rfl
      | POINTER_TO => exact absurd hkind' hkind
      | _ =>
        rw [hkind'] at hisChecked
        cases hisChecked

section

/-- Structs have one field, `x`. -/
private def oneField : Env where
  findField _ _ := some (0, .primitive 0)
  method _ _ := none
  genericMethod _ _ := none
  opDeref _ := none
  opIndex _ := none
  opMutIndex _ := none
  conversion _ _ := none

/-- `x` of a parameter that is a reference to a struct. -/
private def fieldOfParam (mut_ : Bool) : RawExpr :=
  .dot (.ident 0 (.reference mut_ (.struct_ 0))) "x"

private def mutablePlace : Expr :=
  .fieldExpr (.deref (.symbolExpr 0 (.reference true (.struct_ 0))) (.struct_ 0)) 0 (.primitive 0)

private theorem not_immutable_mutablePlace : ¬Immutable mutablePlace := by
  intro h
  cases h with
  | field hbase =>
    cases hbase with
    | deref htype => cases htype
    | nested _ hvalue => cases hvalue

/-- `p.x = …`, `&p.x` and a coercion of `p.x` are fine for a mutable reference. -/
theorem sound_mutableParam :
    ∃ accesses, analyzeBody oneField [.assignStmt (fieldOfParam true) (.value [] [] (.primitive 0)),
        .varStmt none (some (.addr (fieldOfParam true))), .refStmt true (fieldOfParam true)] =
          some accesses ∧ Sound accesses := by
  have hnested : ¬Nested mutablePlace := fun h ↦ not_immutable_mutablePlace h.immutable
  have hbody : analyzeBody oneField
      [.assignStmt (fieldOfParam true) (.value [] [] (.primitive 0)),
        .varStmt none (some (.addr (fieldOfParam true))), .refStmt true (fieldOfParam true)] =
      some [⟨.ASSIGN, mutablePlace⟩, ⟨.POINTER, mutablePlace⟩, ⟨.COERCION, mutablePlace⟩] := rfl
  refine ⟨_, hbody, (sound_iff oneField hbody).mpr fun access haccess ↦ ?_⟩
  have hoperand : access.operand = mutablePlace := by
    simp only [mem_cons, not_mem_nil, or_false] at haccess
    obtain rfl | rfl | rfl := haccess <;> rfl
  rw [hoperand]
  exact ⟨fun _ ↦ not_immutable_mutablePlace, fun _ ↦ hnested⟩

/-- `ref mut p.x` is accepted for an immutable reference. -/
theorem not_sound_refMut :
    ∃ accesses, analyzeBody oneField [.varStmt none (some (.refMut (fieldOfParam false)))] =
      some accesses ∧ ¬Sound accesses :=
  ⟨_, rfl, fun h ↦ h _ (mem_singleton_self _) (by decide) (.field (.deref rfl))⟩

end

end Banjo.Sema.AccessCheck
