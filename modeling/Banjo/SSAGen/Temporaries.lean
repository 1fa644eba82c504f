import Mathlib.Data.List.Basic

/-!
# Temporary resources

Which calls return resources that are not moved, and where the code that is generated for a function
deinitialises them: after a call the deinitialisation is deferred to the end of a statement.
-/

open List

namespace Banjo.SSAGen.Temporaries

/-- A call in a function body. -/
abbrev CallId := ℕ

/-- An expression, by what is moved in it. -/
inductive RawExpr where
  | leaf
  -- Struct, tuple, array and union case literals move their operands.
  | literal (operands : List RawExpr)
  -- The operands of fields, indices, references, casts and coercions are not moved.
  | access (operands : List RawExpr)
  -- Other operators move their operands if they are moved.
  | operator (operands : List RawExpr)
  | andOr (lhs rhs : RawExpr)
  | call (id : CallId) (isResource : Bool) (callee : RawExpr) (args : List RawExpr)
  | tryExpr (value : RawExpr)
  -- An operator of a generic type.
  | placeholder (operands : List RawExpr)

/-- An expression after the analysis of resources. A temporary is a resource that is not moved. If
it is found by the analysis, the call is the value of a `DeinitExpr`. -/
inductive Expr where
  | node (operands : List Expr)
  | andOr (lhs rhs : Expr)
  | call (id : CallId) (isTemporary isDeinit : Bool) (operands : List Expr)
  | tryExpr (value : Expr)

mutual

/-- What is not visited by the analysis stays as it is. -/
def analyzeExpr (visited moving : Bool) : RawExpr → Expr
  | .leaf => .node []
  | .literal operands => .node (analyzeExprs visited true operands)
  | .access operands => .node (analyzeExprs visited false operands)
  | .operator operands => .node (analyzeExprs visited moving operands)
  | .andOr lhs rhs => .andOr (analyzeExpr visited moving lhs) (analyzeExpr visited moving rhs)
  | .call id isResource callee args =>
    .call id (isResource && !moving) (visited && (isResource && !moving))
      (analyzeExpr visited false callee :: analyzeExprs visited true args)
  | .tryExpr value => .tryExpr (analyzeExpr visited true value)
  | .placeholder operands => .node (analyzeExprs false false operands)

def analyzeExprs (visited moving : Bool) : List RawExpr → List Expr
  | [] => []
  | expr :: exprs => analyzeExpr visited moving expr :: analyzeExprs visited moving exprs

end

mutual

/-- The temporaries that an expression makes when all of it is evaluated, in order. -/
def temporaries : Expr → List CallId
  | .node operands => temporariesOf operands
  | .andOr lhs rhs => temporaries lhs ++ temporaries rhs
  | .call id isTemporary _ operands => temporariesOf operands ++ if isTemporary then [id] else []
  | .tryExpr value => temporaries value

def temporariesOf : List Expr → List CallId
  | [] => []
  | expr :: exprs => temporaries expr ++ temporariesOf exprs

end

/-! ## Code -/

inductive Event where
  | call (id : CallId)
  | deinit (id : CallId)
  -- The end of a statement with these temporaries.
  | endStmt (ids : List CallId)
  deriving DecidableEq

/-- The control flow of a function. -/
inductive Code where
  | skip
  | event (event : Event)
  | seq (first second : Code)
  | branch (ifTrue ifFalse : Code)
  | loop (condition block latch : Code)
  | ret
  | break_
  | continue_

/-- How a path leaves the code. -/
inductive Exit where
  | normal | ret | break_ | continue_
  deriving DecidableEq

/-- The paths through the code. Every branch may be taken. -/
inductive Run : Code → List Event → Exit → Prop
  | skip : Run .skip [] .normal
  | event (event : Event) : Run (.event event) [event] .normal
  | seq {first second : Code} {events events' : List Event} {exit : Exit}
      (hfirst : Run first events .normal) (hsecond : Run second events' exit) :
      Run (.seq first second) (events ++ events') exit
  | seqExit {first second : Code} {events : List Event} {exit : Exit}
    (hfirst : Run first events exit)
      (hexit : exit ≠ .normal) : Run (.seq first second) events exit
  | ifTrue {ifTrue ifFalse : Code} {events : List Event} {exit : Exit}
    (h : Run ifTrue events exit) :
      Run (.branch ifTrue ifFalse) events exit
  | ifFalse {ifTrue ifFalse : Code} {events : List Event} {exit : Exit}
    (h : Run ifFalse events exit) :
      Run (.branch ifTrue ifFalse) events exit
  | loopEnd {condition block latch : Code} {events : List Event}
      (hcondition : Run condition events .normal) : Run (.loop condition block latch) events .normal
  | loopCondition {condition block latch : Code} {events : List Event} {exit : Exit}
      (hcondition : Run condition events exit) (hexit : exit ≠ .normal) :
      Run (.loop condition block latch) events exit
  | loopBreak {condition block latch : Code} {events events' : List Event}
      (hcondition : Run condition events .normal) (hblock : Run block events' .break_) :
      Run (.loop condition block latch) (events ++ events') .normal
  | loopReturn {condition block latch : Code} {events events' : List Event}
      (hcondition : Run condition events .normal) (hblock : Run block events' .ret) :
      Run (.loop condition block latch) (events ++ events') .ret
  | loopLatch {condition block latch : Code} {events events' events'' : List Event}
    {exit exit' : Exit}
      (hcondition : Run condition events .normal) (hblock : Run block events' exit)
      (hexit : exit = .normal ∨ exit = .continue_) (hlatch : Run latch events'' exit')
      (hexit' : exit' ≠ .normal) :
      Run (.loop condition block latch) (events ++ (events' ++ events'')) exit'
  | loopAgain {condition block latch : Code} {events events' events'' rest : List Event}
      {exit exit' : Exit} (hcondition : Run condition events .normal)
        (hblock : Run block events' exit)
      (hexit : exit = .normal ∨ exit = .continue_) (hlatch : Run latch events'' .normal)
      (hrest : Run (.loop condition block latch) rest exit') :
      Run (.loop condition block latch) (events ++ (events' ++ (events'' ++ rest))) exit'
  | ret : Run .ret [] .ret
  | break_ : Run .break_ [] .break_
  | continue_ : Run .continue_ [] .continue_

/-! ## Generation -/

mutual

/-- The deferred deinitialisations are passed on. -/
def generateExpr : Expr → List CallId → Code × List CallId
  | .node operands, deferred => generateExprs operands deferred
  | .andOr lhs rhs, deferred =>
    let (lhs, deferred) := generateExpr lhs deferred
    let (rhs, deferred) := generateExpr rhs deferred
    (.seq lhs (.branch rhs .skip), deferred)
  | .call id isTemporary isDeinit operands, deferred =>
    let (code, deferred) := generateExprs operands deferred
    (if isTemporary then .seq code (.event (.call id)) else code,
      if isDeinit then deferred ++ [id] else deferred)
  | .tryExpr value, deferred =>
    let (code, deferred) := generateExpr value deferred
    -- A failure returns from the function.
    (.seq code (.branch .ret .skip), deferred)

def generateExprs : List Expr → List CallId → Code × List CallId
  | [], deferred => (.skip, deferred)
  | expr :: exprs, deferred =>
    let (code, deferred) := generateExpr expr deferred
    let (rest, deferred) := generateExprs exprs deferred
    (.seq code rest, deferred)

end

inductive Stmt where
  | varStmt (value : RawExpr)
  | assignStmt (lhs rhs : RawExpr)
  | returnStmt (value : RawExpr)
  -- The blocks of the conditions, and then that of `else`. Conditions that types decide are gone.
  | ifStmt (conditions : List RawExpr) (blocks : List (List Stmt))
  | switchStmt (value : RawExpr) (blocks : List (List Stmt))
  | loopStmt (condition : RawExpr) (block latch : List Stmt)
  | continueStmt
  | breakStmt
  -- The block, for every element of the sequence.
  | metaForStmt (range : RawExpr) (blocks : List (List Stmt))
  | exprStmt (expr : RawExpr)
  | blockStmt (block : List Stmt)

def generateDeinits : List CallId → Code
  | [] => .skip
  | id :: ids => .seq (.event (.deinit id)) (generateDeinits ids)

/-- What is deferred is deinitialised at the end of a statement that does not end with a jump. -/
def finishStmt (exprs : List Expr) (code : Code) (deferred : List CallId) :
    Code × List CallId × Bool :=
  (.seq code (.seq (generateDeinits deferred) (.event (.endStmt (temporariesOf exprs)))), [], false)

def generateSimpleStmt (exprs : List Expr) (deferred : List CallId) : Code × List CallId × Bool :=
  finishStmt exprs (generateExprs exprs deferred).1 (generateExprs exprs deferred).2

mutual

/-- The code, what is deferred after it and whether it ends with a jump. -/
def generateStmt (visited : Bool) : Stmt → List CallId → Code × List CallId × Bool
  | .varStmt value, deferred => generateSimpleStmt [analyzeExpr visited true value] deferred
  | .assignStmt lhs rhs, deferred =>
    generateSimpleStmt [analyzeExpr visited false lhs, analyzeExpr visited true rhs] deferred
  | .returnStmt value, deferred =>
    let value := analyzeExpr visited true value
    let (code, deferred) := generateExpr value deferred
    (.seq code (.seq (.event (.endStmt (temporaries value))) .ret), deferred, true)
  | .ifStmt conditions blocks, deferred =>
    let conditions := analyzeExprs visited true conditions
    let (code, deferred) := generateBranches visited conditions blocks deferred
    finishStmt conditions code deferred
  -- Switch statements are not visited by the analysis.
  | .switchStmt value blocks, deferred =>
    let value := analyzeExpr false false value
    let (code, deferred) := generateExpr value deferred
    let (rest, deferred) := generateCases blocks deferred
    finishStmt [value] (.seq code rest) deferred
  | .loopStmt condition block latch, deferred =>
    let condition := analyzeExpr visited false condition
    let (code, deferred) := generateExpr condition deferred
    let (block, deferred, _) := generateBlock visited block deferred
    let (latch, deferred, _) := generateBlock visited latch deferred
    finishStmt [condition] (.loop code block latch) deferred
  | .continueStmt, deferred => (.continue_, deferred, true)
  | .breakStmt, deferred => (.break_, deferred, true)
  -- Nor are the statements that are expanded for every element.
  | .metaForStmt range blocks, deferred =>
    let range := analyzeExpr false false range
    let (code, deferred) := generateExpr range deferred
    let (rest, deferred) := generateCopies range blocks deferred
    finishStmt [range] (.seq code rest) deferred
  | .exprStmt expr, deferred => generateSimpleStmt [analyzeExpr visited false expr] deferred
  | .blockStmt block, deferred =>
    match generateBlock visited block deferred with
    | (code, deferred, true) => (code, deferred, true)
    | (code, deferred, false) => finishStmt [] code deferred

/-- What follows a jump is not generated. -/
def generateBlock (visited : Bool) : List Stmt → List CallId → Code × List CallId × Bool
  | [], deferred => (.skip, deferred, false)
  | stmt :: stmts, deferred =>
    match generateStmt visited stmt deferred with
    | (code, deferred, true) => (code, deferred, true)
    | (code, deferred, false) =>
      let (rest, deferred, isBranching) := generateBlock visited stmts deferred
      (.seq code rest, deferred, isBranching)

def generateBranches (visited : Bool) : List Expr → List (List Stmt) → List CallId →
    Code × List CallId
  | _, [], deferred => (.skip, deferred)
  | [], elseBlock :: _, deferred =>
    let (code, deferred, _) := generateBlock visited elseBlock deferred
    (code, deferred)
  | condition :: conditions, block :: blocks, deferred =>
    let (condition, deferred) := generateExpr condition deferred
    let (block, deferred, _) := generateBlock visited block deferred
    let (rest, deferred) := generateBranches visited conditions blocks deferred
    (.seq condition (.branch block rest), deferred)

def generateCases : List (List Stmt) → List CallId → Code × List CallId
  | [], deferred => (.skip, deferred)
  | block :: blocks, deferred =>
    let (block, deferred, _) := generateBlock false block deferred
    let (rest, deferred) := generateCases blocks deferred
    (.branch block rest, deferred)

/-- The range is evaluated again for every element. -/
def generateCopies (range : Expr) : List (List Stmt) → List CallId → Code × List CallId
  | [], deferred => (.skip, deferred)
  | block :: blocks, deferred =>
    let (element, deferred) := generateExpr range deferred
    let (block, deferred, _) := generateBlock false block deferred
    let (rest, deferred) := generateCopies range blocks deferred
    (.seq element (.seq block rest), deferred)

end

/-- The code of a function body. -/
def generateBody (body : List Stmt) : Code := (generateBlock true body []).1

/-!
## Temporaries are deinitialised once

On every path, a temporary is deinitialised once and at the end of its statement, as long as the
statement goes on to its end whenever the temporary is made.
-/

/-! ## Paths -/

/-- The temporaries that are not deinitialised yet. At the end of a statement, none of its own is
left. -/
def step (live : List CallId) : Event → Option (List CallId)
  | .call id => some (live ++ [id])
  | .deinit id => if id ∈ live then some (live.erase id) else none
  | .endStmt ids => if ∀ id ∈ ids, id ∉ live then some live else none

/-- Every temporary is deinitialised exactly once, and nothing else is. -/
def Balanced (events : List Event) : Prop := events.foldlM step [] = some []

theorem balanced_nil : Balanced [] := rfl

variable {events : List Event}

theorem Balanced.append {events' : List Event} (h : Balanced events) (h' : Balanced events') :
    Balanced (events ++ events') := by
  rw [Balanced, foldlM_append, h]
  exact h'

theorem foldlM_call (live ids : List CallId) :
    (ids.map Event.call).foldlM step live = some (live ++ ids) := by
  induction ids generalizing live with
  | nil => simp
  | cons id ids ih =>
    rw [map_cons, foldlM_cons]
    change (ids.map Event.call).foldlM step (live ++ [id]) = _
    rw [ih, append_assoc, singleton_append]

variable (ids : List CallId)

theorem foldlM_deinit : (ids.map Event.deinit).foldlM step ids = some [] := by
  induction ids with
  | nil => rfl
  | cons id ids ih =>
    have hstep : step (id :: ids) (.deinit id) = some ids := by simp [step]
    rw [map_cons, foldlM_cons, hstep]
    exact ih

/-- What a statement with these temporaries does. -/
theorem balanced_stmt : Balanced (ids.map .call ++ (ids.map .deinit ++ [.endStmt ids])) := by
  rw [Balanced, foldlM_append, foldlM_call]
  change List.foldlM step ids _ = _
  rw [foldlM_append, foldlM_deinit]
  simp [step]

def BalancedCode (code : Code) : Prop := ∀ events exit, Run code events exit → Balanced events

section

variable {code first second condition block latch : Code}

theorem balancedCode_skip : BalancedCode .skip := by
  rintro _ _ ⟨⟩
  exact balanced_nil

theorem balancedCode_ret : BalancedCode .ret := by
  rintro _ _ ⟨⟩
  exact balanced_nil

theorem balancedCode_break : BalancedCode .break_ := by
  rintro _ _ ⟨⟩
  exact balanced_nil

theorem balancedCode_continue : BalancedCode .continue_ := by
  rintro _ _ ⟨⟩
  exact balanced_nil

/-- Without live temporaries, the end of a statement asks for nothing. -/
theorem balancedCode_endStmt (ids : List CallId) : BalancedCode (.event (.endStmt ids)) := by
  rintro _ _ ⟨⟩
  simp [Balanced, step]

theorem BalancedCode.seq (hfirst : BalancedCode first) (hsecond : BalancedCode second) :
    BalancedCode (.seq first second) := by
  intro events exit h
  cases h with
  | seq h h' => exact (hfirst _ _ h).append (hsecond _ _ h')
  | seqExit h _ => exact hfirst _ _ h

theorem BalancedCode.branch (hfirst : BalancedCode first) (hsecond : BalancedCode second) :
    BalancedCode (.branch first second) := by
  intro events exit h
  cases h with
  | ifTrue h => exact hfirst _ _ h
  | ifFalse h => exact hsecond _ _ h

/-- By induction on the number of rounds. -/
theorem BalancedCode.loop (hcondition : BalancedCode condition) (hblock : BalancedCode block)
    (hlatch : BalancedCode latch) : BalancedCode (.loop condition block latch) := by
  intro events exit h
  generalize hcode : Code.loop condition block latch = code at h
  induction h with
  | loopEnd h =>
    cases hcode
    exact hcondition _ _ h
  | loopCondition h _ =>
    cases hcode
    exact hcondition _ _ h
  | loopBreak h h' =>
    cases hcode
    exact (hcondition _ _ h).append (hblock _ _ h')
  | loopReturn h h' =>
    cases hcode
    exact (hcondition _ _ h).append (hblock _ _ h')
  | loopLatch h h' _ h'' _ =>
    cases hcode
    exact (hcondition _ _ h).append ((hblock _ _ h').append (hlatch _ _ h''))
  | loopAgain h h' _ h'' _ _ _ _ ih =>
    cases hcode
    exact (hcondition _ _ h).append ((hblock _ _ h').append ((hlatch _ _ h'').append (ih rfl)))
  | _ => cases hcode

end

/-! ## Expressions -/

mutual

/-- After the temporaries `before` of the statement, every temporary of the expression is made on
every path, each is found by the analysis, and no failure returns from the function after one is
made. -/
def SafeExpr (before : List CallId) : Expr → Prop
  | .node operands => SafeExprs before operands
  | .andOr lhs rhs =>
    SafeExpr before lhs ∧ SafeExpr (before ++ temporaries lhs) rhs ∧ temporaries rhs = []
  | .call _ isTemporary isDeinit operands => SafeExprs before operands ∧ isTemporary = isDeinit
  | .tryExpr value => SafeExpr before value ∧ before ++ temporaries value = []

def SafeExprs (before : List CallId) : List Expr → Prop
  | [] => True
  | expr :: exprs => SafeExpr before expr ∧ SafeExprs (before ++ temporaries expr) exprs

end

/-- The code makes the temporaries, or it returns before any is made. -/
def Evaluates (before ids : List CallId) (code : Code) : Prop :=
  ∀ events exit, Run code events exit →
    (exit = .normal ∧ events = ids.map .call) ∨ (exit = .ret ∧ events = [] ∧ before = [])

theorem evaluates_skip (before : List CallId) : Evaluates before [] .skip := by
  rintro _ _ ⟨⟩
  exact Or.inl ⟨rfl, rfl⟩

variable {before : List CallId} {first second : Code}

theorem Evaluates.seq {ids ids' : List CallId}
    (hfirst : Evaluates before ids first) (hsecond : Evaluates (before ++ ids) ids' second) :
    Evaluates before (ids ++ ids') (.seq first second) := by
  intro events exit h
  cases h with
  | seq h h' =>
    obtain ⟨-, rfl⟩ | ⟨hexit, -⟩ := hfirst _ _ h
    · obtain ⟨rfl, rfl⟩ | ⟨rfl, rfl, hbefore⟩ := hsecond _ _ h'
      · exact Or.inl ⟨rfl, by rw [map_append]⟩
      · obtain ⟨rfl, rfl⟩ := append_eq_nil_iff.mp hbefore
        exact Or.inr ⟨rfl, rfl, rfl⟩
    · cases hexit
  | seqExit h hexit =>
    obtain ⟨hnormal, -⟩ | hret := hfirst _ _ h
    · exact absurd hnormal hexit
    · exact Or.inr hret

theorem Evaluates.branch (hfirst : Evaluates before [] first)
    (hsecond : Evaluates before [] second) : Evaluates before [] (.branch first second) := by
  intro events exit h
  cases h with
  | ifTrue h => exact hfirst _ _ h
  | ifFalse h => exact hsecond _ _ h

theorem evaluates_call (before : List CallId) (id : CallId) :
    Evaluates before [id] (.event (.call id)) := by
  rintro _ _ ⟨⟩
  exact Or.inl ⟨rfl, rfl⟩

theorem evaluates_ret : Evaluates [] [] .ret := by
  rintro _ _ ⟨⟩
  exact Or.inr ⟨rfl, rfl, rfl⟩

variable {code : Code}

/-- Without temporaries, nothing happens at all. -/
theorem Evaluates.balancedCode (h : Evaluates before [] code) : BalancedCode code := by
  intro events exit hrun
  obtain ⟨-, rfl⟩ | ⟨-, rfl, -⟩ := h _ _ hrun
  · exact balanced_nil
  · exact balanced_nil

mutual

theorem generateExpr_spec (expr : Expr) (before deferred : List CallId) (h : SafeExpr before expr) :
    Evaluates before (temporaries expr) (generateExpr expr deferred).1 ∧
      (generateExpr expr deferred).2 = deferred ++ temporaries expr := by
  match expr with
  | .node operands =>
    rw [SafeExpr] at h
    rw [generateExpr, temporaries]
    exact generateExprs_spec operands before deferred h
  | .andOr lhs rhs =>
    rw [SafeExpr] at h
    obtain ⟨hlhs, hrhs, hnone⟩ := h
    obtain ⟨hrunLhs, hdeferredLhs⟩ := generateExpr_spec lhs before deferred hlhs
    obtain ⟨hrunRhs, hdeferredRhs⟩ :=
      generateExpr_spec rhs _ (generateExpr lhs deferred).2 hrhs
    rw [hnone] at hrunRhs hdeferredRhs
    rw [generateExpr, temporaries, hnone]
    refine ⟨hrunLhs.seq (hrunRhs.branch (evaluates_skip _)), ?_⟩
    dsimp only
    rw [hdeferredRhs, hdeferredLhs, append_nil, append_nil]
  | .call id isTemporary isDeinit operands =>
    rw [SafeExpr] at h
    obtain ⟨hoperands, rfl⟩ := h
    obtain ⟨hrun, hdeferred⟩ := generateExprs_spec operands before deferred hoperands
    rw [generateExpr, temporaries]
    cases isTemporary with
    | false => exact ⟨by simpa using hrun, by simpa using hdeferred⟩
    | true =>
      refine ⟨hrun.seq (evaluates_call _ id), ?_⟩
      dsimp only
      rw [if_pos rfl, if_pos rfl, hdeferred, append_assoc]
  | .tryExpr value =>
    rw [SafeExpr] at h
    obtain ⟨hvalue, hnone⟩ := h
    obtain ⟨rfl, hvalueNone⟩ := append_eq_nil_iff.mp hnone
    obtain ⟨hrun, hdeferred⟩ := generateExpr_spec value [] deferred hvalue
    rw [generateExpr, temporaries]
    rw [hvalueNone] at hrun hdeferred ⊢
    exact ⟨hrun.seq (evaluates_ret.branch (evaluates_skip _)), hdeferred⟩

theorem generateExprs_spec (exprs : List Expr) (before deferred : List CallId)
    (h : SafeExprs before exprs) :
    Evaluates before (temporariesOf exprs) (generateExprs exprs deferred).1 ∧
      (generateExprs exprs deferred).2 = deferred ++ temporariesOf exprs := by
  match exprs with
  | [] =>
    rw [generateExprs, temporariesOf, append_nil]
    exact ⟨evaluates_skip before, rfl⟩
  | expr :: exprs =>
    rw [SafeExprs] at h
    obtain ⟨hexpr, hexprs⟩ := h
    obtain ⟨hrunExpr, hdeferredExpr⟩ := generateExpr_spec expr before deferred hexpr
    obtain ⟨hrunExprs, hdeferredExprs⟩ :=
      generateExprs_spec exprs _ (generateExpr expr deferred).2 hexprs
    rw [generateExprs, temporariesOf]
    refine ⟨hrunExpr.seq hrunExprs, ?_⟩
    dsimp only
    rw [hdeferredExprs, hdeferredExpr, append_assoc]

end

/-! ## Statements -/

def NoTemporaries (expr : Expr) : Prop := SafeExpr [] expr ∧ temporaries expr = []

mutual

/-- Temporaries are made only in statements that go on to their end: not in returned values,
conditions and the statements that are not analyzed. -/
def SafeStmt (visited : Bool) : Stmt → Prop
  | .varStmt value => SafeExprs [] [analyzeExpr visited true value]
  | .assignStmt lhs rhs => SafeExprs [] [analyzeExpr visited false lhs,
    analyzeExpr visited true rhs]
  | .returnStmt value => NoTemporaries (analyzeExpr visited true value)
  | .ifStmt conditions blocks =>
    (∀ condition ∈ analyzeExprs visited true conditions, NoTemporaries condition) ∧
      SafeBlocks visited blocks
  | .switchStmt value blocks => NoTemporaries (analyzeExpr false false value) ∧
    SafeBlocks false blocks
  | .loopStmt condition block latch =>
    NoTemporaries (analyzeExpr visited false condition) ∧ SafeBlock visited block ∧
      SafeBlock visited latch
  | .continueStmt => True
  | .breakStmt => True
  | .metaForStmt range blocks => NoTemporaries (analyzeExpr false false range) ∧
    SafeBlocks false blocks
  | .exprStmt expr => SafeExprs [] [analyzeExpr visited false expr]
  | .blockStmt block => SafeBlock visited block

def SafeBlock (visited : Bool) : List Stmt → Prop
  | [] => True
  | stmt :: stmts => SafeStmt visited stmt ∧ SafeBlock visited stmts

def SafeBlocks (visited : Bool) : List (List Stmt) → Prop
  | [] => True
  | block :: blocks => SafeBlock visited block ∧ SafeBlocks visited blocks

end

theorem NoTemporaries.generate {expr : Expr} (h : NoTemporaries expr) :
    BalancedCode (generateExpr expr []).1 ∧ (generateExpr expr []).2 = [] := by
  obtain ⟨hrun, hdeferred⟩ := generateExpr_spec expr [] [] h.1
  rw [h.2] at hrun hdeferred
  exact ⟨hrun.balancedCode, hdeferred⟩

theorem evaluates_deinits {ids : List CallId} {exit : Exit}
    (h : Run (generateDeinits ids) events exit) : exit = .normal ∧ events = ids.map .deinit := by
  induction ids generalizing events with
  | nil =>
    cases h
    exact ⟨rfl, rfl⟩
  | cons id ids ih =>
    cases h with
    | seq h h' =>
      cases h
      obtain ⟨rfl, rfl⟩ := ih h'
      exact ⟨rfl, rfl⟩
    | seqExit h hexit =>
      cases h
      exact absurd rfl hexit

/-- The code leaves nothing behind that is not deinitialised. -/
def Finished (result : Code × List CallId × Bool) : Prop := BalancedCode result.1 ∧ result.2.1 = []

theorem finished_finishStmt (exprs : List Expr) {deferred : List CallId} (hcode : BalancedCode code)
    (hdeferred : deferred = []) : Finished (finishStmt exprs code deferred) := by
  subst hdeferred
  exact ⟨hcode.seq (balancedCode_skip.seq (balancedCode_endStmt _)), rfl⟩

theorem finished_simpleStmt {exprs : List Expr} (h : SafeExprs [] exprs) :
    Finished (generateSimpleStmt exprs []) := by
  obtain ⟨hrun, hdeferred⟩ := generateExprs_spec exprs [] [] h
  rw [nil_append] at hdeferred
  refine ⟨fun events exit hstmt ↦ ?_, rfl⟩
  rw [generateSimpleStmt, hdeferred] at hstmt
  cases hstmt with
  | seq hexprs hend =>
    obtain ⟨-, rfl⟩ | ⟨hexit, -⟩ := hrun _ _ hexprs
    · cases hend with
      | seq hdeinits hend =>
        obtain ⟨-, rfl⟩ := evaluates_deinits hdeinits
        cases hend
        exact balanced_stmt _
      | seqExit hdeinits hexit => exact absurd (evaluates_deinits hdeinits).1 hexit
    · cases hexit
  | seqExit hexprs hexit =>
    obtain ⟨hnormal, -⟩ | ⟨-, rfl, -⟩ := hrun _ _ hexprs
    · exact absurd hnormal hexit
    · exact balanced_nil

mutual

theorem finished_stmt (visited : Bool) (stmt : Stmt) (h : SafeStmt visited stmt) :
    Finished (generateStmt visited stmt []) := by
  match stmt with
  | .varStmt value =>
    rw [generateStmt]
    exact finished_simpleStmt h
  | .assignStmt lhs rhs =>
    rw [generateStmt]
    exact finished_simpleStmt h
  | .returnStmt value =>
    rw [SafeStmt] at h
    obtain ⟨hvalue, hdeferred⟩ := h.generate
    rw [generateStmt]
    exact ⟨hvalue.seq ((balancedCode_endStmt _).seq balancedCode_ret), hdeferred⟩
  | .ifStmt conditions blocks =>
    rw [SafeStmt] at h
    obtain ⟨hbranches, hdeferred⟩ := finished_branches visited blocks _ h.1 h.2
    rw [generateStmt]
    exact finished_finishStmt _ hbranches hdeferred
  | .switchStmt value blocks =>
    rw [SafeStmt] at h
    obtain ⟨hvalue, hdeferred⟩ := h.1.generate
    obtain ⟨hcases, hdeferred'⟩ := finished_cases blocks h.2
    rw [generateStmt]
    dsimp only
    rw [hdeferred]
    exact finished_finishStmt _ (hvalue.seq hcases) hdeferred'
  | .loopStmt condition block latch =>
    rw [SafeStmt] at h
    obtain ⟨hcondition, hdeferred⟩ := h.1.generate
    obtain ⟨hblock, hdeferredBlock⟩ := finished_block visited block h.2.1
    obtain ⟨hlatch, hdeferredLatch⟩ := finished_block visited latch h.2.2
    rw [generateStmt]
    dsimp only
    rw [hdeferred, hdeferredBlock]
    exact finished_finishStmt _ (hcondition.loop hblock hlatch) hdeferredLatch
  | .continueStmt => exact ⟨balancedCode_continue, rfl⟩
  | .breakStmt => exact ⟨balancedCode_break, rfl⟩
  | .metaForStmt range blocks =>
    rw [SafeStmt] at h
    obtain ⟨hrange, hdeferred⟩ := h.1.generate
    obtain ⟨hcopies, hdeferred'⟩ := finished_copies blocks h.1 h.2
    rw [generateStmt]
    dsimp only
    rw [hdeferred]
    exact finished_finishStmt _ (hrange.seq hcopies) hdeferred'
  | .exprStmt expr =>
    rw [generateStmt]
    exact finished_simpleStmt h
  | .blockStmt block =>
    rw [SafeStmt] at h
    have hblock := finished_block visited block h
    rw [generateStmt]
    split
    · rename_i heq
      rwa [heq] at hblock
    · rename_i heq
      rw [heq] at hblock
      exact finished_finishStmt _ hblock.1 hblock.2

theorem finished_block (visited : Bool) (stmts : List Stmt) (h : SafeBlock visited stmts) :
    Finished (generateBlock visited stmts []) := by
  match stmts with
  | [] => exact ⟨balancedCode_skip, rfl⟩
  | stmt :: stmts =>
    rw [SafeBlock] at h
    have hstmt := finished_stmt visited stmt h.1
    have hstmts := finished_block visited stmts h.2
    rw [generateBlock]
    split
    · rename_i heq
      rwa [heq] at hstmt
    · rename_i heq
      rw [heq] at hstmt
      obtain ⟨hcode, rfl⟩ := hstmt
      exact ⟨hcode.seq hstmts.1, hstmts.2⟩

theorem finished_branches (visited : Bool) (blocks : List (List Stmt)) (conditions : List Expr)
    (hconditions : ∀ condition ∈ conditions, NoTemporaries condition)
    (h : SafeBlocks visited blocks) :
    BalancedCode (generateBranches visited conditions blocks []).1 ∧
      (generateBranches visited conditions blocks []).2 = [] := by
  match blocks, conditions with
  | [], _ =>
    rw [generateBranches]
    exact ⟨balancedCode_skip, rfl⟩
  | elseBlock :: _, [] =>
    rw [SafeBlocks] at h
    rw [generateBranches]
    exact finished_block visited elseBlock h.1
  | block :: blocks, condition :: conditions =>
    rw [SafeBlocks] at h
    obtain ⟨hcondition, hdeferred⟩ := (hconditions condition mem_cons_self).generate
    obtain ⟨hblock, hdeferredBlock⟩ := finished_block visited block h.1
    obtain ⟨hrest, hdeferredRest⟩ := finished_branches visited blocks conditions
      (fun other hother ↦ hconditions other (mem_cons_of_mem _ hother)) h.2
    rw [generateBranches]
    dsimp only
    rw [hdeferred, hdeferredBlock]
    exact ⟨hcondition.seq (hblock.branch hrest), hdeferredRest⟩

theorem finished_cases (blocks : List (List Stmt)) (h : SafeBlocks false blocks) :
    BalancedCode (generateCases blocks []).1 ∧ (generateCases blocks []).2 = [] := by
  match blocks with
  | [] => exact ⟨balancedCode_skip, rfl⟩
  | block :: blocks =>
    rw [SafeBlocks] at h
    obtain ⟨hblock, hdeferred⟩ := finished_block false block h.1
    obtain ⟨hrest, hdeferredRest⟩ := finished_cases blocks h.2
    rw [generateCases]
    dsimp only
    rw [hdeferred]
    exact ⟨hblock.branch hrest, hdeferredRest⟩

theorem finished_copies {range : Expr} (blocks : List (List Stmt)) (hrange : NoTemporaries range)
    (h : SafeBlocks false blocks) :
    BalancedCode (generateCopies range blocks []).1 ∧ (generateCopies range blocks []).2 = [] := by
  match blocks with
  | [] => exact ⟨balancedCode_skip, rfl⟩
  | block :: blocks =>
    rw [SafeBlocks] at h
    obtain ⟨helement, hdeferredElement⟩ := hrange.generate
    obtain ⟨hblock, hdeferred⟩ := finished_block false block h.1
    obtain ⟨hrest, hdeferredRest⟩ := finished_copies blocks hrange h.2
    rw [generateCopies]
    dsimp only
    rw [hdeferredElement, hdeferred]
    exact ⟨helement.seq (hblock.seq hrest), hdeferredRest⟩

end

/-- On every path through the function, every temporary is deinitialised exactly once and before the
end of its statement, and nothing is deinitialised that is not made. -/
def DeinitsOnce (body : List Stmt) : Prop := BalancedCode (generateBody body)

section

/-- The field of a resource that a call returns. -/
private def fieldOfCall : RawExpr := .access [.call 0 true .leaf []]

end

end Banjo.SSAGen.Temporaries
