import Mathlib.Data.List.Basic

/-!
# The return checker

`ReturnChecker` classifies a block by the last block or `if` statement that it meets before a
statement that always returns: what was seen of earlier ones is overwritten, and loops and `switch`
statements are passed by. The paths through a block say what it should find. Both are recursions
over statements, and each fact about a list of statements is one about its head and its tail.
-/

open List

namespace Banjo.Sema

/-- A statement as it is when a function is checked: meta statements are expanded, `try` statements
are blocks with an `if` statement and `while` and `for` statements are loops. A missing latch is an
empty one. -/
inductive Stmt where
  | returnStmt
  | breakStmt
  | continueStmt
  | ifStmt (condBranches : List (List Stmt)) (elseBranch : Option (List Stmt))
  /-- Are the cases all those of the value's union? -/
  | switchStmt (caseBranches : List (List Stmt)) (exhaustive : Bool)
  | loopStmt (block latch : List Stmt)
  | block (stmts : List Stmt)
  /-- An expression, an assignment or the definition of a variable. -/
  | other

namespace ReturnChecker

inductive Result where
  | RETURNS_ALWAYS | RETURNS_SOMETIMES | RETURNS_NEVER
  deriving DecidableEq, Repr

open Result Stmt

/-! ## The checker -/

/-- `check_if_stmt_branch`, for the result of the branch: does every branch so far return, and has
any? -/
def checkIfStmtBranch : Result → Bool × Bool → Bool × Bool
  | RETURNS_ALWAYS, (returnsAlways, _) => (returnsAlways, true)
  | RETURNS_SOMETIMES, _ => (false, true)
  | RETURNS_NEVER, (_, hasAnyReturn) => (false, hasAnyReturn)

/-- What `check_if_stmt` returns at its end. -/
def ifResult : Bool × Bool → Result
  | (true, _) => RETURNS_ALWAYS
  | (false, true) => RETURNS_SOMETIMES
  | (false, false) => RETURNS_NEVER

mutual

/-- The loop over the statements of a block. -/
def checkStmts (result : Result) : List Stmt → Result
  | [] => result
  | stmt :: stmts =>
    if result = RETURNS_ALWAYS then result else checkStmts (checkStmt result stmt) stmts

/-- The result behind a statement. -/
def checkStmt (result : Result) : Stmt → Result
  | returnStmt => RETURNS_ALWAYS
  | block stmts => checkStmts RETURNS_NEVER stmts
  | ifStmt condBranches elseBranch =>
    ifResult (checkElse (checkBranches (true, false) condBranches) elseBranch)
  | _ => result

def checkBranches (state : Bool × Bool) : List (List Stmt) → Bool × Bool
  | [] => state
  | branch :: branches =>
    checkBranches (checkIfStmtBranch (checkStmts RETURNS_NEVER branch) state) branches

def checkElse (state : Bool × Bool) : Option (List Stmt) → Bool × Bool
  | some branch => checkIfStmtBranch (checkStmts RETURNS_NEVER branch) state
  | none => (false, state.2)

end

def check (block : List Stmt) : Result := checkStmts RETURNS_NEVER block

/-! ## Paths -/

/-- How a path leaves a statement. -/
inductive Exit where
  | falls | returns | breaks | continues
  deriving DecidableEq, Repr

open Exit

mutual

/-- The paths through a statement, with the way they leave it. A path may pass by a `switch`
statement if none of its cases need be that of the value, and always if `passing` is set. -/
inductive StmtPath (passing : Bool) : Stmt → Exit → Prop
  | other : StmtPath passing other falls
  | returnStmt : StmtPath passing returnStmt returns
  | breakStmt : StmtPath passing breakStmt breaks
  | continueStmt : StmtPath passing continueStmt continues
  | block {stmts e} : BlockPath passing stmts e → StmtPath passing (block stmts) e
  | ifBranch {condBranches elseBranch branch e} : branch ∈ condBranches →
      BlockPath passing branch e → StmtPath passing (ifStmt condBranches elseBranch) e
  | elseBranch {condBranches branch e} :
      BlockPath passing branch e → StmtPath passing (ifStmt condBranches (some branch)) e
  | noElse {condBranches} : StmtPath passing (ifStmt condBranches none) falls
  | caseBranch {caseBranches exhaustive branch e} : branch ∈ caseBranches →
      BlockPath passing branch e → StmtPath passing (switchStmt caseBranches exhaustive) e
  | noCase {caseBranches exhaustive} : passing = true ∨ exhaustive = false ∨ caseBranches = [] →
      StmtPath passing (switchStmt caseBranches exhaustive) falls
  | loopDone {body latch} : StmtPath passing (loopStmt body latch) falls
  | loopBreaks {body latch} :
      BlockPath passing body breaks → StmtPath passing (loopStmt body latch) falls
  | loopReturns {body latch} :
      BlockPath passing body returns → StmtPath passing (loopStmt body latch) returns
  | latchReturns {body latch e} : BlockPath passing body e → e = falls ∨ e = continues →
      BlockPath passing latch returns → StmtPath passing (loopStmt body latch) returns
  | loopAgain {body latch e e'} : BlockPath passing body e → e = falls ∨ e = continues →
      BlockPath passing latch falls → StmtPath passing (loopStmt body latch) e' →
      StmtPath passing (loopStmt body latch) e'

/-- The paths through the statements of a block. -/
inductive BlockPath (passing : Bool) : List Stmt → Exit → Prop
  | nil : BlockPath passing [] falls
  | exit {stmt stmts e} : StmtPath passing stmt e → e ≠ falls → BlockPath passing (stmt :: stmts) e
  | next {stmt stmts e} : StmtPath passing stmt falls → BlockPath passing stmts e →
      BlockPath passing (stmt :: stmts) e

end

mutual

/-- Is every `break` and `continue` of the statement inside a loop? -/
def closedStmt : Stmt → Prop
  | breakStmt => False
  | continueStmt => False
  | block stmts => closedStmts stmts
  | ifStmt condBranches elseBranch => closedBranches condBranches ∧ closedElse elseBranch
  | switchStmt caseBranches _ => closedBranches caseBranches
  | _ => True

def closedStmts : List Stmt → Prop
  | [] => True
  | stmt :: stmts => closedStmt stmt ∧ closedStmts stmts

def closedBranches : List (List Stmt) → Prop
  | [] => True
  | branch :: branches => closedStmts branch ∧ closedBranches branches

def closedElse : Option (List Stmt) → Prop
  | some branch => closedStmts branch
  | none => True

end

theorem closedBranches_iff (branches : List (List Stmt)) :
    closedBranches branches ↔ ∀ branch ∈ branches, closedStmts branch := by
  induction branches with
  | nil => simp [closedBranches]
  | cons branch branches ih => simp [closedBranches, ih]

mutual

theorem StmtPath.exit_of_closed {passing : Bool} {stmt : Stmt} {e : Exit} :
    StmtPath passing stmt e → closedStmt stmt → e = falls ∨ e = returns
  | .other, _ => .inl rfl
  | .returnStmt, _ => .inr rfl
  | .block h, hclosed => h.exit_of_closed (by simpa only [closedStmt] using hclosed)
  | .ifBranch hmem h, hclosed => by
    simp only [closedStmt] at hclosed
    exact h.exit_of_closed ((closedBranches_iff _).mp hclosed.1 _ hmem)
  | .elseBranch h, hclosed => by
    simp only [closedStmt, closedElse] at hclosed
    exact h.exit_of_closed hclosed.2
  | .noElse, _ => .inl rfl
  | .caseBranch hmem h, hclosed => by
    simp only [closedStmt] at hclosed
    exact h.exit_of_closed ((closedBranches_iff _).mp hclosed _ hmem)
  | .noCase _, _ => .inl rfl
  | .loopDone, _ => .inl rfl
  | .loopBreaks _, _ => .inl rfl
  | .loopReturns _, _ => .inr rfl
  | .latchReturns _ _ _, _ => .inr rfl
  | .loopAgain _ _ _ h, hclosed => h.exit_of_closed hclosed

theorem BlockPath.exit_of_closed {passing : Bool} {stmts : List Stmt} {e : Exit} :
    BlockPath passing stmts e → closedStmts stmts → e = falls ∨ e = returns
  | .nil, _ => .inl rfl
  | .exit h _, hclosed => by
    rw [closedStmts] at hclosed
    exact h.exit_of_closed hclosed.1
  | .next _ h, hclosed => by
    rw [closedStmts] at hclosed
    exact h.exit_of_closed hclosed.2

end

mutual

/-- Passing by more `switch` statements adds paths. -/
theorem StmtPath.passing {stmt : Stmt} {e : Exit} :
    StmtPath false stmt e → StmtPath true stmt e
  | .other => .other
  | .returnStmt => .returnStmt
  | .breakStmt => .breakStmt
  | .continueStmt => .continueStmt
  | .block h => .block h.passing
  | .ifBranch hmem h => .ifBranch hmem h.passing
  | .elseBranch h => .elseBranch h.passing
  | .noElse => .noElse
  | .caseBranch hmem h => .caseBranch hmem h.passing
  | .noCase _ => .noCase (.inl rfl)
  | .loopDone => .loopDone
  | .loopBreaks h => .loopBreaks h.passing
  | .loopReturns h => .loopReturns h.passing
  | .latchReturns h he h' => .latchReturns h.passing he h'.passing
  | .loopAgain h he h' h'' => .loopAgain h.passing he h'.passing h''.passing

theorem BlockPath.passing {stmts : List Stmt} {e : Exit} :
    BlockPath false stmts e → BlockPath true stmts e
  | .nil => .nil
  | .exit h he => .exit h.passing he
  | .next h h' => .next h.passing h'.passing

end

theorem BlockPath.cons {passing : Bool} {stmt : Stmt} {stmts : List Stmt} {e e' : Exit}
    (h : StmtPath passing stmt e) (h' : BlockPath passing stmts e') :
    ∃ e, BlockPath passing (stmt :: stmts) e := by
  by_cases he : e = falls
  · subst he
    exact ⟨e', .next h h'⟩
  · exact ⟨e, .exit h he⟩

mutual

theorem exists_stmtPath (passing : Bool) : ∀ stmt, ∃ e, StmtPath passing stmt e
  | other => ⟨_, .other⟩
  | returnStmt => ⟨_, .returnStmt⟩
  | breakStmt => ⟨_, .breakStmt⟩
  | continueStmt => ⟨_, .continueStmt⟩
  | block stmts => (exists_blockPath passing stmts).imp fun _ h ↦ .block h
  | ifStmt _ none => ⟨_, .noElse⟩
  | ifStmt _ (some branch) => (exists_blockPath passing branch).imp fun _ h ↦ .elseBranch h
  | switchStmt [] _ => ⟨_, .noCase (.inr (.inr rfl))⟩
  | switchStmt (branch :: _) _ =>
    (exists_blockPath passing branch).imp fun _ h ↦ .caseBranch mem_cons_self h
  | loopStmt _ _ => ⟨_, .loopDone⟩

theorem exists_blockPath (passing : Bool) : ∀ stmts, ∃ e, BlockPath passing stmts e
  | [] => ⟨_, .nil⟩
  | stmt :: stmts =>
    have ⟨_, h⟩ := exists_stmtPath passing stmt
    have ⟨_, h'⟩ := exists_blockPath passing stmts
    BlockPath.cons h h'

end

/-! ## Blocks that always return -/

def StmtAlways (passing : Bool) (stmt : Stmt) : Prop :=
  ∀ e, StmtPath passing stmt e → e = returns

/-- Every path through the block ends in a return. -/
def AlwaysReturns (passing : Bool) (stmts : List Stmt) : Prop :=
  ∀ e, BlockPath passing stmts e → e = returns

/-- Some path through the block ends in a return. -/
def CanReturn (stmts : List Stmt) : Prop := BlockPath false stmts returns

variable {passing : Bool}

theorem not_alwaysReturns_nil : ¬AlwaysReturns passing [] := fun h ↦ Exit.noConfusion (h _ .nil)

theorem alwaysReturns_cons_iff {stmt : Stmt} {stmts : List Stmt} (hstmt : closedStmt stmt) :
    AlwaysReturns passing (stmt :: stmts)
      ↔ StmtAlways passing stmt ∨ AlwaysReturns passing stmts := by
  constructor
  · intro h
    by_cases hfalls : StmtPath passing stmt falls
    · exact .inr fun e he ↦ h e (.next hfalls he)
    · refine .inl fun e he ↦ (he.exit_of_closed hstmt).resolve_left ?_
      rintro rfl
      exact hfalls he
  · rintro (h | h) e he
    · cases he with
      | exit hpath _ => exact h e hpath
      | next hpath _ => exact Exit.noConfusion (h _ hpath)
    · cases he with
      | exit hpath hne => exact (hpath.exit_of_closed hstmt).resolve_left hne
      | next _ hpath => exact h e hpath

theorem stmtAlways_block_iff {stmts : List Stmt} :
    StmtAlways passing (block stmts) ↔ AlwaysReturns passing stmts := by
  constructor
  · exact fun h e he ↦ h e (.block he)
  · rintro h e ⟨⟩
    exact h e ‹_›

theorem stmtAlways_ifStmt_iff {condBranches : List (List Stmt)} {elseBranch : Option (List Stmt)} :
    StmtAlways passing (ifStmt condBranches elseBranch) ↔
      (∀ branch ∈ condBranches, AlwaysReturns passing branch) ∧
        ∃ branch, elseBranch = some branch ∧ AlwaysReturns passing branch := by
  constructor
  · intro h
    refine ⟨fun branch hmem e he ↦ h e (.ifBranch hmem he), ?_⟩
    cases elseBranch with
    | none => exact Exit.noConfusion (h _ .noElse)
    | some branch => exact ⟨branch, rfl, fun e he ↦ h e (.elseBranch he)⟩
  · rintro ⟨hcond, branch, rfl, helse⟩ e he
    cases he with
    | ifBranch hmem hpath => exact hcond _ hmem e hpath
    | elseBranch hpath => exact helse e hpath

theorem not_stmtAlways_of_falls {stmt : Stmt} (h : StmtPath passing stmt falls) :
    ¬StmtAlways passing stmt := fun halways ↦ Exit.noConfusion (halways _ h)

/-! ### As the checker sees them -/

theorem ifResult_eq_always_iff (state : Bool × Bool) :
    ifResult state = RETURNS_ALWAYS ↔ state.1 = true := by
  obtain ⟨a, b⟩ := state
  cases a <;> cases b <;> simp [ifResult]

theorem checkIfStmtBranch_fst (result : Result) (state : Bool × Bool) :
    (checkIfStmtBranch result state).1 = true ↔ result = RETURNS_ALWAYS ∧ state.1 = true := by
  cases result <;> simp [checkIfStmtBranch]

mutual

theorem checkStmts_eq_always_iff (result : Result) : ∀ stmts, closedStmts stmts →
    (checkStmts result stmts = RETURNS_ALWAYS ↔ result = RETURNS_ALWAYS ∨ AlwaysReturns true stmts)
  | [], _ => by
    rw [checkStmts, or_iff_left not_alwaysReturns_nil]
  | stmt :: stmts, hclosed => by
    rw [closedStmts] at hclosed
    rw [checkStmts, alwaysReturns_cons_iff hclosed.1]
    by_cases hresult : result = RETURNS_ALWAYS
    · rw [if_pos hresult]
      exact iff_of_true hresult (.inl hresult)
    · rw [if_neg hresult, or_iff_right hresult,
        checkStmts_eq_always_iff (checkStmt result stmt) stmts hclosed.2,
        checkStmt_eq_always_iff hresult stmt hclosed.1]

theorem checkStmt_eq_always_iff {result : Result} (hresult : result ≠ RETURNS_ALWAYS) :
    ∀ stmt, closedStmt stmt → (checkStmt result stmt = RETURNS_ALWAYS ↔ StmtAlways true stmt)
  | returnStmt, _ => by
    refine iff_of_true (by rw [checkStmt]) ?_
    rintro e ⟨⟩
    rfl
  | block stmts, hclosed => by
    rw [closedStmt] at hclosed
    rw [checkStmt, stmtAlways_block_iff, checkStmts_eq_always_iff RETURNS_NEVER stmts hclosed]
    exact or_iff_right Result.noConfusion
  | ifStmt condBranches elseBranch, hclosed => by
    rw [closedStmt] at hclosed
    rw [checkStmt, stmtAlways_ifStmt_iff, ifResult_eq_always_iff,
      checkElse_fst_iff _ elseBranch hclosed.2, checkBranches_fst_iff _ condBranches hclosed.1]
    exact ⟨fun h ↦ ⟨h.2.2, h.1⟩, fun h ↦ ⟨h.2, rfl, h.1⟩⟩
  | breakStmt, hclosed => by simp only [closedStmt] at hclosed
  | continueStmt, hclosed => by simp only [closedStmt] at hclosed
  | other, _ => by
    rw [checkStmt.eq_def]
    exact iff_of_false hresult (not_stmtAlways_of_falls .other)
  | switchStmt _ _, _ => by
    rw [checkStmt.eq_def]
    exact iff_of_false hresult (not_stmtAlways_of_falls (.noCase (.inl rfl)))
  | loopStmt _ _, _ => by
    rw [checkStmt.eq_def]
    exact iff_of_false hresult (not_stmtAlways_of_falls .loopDone)

theorem checkBranches_fst_iff (state : Bool × Bool) : ∀ branches, closedBranches branches →
    ((checkBranches state branches).1 = true ↔
      state.1 = true ∧ ∀ branch ∈ branches, AlwaysReturns true branch)
  | [], _ => by simp [checkBranches]
  | branch :: branches, hclosed => by
    rw [closedBranches] at hclosed
    rw [checkBranches, checkBranches_fst_iff _ branches hclosed.2, checkIfStmtBranch_fst,
      checkStmts_eq_always_iff RETURNS_NEVER branch hclosed.1, forall_mem_cons,
      or_iff_right Result.noConfusion, and_comm (b := state.1 = true), and_assoc]

theorem checkElse_fst_iff (state : Bool × Bool) : ∀ elseBranch, closedElse elseBranch →
    ((checkElse state elseBranch).1 = true ↔
      (∃ branch, elseBranch = some branch ∧ AlwaysReturns true branch) ∧ state.1 = true)
  | none, _ => by simp [checkElse]
  | some branch, hclosed => by
    rw [closedElse] at hclosed
    rw [checkElse, checkIfStmtBranch_fst, checkStmts_eq_always_iff RETURNS_NEVER branch hclosed,
      or_iff_right Result.noConfusion]
    simp

end

/-! ## Returns that are seen -/

/-- Does the result of the statement replace that of the statements in front of it? -/
def overwrites : Stmt → Bool
  | block _ => true
  | ifStmt _ _ => true
  | _ => false

mutual

/-- The statement has a return outside of `switch` statements and loops, and it is seen in every
block around it. -/
inductive StmtSeen : Stmt → Prop
  | returnStmt : StmtSeen returnStmt
  | block {stmts} : Seen stmts → StmtSeen (block stmts)
  | ifBranch {condBranches elseBranch branch} :
      branch ∈ condBranches → Seen branch → StmtSeen (ifStmt condBranches elseBranch)
  | elseBranch {condBranches branch} : Seen branch → StmtSeen (ifStmt condBranches (some branch))

/-- A return in a statement of the block is seen if the statement always returns, or if neither a
block nor an `if` statement comes behind it. -/
inductive Seen : List Stmt → Prop
  | here {stmt stmts} : StmtSeen stmt →
      StmtAlways true stmt ∨ (∀ later ∈ stmts, overwrites later = false) → Seen (stmt :: stmts)
  | later {stmt stmts} : Seen stmts → Seen (stmt :: stmts)

end

theorem seen_cons_iff {stmt : Stmt} {stmts : List Stmt} : Seen (stmt :: stmts) ↔
    Seen stmts ∨ StmtSeen stmt ∧
      (StmtAlways true stmt ∨ ∀ later ∈ stmts, overwrites later = false) := by
  constructor
  · rintro (⟨hseen, hlater⟩ | hseen)
    · exact .inr ⟨hseen, hlater⟩
    · exact .inl hseen
  · rintro (hseen | ⟨hseen, hlater⟩)
    · exact .later hseen
    · exact .here hseen hlater

theorem ifResult_ne_never_iff (state : Bool × Bool) :
    ifResult state ≠ RETURNS_NEVER ↔ state.1 = true ∨ state.2 = true := by
  obtain ⟨a, b⟩ := state
  cases a <;> cases b <;> simp [ifResult]

theorem checkIfStmtBranch_snd (result : Result) (state : Bool × Bool) :
    (checkIfStmtBranch result state).2 = true ↔ result ≠ RETURNS_NEVER ∨ state.2 = true := by
  cases result <;> simp [checkIfStmtBranch]

/-- What the checker has found before it comes to a statement counts to the end of the block if
nothing replaces it. -/
theorem ne_never_step {result : Result} {stmt : Stmt} {stmts : List Stmt}
    (hresult : result ≠ RETURNS_ALWAYS) (hclosed : closedStmt stmt)
    (hstmt : ∀ result, result ≠ RETURNS_ALWAYS → (checkStmt result stmt ≠ RETURNS_NEVER ↔
      StmtSeen stmt ∨ result ≠ RETURNS_NEVER ∧ overwrites stmt = false)) :
    (Seen stmts ∨ checkStmt result stmt ≠ RETURNS_NEVER ∧
      (checkStmt result stmt = RETURNS_ALWAYS ∨ ∀ later ∈ stmts, overwrites later = false)) ↔
    Seen (stmt :: stmts) ∨ result ≠ RETURNS_NEVER ∧
      ∀ later ∈ stmt :: stmts, overwrites later = false := by
  have halways : StmtAlways true stmt → StmtSeen stmt := by
    intro h
    have hcheck : checkStmt RETURNS_NEVER stmt = RETURNS_ALWAYS :=
      (checkStmt_eq_always_iff (by decide) stmt hclosed).mpr h
    have hne : checkStmt RETURNS_NEVER stmt ≠ RETURNS_NEVER := by
      rw [hcheck]
      exact Result.noConfusion
    exact ((hstmt RETURNS_NEVER nofun).mp hne).resolve_right fun hnever ↦ hnever.1 rfl
  rw [seen_cons_iff, checkStmt_eq_always_iff hresult stmt hclosed, hstmt result hresult,
    forall_mem_cons]
  tauto

mutual

theorem checkStmts_ne_never_iff (result : Result) : ∀ stmts, closedStmts stmts →
    (checkStmts result stmts ≠ RETURNS_NEVER ↔ Seen stmts ∨ result ≠ RETURNS_NEVER ∧
      (result = RETURNS_ALWAYS ∨ ∀ later ∈ stmts, overwrites later = false))
  | [], _ => by
    have hnil : ¬Seen [] := nofun
    rw [checkStmts, or_iff_right hnil]
    simp
  | stmt :: stmts, hclosed => by
    rw [closedStmts] at hclosed
    rw [checkStmts]
    by_cases hresult : result = RETURNS_ALWAYS
    · subst hresult
      rw [if_pos rfl]
      exact iff_of_true nofun (.inr ⟨nofun, .inl rfl⟩)
    · rw [if_neg hresult, checkStmts_ne_never_iff _ stmts hclosed.2, or_iff_right hresult]
      exact ne_never_step hresult hclosed.1 fun result _ ↦
        checkStmt_ne_never_iff result stmt hclosed.1

theorem checkStmt_ne_never_iff (result : Result) : ∀ stmt, closedStmt stmt →
    (checkStmt result stmt ≠ RETURNS_NEVER ↔
      StmtSeen stmt ∨ result ≠ RETURNS_NEVER ∧ overwrites stmt = false)
  | returnStmt, _ => by
    rw [checkStmt]
    exact iff_of_true nofun (.inl .returnStmt)
  | block stmts, hclosed => by
    rw [closedStmt] at hclosed
    rw [checkStmt, checkStmts_ne_never_iff RETURNS_NEVER stmts hclosed]
    constructor
    · exact fun h ↦ .inl (.block (h.resolve_right fun hnever ↦ hnever.1 rfl))
    · rintro (h | ⟨-, ⟨⟩⟩)
      cases h with
      | block hseen => exact .inl hseen
  | ifStmt condBranches elseBranch, hclosed => by
    rw [closedStmt] at hclosed
    have hfst := checkElse_fst_iff (checkBranches (true, false) condBranches) elseBranch hclosed.2
    have hsnd := checkElse_snd_iff (checkBranches (true, false) condBranches) elseBranch hclosed.2
    rw [checkBranches_snd_iff _ condBranches hclosed.1] at hsnd
    rw [checkStmt, ifResult_ne_never_iff, hfst, hsnd]
    constructor
    · rintro (⟨⟨branch, rfl, halways⟩, -⟩ | (⟨⟨⟩⟩ | ⟨branch, hmem, hseen⟩) | ⟨branch, rfl, hseen⟩)
      · rw [closedElse] at hclosed
        have hcheck := (checkStmts_eq_always_iff RETURNS_NEVER branch hclosed.2).mpr (.inr halways)
        have hne : checkStmts RETURNS_NEVER branch ≠ RETURNS_NEVER := by
          rw [hcheck]
          exact Result.noConfusion
        rw [checkStmts_ne_never_iff RETURNS_NEVER branch hclosed.2] at hne
        exact .inl (.elseBranch (hne.resolve_right fun hnever ↦ hnever.1 rfl))
      · exact .inl (.ifBranch hmem hseen)
      · exact .inl (.elseBranch hseen)
    · rintro (h | ⟨-, ⟨⟩⟩)
      cases h with
      | ifBranch hmem hseen => exact .inr (.inl (.inr ⟨_, hmem, hseen⟩))
      | elseBranch hseen => exact .inr (.inr ⟨_, rfl, hseen⟩)
  | breakStmt, _ => by
    rw [checkStmt.eq_def]
    exact ⟨fun h ↦ .inr ⟨h, rfl⟩, fun h ↦ h.elim nofun And.left⟩
  | continueStmt, _ => by
    rw [checkStmt.eq_def]
    exact ⟨fun h ↦ .inr ⟨h, rfl⟩, fun h ↦ h.elim nofun And.left⟩
  | other, _ => by
    rw [checkStmt.eq_def]
    exact ⟨fun h ↦ .inr ⟨h, rfl⟩, fun h ↦ h.elim nofun And.left⟩
  | switchStmt _ _, _ => by
    rw [checkStmt.eq_def]
    exact ⟨fun h ↦ .inr ⟨h, rfl⟩, fun h ↦ h.elim nofun And.left⟩
  | loopStmt _ _, _ => by
    rw [checkStmt.eq_def]
    exact ⟨fun h ↦ .inr ⟨h, rfl⟩, fun h ↦ h.elim nofun And.left⟩

theorem checkBranches_snd_iff (state : Bool × Bool) : ∀ branches, closedBranches branches →
    ((checkBranches state branches).2 = true ↔ state.2 = true ∨ ∃ branch ∈ branches, Seen branch)
  | [], _ => by simp [checkBranches]
  | branch :: branches, hclosed => by
    rw [closedBranches] at hclosed
    rw [checkBranches, checkBranches_snd_iff _ branches hclosed.2, checkIfStmtBranch_snd,
      checkStmts_ne_never_iff RETURNS_NEVER branch hclosed.1, exists_mem_cons_iff]
    tauto

theorem checkElse_snd_iff (state : Bool × Bool) : ∀ elseBranch, closedElse elseBranch →
    ((checkElse state elseBranch).2 = true ↔
      state.2 = true ∨ ∃ branch, elseBranch = some branch ∧ Seen branch)
  | none, _ => by simp [checkElse]
  | some branch, hclosed => by
    rw [closedElse] at hclosed
    rw [checkElse, checkIfStmtBranch_snd, checkStmts_ne_never_iff RETURNS_NEVER branch hclosed]
    simp only [Option.some.injEq, exists_eq_left']
    tauto

end

mutual

/-- A return that is seen is on a path. -/
theorem StmtSeen.stmtPath {stmt : Stmt} :
    StmtSeen stmt → closedStmt stmt → StmtPath false stmt returns
  | .returnStmt, _ => .returnStmt
  | .block h, hclosed => .block (h.canReturn (by simpa only [closedStmt] using hclosed))
  | .ifBranch hmem h, hclosed => by
    simp only [closedStmt] at hclosed
    exact .ifBranch hmem (h.canReturn ((closedBranches_iff _).mp hclosed.1 _ hmem))
  | .elseBranch h, hclosed => by
    simp only [closedStmt, closedElse] at hclosed
    exact .elseBranch (h.canReturn hclosed.2)

theorem Seen.canReturn {stmts : List Stmt} : Seen stmts → closedStmts stmts → CanReturn stmts
  | .here h _, hclosed => by
    rw [closedStmts] at hclosed
    exact .exit (h.stmtPath hclosed.1) nofun
  | @Seen.later stmt _ h, hclosed => by
    rw [closedStmts] at hclosed
    obtain ⟨e, he⟩ := exists_stmtPath false stmt
    obtain rfl | rfl := he.exit_of_closed hclosed.1
    · exact .next he (h.canReturn hclosed.2)
    · exact .exit he nofun

end

/-! ## The classification -/

/-- The checker classifies the block as its paths do. -/
structure Classifies (stmts : List Stmt) : Prop where
  always : check stmts = RETURNS_ALWAYS ↔ AlwaysReturns false stmts
  never : check stmts = RETURNS_NEVER ↔ ¬CanReturn stmts
  sometimes : check stmts = RETURNS_SOMETIMES ↔ ¬AlwaysReturns false stmts ∧ CanReturn stmts

theorem classifies_iff {stmts : List Stmt} (hclosed : closedStmts stmts) :
    Classifies stmts ↔ (AlwaysReturns false stmts → AlwaysReturns true stmts) ∧
      (CanReturn stmts → Seen stmts) := by
  have halways : check stmts = RETURNS_ALWAYS ↔ AlwaysReturns true stmts := by
    rw [check, checkStmts_eq_always_iff RETURNS_NEVER stmts hclosed]
    exact or_iff_right Result.noConfusion
  have hnever : check stmts = RETURNS_NEVER ↔ ¬Seen stmts := by
    have hne := checkStmts_ne_never_iff RETURNS_NEVER stmts hclosed
    rw [or_iff_left fun hnever ↦ hnever.1 rfl] at hne
    exact (not_iff_comm.mp hne).symm
  have hpassing : AlwaysReturns true stmts → AlwaysReturns false stmts :=
    fun h e he ↦ h e he.passing
  have hseen : Seen stmts → CanReturn stmts := fun h ↦ h.canReturn hclosed
  constructor
  · rintro ⟨h, h', -⟩
    rw [halways] at h
    rw [hnever, not_iff_not] at h'
    exact ⟨h.mpr, h'.mpr⟩
  · rintro ⟨h, h'⟩
    have halways' : check stmts = RETURNS_ALWAYS ↔ AlwaysReturns false stmts :=
      halways.trans ⟨hpassing, h⟩
    have hnever' : check stmts = RETURNS_NEVER ↔ ¬CanReturn stmts :=
      hnever.trans (not_congr ⟨hseen, h'⟩)
    refine ⟨halways', hnever', ?_⟩
    rw [← halways', ← not_iff_comm.mp hnever'.symm]
    cases check stmts <;> simp

/-- A branch that returns, and then a return. -/
def returnsTwice : List Stmt := [ifStmt [[returnStmt]] none, returnStmt]

theorem classifies_iff_returnsTwice : closedStmts returnsTwice ∧
    (Classifies returnsTwice ↔
      (AlwaysReturns false returnsTwice → AlwaysReturns true returnsTwice) ∧
        (CanReturn returnsTwice → Seen returnsTwice)) := by
  have hclosed : closedStmts returnsTwice := by
    simp [returnsTwice, closedStmts, closedStmt, closedBranches, closedElse]
  exact ⟨hclosed, classifies_iff hclosed⟩

/-- A branch that returns, and then an `if` statement without a return. -/
def overwritten : List Stmt := [ifStmt [[returnStmt]] none, ifStmt [[other]] none]

theorem not_classifies_overwritten : ¬Classifies overwritten := by
  intro h
  have hcheck : check overwritten = RETURNS_NEVER := by decide
  exact h.never.mp hcheck
    (.exit (.ifBranch mem_cons_self (.exit .returnStmt nofun)) nofun)

end ReturnChecker

end Banjo.Sema
