import Banjo.Lexer.Lexemes
import Banjo.Parser.StmtProgress

/-!
# The parser ends

With fuel for twice the number of tokens, the parser returns a module for every list of tokens. A
round of a block reads a token, resets the flag that keeps the recovery away, or ends the block; the
flag can only be reset once in between.
-/

set_option mvcgen.warning false

namespace Banjo.Parser

open Std.Do TokenStream TokenType ASTNodeType

variable {input : Input} {sub : Subparsers} {n : ℕ}
  (hfuel : 2 * input.tokens.length + 1 < input.fuel)

section Children

variable {s₀ : State} {p : ParserM ParseResult}

theorem readsChild_of_lt (h : Advances s₀ p) :
    Yields s₀ p fun r s ↦ ReadsChild input s₀ r.isValid s := by
  mvcgen [h]
  all_goals grind [ReadsChild]

theorem readsChild_of_reads
    (hat : (input.current s₀).type ≠ TKN_EOF → ¬isRecoveryPoint (input.current s₀).type)
    (h : ReadsOrFails s₀ p) : Yields s₀ p fun r s ↦ ReadsChild input s₀ r.isValid s := by
  mvcgen [h]
  all_goals grind [ReadsChild, Reads]

end Children

section Level

variable (hsub : sub.Ends input n) (s₀ : State) (hn : input.rest s₀ ≤ n)

include hfuel hsub hn

/-! ## Parameters -/

variable (node : NodeBuilder)

theorem parseParamType_spec (type : ASTNodeType) :
    NeverBack s₀ (parseParamType input sub node type) := by
  have htype := ExprParser.parseType_spec hfuel hsub
  mvcgen [parseParamType, htype]
  all_goals grind [Reads]

theorem parseParamRest_spec (isMut : Bool) :
    NeverBack s₀ (parseParamRest input sub node isMut) := by
  have htype := parseParamType_spec hfuel hsub
  refine of_weaker fun Q hQ ↦ ?_
  mvcgen [parseParamRest, htype]
  all_goals grind [Input.rest, Keeps]

omit hn in
theorem parseParam_spec : Forward input (n + 1) (parseParam input sub) := by
  intro s₀ hn
  have hrest := parseParamRest_spec hfuel hsub
  have hwrapper := fun s hs hat ↦
    @parseAttributeWrapper_spec input s hfuel n sub.param hsub.param hs hat
  refine of_weaker fun Q hQ ↦ ?_
  mvcgen [parseParam, hrest, hwrapper]
  all_goals grind [Input.rest]

/-! ## Children of a block -/

theorem parseExprOrAssign_spec : ReadsOrFails s₀ (parseExprOrAssign input sub) := by
  have hparse := ExprParser.parse_spec hfuel hsub
  have hassign := StmtParser.parseAssign_spec hfuel hsub
  mvcgen [parseExprOrAssign, hparse, hassign]
  all_goals grind [Reads, Input.rest]

theorem parseTry_spec : ReadsOrFails s₀ (parseTry input sub) := by
  have hparse := ExprParser.parse_spec hfuel hsub
  have htry := StmtParser.parseTry_spec hfuel hsub
  mvcgen [parseTry, hparse, htry]
  all_goals grind [Reads, Input.rest]

theorem parseMeta_spec : ReadsOrFails s₀ (parseMeta input sub) := by
  have hexpr := parseExprOrAssign_spec hfuel hsub
  have hmeta := StmtParser.parseMetaStmt_spec hfuel hsub
  refine of_weaker fun Q hQ ↦ ?_
  mvcgen [parseMeta, hexpr, hmeta]
  all_goals grind [Reads]

/-- All tokens at which the recovery stops have a parser that reads them. -/
theorem blockChildParser_spec {type : TokenType} (hat : (input.current s₀).type = type) :
    Yields s₀ (blockChildParser input sub type) fun r s ↦ ReadsChild input s₀ r.isValid s := by
  have hne : ∀ t, t ≠ TKN_EOF → type = t → (input.current s₀).type ≠ TKN_EOF := by
    rintro t ht rfl
    rwa [hat]
  unfold blockChildParser
  split
  · exact readsChild_of_lt (StmtParser.parseVar_spec hfuel hsub s₀ hn)
  · exact readsChild_of_lt (StmtParser.parseRef_spec hfuel hsub s₀ hn)
  · exact readsChild_of_lt (DeclParser.parseConst_spec hfuel hsub s₀ hn)
  · exact readsChild_of_lt
      (DeclParser.parseFunc_spec hfuel hsub s₀ hn none (hne _ (by decide) rfl))
  · exact readsChild_of_lt (StmtParser.parseIfChain_spec hfuel hsub s₀ hn)
  · exact readsChild_of_lt (StmtParser.parseSwitch_spec hfuel hsub s₀ hn)
  · exact readsChild_of_reads (fun _ ↦ by rw [hat]; decide) (parseTry_spec hfuel hsub s₀ hn)
  · exact readsChild_of_lt (StmtParser.parseWhile_spec hfuel hsub s₀ hn)
  · exact readsChild_of_lt (StmtParser.parseFor_spec hfuel hsub s₀ hn)
  · exact readsChild_of_lt (StmtParser.parseBreak_spec s₀)
  · exact readsChild_of_lt (StmtParser.parseContinue_spec s₀)
  · exact readsChild_of_lt (StmtParser.parseReturn_spec hfuel hsub s₀ hn)
  · exact readsChild_of_lt (DeclParser.parsePub_spec hfuel hsub s₀ hn hat)
  · exact readsChild_of_lt (DeclParser.parseStruct_spec hfuel hsub s₀ hn)
  · exact readsChild_of_lt (DeclParser.parseEnum_spec hfuel hsub s₀ hn)
  · exact readsChild_of_lt (DeclParser.parseUnion_spec hfuel hsub s₀ hn)
  · exact readsChild_of_lt (DeclParser.parseProto_spec hfuel hsub s₀ hn)
  · exact readsChild_of_lt (DeclParser.parseTypeAlias_spec hfuel hsub s₀ hn)
  · exact readsChild_of_lt
      (DeclParser.parseUnionCase_spec hfuel hsub s₀ hn (hne _ (by decide) rfl))
  · exact readsChild_of_reads (fun _ ↦ by rw [hat]; decide)
      (parseExprOrAssign_spec hfuel hsub s₀ hn)
  · exact readsChild_of_lt
      (DeclParser.parseNative_spec hfuel hsub s₀ hn (hne _ (by decide) rfl))
  · exact readsChild_of_lt (DeclParser.parseUse_spec hfuel hsub s₀ hn)
  · exact readsChild_of_reads (fun _ ↦ by rw [hat]; decide) (parseMeta_spec hfuel hsub s₀ hn)
  · have hblock := parseBlock_spec hfuel hsub s₀ hn
    refine readsChild_of_lt ?_
    mvcgen [hblock]
    all_goals grind
  · have hspec := hsub.blockChild
    refine readsChild_of_lt (parseAttributeWrapper_spec (n := n) hfuel ?_ hn hat)
    intro s hs
    mvcgen [hspec]
    all_goals grind [ReadsChild]
  · refine readsChild_of_reads (fun heof ↦ ?_) (parseExprOrAssign_spec hfuel hsub s₀ hn)
    grind [isRecoveryPoint]

theorem parseBlockChild_spec :
    Yields s₀ (parseBlockChild input sub) fun r s ↦ ReadsChild input s₀ r.isValid s := by
  have hchild := blockChildParser_spec hfuel hsub
  refine of_weaker fun Q hQ ↦ ?_
  mvcgen [parseBlockChild, hchild]
  all_goals grind

end Level

/-! ## Modules -/

include hfuel

variable (depth : ℕ) {s₀ : State}

theorem subparsers_ends : (subparsers input depth).Ends input depth := by
  induction depth with
  | zero =>
    exact ⟨fun _ _ h ↦ absurd h (Nat.not_lt_zero _), fun _ _ h ↦ absurd h (Nat.not_lt_zero _),
      fun _ h ↦ absurd h (Nat.not_lt_zero _), fun _ h ↦ absurd h (Nat.not_lt_zero _),
      fun _ h ↦ absurd h (Nat.not_lt_zero _), fun _ h ↦ absurd h (Nat.not_lt_zero _)⟩
  | succ depth ih =>
    have hreads : ∀ {p : ParserM ParseResult} {s₀ : State},
        ReadsOrFails s₀ p → NeverBack s₀ p := by
      intro p s₀ h
      mvcgen [h]
      all_goals grind [Reads]
    exact {
      expr := fun parser s hs ↦
        hreads (ExprParser.parse_spec hfuel ih parser s (Nat.lt_succ_iff.mp hs))
      unaryLevel := fun parser s hs ↦
        hreads (ExprParser.parseUnaryLevel_spec hfuel ih parser s (Nat.lt_succ_iff.mp hs))
      type := fun s hs ↦ hreads (ExprParser.parseType_spec hfuel ih {} s (Nat.lt_succ_iff.mp hs))
      param := parseParam_spec hfuel ih
      useTree := fun s hs ↦ DeclParser.parseUseTree_spec hfuel ih s (Nat.lt_succ_iff.mp hs)
      blockChild := fun s hs ↦ parseBlockChild_spec hfuel ih s (Nat.lt_succ_iff.mp hs) }

/-! ## Rounds -/

/-- A round of a loop returns, and if the loop goes on, then `R` holds between the states. -/
def Progresses {α β : Type} (round : ParserM (β ⊕ α)) (R : State → State → Prop) (s₀ : State) :
    Prop :=
  ∃ r s, round.run s₀ = some (r, s) ∧ (r.isLeft → R s₀ s)

def Consumes (s₀ s : State) : Prop := s₀.position < s.position

/-- The position stays, but the flag that keeps the recovery away is not set any more. -/
def Resets (s₀ s : State) : Prop :=
  s.position = s₀.position ∧ s₀.skipStmtDeclRecovery = true ∧ s.skipStmtDeclRecovery = false

/-- The parsers of the elements of a list. -/
inductive ElementParser (input : Input) (sub : Subparsers) : ParserM ParseResult → Prop where
  | attr : ElementParser input sub (parseAttribute input)
  | param : ElementParser input sub sub.param
  | expr (parser : ExprParser) : ElementParser input sub (sub.expr parser)
  | structLiteralEntry (parser : ExprParser) :
    ElementParser input sub (ExprParser.parseStructLiteralEntry input sub parser)
  | genericParam : ElementParser input sub (DeclParser.parseGenericParam input sub)
  | type : ElementParser input sub (StmtParser.type input sub)
  | enumVariant : ElementParser input sub (DeclParser.parseEnumVariant input sub)
  | useTree : ElementParser input sub sub.useTree

variable {α : Type}

omit hfuel in
/-- What the logic proves of a parser holds of its run. -/
theorem exists_of_triple {p : ParserM α} {Q : α → State → Prop}
    (h : Yields s₀ p Q) : ∃ a s, p.run s₀ = some (a, s) ∧ Q a s := by
  have hwp : (wp⟦p.run s₀⟧ (fun r ↦ ⌜Q r.1 r.2⌝, ExceptConds.false)).down := h s₀ rfl
  cases hrun : p.run s₀ with
  | none =>
    rw [hrun] at hwp
    exact hwp.elim
  | some result =>
    rw [hrun] at hwp
    exact ⟨_, _, rfl, hwp⟩

omit hfuel in
theorem Round.consumes {β : Type} {r : β ⊕ α} {s : State} (h : Round input s₀ r s)
    (hleft : r.isLeft) : Consumes s₀ s := by
  obtain ⟨node, rfl⟩ := Sum.isLeft_iff.mp hleft
  have hrest : input.tokens.length - s.position < input.tokens.length - s₀.position := h.progress
  change s₀.position < s.position
  omega

variable {p : ParserM ParseResult}

theorem ElementParser.forward (hsub : sub.Ends input n)
    (h : ElementParser input sub p) : Forward input n p := by
  have hlt : ∀ {q : ParserM ParseResult}, Forward input (n + 1) q → Forward input n q :=
    fun hq s hs ↦ hq s (Nat.lt_succ_of_lt hs)
  cases h with
  | attr =>
    intro s _
    refine of_weaker fun Q hQ ↦ ?_
    mvcgen
    all_goals grind
  | param => exact hsub.param
  | expr parser => exact hsub.expr parser
  | structLiteralEntry parser =>
    exact ExprParser.parseStructLiteralEntry_forward hsub parser
  | genericParam => exact hlt (DeclParser.parseGenericParam_spec hfuel hsub)
  | type => exact fun s hs ↦ StmtParser.type_spec hfuel hsub s hs.le
  | enumVariant => exact hlt (DeclParser.parseEnumVariant_spec hfuel hsub)
  | useTree => exact hsub.useTree

theorem parseListStep_progresses (hsub : sub.Ends input n)
    (helement : ElementParser input sub p) (type : ASTNodeType) (terminator : TokenType)
    (consumeTerminator : Bool) (state : ListState) (hn : input.rest s₀ < n) :
    Progresses (parseListStep input type terminator p consumeTerminator state) Consumes s₀ := by
  obtain ⟨r, s, hrun, hround⟩ := exists_of_triple (parseListStep_spec hfuel type
    terminator consumeTerminator (helement.forward hfuel hsub) hn state)
  exact ⟨r, s, hrun, hround.consumes⟩

theorem parseBlockStep_progresses (hsub : sub.Ends input n) (node : NodeBuilder)
    (hn : input.rest s₀ < n) :
    Progresses (parseBlockStep input sub node) (fun s₀ s ↦ Consumes s₀ s ∨ Resets s₀ s) s₀ := by
  have hchild := parseAndAppendBlockChild_spec hfuel hsub
  refine exists_of_triple ?_
  mvcgen [parseBlockStep, hchild]
  all_goals grind [Consumes, Resets]

theorem parseTopLevelStep_progresses (hsub : sub.Ends input n) (node : NodeBuilder)
    (hn : input.rest s₀ < n) :
    Progresses (parseTopLevelStep input sub node) (fun s₀ s ↦ Consumes s₀ s ∨ Resets s₀ s) s₀ := by
  have hchild := parseAndAppendBlockChild_spec hfuel hsub
  refine exists_of_triple ?_
  mvcgen [parseTopLevelStep, hchild]
  all_goals grind [Consumes, Resets]

theorem recoverStep_progresses (s₀ : State) : Progresses (recoverStep input ()) Consumes s₀ := by
  obtain ⟨r, s, hrun, -, hround⟩ := exists_of_triple (@recoverStep_spec input s₀ hfuel)
  refine ⟨r, s, hrun, fun hleft ↦ ?_⟩
  obtain ⟨_, rfl⟩ := Sum.isLeft_iff.mp hleft
  exact hround.1

omit hfuel in
theorem skipInBlock_progresses (s₀ : State) : Progresses (skipInBlock input depth) Consumes s₀ := by
  refine exists_of_triple ?_
  mvcgen [skipInBlock]
  all_goals grind [Consumes]

/-! ## Modules -/

theorem topLevelLoop_spec (hsub : sub.Ends input n) (node : NodeBuilder) (s₀ : State)
    (hn : input.rest s₀ < n) :
    Yields s₀ (whileTrue (parseTopLevelStep input sub) input.fuel node) fun _ s ↦
      (input.current s).type = TKN_EOF := by
  refine whileTrue_spec (I := fun _ s ↦ s₀.position ≤ s.position)
    (μ := fun _ s ↦ 2 * input.rest s + if s.skipStmtDeclRecovery then 1 else 0) ?_ le_rfl ?_
  · intro node s₁ hinv
    have hchild := parseAndAppendBlockChild_spec hfuel hsub
    mvcgen [parseTopLevelStep, hchild]
    all_goals grind [Input.rest]
  · grind [Input.rest]

/-- Modules end at an end of file only. -/
theorem parseModule_stops :
    ∃ mod s, parseModule input = some (mod, s) ∧ (input.current s).type = TKN_EOF := by
  have hloop := topLevelLoop_spec hfuel (subparsers_ends hfuel input.fuel)
  refine exists_of_triple (p := do
    let block ← parseTopLevelBlock input (subparsers input input.fuel)
    let mod := (ASTNode.empty AST_MODULE).appendChild block
    return mod.setRangeFromChildren) ?_
  mvcgen [parseTopLevelBlock, hloop]
  all_goals grind [Input.rest]

theorem exists_parseModule : ∃ mod s, parseModule input = some (mod, s) := by
  obtain ⟨mod, s, hrun, -⟩ := parseModule_stops hfuel
  exact ⟨mod, s, hrun⟩

/-- The parser returns a module for every list of tokens. Every round of its loops over lists and of
its recovery consumes a token or ends the loop. A round over the children of a block may also just
reset the flag that keeps the recovery away; the measure of a block counts it. -/
theorem parseModule_terminates : (∃ mod s, parseModule input = some (mod, s)) ∧
      ∀ depth s₀, input.rest s₀ < depth →
        (∀ node, Progresses (parseTopLevelStep input (subparsers input depth) node)
          (fun s₀ s ↦ Consumes s₀ s ∨ Resets s₀ s) s₀) ∧
        (∀ node, Progresses (parseBlockStep input (subparsers input depth) node)
          (fun s₀ s ↦ Consumes s₀ s ∨ Resets s₀ s) s₀) ∧
        (∀ p, ElementParser input (subparsers input depth) p →
          ∀ type terminator consumeTerminator state, Progresses
            (parseListStep input type terminator p consumeTerminator state) Consumes s₀) ∧
        Progresses (recoverStep input ()) Consumes s₀ ∧
        ∀ nesting, Progresses (skipInBlock input nesting) Consumes s₀ := by
  refine ⟨exists_parseModule hfuel, fun depth s₀ hn ↦ ?_⟩
  have hsub := subparsers_ends hfuel depth
  exact ⟨fun node ↦ parseTopLevelStep_progresses hfuel hsub node hn,
    fun node ↦ parseBlockStep_progresses hfuel hsub node hn,
    fun p hp type terminator consumeTerminator state ↦
      parseListStep_progresses hfuel hsub hp type terminator consumeTerminator state hn,
    recoverStep_progresses hfuel s₀, fun nesting ↦ skipInBlock_progresses nesting s₀⟩

/-! ## Source texts -/

omit hfuel

/-- The tokens of `a = (`. -/
def assignInput : Input where
  tokens := (Lexer.tokenize ⟨.COMPILATION, false, none⟩ "a = (".toList).tokens
  runningCompletion := false
  fuel := 20
  eof := Lexer.eofToken 5
  eof_type := rfl

/-- The tokens of `if (f(a b var { , }`: the recovery in the arguments of the call ends at `var`,
which is read for the closing parenthesis. The flag it has set is still there at the comma. -/
def staleFlagInput : Input where
  tokens := [TKN_IF, TKN_LPAREN, TKN_IDENTIFIER, TKN_LPAREN, TKN_IDENTIFIER, TKN_IDENTIFIER,
    TKN_VAR, TKN_LBRACE, TKN_COMMA, TKN_RBRACE, TKN_EOF, TKN_EOF].map fun type ↦
      ⟨type, [], 0, false⟩
  runningCompletion := false
  fuel := 26
  eof := ⟨TKN_EOF, [], 0, false⟩
  eof_type := rfl

theorem parseModule_terminates_staleFlag : ∃ mod s, parseModule staleFlagInput = some (mod, s) :=
  (parseModule_terminates (by decide)).1

/-- The statement up to the first round over its block: the condition is valid, and the round
neither reads the comma nor ends the loop. -/
theorem not_consumes_staleFlag :
    ((do
      let _ ← TokenStream.consume staleFlagInput
      let condition ← StmtParser.expr staleFlagInput (subparsers staleFlagInput 25)
      let node ← buildNode staleFlagInput
      let node ← node.consume staleFlagInput
      let before ← getThe State
      let round ← parseBlockStep staleFlagInput (subparsers staleFlagInput 25) node
      let after ← getThe State
      return (condition.isValid, round.isLeft, before.position, after.position) :
        ParserM (Bool × Bool × ℕ × ℕ)).run' { position := 0 }) = some (true, true, 8, 8) := by
  decide +kernel

end Banjo.Parser
