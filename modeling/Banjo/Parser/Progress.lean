import Banjo.Parser.Specs

/-!
# The progress of each parser

A parser that fails without having read a token leaves the state as it is. The child of a block does
so only at a token that the recovery leaves behind.
-/

set_option mvcgen.warning false

namespace Banjo.Parser

open Std.Do TokenStream TokenType ASTNodeType

variable {input : Input} {sub : Subparsers} {n : ℕ}

/-- A parser that is valid has read a token, and one that has read none leaves the state as it
is. -/
structure Reads (s₀ : State) (isValid : Bool) (s : State) : Prop where
  position : s₀.position ≤ s.position
  progress : s₀.position < s.position ∨
    isValid = false ∧ s.position = s₀.position ∧ s.skipStmtDeclRecovery = s₀.skipStmtDeclRecovery

/-- The parser ends, and has read a token or failed. -/
abbrev ReadsOrFails (s₀ : State) (p : ParserM ParseResult) : Prop :=
  ⦃fun s ↦ ⌜s = s₀⌝⦄ p ⦃⇓ r s => ⌜Reads s₀ r.isValid s⌝⦄

/-- The child of a block that has read no token is left to the recovery. -/
structure ReadsChild (input : Input) (s₀ : State) (isValid : Bool) (s : State) : Prop where
  position : s₀.position ≤ s.position
  progress : (input.current s₀).type ≠ TKN_EOF → s₀.position < s.position ∨
    isValid = false ∧ s.position = s₀.position ∧
      s.skipStmtDeclRecovery = s₀.skipStmtDeclRecovery ∧
      ¬isRecoveryPoint (input.current s₀).type

/-- The parsers one level deeper end on fewer than `n` tokens. -/
structure Subparsers.Ends (input : Input) (sub : Subparsers) (n : ℕ) : Prop where
  expr : ∀ parser s₀, input.rest s₀ < n → NeverBack s₀ (sub.expr parser)
  unaryLevel : ∀ parser s₀, input.rest s₀ < n → NeverBack s₀ (sub.unaryLevel parser)
  type : ∀ s₀, input.rest s₀ < n → NeverBack s₀ sub.type
  param : Forward input n sub.param
  useTree : Forward input n sub.useTree
  blockChild : ∀ s₀, input.rest s₀ < n →
    Yields s₀ sub.blockChild fun r s ↦ ReadsChild input s₀ r.isValid s

variable (hfuel : 2 * input.tokens.length + 1 < input.fuel) (hsub : sub.Ends input n)
  (s₀ : State)

include hfuel hsub

/-! ## Blocks -/

variable (node : NodeBuilder)

/-- A round of a block reads a token, or resets the flag that keeps the recovery away. -/
theorem parseAndAppendBlockChild_spec (hn : input.rest s₀ < n)
    (heof : (input.current s₀).type ≠ TKN_EOF) :
    Yields s₀ (parseAndAppendBlockChild input sub node) fun _ s ↦
      s₀.position < s.position ∨ s.position = s₀.position ∧
        s₀.skipStmtDeclRecovery = true ∧ s.skipStmtDeclRecovery = false := by
  have hchild := hsub.blockChild
  mvcgen [parseAndAppendBlockChild, hchild]
  all_goals grind [ReadsChild, Input.current]

theorem blockLoop_spec (hn : input.rest s₀ < n) :
    NeverBack s₀ (whileTrue (parseBlockStep input sub) input.fuel node) := by
  refine whileTrue_spec (I := fun _ s ↦ s₀.position ≤ s.position)
    (μ := fun _ s ↦ 2 * input.rest s + if s.skipStmtDeclRecovery then 1 else 0) ?_ le_rfl ?_
  · intro node s₁ hinv
    have hchild := parseAndAppendBlockChild_spec hfuel hsub
    mvcgen [parseBlockStep, hchild]
    all_goals grind [Input.rest, Keeps]
  · grind [Input.rest]

theorem parseBlock_spec (hn : input.rest s₀ ≤ n) :
    Yields s₀ (parseBlock input sub) fun _ s ↦
      s₀.position ≤ s.position ∧ ((input.current s₀).type = TKN_LBRACE →
        s₀.position < s.position) := by
  have hloop := blockLoop_spec hfuel hsub
  mvcgen [parseBlock, hloop]
  all_goals grind [Input.rest, Keeps]

/-! ## Parameters and return types -/

theorem parseParamList_spec (terminator : TokenType)
    (hn : input.tokens.length - (s₀.position + 1) < n) :
    Advances s₀ (parseParamList input sub terminator) :=
  parseList_spec hfuel AST_PARAM_LIST terminator true hsub.param s₀ hn

omit hfuel in
theorem parseReturnType_spec (hn : input.rest s₀ < n) :
    NeverBack s₀ (parseReturnType input sub) := by
  have htype := hsub.type
  refine of_weaker fun Q hQ ↦ ?_
  mvcgen [parseReturnType, htype]
  all_goals grind [Input.rest]

end Banjo.Parser

/-! ## Literals and expressions -/

namespace Banjo.ExprParser

open Std.Do Banjo.Parser TokenStream TokenType ASTNodeType

variable {input : Input} {sub : Subparsers} {n : ℕ}

section Literals

variable {s₀ : State}

@[spec]
theorem reportAll_spec (messages : List Report) :
    Yields s₀ (reportAll messages) fun _ s ↦ Keeps s₀ s := by
  mvcgen [reportAll]
  all_goals grind [Keeps]

variable (type : ASTNodeType)

@[spec]
theorem parseLiteral_spec (errors : Token → List Report) (replacement : List Char) :
    Advances s₀ (parseLiteral input type errors replacement) := by
  mvcgen [parseLiteral]
  all_goals grind [Keeps]

@[spec]
theorem parseNumberLiteral_spec : Advances s₀ (parseNumberLiteral input) := by
  refine of_weaker fun Q hQ ↦ ?_
  mvcgen [parseNumberLiteral, parseFpLiteral, parseIntLiteral]
  all_goals grind

@[spec]
theorem parseQuoted_spec (errors : Token → List Report) :
    Advances s₀ (parseQuoted input type errors) := by
  mvcgen [parseQuoted]
  all_goals grind [Keeps]

@[spec]
theorem parseArraySeparator_spec (state : ArrayState) :
    Yields s₀ (parseArraySeparator input state) (Round input s₀) := by
  mvcgen [parseArraySeparator]
  all_goals grind [Round, Keeps, Input.rest]

end Literals

variable (hfuel : 2 * input.tokens.length + 1 < input.fuel) (hsub : sub.Ends input n)

/-! ### Operands -/

variable (parser : ExprParser) (s₀ : State)

include hsub in
theorem parseArrayStep_spec (state : ArrayState) (hn : input.rest s₀ < n) :
    Yields s₀ (parseArrayStep input sub parser state) (Round input s₀) := by
  have hexpr := hsub.expr
  refine of_weaker fun Q hQ ↦ ?_
  mvcgen [parseArrayStep, hexpr]
  all_goals grind [Round, Input.rest]

variable (node : NodeBuilder)

include hsub in
theorem parseTupleStep_spec (hn : input.rest s₀ < n) :
    Yields s₀ (parseTupleStep input sub node) (Round input s₀) := by
  have hexpr := hsub.expr
  mvcgen [parseTupleStep, hexpr]
  all_goals grind [Round, Input.rest]

include hfuel hsub

theorem parseArrayLiteral_spec (hn : input.rest s₀ ≤ n)
    (hat : (input.current s₀).type = TKN_LBRACKET) :
    Advances s₀ (parseArrayLiteral input sub parser) := by
  have hloop := loop_spec hfuel fun state s hs ↦
    parseArrayStep_spec hsub parser s state hs
  mvcgen [parseArrayLiteral, hloop]
  all_goals grind [Input.rest]

theorem parseParenExpr_spec (hn : input.rest s₀ ≤ n) (hat : (input.current s₀).type = TKN_LPAREN) :
    Advances s₀ (parseParenExpr input sub) := by
  have hexpr := hsub.expr
  have hloop := loop_spec hfuel fun node s hs ↦ parseTupleStep_spec hsub s node hs
  mvcgen [parseParenExpr, hexpr, hloop]
  all_goals grind [Input.rest]

omit hfuel in
theorem parseStructLiteralEntry_forward :
    Forward input n (parseStructLiteralEntry input sub parser) := by
  intro s₁ hs₁
  have hexpr := hsub.expr
  mvcgen [parseStructLiteralEntry, toResult, hexpr]
  all_goals grind [Keeps, Input.rest]

theorem parseStructLiteralBody_spec (hn : input.tokens.length - (s₀.position + 1) < n) :
    Advances s₀ (parseStructLiteralBody input sub parser) :=
  parseList_spec hfuel AST_STRUCT_LITERAL_ENTRY_LIST TKN_RBRACE true
    (parseStructLiteralEntry_forward hsub parser) s₀ hn

theorem parseAnonStructLiteral_spec (hn : input.rest s₀ ≤ n)
    (hat : (input.current s₀).type = TKN_LBRACE) :
    ReadsOrFails s₀ (parseAnonStructLiteral input sub parser) := by
  have hbody := parseStructLiteralBody_spec hfuel hsub parser
  mvcgen [parseAnonStructLiteral, hbody]
  all_goals grind [Reads, Keeps, Input.rest]

omit hfuel in
theorem parseArrow_spec (hn : input.rest s₀ < n) : NeverBack s₀ (parseArrow input sub node) := by
  have hreturn := parseReturnType_spec hsub
  mvcgen [parseArrow, hreturn]
  all_goals grind [Input.rest]

theorem parseClosureRest_spec (hn : input.rest s₀ < n) :
    NeverBack s₀ (parseClosureRest input sub parser node) := by
  have harrow := parseArrow_spec hsub
  have hblock := parseBlock_spec hfuel hsub
  mvcgen [parseClosureRest, harrow, hblock]
  all_goals grind [Input.rest]

theorem parseClosure_spec (hn : input.rest s₀ ≤ n) (hat : (input.current s₀).type ≠ TKN_EOF) :
    Advances s₀ (parseClosure input sub parser) := by
  have hparams := parseParamList_spec hfuel hsub
  have hrest := parseClosureRest_spec hfuel hsub parser
  refine of_weaker fun Q hQ ↦ ?_
  mvcgen [parseClosure, hparams, hrest]
  all_goals grind [Input.rest]

theorem parseFuncType_spec (hn : input.rest s₀ ≤ n) (hat : (input.current s₀).type = TKN_FUNC) :
    Advances s₀ (parseFuncType input sub) := by
  have hparams := parseParamList_spec hfuel hsub
  have harrow := parseArrow_spec hsub
  mvcgen [parseFuncType, hparams, harrow]
  all_goals grind [Keeps, Input.rest]

omit hfuel hsub in
@[spec]
theorem parseSelf_spec : Advances s₀ (parseSelf input) := by
  mvcgen [parseSelf]
  all_goals grind

omit hfuel in
theorem parseMetaExpr_spec (hn : input.rest s₀ ≤ n) (hat : (input.current s₀).type = TKN_META) :
    Advances s₀ (parseMetaExpr input sub parser) := by
  have hexpr := hsub.expr
  mvcgen [parseMetaExpr, hexpr]
  all_goals grind [Input.rest]

omit hfuel hsub in
@[spec]
theorem parseOperandError_spec : ReadsOrFails s₀ (parseOperandError input) := by
  mvcgen [parseOperandError]
  all_goals grind [Keeps, Reads]

theorem parseOperand_spec (hn : input.rest s₀ ≤ n) :
    ReadsOrFails s₀ (parseOperand input sub parser) := by
  have harray := parseArrayLiteral_spec hfuel hsub parser
  have hparen := parseParenExpr_spec hfuel hsub
  have hstruct := parseAnonStructLiteral_spec hfuel hsub parser
  have hclosure := parseClosure_spec hfuel hsub parser
  have hfunc := parseFuncType_spec hfuel hsub
  have hmeta := parseMetaExpr_spec hsub parser
  refine of_weaker fun Q hQ ↦ ?_
  mvcgen [parseOperand, toResult, harray, hparen, hstruct, hclosure, hfunc, hmeta,
    parseCharLiteral, parseStringLiteral]
  all_goals grind [Keeps, Reads]

/-! ### Behind an operand -/

theorem parsePostOperandStep_spec (currentNode : ASTNode) (hn : input.rest s₀ ≤ n) :
    Yields s₀ (parsePostOperandStep input sub parser currentNode) (Round input s₀) := by
  have hoperand := parseOperand_spec hfuel hsub parser
  have hbody := parseStructLiteralBody_spec hfuel hsub parser
  have hargs := fun type terminator parser ↦
    parseList_spec hfuel type terminator true (hsub.expr parser)
  mvcgen [parsePostOperandStep, parseDotExpr, parseCallExpr, parseBracketExpr, parseStructLiteral,
    hoperand, hbody, hargs]
  all_goals grind [Round, Reads, Input.rest]

theorem parsePostOperand_spec (hn : input.rest s₀ ≤ n) :
    ReadsOrFails s₀ (parsePostOperand input sub parser) := by
  have hoperand := parseOperand_spec hfuel hsub parser
  have hloop := loop_spec hfuel fun node s (hs : input.rest s < n + 1) ↦
    parsePostOperandStep_spec hfuel hsub parser s node (Nat.lt_succ_iff.mp hs)
  mvcgen [parsePostOperand, hoperand, hloop]
  all_goals grind [Reads, Input.rest]

/-! ### Levels -/

omit hfuel hsub in
theorem unaryOperator_eof : unaryOperator TKN_EOF = none := rfl

theorem parseUnaryLevel_spec (hn : input.rest s₀ ≤ n) :
    ReadsOrFails s₀ (parseUnaryLevel input sub parser) := by
  have hpost := parsePostOperand_spec hfuel hsub parser
  have hunary := hsub.unaryLevel
  refine of_weaker fun Q hQ ↦ ?_
  mvcgen [parseUnaryLevel, hpost, hunary]
  all_goals grind [Reads, Input.rest, unaryOperator_eof]

theorem parseResultLevel_spec (hn : input.rest s₀ ≤ n) :
    ReadsOrFails s₀ (parseResultLevel input sub parser) := by
  have hunary := parseUnaryLevel_spec hfuel hsub parser
  have htype := hsub.type
  mvcgen [parseResultLevel, hunary, htype]
  all_goals grind [Reads, Input.rest]

omit hsub in
/-- A level reads what the next tighter one reads, as long as no operator is an end of file. -/
theorem parseLevel_spec {childBuilder : ParserM ParseResult}
    {c : TokenType → Option ASTNodeType} (heof : c TKN_EOF = none)
    (hchild : ∀ s₀, input.rest s₀ ≤ n → ReadsOrFails s₀ childBuilder) (s₀ : State)
    (hn : input.rest s₀ ≤ n) :
    ReadsOrFails s₀ (parseLevel input childBuilder c) := by
  have hstep : ∀ node s₀, input.rest s₀ < n + 1 →
      Yields s₀ (parseLevelStep input childBuilder c node) (Round input s₀) := by
    intro node s₁ hs₁
    have hoperator : ∀ type node, c type = some node → type ≠ TKN_EOF := by
      rintro _ node hnode rfl
      rw [heof] at hnode
      cases hnode
    mvcgen [parseLevelStep, hchild]
    all_goals grind [Round, Reads, Input.rest]
  have hloop := loop_spec hfuel hstep
  mvcgen [parseLevel, hchild, hloop]
  all_goals grind [Reads, Input.rest]

theorem parse_spec (hn : input.rest s₀ ≤ n) : ReadsOrFails s₀ (parse input sub parser) := by
  have hcast := parseLevel_spec (c := castOperator) hfuel rfl
    (parseResultLevel_spec hfuel hsub parser)
  have hmul := parseLevel_spec (c := mulOperator) hfuel rfl hcast
  have hadd := parseLevel_spec (c := addOperator) hfuel rfl hmul
  have hshift := parseLevel_spec (c := bitShiftOperator) hfuel rfl hadd
  have hand := parseLevel_spec (c := single TKN_AND AST_BIT_AND_EXPR) hfuel rfl hshift
  have hxor := parseLevel_spec (c := single TKN_CARET AST_BIT_XOR_EXPR) hfuel rfl hand
  have hor := parseLevel_spec (c := single TKN_OR AST_BIT_OR_EXPR) hfuel rfl hxor
  have hcmp := parseLevel_spec (c := cmpOperator) hfuel rfl hor
  have hands := parseLevel_spec (c := single TKN_AND_AND AST_AND_EXPR) hfuel rfl hcmp
  have hors := parseLevel_spec (c := single TKN_OR_OR AST_OR_EXPR) hfuel rfl hands
  exact parseLevel_spec (c := single TKN_DOT_DOT AST_RANGE_EXPR) hfuel rfl hors s₀ hn

theorem parseType_spec (hn : input.rest s₀ ≤ n) : ReadsOrFails s₀ (parseType input sub parser) :=
  parseResultLevel_spec hfuel hsub _ s₀ hn

end Banjo.ExprParser
