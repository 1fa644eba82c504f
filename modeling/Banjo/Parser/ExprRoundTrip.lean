import Banjo.Parser.ExprGrammar

/-!
# Parsing what is written

The parser that is at the tokens of an expression parses it, and is behind them afterwards.
-/

open List Option

namespace Banjo.ExprParser

open Banjo.Parser TokenStream TokenType ASTNodeType
open Lexer (Lexeme IsToken written tokenize)

/-! ## Runs of the parts -/

section Run

variable (input : Input) (s : State)

theorem run_get : (get input).run s = some (input.token s.position, s) := rfl

theorem run_isAt (type : TokenType) :
    (isAt input type).run s = some ((input.token s.position).is type, s) := rfl

theorem run_peek (offset : ℕ) :
    (peek input offset).run s = some (input.token (s.position + offset), s) := rfl

theorem run_consume : (TokenStream.consume input).run s
    = some (input.token s.position, { s with position := s.position + 1 }) := rfl

theorem run_buildNode : (buildNode input).run s
    = some ({ start := (input.token s.position).position }, s) := rfl

variable (node : NodeBuilder)

theorem run_nodeConsume : (node.consume input).run s
    = some ({ node with tokens := node.tokens ++ [s.position] },
      { s with position := s.position + 1 }) := rfl

theorem run_consumeIntoNode (type : ASTNodeType) : (consumeIntoNode input type).run s
    = some ((ASTNode.ofToken type (input.token s.position)).setTokens [s.position],
      { s with position := s.position + 1 }) := rfl

theorem run_build (type : ASTNodeType) :
    ∃ range, (node.build input type).run s
      = some (.mk type [] range node.tokens node.children, s) := by
  by_cases h : s.position > 0
  · exact ⟨⟨node.start, (input.token (s.position - 1)).stop⟩,
      by simp [NodeBuilder.build, previous, h]⟩
  · exact ⟨⟨node.start, (input.tokens.getLast?.getD input.eof).stop⟩,
      by simp [NodeBuilder.build, previous, h]⟩

theorem run_reportAll_nil : (reportAll []).run s = some ((), s) := by
  simp [reportAll]

end Run

/-! ## Tokens at a position -/

section At

variable (input : Input)

/-- The tokens from a position on. -/
def At : ℕ → List Lexeme → Prop
  | _, [] => True
  | position, l :: ls => (input.token position).type = l.type ∧
      (input.token position).value = l.text ∧ At (position + 1) ls

variable {input}

theorem at_append {position : ℕ} {front back : List Lexeme} :
    At input position (front ++ back) ↔
      At input position front ∧ At input (position + front.length) back := by
  induction front generalizing position with
  | nil => simp [At]
  | cons l front ih =>
    rw [cons_append, At, At, ih, length_cons, Nat.add_comm front.length, Nat.add_assoc]
    tauto

end At

/-! ## What may stand behind an expression -/

/-- The token ends an expression at a place: it is no operator of the ranks the place admits. -/
def Ends (place : ℕ) (type : TokenType) : Prop :=
  type = TKN_RPAREN ∨ type = TKN_EOF ∨ ∃ op : BinaryOp, op.lexeme.type = type ∧ place < op.rank

/-- The operators of a rank. -/
def operators : ℕ → TokenType → Option ASTNodeType
  | 1 => castOperator
  | 2 => mulOperator
  | 3 => addOperator
  | 4 => bitShiftOperator
  | 5 => single TKN_AND AST_BIT_AND_EXPR
  | 6 => single TKN_CARET AST_BIT_XOR_EXPR
  | 7 => single TKN_OR AST_BIT_OR_EXPR
  | 8 => cmpOperator
  | 9 => single TKN_AND_AND AST_AND_EXPR
  | 10 => single TKN_OR_OR AST_OR_EXPR
  | 11 => single TKN_DOT_DOT AST_RANGE_EXPR
  | _ => fun _ ↦ none

variable (op : BinaryOp)

theorem operators_self : operators op.rank op.lexeme.type = some op.node := by
  cases op <;> rfl

theorem rank_pos : 0 < op.rank := by
  cases op <;> decide

theorem rank_le : op.rank ≤ 11 := by
  cases op <;> decide

variable {rank : ℕ}

theorem operators_of_ne {op : BinaryOp} (h : rank ≠ op.rank) :
    operators rank op.lexeme.type = none := by
  unfold operators
  split <;> first | rfl | (cases op <;> first | rfl | exact absurd rfl h)

variable {place : ℕ} {type : TokenType}

theorem Ends.operators (h : Ends place type)
    (hrank : rank ≤ place) : operators rank type = none := by
  obtain rfl | rfl | ⟨op, rfl, hlt⟩ := h
  · unfold ExprParser.operators
    split <;> rfl
  · unfold ExprParser.operators
    split <;> rfl
  · exact operators_of_ne (Nat.ne_of_lt (Nat.lt_of_le_of_lt hrank hlt))

theorem Ends.mono {place' : ℕ} (h : Ends place type) (hle : place' ≤ place) : Ends place' type := by
  obtain h | h | ⟨op, hop, hlt⟩ := h
  · exact .inl h
  · exact .inr (.inl h)
  · exact .inr (.inr ⟨op, hop, Nat.lt_of_le_of_lt hle hlt⟩)

/-- Nothing that continues an operand ends an expression. -/
theorem Ends.ne (h : Ends place type) :
    type ∉ [TKN_DOT, TKN_LPAREN, TKN_LBRACKET, TKN_LBRACE, TKN_EXCEPT, TKN_COMMA] := by
  obtain rfl | rfl | ⟨op, rfl, -⟩ := h
  · decide
  · decide
  · cases op <;> decide

/-! ## Levels -/

section Levels

/-- The parser succeeds with a tree, and is `n` tokens further afterwards. -/
def Parses (p : ParserM ParseResult) (s : State) (n : ℕ) (t : Tree) : Prop :=
  ∃ node, p.run s = some (⟨node, true⟩, { s with position := s.position + n }) ∧ tree node = t

variable {input : Input} {s : State}

variable {child : ParserM ParseResult}

theorem run_parseLevel {node : ASTNode} {s' : State}
    (h : child.run s = some (⟨node, true⟩, s')) (ops : TokenType → Option ASTNodeType) :
    (parseLevel input child ops).run s
      = (whileTrue (parseLevelStep input child ops) input.fuel node).run s' := by
  rw [parseLevel, StateT.run_bind, h]
  rfl

variable {ops : TokenType → Option ASTNodeType}

theorem run_level_end (h : ops (input.token s.position).type = none) (fuel : ℕ) (node : ASTNode) :
    (whileTrue (parseLevelStep input child ops) (fuel + 1) node).run s
      = some (⟨node, true⟩, s) := by
  simp [whileTrue, parseLevelStep, run_get, h]

variable {n : ℕ} {t : Tree}

theorem run_level_step {type : ASTNodeType} (h : ops (input.token s.position).type = some type)
    (hchild : Parses child { s with position := s.position + 1 } n t) (fuel : ℕ) (node : ASTNode) :
    ∃ node', tree node' = .binary type (tree node) t ∧
      (whileTrue (parseLevelStep input child ops) (fuel + 1) node).run s
        = (whileTrue (parseLevelStep input child ops) fuel node').run
          { s with position := s.position + (1 + n) } := by
  obtain ⟨rhs, hrun, rfl⟩ := hchild
  refine ⟨((((ASTNode.withRange type (input.token s.position).range).appendChild node).appendChild
    rhs).setRangeFromChildren).setTokens [s.position], rfl, ?_⟩
  simp only [Nat.add_assoc] at hrun
  simp [whileTrue, parseLevelStep, run_get, run_consume, h, hrun]

variable (input) in
/-- The parser of the expressions of a rank. -/
def levelParser (sub : Subparsers) (parser : ExprParser) : ℕ → ParserM ParseResult
  | 0 => parseResultLevel input sub parser
  | rank + 1 => parseLevel input (levelParser sub parser rank) (operators (rank + 1))

/-- The loops of looser levels are left at once. -/
theorem Parses.climb {sub : Subparsers} {parser : ExprParser} {rank : ℕ}
    (h : Parses (levelParser input sub parser rank) s n t) (hfuel : 0 < input.fuel)
    (hle : rank ≤ place) (hends : Ends place (input.token (s.position + n)).type) :
    Parses (levelParser input sub parser place) s n t := by
  induction hle with
  | refl => exact h
  | @step place hle ih =>
    obtain ⟨node, hrun, htree⟩ := ih (hends.mono (Nat.le_succ place))
    obtain ⟨fuel, hfuel⟩ := Nat.exists_eq_succ_of_ne_zero (Nat.pos_iff_ne_zero.mp hfuel)
    refine ⟨node, ?_, htree⟩
    rw [levelParser, run_parseLevel hrun, hfuel]
    exact run_level_end (hends.operators (Nat.le_refl _)) _ _

end Levels

/-! ## Operands -/

section Operands

variable {input : Input} {s : State} (sub : Subparsers) (parser : ExprParser)

theorem run_isAtCompletionPoint (h : (input.token s.position).type ≠ TKN_COMPLETION) :
    (isAtCompletionPoint input).run s = some (false, s) := by
  simp [isAtCompletionPoint, run_get, Token.is, h]

variable {errors : Token → List Report}

theorem parses_literal (type : ASTNodeType)
    (h : errors (input.token s.position) = []) (replacement : List Char) :
    Parses (parseLiteral input type errors replacement) s 1
      (.leaf type (input.token s.position).value) := by
  refine ⟨(ASTNode.ofToken type (input.token s.position)).setTokens [s.position], ?_, rfl⟩
  simp [parseLiteral, run_get, h, run_reportAll_nil, run_consumeIntoNode]

theorem parses_quoted (type : ASTNodeType) (h : errors (input.token s.position) = []) :
    Parses (parseQuoted input type errors) s 1 (.leaf type (quoted (input.token s.position))) := by
  refine ⟨(ASTNode.withValue type (quoted (input.token s.position))
    (input.token s.position).range).setTokens [s.position], ?_, rfl⟩
  simp [parseQuoted, run_consume, h, run_reportAll_nil]

variable {n : ℕ} {t : Tree}

theorem Parses.congr {p q : ParserM ParseResult} (h : Parses q s n t)
    (hrun : p.run s = q.run s) : Parses p s n t := by
  obtain ⟨node, hq, htree⟩ := h
  exact ⟨node, hrun.trans hq, htree⟩

theorem parses_operand (a : Operand) (h : At input s.position [a.lexeme])
    (hnext : (input.token (s.position + 1)).type ≠ TKN_DOT) :
    Parses (parseOperand input sub parser) s 1 (.leaf a.node a.value) := by
  obtain ⟨lexeme, node, value, _, hoperand⟩ := a
  obtain ⟨htype, hvalue, -⟩ := h
  have hcompletion (h : lexeme.type ≠ TKN_COMPLETION) :
      (isAtCompletionPoint input).run s = some (false, s) :=
    run_isAtCompletionPoint (htype ▸ h)
  cases hoperand with
  | token h =>
    have hne : lexeme.type ≠ TKN_COMPLETION := by
      intro heq
      rw [heq] at h
      cases h
    refine ⟨(ASTNode.ofToken node (input.token s.position)).setTokens [s.position], ?_, ?_⟩
    · simp [parseOperand, hcompletion hne, run_get, htype, h, toResult, run_consumeIntoNode]
    · rw [ASTNode.ofToken, hvalue]
      rfl
  | int hdot herrors =>
    have hparse := parses_literal AST_INT_LITERAL (herrors _ hvalue) ['0']
    rw [hvalue] at hparse
    refine hparse.congr ?_
    simp [parseOperand, hcompletion, run_get, htype, tokenOperand, parseNumberLiteral, hvalue, hdot,
      parseIntLiteral]
  | fp hdot hfp =>
    have hparse : Parses (parseFpLiteral input) s 1
        (.leaf AST_FP_LITERAL (input.token s.position).value) :=
      parses_literal AST_FP_LITERAL (if_pos (hvalue ▸ hfp)) ['0', '.', '0']
    rw [hvalue] at hparse
    refine hparse.congr ?_
    simp [parseOperand, hcompletion, run_get, htype, tokenOperand, parseNumberLiteral, hvalue, hdot]
  | character herrors =>
    have hparse := parses_quoted AST_CHAR_LITERAL (herrors _ hvalue)
    rw [quoted, hvalue] at hparse
    refine hparse.congr ?_
    simp [parseOperand, hcompletion, run_get, htype, tokenOperand, parseCharLiteral]
  | string herrors =>
    have hparse := parses_quoted AST_STRING_LITERAL (herrors _ hvalue)
    rw [quoted, hvalue] at hparse
    refine hparse.congr ?_
    simp [parseOperand, hcompletion, run_get, htype, tokenOperand, parseStringLiteral]
  | self =>
    obtain ⟨range, hbuild⟩ := run_build input { s with position := s.position + 1 }
      { start := (input.token s.position).position, tokens := [s.position] } AST_SELF
    refine ⟨.mk AST_SELF [] range [s.position] [], ?_, rfl⟩
    simp [parseOperand, hcompletion, run_get, htype, tokenOperand, parseSelf, run_buildNode,
      run_nodeConsume, run_isAt, run_peek, Token.is, hnext, hbuild]

/-- Nothing behind the operand continues it. -/
theorem Parses.postOperand (h : Parses (parseOperand input sub parser) s n t)
    (hfuel : 0 < input.fuel) (hends : Ends 0 (input.token (s.position + n)).type) :
    Parses (parsePostOperand input sub parser) s n t := by
  obtain ⟨node, hrun, htree⟩ := h
  obtain ⟨fuel, hfuel⟩ := Nat.exists_eq_succ_of_ne_zero (Nat.pos_iff_ne_zero.mp hfuel)
  have hne := hends.ne
  simp only [mem_cons, not_or] at hne
  refine ⟨node, ?_, htree⟩
  have hstep : (parsePostOperandStep input sub parser node).run
      { s with position := s.position + n }
      = some (.inr ⟨node, true⟩, { s with position := s.position + n }) := by
    simp only [parsePostOperandStep, StateT.run_bind, run_get, bind_eq_bind, bind_some]
    split
    · exact absurd ‹_› hne.1
    · exact absurd ‹_› hne.2.1
    · exact absurd ‹_› hne.2.2.1
    · exact absurd ‹_› hne.2.2.2.1
    · rfl
  simp [parsePostOperand, hrun, hfuel, whileTrue, hstep]

/-- What is in parentheses is an expression of its own. -/
theorem parses_paren {body : List Lexeme}
    (h : At input s.position (lparen :: body ++ [rparen]))
    (hbody : Parses (sub.expr { allowStructLiterals := true })
      { s with position := s.position + 1 } body.length t) :
    Parses (parseOperand input sub parser) s (body.length + 2) t := by
  obtain ⟨node, hrun, rfl⟩ := hbody
  obtain ⟨hopen, -, hrest⟩ := h
  obtain ⟨-, hclose, -⟩ := at_append.mp hrest
  have hclose' : (input.token (s.position + 1 + body.length)).type = TKN_RPAREN := hclose
  have hopen' : (input.token s.position).type = TKN_LPAREN := hopen
  have hcompletion : (isAtCompletionPoint input).run s = some (false, s) :=
    run_isAtCompletionPoint (by rw [hopen']; decide)
  obtain ⟨range, hbuild⟩ := run_build input { s with position := s.position + 1 + body.length + 1 }
    { start := (input.token s.position).position
      tokens := [s.position] ++ [s.position + 1 + body.length]
      children := [node] } AST_PAREN_EXPR
  have hlength : s.position + (body.length + 2) = s.position + 1 + body.length + 1 := by omega
  refine ⟨.mk AST_PAREN_EXPR [] range [s.position, s.position + 1 + body.length] [node], ?_, ?_⟩
  · simp [parseOperand, hcompletion, run_get, hopen', tokenOperand, parseParenExpr, run_buildNode,
      run_nodeConsume, run_isAt, Token.is, hclose', hrun]
    rw [hlength]
    exact hbuild
  · rw [tree, if_pos rfl]

theorem Parses.unaryLevel (h : Parses (parsePostOperand input sub parser) s n t)
    (hop : unaryOperator (input.token s.position).type = none) :
    Parses (parseUnaryLevel input sub parser) s n t := by
  refine h.congr ?_
  simp [parseUnaryLevel, run_get, hop]

variable (input) in
/-- What a level does after the operator of one operand. -/
def parseUnaryOperand (node : NodeBuilder) (type : ASTNodeType) : ParserM ParseResult := do
  let result ← sub.unaryLevel parser
  return { node := ← (node.appendChild result.node).build input type, isValid := result.isValid }

theorem Parses.unaryOperand (h : Parses (sub.unaryLevel parser) s n t)
    (start : ℕ) (tokens : List ℕ) {type : ASTNodeType} (htype : type ≠ AST_PAREN_EXPR) :
    Parses (parseUnaryOperand input sub parser { start, tokens } type) s n
      (.unary type t) := by
  obtain ⟨node, hrun, rfl⟩ := h
  obtain ⟨range, hbuild⟩ := run_build input { s with position := s.position + n }
    (({ start, tokens } : NodeBuilder).appendChild node) type
  refine ⟨_, ?_, tree_of_ne htype [] range tokens node⟩
  simp only [parseUnaryOperand, StateT.run_bind, hrun, bind_eq_bind, bind_some]
  rw [hbuild]
  rfl

theorem run_parseUnaryLevel (op : UnaryOp) (h : At input s.position op.lexemes)
    (hmut : (input.token (s.position + op.lexemes.length)).type ≠ TKN_MUT) : ∃ start tokens,
    (parseUnaryLevel input sub parser).run s
      = (parseUnaryOperand input sub parser { start, tokens } op.node).run
        { s with position := s.position + op.lexemes.length } := by
  refine ⟨(input.token s.position).position,
    if op = .REF_MUT then [s.position, s.position + 1] else [s.position], ?_⟩
  cases op with
  | REF_MUT =>
    obtain ⟨hfirst, -, hsecond, -⟩ := h
    have href : (input.token s.position).type = TKN_REF := hfirst
    have hmut : (input.token (s.position + 1)).type = TKN_MUT := hsecond
    simp [parseUnaryLevel, run_get, href, unaryOperator, run_buildNode, run_nodeConsume, run_isAt,
      Token.is, hmut, parseUnaryOperand]
    rfl
  | REF =>
    have href : (input.token s.position).type = TKN_REF := h.1
    have hmut : (input.token (s.position + 1)).type ≠ TKN_MUT := hmut
    simp [parseUnaryLevel, run_get, href, unaryOperator, run_buildNode, run_nodeConsume, run_isAt,
      Token.is, hmut, parseUnaryOperand]
    rfl
  | _ =>
    have htype := h.1
    simp [parseUnaryLevel, run_get, htype, unaryOperator, run_buildNode, run_nodeConsume, run_isAt,
      Token.is, parseUnaryOperand, UnaryOp.lexeme, UnaryOp.lexemes, UnaryOp.node]

/-- An operator of one operand and what it is in front of; `ref` takes a `mut` behind it. -/
theorem parses_unary (op : UnaryOp) (h : At input s.position op.lexemes)
    (hmut : (input.token (s.position + op.lexemes.length)).type ≠ TKN_MUT)
    (hoperand : Parses (sub.unaryLevel parser)
      { s with position := s.position + op.lexemes.length } n t) :
    Parses (parseUnaryLevel input sub parser) s (op.lexemes.length + n) (.unary op.node t) := by
  obtain ⟨start, tokens, hrun⟩ := run_parseUnaryLevel sub parser op h hmut
  have hne : op.node ≠ AST_PAREN_EXPR := by
    cases op <;> decide
  obtain ⟨node, hparse, htree⟩ := hoperand.unaryOperand sub parser start tokens hne
  rw [← hrun] at hparse
  simp only [Nat.add_assoc] at hparse
  exact ⟨node, hparse, htree⟩

theorem Parses.resultLevel (h : Parses (parseUnaryLevel input sub parser) s n t)
    (hends : Ends 0 (input.token (s.position + n)).type) :
    Parses (levelParser input sub parser 0) s n t := by
  obtain ⟨node, hrun, htree⟩ := h
  have hne := hends.ne
  simp only [mem_cons, not_or] at hne
  refine ⟨node, ?_, htree⟩
  simp [levelParser, parseResultLevel, hrun, run_isAt, Token.is, hne.2.2.2.2.1]

end Operands

/-! ## Expressions -/

section Expressions

variable (input : Input)

/-- The loop of a level is at the end of an operand, with the tree of what is in front; at most as
many rounds as tokens have been made. -/
def Spine (sub : Subparsers) (parser : ExprParser) (rank : ℕ) (s : State) (n : ℕ) (t : Tree) :
    Prop :=
  ∃ node fuel, tree node = t ∧ input.fuel ≤ fuel + n ∧
    (levelParser input sub parser (rank + 1)).run s
      = (whileTrue (parseLevelStep input (levelParser input sub parser rank) (operators (rank + 1)))
        fuel node).run { s with position := s.position + n }

/-- The expression is parsed at calls of a depth: as the operand of an operator in front of it, and
without parentheses by the level of its rank. -/
structure Parsed (depth : ℕ) (e : Expr) : Prop where
  unary : ∀ parser s, At input s.position (e.lexemes 0) →
    Ends 0 (input.token (s.position + (e.lexemes 0).length)).type →
    (e.lexemes 0).length < input.fuel →
    Parses (parseUnaryLevel input (subparsers input depth) parser) s (e.lexemes 0).length e.tree
  spine : ∀ parser s rank, e.rank = rank + 1 → At input s.position e.body →
    Ends rank (input.token (s.position + e.body.length)).type → e.body.length < input.fuel →
    Spine input (subparsers input depth) parser rank s e.body.length e.tree

variable {input} {s : State} {depth : ℕ} {e l r : Expr}

variable {rank : ℕ}

theorem Spine.complete {sub : Subparsers} {n : ℕ} {t : Tree} (h : Spine input sub parser rank s n t)
    (hn : n < input.fuel) (hends : Ends (rank + 1) (input.token (s.position + n)).type) :
    Parses (levelParser input sub parser (rank + 1)) s n t := by
  obtain ⟨node, fuel, htree, hfuel, hrun⟩ := h
  obtain ⟨rest, rfl⟩ := Nat.exists_eq_succ_of_ne_zero (show fuel ≠ 0 by omega)
  exact ⟨node, hrun.trans (run_level_end (hends.operators (Nat.le_refl _)) _ _), htree⟩

theorem rank_le_loosest (e : Expr) : e.rank ≤ 11 := by
  cases e with
  | operand a => exact Nat.zero_le _
  | unary op e => exact Nat.zero_le _
  | binary op l r => exact rank_le op

variable {place : ℕ}

theorem lexemes_of_le (h : e.rank ≤ place) : e.lexemes place = e.body :=
  if_neg (Nat.not_lt.mpr h)

theorem lexemes_of_lt (h : place < e.rank) : e.lexemes place = lparen :: e.body ++ [rparen] :=
  if_pos h

/-- Enclosed or not, the expression is parsed by the level of its place. -/
theorem Parsed.level (h : Parsed input depth e) (parser : ExprParser)
    (hat : At input s.position (e.lexemes place))
    (hends : Ends place (input.token (s.position + (e.lexemes place).length)).type)
    (hfuel : (e.lexemes place).length < input.fuel) :
    Parses (levelParser input (subparsers input depth) parser place) s (e.lexemes place).length
      e.tree := by
  have hpos : 0 < input.fuel := Nat.lt_of_le_of_lt (Nat.zero_le _) hfuel
  by_cases hrank : e.rank = 0 ∨ place < e.rank
  · have hzero : e.lexemes place = e.lexemes 0 := by
      obtain hrank | hrank := hrank
      · rw [lexemes_of_le (hrank ▸ Nat.zero_le _), lexemes_of_le (Nat.le_of_eq hrank)]
      · rw [lexemes_of_lt hrank, lexemes_of_lt (Nat.lt_of_le_of_lt (Nat.zero_le _) hrank)]
    rw [hzero] at hat hends hfuel ⊢
    have hends' := hends.mono (Nat.zero_le place)
    exact ((h.unary parser s hat hends' hfuel).resultLevel _ parser hends').climb hpos
      (Nat.zero_le _) hends
  · rw [not_or, Nat.not_lt] at hrank
    obtain ⟨rank, heq⟩ := Nat.exists_eq_succ_of_ne_zero hrank.1
    rw [lexemes_of_le hrank.2] at hat hends hfuel ⊢
    have hle : rank + 1 ≤ place := by omega
    have hspine := h.spine parser s rank heq hat
      (hends.mono (Nat.le_trans (Nat.le_succ _) hle)) hfuel
    exact (hspine.complete hfuel (hends.mono hle)).climb hpos hle hends

/-- At the left end of a level stands an expression of its rank, or an operand of it. -/
theorem Parsed.spineAt (h : Parsed input depth e) (parser : ExprParser)
    (hat : At input s.position (e.lexemes (rank + 1)))
    (hends : Ends rank (input.token (s.position + (e.lexemes (rank + 1)).length)).type)
    (hfuel : (e.lexemes (rank + 1)).length < input.fuel) :
    Spine input (subparsers input depth) parser rank s (e.lexemes (rank + 1)).length e.tree := by
  by_cases heq : e.rank = rank + 1
  · rw [lexemes_of_le (Nat.le_of_eq heq)] at hat hends hfuel ⊢
    exact h.spine parser s rank heq hat hends hfuel
  · have hsame : e.lexemes (rank + 1) = e.lexemes rank := by
      by_cases hle : e.rank ≤ rank
      · rw [lexemes_of_le (Nat.le_succ_of_le hle), lexemes_of_le hle]
      · rw [lexemes_of_lt (by omega), lexemes_of_lt (by omega)]
    rw [hsame] at hat hends hfuel ⊢
    obtain ⟨node, hrun, htree⟩ := h.level parser hat hends hfuel
    exact ⟨node, input.fuel, htree, Nat.le_add_right _ _, run_parseLevel hrun _⟩

variable {lexeme : Lexeme} {node : ASTNodeType} {value : List Char}

theorem IsOperand.unaryOperator_eq
    (h : IsOperand lexeme node value) : unaryOperator lexeme.type = none := by
  cases h with
  | token h =>
    obtain ⟨type, text⟩ := lexeme
    cases type <;> first | rfl | cases h
  | _ => rfl

theorem parsed_operand (a : Operand) : Parsed input depth (.operand a) where
  unary := by
    intro parser s hat hends hfuel
    have hpos : 0 < input.fuel := Nat.lt_of_le_of_lt (Nat.zero_le _) hfuel
    have hdot : (input.token (s.position + 1)).type ≠ TKN_DOT := fun h ↦
      hends.ne (h ▸ mem_cons_self)
    refine ((parses_operand _ parser a hat hdot).postOperand _ parser hpos
      hends).unaryLevel _ parser
      ?_
    rw [hat.1]
    exact a.isOperand.unaryOperator_eq
  spine := fun _ _ _ hrank ↦ nomatch hrank

theorem IsOperand.ne_mut (h : IsOperand lexeme node value) : lexeme.type ≠ TKN_MUT := by
  intro heq
  cases h with
  | token h =>
    rw [heq] at h
    cases h
  | _ => cases heq

/-- An expression does not start with the `mut` that could belong to a `ref` in front of it. -/
theorem body_head (e : Expr) : ∃ first rest, e.body = first :: rest ∧ first.type ≠ TKN_MUT := by
  induction e with
  | operand a => exact ⟨a.lexeme, [], rfl, a.isOperand.ne_mut⟩
  | unary op e ih => cases op <;> exact ⟨_, _, rfl, by decide⟩
  | binary op l r ihl ihr =>
    obtain ⟨first, rest, heq, hne⟩ := ihl
    rw [Expr.body, Expr.enclose, heq]
    split_ifs
    · exact ⟨lparen, _, rfl, by decide⟩
    · exact ⟨first, _, rfl, hne⟩

theorem lexemes_head (place : ℕ) (e : Expr) :
    ∃ first rest, e.lexemes place = first :: rest ∧ first.type ≠ TKN_MUT := by
  by_cases h : place < e.rank
  · exact ⟨lparen, _, lexemes_of_lt h, by decide⟩
  · rw [lexemes_of_le (Nat.not_lt.mp h)]
    exact body_head e

theorem Parsed.of_unary (op : UnaryOp) (h : Parsed input depth e) :
    Parsed input (depth + 1) (.unary op e) where
  unary := by
    intro parser s hat hends hfuel
    have hlexemes : (Expr.unary op e).lexemes 0 = op.lexemes ++ e.lexemes 0 := rfl
    rw [hlexemes, length_append] at hends hfuel ⊢
    rw [hlexemes] at hat
    obtain ⟨hop, he⟩ := at_append.mp hat
    have hmut : (input.token (s.position + op.lexemes.length)).type ≠ TKN_MUT := by
      obtain ⟨first, rest, heq, hne⟩ := lexemes_head 0 e
      rw [heq] at he
      rw [he.1]
      exact hne
    refine parses_unary _ parser op hop hmut ?_
    exact h.unary parser _ he (by rwa [← Nat.add_assoc] at hends) (by omega)
  spine := fun _ _ _ hrank ↦ nomatch hrank

/-- The left operand starts the loop of the level, and the right one ends a round of it. -/
theorem Parsed.binary_spine (op : BinaryOp) (hl : Parsed input depth l) (hr : Parsed input depth r)
    (parser : ExprParser) (s : State) (hrank : op.rank = rank + 1)
    (hat : At input s.position (Expr.binary op l r).body)
    (hends : Ends rank (input.token (s.position + (Expr.binary op l r).body.length)).type)
    (hfuel : (Expr.binary op l r).body.length < input.fuel) :
    Spine input (subparsers input depth) parser rank s (Expr.binary op l r).body.length
      (Expr.binary op l r).tree := by
  have hbody : (Expr.binary op l r).body
      = l.lexemes (rank + 1) ++ op.lexeme :: r.lexemes rank := by
    rw [Expr.body, hrank]
    rfl
  rw [hbody] at hat hends hfuel ⊢
  rw [length_append, length_cons] at hends hfuel ⊢
  obtain ⟨hleft, hop, -, hright⟩ := at_append.mp hat
  have hleftEnds : Ends rank (input.token (s.position + (l.lexemes (rank + 1)).length)).type :=
    .inr (.inr ⟨op, hop.symm, by omega⟩)
  obtain ⟨node, fuel, htree, hle, hrun⟩ := hl.spineAt parser hleft hleftEnds (by omega)
  obtain ⟨rest, rfl⟩ := Nat.exists_eq_succ_of_ne_zero (show fuel ≠ 0 by omega)
  have hops : operators (rank + 1) (input.token (s.position + (l.lexemes (rank + 1)).length)).type
      = some op.node := by
    rw [hop, ← hrank]
    exact operators_self op
  have hrightEnds : Ends rank (input.token (s.position + (l.lexemes (rank + 1)).length + 1
      + (r.lexemes rank).length)).type := by
    have hsum : s.position + (l.lexemes (rank + 1)).length + 1 + (r.lexemes rank).length
        = s.position + ((l.lexemes (rank + 1)).length + ((r.lexemes rank).length + 1)) := by omega
    rwa [hsum]
  have hrhs := hr.level parser (s := { s with
    position := s.position + (l.lexemes (rank + 1)).length + 1 }) hright hrightEnds (by omega)
  obtain ⟨node', htree', hstep⟩ := run_level_step (s := { s with
    position := s.position + (l.lexemes (rank + 1)).length }) hops hrhs rest node
  refine ⟨node', rest, ?_, by omega, ?_⟩
  · rw [htree', htree]
    rfl
  · rw [hrun, hstep]
    congr 2
    dsimp only
    omega

theorem Parsed.of_binary (op : BinaryOp) (hl : Parsed input depth l) (hr : Parsed input depth r)
    (hl' : Parsed input (depth + 1) l) (hr' : Parsed input (depth + 1) r) :
    Parsed input (depth + 1) (.binary op l r) where
  unary := by
    intro parser s hat hends hfuel
    obtain ⟨rank, hrank⟩ := Nat.exists_eq_succ_of_ne_zero (Nat.pos_iff_ne_zero.mp (rank_pos op))
    have hlexemes : (Expr.binary op l r).lexemes 0
        = lparen :: (Expr.binary op l r).body ++ [rparen] := lexemes_of_lt (rank_pos op)
    rw [hlexemes] at hat hends hfuel ⊢
    have hlength : (lparen :: (Expr.binary op l r).body ++ [rparen]).length
        = (Expr.binary op l r).body.length + 2 := by simp
    rw [hlength] at hends hfuel ⊢
    obtain ⟨hbody, hclose, -⟩ := at_append.mp hat.2.2
    have hends' (place : ℕ) : Ends place
        (input.token (s.position + 1 + (Expr.binary op l r).body.length)).type := .inl hclose
    have hinner := hl.binary_spine op hr { allowStructLiterals := true }
      { s with position := s.position + 1 } hrank hbody (hends' _) (by omega)
    have hexpr := (hinner.complete (by omega) (hends' _)).climb (by omega)
      (by have := rank_le op; omega) (hends' 11)
    refine ((parses_paren _ parser hat hexpr).postOperand _ parser (by omega) hends).unaryLevel _
      parser ?_
    rw [hat.1]
    rfl
  spine := fun parser s _ hrank ↦ hl'.binary_spine op hr' parser s hrank

/-- How deep the calls for an expression go. -/
def depthOf : Expr → ℕ
  | .operand _ => 0
  | .unary _ e => depthOf e + 1
  | .binary _ l r => max (depthOf l) (depthOf r) + 1

theorem parsed (e : Expr) (h : depthOf e ≤ depth) : Parsed input depth e := by
  induction e generalizing depth with
  | operand a => exact parsed_operand a
  | unary op e ih =>
    obtain ⟨depth, rfl⟩ : ∃ d, depth = d + 1 :=
      Nat.exists_eq_add_of_le' (by rw [depthOf] at h; omega)
    rw [depthOf] at h
    exact (ih (by omega)).of_unary op
  | binary op l r ihl ihr =>
    obtain ⟨depth, rfl⟩ : ∃ d, depth = d + 1 :=
      Nat.exists_eq_add_of_le' (by rw [depthOf] at h; omega)
    rw [depthOf] at h
    exact .of_binary op (ihl (by omega)) (ihr (by omega)) (ihl (by omega)) (ihr (by omega))

end Expressions

/-! ## Texts -/

section Text

theorem isToken_lparen : IsToken lparen := .punctuation (by
  rintro _ (rfl | ⟨rest, rfl⟩) <;> rfl)

theorem isToken_rparen : IsToken rparen := .punctuation (by
  rintro _ (rfl | ⟨rest, rfl⟩) <;> rfl)

theorem isToken_keyword {c : Char} {rest : List Char}
    (hc : Lexer.isIdentifierStartChar c = true) (hrest : rest.all Lexer.isIdentifierChar = true)
    (h : Lexer.KEYWORDS.lookup (String.ofList (c :: rest)) = some type) :
    IsToken ⟨type, c :: rest⟩ := by
  have hname := IsToken.name hc hrest
  rwa [h] at hname

theorem BinaryOp.isToken (op : BinaryOp) : IsToken op.lexeme := by
  cases op with
  | CAST => exact isToken_keyword rfl rfl rfl
  | TYPE_CHECK => exact isToken_keyword rfl rfl rfl
  | _ => exact .punctuation (by rintro _ (rfl | ⟨rest, rfl⟩) <;> rfl)

theorem isToken_unaryLexeme (op : UnaryOp) : IsToken op.lexeme := by
  cases op with
  | REF => exact isToken_keyword rfl rfl rfl
  | REF_MUT => exact isToken_keyword rfl rfl rfl
  | SHARE => exact isToken_keyword rfl rfl rfl
  | TRY => exact isToken_keyword rfl rfl rfl
  | _ => exact .punctuation (by rintro _ (rfl | ⟨rest, rfl⟩) <;> rfl)

theorem UnaryOp.isToken (op : UnaryOp) : ∀ l ∈ op.lexemes, IsToken l := by
  have hop := isToken_unaryLexeme op
  cases op with
  | REF_MUT =>
    refine forall_mem_cons.mpr ⟨hop, forall_mem_singleton.mpr ?_⟩
    exact isToken_keyword rfl rfl rfl
  | _ => exact forall_mem_singleton.mpr hop

theorem isToken_enclose {rank : ℕ} {body : List Lexeme} (h : ∀ l ∈ body, IsToken l) :
    ∀ l ∈ Expr.enclose place rank body, IsToken l := by
  rw [Expr.enclose]
  split_ifs
  · exact forall_mem_cons.mpr ⟨isToken_lparen,
      forall_mem_append.mpr ⟨h, forall_mem_singleton.mpr isToken_rparen⟩⟩
  · exact h

variable (e : Expr)

theorem isToken_body : ∀ l ∈ e.body, IsToken l := by
  induction e with
  | operand a => exact forall_mem_singleton.mpr a.isToken
  | unary op e ih => exact forall_mem_append.mpr ⟨op.isToken, isToken_enclose ih⟩
  | binary op l r ihl ihr =>
    exact forall_mem_append.mpr ⟨isToken_enclose ihl,
      forall_mem_cons.mpr ⟨op.isToken, isToken_enclose ihr⟩⟩

/-- A call is never deeper than there are tokens. -/
theorem depthOf_le : depthOf e ≤ e.body.length := by
  have hplace (e : Expr) (place : ℕ) : e.body.length ≤ (e.lexemes place).length := by
    rw [Expr.lexemes, Expr.enclose]
    split_ifs
    · rw [cons_append, length_cons, length_append]
      omega
    · exact Nat.le_refl _
  induction e with
  | operand a => exact Nat.zero_le _
  | unary op e ih =>
    have hop : 0 < op.lexemes.length := by
      cases op <;> exact Nat.succ_pos _
    have hlength : (Expr.unary op e).body.length = op.lexemes.length + (e.lexemes 0).length :=
      length_append
    have := hplace e 0
    rw [depthOf]
    omega
  | binary op l r ihl ihr =>
    have hlength : (Expr.binary op l r).body.length
        = (l.lexemes op.rank).length + ((r.lexemes (op.rank - 1)).length + 1) :=
      length_append
    have hl := hplace l op.rank
    have hr := hplace r (op.rank - 1)
    rw [depthOf]
    omega

theorem at_of_map {input : Input} {tokens rest : List Token} (front : List Token)
    (h : input.tokens = front ++ tokens ++ rest) :
    At input front.length (tokens.map Lexeme.ofToken) := by
  induction tokens generalizing front with
  | nil => trivial
  | cons token tokens ih =>
    have hget : input.token front.length = token := by
      simp [Input.token, h]
    refine ⟨by rw [hget]; rfl, by rw [hget]; rfl, ?_⟩
    have hrest := ih (front ++ [token]) (by simpa using h)
    rwa [length_append, length_singleton] at hrest

/-- **What an expression is written as is parsed as that expression**, up to the end of the text and
without a report. -/
theorem parse_print (e : Expr) (mode : Lexer.Mode) (optionalSemicolons : Bool) (parser : ExprParser)
    {input : Input}
    (htokens : input.tokens = (tokenize ⟨mode, optionalSemicolons, none⟩ e.print).tokens)
    (hfuel : 2 * input.tokens.length + 1 < input.fuel) : ∃ node position,
    (ExprParser.parse input (subparsers input input.fuel) parser).run { position := 0 }
        = some (⟨node, true⟩, { position }) ∧
      tree node = e.tree ∧ (input.token position).type = TKN_EOF := by
  obtain ⟨tokens, stop, htokenize, hlexemes⟩ :=
    Lexer.tokenize_written ⟨mode, optionalSemicolons, none⟩ rfl (isToken_body e)
  have hinput : input.tokens = tokens ++ [Lexer.eofToken stop, Lexer.eofToken stop] :=
    htokens.trans htokenize
  have hloosest : e.lexemes 11 = e.body := lexemes_of_le (rank_le_loosest e)
  have hlength : e.body.length = tokens.length := by
    rw [← hlexemes, length_map]
  have hsize := congrArg List.length hinput
  rw [length_append] at hsize
  have hat : At input 0 (e.lexemes 11) := by
    rw [hloosest, ← hlexemes]
    exact at_of_map [] hinput
  have heof : (input.token (0 + (e.lexemes 11).length)).type = TKN_EOF := by
    rw [hloosest, hlength, Nat.zero_add, Input.token, hinput]
    simp [Lexer.eofToken]
  have hparsed : Parsed input input.fuel e := parsed e (by have := depthOf_le e; omega)
  obtain ⟨node, hrun, htree⟩ := hparsed.level parser (s := { position := 0 }) hat
    (.inr (.inl heof)) (by rw [hloosest]; omega)
  exact ⟨node, _, hrun, htree, heof⟩

/-- An identifier of one letter. -/
def letter (c : Char) (hc : Lexer.isIdentifierStartChar c = true)
    (h : Lexer.KEYWORDS.lookup (String.ofList [c]) = none) : Operand where
  lexeme := ⟨TKN_IDENTIFIER, [c]⟩
  node := AST_IDENTIFIER
  value := [c]
  isToken := by
    have hname : IsToken ⟨(Lexer.KEYWORDS.lookup (String.ofList [c])).getD TKN_IDENTIFIER, [c]⟩ :=
      .name hc rfl
    rwa [h] at hname
  isOperand := .token rfl

/-- `- ( a + b ) * c` -/
def negatedSum : Expr :=
  .binary .MUL
    (.unary .NEG (.binary .ADD (.operand (letter 'a' rfl rfl)) (.operand (letter 'b' rfl rfl))))
    (.operand (letter 'c' rfl rfl))

example : negatedSum.print = "- ( a + b ) * c".toList := by decide

def negatedSumInput : Input :=
  ⟨(tokenize ⟨.COMPILATION, false, none⟩ negatedSum.print).tokens, false, 22, Lexer.eofToken 0, rfl⟩

theorem parse_print_negatedSum : ∃ node position,
    (ExprParser.parse negatedSumInput (subparsers negatedSumInput 22) {}).run { position := 0 }
        = some (⟨node, true⟩, { position }) ∧
      tree node = negatedSum.tree ∧ (negatedSumInput.token position).type = TKN_EOF :=
  parse_print negatedSum .COMPILATION false {} rfl (by decide)

end Text

end Banjo.ExprParser
