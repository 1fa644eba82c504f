import Banjo.Parser.ASTNode
import Mathlib.Control.Monad.Basic

/-!
# The token stream and the state of the parser

The parser reads its tokens through a position. What lies behind the last token reads as an end of
file. Loops and calls are bounded by the fuel of the input, and a parser without a result has used
it up.
-/

namespace Banjo

open TokenType ASTNodeType

namespace Parser

structure Input where
  tokens : List Token
  runningCompletion : Bool
  /-- How often a loop runs at most, and how deep the parsers call each other. -/
  fuel : ℕ
  /-- What is read behind the last token. -/
  eof : Token
  eof_type : eof.type = TKN_EOF

inductive Report where
  | unexpectedToken (token : Token)
  | expected (token : Token) (type : TokenType)
  | expectedIdent (token : Token)
  | unclosedBlock (token : Token)
  | invalidCharLiteral (token : Token)
  | invalidEscapeSequence (position : ℕ)
  | invalidIntLiteral (token : Token)
  | intLiteralTooLarge (token : Token)
  | invalidFpLiteral (token : Token)
  deriving DecidableEq, Repr

structure State where
  position : ℕ
  prevRecoverPos : Option ℕ := none
  skipStmtDeclRecovery : Bool := false
  completionNode : Option ASTNode := none
  reports : List Report := []

end Parser

abbrev ParserM := StateT Parser.State Option

namespace Parser

def Input.token (input : Input) (index : ℕ) : Token := input.tokens[index]?.getD input.eof

/-- A `while` loop that ends when its body returns a result. -/
def whileTrue {α β : Type} (body : β → ParserM (β ⊕ α)) : ℕ → β → ParserM α
  | 0, _ => failure
  | fuel + 1, b => do
    match ← body b with
    | .inl next => whileTrue body fuel next
    | .inr result => return result

end Parser

open Banjo.Parser

variable (input : Input)

namespace TokenStream

def get : ParserM Token := do return input.token (← getThe State).position

def consume : ParserM Token := do
  let state ← getThe State
  set { state with position := state.position + 1 }
  return input.token state.position

def peek (offset : ℕ) : ParserM Token := do
  return input.token ((← getThe State).position + offset)

def previous : ParserM Token := do
  let state ← getThe State
  if state.position > 0 then
    return input.token (state.position - 1)
  else
    return input.tokens.getLast?.getD input.eof

/-- Is the token at the position of this type? -/
def isAt (type : TokenType) : ParserM Bool := do return (← get input).is type

end TokenStream

open TokenStream

namespace Parser

def report (message : Report) : ParserM Unit :=
  modify fun state ↦ { state with reports := state.reports ++ [message] }

def reportUnexpectedToken : ParserM Unit := do report (.unexpectedToken (← get input))

def reportExpected (type : TokenType) : ParserM Unit := do report (.expected (← get input) type)

def reportExpectedIdent : ParserM Unit := do report (.expectedIdent (← get input))

end Parser

/-- A node that is being built. -/
structure NodeBuilder where
  start : ℕ
  stop : ℕ := 0
  tokens : List ℕ := []
  children : List ASTNode := []

namespace NodeBuilder

variable (node : NodeBuilder)

def consume : ParserM NodeBuilder := do
  let _ ← TokenStream.consume input
  let state ← getThe State
  return { node with tokens := node.tokens ++ [state.position - 1] }

def appendChild (child : ASTNode) : NodeBuilder :=
  { node with children := node.children ++ [child] }

def setStartPosition (start : ℕ) : NodeBuilder := { node with start }

def build (type : ASTNodeType) : ParserM ASTNode := do
  let previous ← previous input
  return .mk type [] ⟨node.start, previous.stop⟩ node.tokens node.children

def buildWithInferredRange (type : ASTNodeType) : ParserM ASTNode := do
  return (← node.build input type).setRangeFromChildren

/-- The tokens of a node that failed stay with the builder. -/
def buildError (type : ASTNodeType) : ParseResult where
  node := .mk type [] ⟨node.start, match node.children.getLast? with
    | some child => child.range.stop
    | none => node.stop⟩ [] node.children
  isValid := false

end NodeBuilder

namespace Parser

def buildNode : ParserM NodeBuilder := do return { start := (← get input).position }

/-- The token becomes a node of its own. -/
def consumeIntoNode (type : ASTNodeType) : ParserM ASTNode := do
  let token ← consume input
  let state ← getThe State
  return (ASTNode.ofToken type token).setTokens [state.position - 1]

def isAtCompletionPoint : ParserM Bool := do
  return input.runningCompletion && (← get input).is TKN_COMPLETION

def parseCompletionPoint : ParserM ASTNode := do
  let node := ASTNode.ofToken AST_COMPLETION_TOKEN (← consume input)
  modify fun state ↦ { state with completionNode := some node }
  return node

def createDummyBlock : ParserM ASTNode := do
  let token ← get input
  return .withRange AST_BLOCK ⟨token.position, token.position⟩

def checkStmtTerminator (builder : NodeBuilder) (type : ASTNodeType) : ParserM ParseResult := do
  if (← isAt input TKN_SEMI) then
    let builder ← builder.consume input
    return { node := ← builder.build input type }
  else if (← previous input).endOfLine then
    return { node := ← builder.build input type }
  else
    reportExpected input TKN_SEMI
    return builder.buildError type

/-! ## Recovery -/

/-- The tokens at which the recovery stops. -/
def isRecoveryPoint : TokenType → Bool
  | TKN_EOF | TKN_IF | TKN_WHILE | TKN_FOR | TKN_BREAK | TKN_CONTINUE | TKN_RETURN | TKN_VAR
  | TKN_CONST | TKN_FUNC | TKN_STRUCT | TKN_ENUM | TKN_UNION | TKN_PUB | TKN_NATIVE => true
  | _ => false

/-- Skips one token of a block; the result is the depth behind it. -/
def skipInBlock (depth : ℕ) : ParserM (ℕ ⊕ Unit) := do
  if depth > 0 then
    let _ ← consume input
    match (← get input).type with
    | TKN_LBRACE => return .inl (depth + 1)
    | TKN_RBRACE => return .inl (depth - 1)
    | TKN_EOF => return .inl 0
    | _ => return .inl depth
  else
    return .inr ()

/-- One round of the recovery, until it has come to a token to stop at. -/
def recoverStep (_ : Unit) : ParserM (Unit ⊕ Unit) := do
  let type := (← get input).type
  if isRecoveryPoint type then
    return .inr ()
  else if type = TKN_LBRACE then
    whileTrue (skipInBlock input) input.fuel 1
    -- The case of the opening brace falls through to the default one.
    let _ ← consume input
    return .inl ()
  else
    let _ ← consume input
    return .inl ()

def recover : ParserM Unit := do
  if (← isAt input TKN_EOF) then
    return
  let state ← getThe State
  -- Ensure forward progress.
  if some state.position = state.prevRecoverPos then
    let _ ← consume input
  whileTrue (recoverStep input) input.fuel ()
  modify fun state ↦ { state with prevRecoverPos := some state.position }

end Parser

end Banjo
