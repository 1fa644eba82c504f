import Banjo.Parser.TokenStream

/-!
# Lists and attributes

The parsers of lists and attributes take the parser of an element as an argument.
-/

namespace Banjo.Parser

open TokenStream TokenType ASTNodeType

variable (input : Input)

/-! ## Lists -/

structure ListState where
  node : NodeBuilder
  isValid : Bool

/-- What follows an element: the terminator, a comma, or something unexpected. -/
def parseListSeparator (type : ASTNodeType) (terminator : TokenType) (consumeTerminator : Bool)
    (state : ListState) : ParserM (ListState ⊕ ParseResult) := do
  if (← isAt input terminator) then
    let node ← if consumeTerminator then state.node.consume input else pure state.node
    return .inr { node := ← node.build input type }
  else if (← isAt input TKN_COMMA) then
    return .inl { state with node := ← state.node.consume input }
  else
    reportUnexpectedToken input
    recover input
    modify fun state ↦ { state with skipStmtDeclRecovery := true }
    return .inr { node := ← state.node.build input type, isValid := false }

/-- One round of the loop: an element and what follows it. -/
def parseListStep (type : ASTNodeType) (terminator : TokenType)
    (elementParser : ParserM ParseResult) (consumeTerminator : Bool) (state : ListState) :
    ParserM (ListState ⊕ ParseResult) := do
  if (← isAt input terminator) then
    let node ← if consumeTerminator then state.node.consume input else pure state.node
    return .inr { node := ← node.build input type, isValid := state.isValid }
  else
    let result ← elementParser
    let node := state.node.appendChild result.node
    if result.isValid then
      parseListSeparator input type terminator consumeTerminator { state with node }
    else if (← isAt input TKN_COMMA) then
      -- Only the current element is incomplete.
      let node ← node.consume input
      parseListSeparator input type terminator consumeTerminator { node, isValid := false }
    else
      return .inr { node := ← node.build input type, isValid := false }

def parseList (type : ASTNodeType) (terminator : TokenType) (elementParser : ParserM ParseResult)
    (consumeTerminator : Bool := true) : ParserM ParseResult := do
  let node ← buildNode input
  let node ← node.consume input
  whileTrue (parseListStep input type terminator elementParser consumeTerminator) input.fuel
    { node, isValid := true }

/-! ## Attributes -/

def parseAttribute : ParserM ParseResult := do
  if (← peek input 1).is TKN_EQ then
    let node ← buildNode input
    let node := node.appendChild (← consumeIntoNode input AST_IDENTIFIER)
    let node ← node.consume input
    let node := node.appendChild (← consumeIntoNode input AST_IDENTIFIER)
    return { node := ← node.build input AST_ATTRIBUTE_VALUE }
  else
    return { node := ← consumeIntoNode input AST_ATTRIBUTE_TAG }

def parseAttributeList : ParserM ParseResult := do
  if (← isAt input TKN_LBRACKET) then
    parseList input AST_ATTRIBUTE_LIST TKN_RBRACKET (parseAttribute input)
  else
    let node ← buildNode input
    let node := node.appendChild (← parseAttribute input).node
    return { node := ← node.build input AST_ATTRIBUTE_LIST }

def parseAttributeWrapper (childParser : ParserM ParseResult) : ParserM ParseResult := do
  let node ← buildNode input
  let node ← node.consume input
  let node := node.appendChild (← parseAttributeList input).node
  let node := node.appendChild (← childParser).node
  return { node := ← node.build input AST_ATTRIBUTE_WRAPPER }

end Banjo.Parser

/-!
## Blocks

The parsers call each other in a cycle, always behind a token they have read. `Subparsers` are those
that a parser calls one level deeper.
-/

namespace Banjo

/-- How an expression is parsed. -/
structure ExprParser where
  allowStructLiterals : Bool := false
  typeExpected : Bool := false
  deriving DecidableEq, Repr

namespace Parser

open TokenStream TokenType ASTNodeType

structure Subparsers where
  expr : ExprParser → ParserM ParseResult
  unaryLevel : ExprParser → ParserM ParseResult
  type : ParserM ParseResult
  param : ParserM ParseResult
  useTree : ParserM ParseResult
  blockChild : ParserM ParseResult

variable (input : Input) (sub : Subparsers)

/-! ## Blocks -/

def parseAndAppendBlockChild (node : NodeBuilder) : ParserM NodeBuilder := do
  let result ← sub.blockChild
  let node := node.appendChild result.node
  if (← getThe State).skipStmtDeclRecovery then
    modify fun state ↦ { state with skipStmtDeclRecovery := false }
  else if !result.isValid then
    recover input
  return node

/-- One round of the loop over the children of a block. -/
def parseBlockStep (node : NodeBuilder) : ParserM (NodeBuilder ⊕ ParseResult) := do
  if (← isAt input TKN_RBRACE) then
    let node ← node.consume input
    return .inr { node := ← node.build input AST_BLOCK }
  else if (← isAt input TKN_EOF) then
    report (.unclosedBlock (← previous input))
    return .inr (node.buildError AST_BLOCK)
  else
    return .inl (← parseAndAppendBlockChild input sub node)

def parseBlock : ParserM ParseResult := do
  let node ← buildNode input
  if (← isAt input TKN_LBRACE) then
    let node ← node.consume input
    whileTrue (parseBlockStep input sub) input.fuel node
  else
    reportExpected input TKN_LBRACE
    return node.buildError AST_ERROR

/-! ## Parameters and return types -/

def parseParamList (terminator : TokenType := TKN_RPAREN) : ParserM ParseResult :=
  parseList input AST_PARAM_LIST terminator sub.param

def parseReturnType : ParserM ParseResult := do
  if (← isAt input TKN_REF) then
    let node ← buildNode input
    let mut node ← node.consume input
    let mut isMut := false
    if (← isAt input TKN_MUT) then
      isMut := true
      node ← node.consume input
    let result ← sub.type
    node := node.appendChild result.node
    return { node := ← node.build input (if isMut then AST_REF_MUT_RETURN else AST_REF_RETURN) }
  else
    sub.type

end Parser

end Banjo
