import Banjo.Parser.Literals
import Banjo.Parser.ParseBlock

/-!
# Expressions

The levels of precedence are parsed by one function each, from the loosest to the operands.
-/

namespace Banjo.ExprParser

open Banjo.Parser TokenStream TokenType ASTNodeType

variable (input : Input) (sub : Subparsers) (parser : ExprParser)

/-! ## Operands -/

def toResult (p : ParserM ASTNode) : ParserM ParseResult := do return { node := ← p }

structure ArrayState where
  type : ASTNodeType
  node : NodeBuilder

/-- What follows an element of an array literal. -/
def parseArraySeparator (state : ArrayState) : ParserM (ArrayState ⊕ ParseResult) := do
  if (← isAt input TKN_RBRACKET) then
    let node ← state.node.consume input
    return .inr { node := ← node.build input state.type }
  else if (← isAt input TKN_COMMA) then
    return .inl { state with node := ← state.node.consume input }
  else
    reportUnexpectedToken input
    return .inr { node := ← state.node.build input state.type, isValid := false }

/-- One round of the loop over the elements of an array literal. -/
def parseArrayStep (state : ArrayState) : ParserM (ArrayState ⊕ ParseResult) := do
  let node := state.node
  if (← isAt input TKN_RBRACKET) then
    let node ← node.consume input
    return .inr { node := ← node.build input state.type }
  else
    let result ← sub.expr { allowStructLiterals := true }
    if !result.isValid then
      return .inr result
    if (← isAt input TKN_COLON) then
      let pairNode ← buildNode input
      let pairNode := pairNode.appendChild result.node
      let pairNode ← pairNode.consume input
      let result ← sub.expr { allowStructLiterals := true }
      let pairNode := pairNode.appendChild result.node
      let node := node.appendChild (← pairNode.build input AST_MAP_LITERAL_ENTRY)
      parseArraySeparator input { type := AST_MAP_LITERAL, node }
    else if (← isAt input TKN_SEMI) then
      let node ← node.consume input
      let node := node.appendChild result.node
      let result ← sub.expr parser
      if result.isValid then
        parseArraySeparator input
          { type := AST_STATIC_ARRAY_TYPE, node := node.appendChild result.node }
      else
        return .inr (node.buildError AST_ERROR)
    else
      parseArraySeparator input { state with node := node.appendChild result.node }

def parseArrayLiteral : ParserM ParseResult := do
  let node ← buildNode input
  let node ← node.consume input
  whileTrue (parseArrayStep input sub parser) input.fuel { type := AST_ARRAY_LITERAL, node }

/-- One round of the loop over the elements of a tuple. -/
def parseTupleStep (node : NodeBuilder) : ParserM (NodeBuilder ⊕ NodeBuilder) := do
  if (← isAt input TKN_COMMA) then
    let node ← node.consume input
    if (← isAt input TKN_RPAREN) then
      return .inr node
    else
      let result ← sub.expr { allowStructLiterals := true }
      return .inl (node.appendChild result.node)
  else
    return .inr node

def parseParenExpr : ParserM ParseResult := do
  let node ← buildNode input
  let node ← node.consume input
  let result ← sub.expr { allowStructLiterals := true }
  if (← isAt input TKN_COMMA) then
    let node := node.appendChild result.node
    let node ← whileTrue (parseTupleStep input sub) input.fuel node
    let node ← node.consume input
    return { node := ← node.build input AST_TUPLE_EXPR }
  else
    let node ← node.consume input
    let node := node.appendChild result.node
    return { node := ← node.build input AST_PAREN_EXPR }

def parseStructLiteralEntry : ParserM ParseResult := do
  if (← isAtCompletionPoint input) then
    toResult (parseCompletionPoint input)
  else
    let node ← buildNode input
    if (← isAt input TKN_IDENTIFIER) then
      let node := node.appendChild (← consumeIntoNode input AST_IDENTIFIER)
      if (← isAt input TKN_COLON) then
        let node ← node.consume input
        let node := node.appendChild (← sub.expr parser).node
        return { node := ← node.build input AST_STRUCT_LITERAL_ENTRY }
      else
        return { node := ← node.build input AST_STRUCT_LITERAL_ENTRY }
    else
      reportExpectedIdent input
      return node.buildError AST_ERROR

def parseStructLiteralBody : ParserM ParseResult :=
  parseList input AST_STRUCT_LITERAL_ENTRY_LIST TKN_RBRACE
    (parseStructLiteralEntry input sub parser)

def parseAnonStructLiteral : ParserM ParseResult := do
  let node ← buildNode input
  if !parser.allowStructLiterals then
    reportUnexpectedToken input
    return node.buildError AST_ERROR
  let result ← parseStructLiteralBody input sub parser
  let node := node.appendChild result.node
  if !result.isValid then
    return node.buildError AST_TYPELESS_STRUCT_LITERAL
  return { node := ← node.build input AST_TYPELESS_STRUCT_LITERAL }

/-- The return type of a closure or function type, if there is an arrow. -/
def parseArrow (node : NodeBuilder) : ParserM NodeBuilder := do
  if (← isAt input TKN_ARROW) then
    let node ← node.consume input
    return node.appendChild (← parseReturnType input sub).node
  else
    return node.appendChild (.empty AST_EMPTY)

/-- What follows the parameters of a closure. -/
def parseClosureRest (node : NodeBuilder) : ParserM ParseResult := do
  let node ← parseArrow input sub node
  if !(← isAt input TKN_LBRACE) || parser.typeExpected then
    return { node := ← node.build input AST_CLOSURE_TYPE }
  let result ← parseBlock input sub
  if !result.isValid then
    return node.buildError AST_ERROR
  let node := node.appendChild result.node
  return { node := ← node.build input AST_CLOSURE_LITERAL }

def parseClosure : ParserM ParseResult := do
  let node ← buildNode input
  if (← isAt input TKN_OR_OR) then
    let node := node.appendChild (← consumeIntoNode input AST_PARAM_LIST)
    parseClosureRest input sub parser node
  else
    let result ← parseParamList input sub TKN_OR
    if !result.isValid then
      return node.buildError AST_ERROR
    parseClosureRest input sub parser (node.appendChild result.node)

def parseFuncType : ParserM ParseResult := do
  let node ← buildNode input
  let node ← node.consume input
  if !(← isAt input TKN_LPAREN) then
    reportUnexpectedToken input
    return node.buildError AST_ERROR
  let result ← parseParamList input sub
  let node := node.appendChild result.node
  if !result.isValid then
    return node.buildError AST_ERROR
  let node ← parseArrow input sub node
  return { node := ← node.build input AST_FUNC_TYPE }

def parseSelf : ParserM ParseResult := do
  let node ← buildNode input
  let node ← node.consume input
  if (← isAt input TKN_DOT) && (← peek input 1).is TKN_TYPE then
    let node ← node.consume input
    let node ← node.consume input
    return { node := ← node.build input AST_SELF_TYPE }
  return { node := ← node.build input AST_SELF }

def parseMetaExpr : ParserM ParseResult := do
  let node ← buildNode input
  let node ← node.consume input
  let node ← node.consume input
  let result ← sub.expr parser
  let node ← node.consume input
  let node := node.appendChild result.node
  return { node := ← node.build input AST_META_ACCESS, isValid := result.isValid }

/-- The node of an operand that is one token. -/
def tokenOperand : TokenType → Option ASTNodeType
  | TKN_IDENTIFIER => some AST_IDENTIFIER
  | TKN_FALSE => some AST_FALSE_LITERAL
  | TKN_TRUE => some AST_TRUE_LITERAL
  | TKN_NULL => some AST_NULL_LITERAL
  | TKN_NONE => some AST_NONE_LITERAL
  | TKN_UNDEFINED => some AST_UNDEFINED_LITERAL
  | TKN_I8 => some AST_I8
  | TKN_I16 => some AST_I16
  | TKN_I32 => some AST_I32
  | TKN_I64 => some AST_I64
  | TKN_U8 => some AST_U8
  | TKN_U16 => some AST_U16
  | TKN_U32 => some AST_U32
  | TKN_U64 => some AST_U64
  | TKN_F32 => some AST_F32
  | TKN_F64 => some AST_F64
  | TKN_USIZE => some AST_USIZE
  | TKN_BOOL => some AST_BOOL
  | TKN_ADDR => some AST_ADDR
  | TKN_VOID => some AST_VOID
  | _ => none

def parseOperandError : ParserM ParseResult := do
  reportUnexpectedToken input
  return { node := .withRange AST_ERROR (← previous input).range, isValid := false }

def parseOperand : ParserM ParseResult := do
  if (← isAtCompletionPoint input) then
    toResult (parseCompletionPoint input)
  else
    let type := (← get input).type
    match tokenOperand type with
    | some nodeType => toResult (consumeIntoNode input nodeType)
    | none =>
      match type with
      | TKN_LITERAL => parseNumberLiteral input
      | TKN_CHARACTER => parseCharLiteral input
      | TKN_STRING => parseStringLiteral input
      | TKN_LBRACKET => parseArrayLiteral input sub parser
      | TKN_LPAREN => parseParenExpr input sub
      | TKN_LBRACE => parseAnonStructLiteral input sub parser
      | TKN_OR => parseClosure input sub parser
      | TKN_OR_OR => parseClosure input sub parser
      | TKN_FUNC => parseFuncType input sub
      | TKN_SELF => parseSelf input
      | TKN_META => parseMetaExpr input sub parser
      | _ => parseOperandError input

/-! ## Behind an operand -/

def parseDotExpr (lhsNode : ASTNode) : ParserM ParseResult := do
  let node ← buildNode input
  let node := (node.setStartPosition lhsNode.range.start).appendChild lhsNode
  let node ← node.consume input
  let result ← parseOperand input sub parser
  let node := node.appendChild result.node
  return { node := ← node.build input AST_DOT_EXPR, isValid := result.isValid }

def parseCallExpr (lhsNode : ASTNode) : ParserM ParseResult := do
  let node := (ASTNode.empty AST_CALL_EXPR).appendChild lhsNode
  let result ← parseList input AST_ARG_LIST TKN_RPAREN (sub.expr { allowStructLiterals := true })
  let node := node.appendChild result.node
  return { node := node.setRangeFromChildren, isValid := result.isValid }

def parseBracketExpr (lhsNode : ASTNode) : ParserM ParseResult := do
  let node ← buildNode input
  let node := (node.setStartPosition lhsNode.range.start).appendChild lhsNode
  let result ← parseList input AST_ARG_LIST TKN_RBRACKET (sub.expr {})
  let node := node.appendChild result.node
  return { node := ← node.build input AST_BRACKET_EXPR, isValid := result.isValid }

def parseStructLiteral (lhsNode : ASTNode) : ParserM ParseResult := do
  let node ← buildNode input
  let node := (node.setStartPosition lhsNode.range.start).appendChild lhsNode
  let result ← parseStructLiteralBody input sub parser
  let node := node.appendChild result.node
  if result.isValid then
    return { node := ← node.build input AST_STRUCT_LITERAL }
  else
    return node.buildError AST_STRUCT_LITERAL

/-- One round of the loop over what stands behind an operand. -/
def parsePostOperandStep (currentNode : ASTNode) : ParserM (ASTNode ⊕ ParseResult) := do
  let next (p : ParserM ParseResult) : ParserM (ASTNode ⊕ ParseResult) := do
    let result ← p
    return if result.isValid then .inl result.node else .inr
      { node := result.node, isValid := false }
  match (← get input).type with
  | TKN_DOT => next (parseDotExpr input sub parser currentNode)
  | TKN_LPAREN => next (parseCallExpr input sub currentNode)
  | TKN_LBRACKET => next (parseBracketExpr input sub currentNode)
  | TKN_LBRACE =>
    if parser.allowStructLiterals then
      next (parseStructLiteral input sub parser currentNode)
    else
      return .inr { node := currentNode }
  | _ => return .inr { node := currentNode }

def parsePostOperand : ParserM ParseResult := do
  let result ← parseOperand input sub parser
  if !result.isValid then
    return result
  whileTrue (parsePostOperandStep input sub parser) input.fuel result.node

/-! ## Levels -/

def unaryOperator : TokenType → Option ASTNodeType
  | TKN_MINUS => some AST_NEG_EXPR
  | TKN_TILDE => some AST_BIT_NOT_EXPR
  | TKN_AND => some AST_ADDR_EXPR
  | TKN_STAR => some AST_STAR_EXPR
  | TKN_NOT => some AST_NOT_EXPR
  | TKN_QUESTION => some AST_OPTIONAL_TYPE
  | TKN_DOT => some AST_IMPLICIT_DOT_EXPR
  | TKN_REF => some AST_REF_EXPR
  | TKN_SHARE => some AST_SHARE_EXPR
  | TKN_TRY => some AST_TRY_EXPR
  | _ => none

def parseUnaryLevel : ParserM ParseResult := do
  match unaryOperator (← get input).type with
  | none => parsePostOperand input sub parser
  | some type =>
    let node ← buildNode input
    let mut node ← node.consume input
    let mut type := type
    if type == AST_REF_EXPR && (← isAt input TKN_MUT) then
      node ← node.consume input
      type := AST_REF_MUT_EXPR
    let result ← sub.unaryLevel parser
    node := node.appendChild result.node
    return { node := ← node.build input type, isValid := result.isValid }

def parseResultLevel : ParserM ParseResult := do
  let result ← parseUnaryLevel input sub parser
  if !result.isValid then
    return result
  if (← isAt input TKN_EXCEPT) then
    let node ← buildNode input
    let node := node.appendChild result.node
    let node ← node.consume input
    let result ← sub.type
    if !result.isValid then
      return node.buildError AST_ERROR
    let node := node.appendChild result.node
    return { node := ← node.buildWithInferredRange input AST_RESULT_TYPE }
  else
    return result

/-- One round of the loop of a level: an operator and what stands behind it. -/
def parseLevelStep (childBuilder : ParserM ParseResult)
    (tokenChecker : TokenType → Option ASTNodeType) (currentNode : ASTNode) :
    ParserM (ASTNode ⊕ ParseResult) := do
  match tokenChecker (← get input).type with
  | none => return .inr { node := currentNode }
  | some type =>
    let token ← consume input
    let tokenIndex := (← getThe State).position - 1
    let operatorNode := (ASTNode.withRange type token.range).appendChild currentNode
    let result ← childBuilder
    let operatorNode := (operatorNode.appendChild result.node).setRangeFromChildren
    let operatorNode := operatorNode.setTokens [tokenIndex]
    return if result.isValid then .inl operatorNode
      else .inr { node := operatorNode, isValid := false }

def parseLevel (childBuilder : ParserM ParseResult) (tokenChecker : TokenType →
    Option ASTNodeType) :
    ParserM ParseResult := do
  let result ← childBuilder
  if !result.isValid then
    return result
  whileTrue (parseLevelStep input childBuilder tokenChecker) input.fuel result.node

def castOperator : TokenType → Option ASTNodeType
  | TKN_AS => some AST_CAST_EXPR
  | TKN_IS => some AST_TYPE_CHECK_EXPR
  | _ => none

def mulOperator : TokenType → Option ASTNodeType
  | TKN_STAR => some AST_MUL_EXPR
  | TKN_SLASH => some AST_DIV_EXPR
  | TKN_PERCENT => some AST_MOD_EXPR
  | _ => none

def addOperator : TokenType → Option ASTNodeType
  | TKN_PLUS => some AST_ADD_EXPR
  | TKN_MINUS => some AST_SUB_EXPR
  | _ => none

def bitShiftOperator : TokenType → Option ASTNodeType
  | TKN_SHL => some AST_SHL_EXPR
  | TKN_SHR => some AST_SHR_EXPR
  | _ => none

def cmpOperator : TokenType → Option ASTNodeType
  | TKN_EQ_EQ => some AST_EQ_EXPR
  | TKN_NE => some AST_NE_EXPR
  | TKN_GT => some AST_GT_EXPR
  | TKN_LT => some AST_LT_EXPR
  | TKN_GE => some AST_GE_EXPR
  | TKN_LE => some AST_LE_EXPR
  | _ => none

/-- The operator of a level that has only one. -/
def single (operator : TokenType) (node : ASTNodeType) (type : TokenType) : Option ASTNodeType :=
  if type = operator then some node else none

def parseCastLevel : ParserM ParseResult :=
  parseLevel input (parseResultLevel input sub parser) castOperator

def parseMulLevel : ParserM ParseResult :=
  parseLevel input (parseCastLevel input sub parser) mulOperator

def parseAddLevel : ParserM ParseResult :=
  parseLevel input (parseMulLevel input sub parser) addOperator

def parseBitShiftLevel : ParserM ParseResult :=
  parseLevel input (parseAddLevel input sub parser) bitShiftOperator

def parseBitAndLevel : ParserM ParseResult :=
  parseLevel input (parseBitShiftLevel input sub parser) (single TKN_AND AST_BIT_AND_EXPR)

def parseBitXorLevel : ParserM ParseResult :=
  parseLevel input (parseBitAndLevel input sub parser) (single TKN_CARET AST_BIT_XOR_EXPR)

def parseBitOrLevel : ParserM ParseResult :=
  parseLevel input (parseBitXorLevel input sub parser) (single TKN_OR AST_BIT_OR_EXPR)

def parseCmpLevel : ParserM ParseResult :=
  parseLevel input (parseBitOrLevel input sub parser) cmpOperator

def parseAndLevel : ParserM ParseResult :=
  parseLevel input (parseCmpLevel input sub parser) (single TKN_AND_AND AST_AND_EXPR)

def parseOrLevel : ParserM ParseResult :=
  parseLevel input (parseAndLevel input sub parser) (single TKN_OR_OR AST_OR_EXPR)

def parseRangeLevel : ParserM ParseResult :=
  parseLevel input (parseOrLevel input sub parser) (single TKN_DOT_DOT AST_RANGE_EXPR)

def parse : ParserM ParseResult := parseRangeLevel input sub parser

def parseType : ParserM ParseResult :=
  parseResultLevel input sub { parser with typeExpected := true }

end Banjo.ExprParser
