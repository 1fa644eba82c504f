import Banjo.Parser.StmtParser

/-!
# Declarations

Every parser of a declaration is called at its keyword, which it reads first.
-/

namespace Banjo.DeclParser

open Banjo.Parser TokenStream TokenType ASTNodeType

variable (input : Input) (sub : Subparsers)

/-! ## Generic parameters -/

/-- The node of a type, or of an error in its place. -/
def parseConstraintType : ParserM ASTNode := do
  let result ← StmtParser.type input sub
  return if result.isValid then result.node else .empty AST_ERROR

/-- One round of the loop over the types of a constraint. -/
def parseConstraintStep (node : NodeBuilder) : ParserM (NodeBuilder ⊕ ParseResult) := do
  if (← isAt input TKN_PLUS) then
    let node ← node.consume input
    return .inl (node.appendChild (← parseConstraintType input sub))
  else
    return .inr { node := ← node.build input AST_TYPE_CONSTRAINT }

def parseTypeConstraint : ParserM ParseResult := do
  let node ← buildNode input
  let node := node.appendChild (← parseConstraintType input sub)
  whileTrue (parseConstraintStep input sub) input.fuel node

def parseGenericParam : ParserM ParseResult := do
  let node ← buildNode input
  let node := node.appendChild (← consumeIntoNode input AST_IDENTIFIER)
  if (← isAt input TKN_COLON) then
    let node ← node.consume input
    if (← isAt input TKN_DOT_DOT_DOT) then
      let node := node.appendChild (← consumeIntoNode input AST_PARAM_SEQUENCE_TYPE)
      return { node := ← node.build input AST_GENERIC_PARAMETER }
    else
      let node := node.appendChild (← parseTypeConstraint input sub).node
      return { node := ← node.build input AST_GENERIC_PARAMETER }
  else
    return { node := ← node.build input AST_GENERIC_PARAMETER }

def parseGenericParamList : ParserM ParseResult :=
  parseList input AST_GENERIC_PARAM_LIST TKN_RBRACKET (parseGenericParam input sub)

/-! ## Functions -/

/-- The head of a function: the node with what was read, and whether the head is valid. -/
structure FuncHead where
  node : NodeBuilder
  generic : Bool
  isValid : Bool

/-- The return type behind the parameters. -/
def parseFuncReturn (node : NodeBuilder) (generic valid : Bool) : ParserM FuncHead := do
  if (← isAt input TKN_ARROW) then
    let node ← node.consume input
    let result ← parseReturnType input sub
    let node := node.appendChild result.node
    if !result.isValid then
      return { node, generic, isValid := false }
    return { node, generic, isValid := valid }
  else if (← isAt input TKN_LBRACE) || (← isAt input TKN_SEMI) || (← previous input).endOfLine then
    return { node := node.appendChild (.empty AST_EMPTY), generic, isValid := valid }
  else
    reportUnexpectedToken input
    return { node := node.appendChild (.empty AST_EMPTY), generic, isValid := false }

/-- The parameters and the return type. -/
def parseFuncParams (node : NodeBuilder) (generic : Bool) : ParserM FuncHead := do
  if !(← isAt input TKN_LPAREN) then
    reportExpected input TKN_LPAREN
    let node := (node.appendChild (.empty AST_PARAM_LIST)).appendChild (.empty AST_EMPTY)
    return { node, generic, isValid := false }
  let result ← parseParamList input sub
  parseFuncReturn input sub (node.appendChild result.node) generic result.isValid

def parseFuncHead (node : NodeBuilder) : ParserM FuncHead := do
  if (← isAt input TKN_LBRACKET) then
    let result ← parseGenericParamList input sub
    let node := node.appendChild result.node
    if !result.isValid then
      let node := (node.appendChild (.empty AST_PARAM_LIST)).appendChild (.empty AST_EMPTY)
      return { node, generic := true, isValid := false }
    -- The list is appended once more, which links it to itself until the next child takes its
    -- place.
    parseFuncParams input sub node true
  else
    parseFuncParams input sub node false

def parseFunc (qualifierList : Option ASTNode) : ParserM ParseResult := do
  let node ← buildNode input
  let node := node.appendChild (qualifierList.getD (.empty AST_QUALIFIER_LIST))
  let node ← node.consume input
  if !(← isAt input TKN_IDENTIFIER) then
    reportExpectedIdent input
    return node.buildError AST_ERROR
  let node := node.appendChild (← consumeIntoNode input AST_IDENTIFIER)
  let head ← parseFuncHead input sub node
  let node := head.node
  let type := if head.generic then AST_GENERIC_FUNC_DEF else AST_FUNC_DEF
  if !head.isValid then
    let node := node.appendChild (← createDummyBlock input)
    return { node := ← node.build input type, isValid := false }
  if (← isAt input TKN_SEMI) && !head.generic then
    let node ← node.consume input
    return { node := ← node.build input AST_FUNC_DECL }
  else if !(← isAt input TKN_LBRACE) then
    if (← previous input).endOfLine && !head.generic then
      return { node := ← node.build input AST_FUNC_DECL }
    else
      reportExpected input TKN_LBRACE
      let node := node.appendChild (← createDummyBlock input)
      return { node := ← node.build input type, isValid := false }
  else
    let result ← parseBlock input sub
    let node := node.appendChild result.node
    return { node := ← node.build input type, isValid := result.isValid }

/-! ## Constants and types -/

def parseConst : ParserM ParseResult := do
  let node ← buildNode input
  let node ← node.consume input
  let error := ASTNode.empty AST_ERROR
  if !(← isAt input TKN_IDENTIFIER) then
    reportExpectedIdent input
    let node := ((node.appendChild error).appendChild error).appendChild error
    return { node := ← node.build input AST_CONST_DEF }
  let node := node.appendChild (← consumeIntoNode input AST_IDENTIFIER)
  if !(← isAt input TKN_COLON) then
    reportUnexpectedToken input
    let node := (node.appendChild error).appendChild error
    return { node := ← node.build input AST_CONST_DEF }
  let node ← node.consume input
  let node := node.appendChild (← StmtParser.type input sub).node
  if !(← isAt input TKN_EQ) then
    reportUnexpectedToken input
    let node := node.appendChild error
    return { node := ← node.build input AST_CONST_DEF }
  let node ← node.consume input
  let node := node.appendChild (← StmtParser.expr input sub true).node
  checkStmtTerminator input node AST_CONST_DEF

/-- The interfaces that a structure implements, and its block. -/
def parseStructRest (node : NodeBuilder) (type : ASTNodeType) : ParserM ParseResult := do
  if (← isAt input TKN_COLON) then
    let result ← parseList input AST_IMPL_LIST TKN_LBRACE (StmtParser.type input sub) false
    if !result.isValid then
      return node.buildError AST_ERROR
    let node := node.appendChild result.node
    let result ← parseBlock input sub
    let node := node.appendChild result.node
    return { node := ← node.build input type, isValid := result.isValid }
  else
    let node := node.appendChild (.empty AST_IMPL_LIST)
    let result ← parseBlock input sub
    let node := node.appendChild result.node
    return { node := ← node.build input type, isValid := result.isValid }

def parseStruct : ParserM ParseResult := do
  let node ← buildNode input
  let node ← node.consume input
  if !(← isAt input TKN_IDENTIFIER) then
    reportExpectedIdent input
    return node.buildError AST_ERROR
  let node := node.appendChild (← consumeIntoNode input AST_IDENTIFIER)
  if (← isAt input TKN_LBRACKET) then
    let result ← parseGenericParamList input sub
    if !result.isValid then
      return node.buildError AST_ERROR
    parseStructRest input sub (node.appendChild result.node) AST_GENERIC_STRUCT_DEF
  else
    parseStructRest input sub node AST_STRUCT_DEF

def parseEnumVariant : ParserM ParseResult := do
  let variant ← buildNode input
  let variant := variant.appendChild (← consumeIntoNode input AST_IDENTIFIER)
  if (← isAt input TKN_EQ) then
    let variant ← variant.consume input
    let variant := variant.appendChild (← StmtParser.expr input sub).node
    return { node := ← variant.build input AST_ENUM_VARIANT }
  else
    return { node := ← variant.build input AST_ENUM_VARIANT }

def parseEnum : ParserM ParseResult := do
  let node ← buildNode input
  let node ← node.consume input
  if !(← isAt input TKN_IDENTIFIER) then
    reportExpectedIdent input
    return node.buildError AST_ERROR
  let node := node.appendChild (← consumeIntoNode input AST_IDENTIFIER)
  let result ← parseList input AST_ENUM_VARIANT_LIST TKN_RBRACE (parseEnumVariant input sub)
  let node := node.appendChild result.node
  return { node := ← node.build input AST_ENUM_DEF }

def parseUnion : ParserM ParseResult := do
  let node ← buildNode input
  let node ← node.consume input
  if !(← isAt input TKN_IDENTIFIER) then
    reportExpectedIdent input
    return node.buildError AST_ERROR
  let node := node.appendChild (← consumeIntoNode input AST_IDENTIFIER)
  let result ← parseBlock input sub
  if !result.isValid then
    return node.buildError AST_ERROR
  let node := node.appendChild result.node
  return { node := ← node.build input AST_UNION_DEF }

def parseUnionCase : ParserM ParseResult := do
  let node ← buildNode input
  let node ← node.consume input
  if !(← isAt input TKN_IDENTIFIER) then
    reportExpectedIdent input
    return node.buildError AST_ERROR
  let node := node.appendChild (← consumeIntoNode input AST_IDENTIFIER)
  if !(← isAt input TKN_LPAREN) then
    reportExpected input TKN_LPAREN
    return node.buildError AST_ERROR
  let result ← parseParamList input sub
  let node := node.appendChild result.node
  if !result.isValid then
    return { node := ← node.build input AST_UNION_CASE }
  checkStmtTerminator input node AST_UNION_CASE

/-- The block of a protocol. -/
def parseProtoRest (node : NodeBuilder) (type : ASTNodeType) : ParserM ParseResult := do
  let result ← parseBlock input sub
  if !result.isValid then
    return node.buildError AST_ERROR
  let node := node.appendChild result.node
  return { node := ← node.build input type }

def parseProto : ParserM ParseResult := do
  let node ← buildNode input
  let node ← node.consume input
  if !(← isAt input TKN_IDENTIFIER) then
    reportExpectedIdent input
    return node.buildError AST_ERROR
  let node := node.appendChild (← consumeIntoNode input AST_IDENTIFIER)
  if (← isAt input TKN_LBRACKET) then
    let result ← parseGenericParamList input sub
    if !result.isValid then
      return node.buildError AST_ERROR
    parseProtoRest input sub (node.appendChild result.node) AST_GENERIC_PROTO_DEF
  else
    parseProtoRest input sub node AST_PROTO_DEF

/-- The type that a type alias stands for. -/
def parseTypeAliasRest (node : NodeBuilder) (type : ASTNodeType) : ParserM ParseResult := do
  if !(← isAt input TKN_EQ) then
    reportExpected input TKN_EQ
    return (node.appendChild (.empty AST_ERROR)).buildError type
  let node ← node.consume input
  let result ← StmtParser.type input sub
  let node := node.appendChild result.node
  if !result.isValid then
    return node.buildError type
  checkStmtTerminator input node type

def parseTypeAlias : ParserM ParseResult := do
  let node ← buildNode input
  let node ← node.consume input
  if !(← isAt input TKN_IDENTIFIER) then
    reportExpectedIdent input
    return node.buildError AST_ERROR
  let node := node.appendChild (← consumeIntoNode input AST_IDENTIFIER)
  if (← isAt input TKN_LBRACKET) then
    let result ← parseGenericParamList input sub
    if !result.isValid then
      return node.buildError AST_ERROR
    parseTypeAliasRest input sub (node.appendChild result.node) AST_GENERIC_TYPE_ALIAS_DEF
  else
    parseTypeAliasRest input sub node AST_TYPE_ALIAS_DEF

/-! ## Uses -/

def parseUseTreeElement : ParserM ParseResult := do
  if (← isAtCompletionPoint input) then
    return { node := ← parseCompletionPoint input }
  else if (← isAt input TKN_IDENTIFIER) then
    let identifier ← consumeIntoNode input AST_IDENTIFIER
    if !(← isAt input TKN_AS) then
      return { node := identifier }
    else
      let asTokenIndex := (← getThe State).position
      let _ ← consume input
      let rebindingNode := (ASTNode.empty AST_USE_REBIND).appendChild identifier
      let rebindingNode := rebindingNode.appendChild (← consumeIntoNode input AST_IDENTIFIER)
      return { node := rebindingNode.setRangeFromChildren.setTokens [asTokenIndex] }
  else if (← isAt input TKN_LBRACE) then
    parseList input AST_USE_LIST TKN_RBRACE sub.useTree
  else
    reportUnexpectedToken input
    return { node := .empty AST_ERROR, isValid := false }

/-- One round of the loop over the dots of a use tree. -/
def parseUseTreeStep (currentNode : ASTNode) : ParserM (ASTNode ⊕ ParseResult) := do
  if (← isAt input TKN_DOT) then
    let dotOperator := (ASTNode.empty AST_DOT_EXPR).appendChild currentNode
    let _ ← consume input
    let dotOperator := dotOperator.setTokens [(← getThe State).position - 1]
    let result ← parseUseTreeElement input sub
    let dotOperator := (dotOperator.appendChild result.node).setRangeFromChildren
    return if result.isValid then .inl dotOperator
      else .inr { node := dotOperator, isValid := false }
  else
    return .inr { node := currentNode }

def parseUseTree : ParserM ParseResult := do
  let result ← parseUseTreeElement input sub
  if !result.isValid then
    return result
  whileTrue (parseUseTreeStep input sub) input.fuel result.node

def parseUse : ParserM ParseResult := do
  let node ← buildNode input
  let node ← node.consume input
  let result ← parseUseTree input sub
  let node := node.appendChild result.node
  if !result.isValid then
    return { node := ← node.build input AST_USE_DECL, isValid := false }
  checkStmtTerminator input node AST_USE_DECL

/-! ## Native declarations -/

def parseNativeVar : ParserM ParseResult := do
  let node ← buildNode input
  let node ← node.consume input
  let node ← node.consume input
  let identifier ← consumeIntoNode input AST_IDENTIFIER
  let node ← node.consume input
  let result ← StmtParser.type input sub
  let node := (node.appendChild identifier).appendChild result.node
  checkStmtTerminator input node AST_NATIVE_VAR_DECL

def parseNativeFunc : ParserM ParseResult := do
  let node ← buildNode input
  let node ← node.consume input
  let node := node.appendChild (.empty AST_QUALIFIER_LIST)
  let node ← node.consume input
  if !(← isAt input TKN_IDENTIFIER) then
    reportExpectedIdent input
    return node.buildError AST_ERROR
  let node := node.appendChild (← consumeIntoNode input AST_IDENTIFIER)
  let head ← parseFuncHead input sub node
  if !head.isValid then
    return head.node.buildError AST_ERROR
  checkStmtTerminator input head.node AST_NATIVE_FUNC_DECL

def parseNative : ParserM ParseResult := do
  let decidingToken ← peek input 1
  if decidingToken.is TKN_VAR then
    parseNativeVar input sub
  else if decidingToken.is TKN_FUNC then
    parseNativeFunc input sub
  else
    let _ ← consume input
    reportUnexpectedToken input
    let _ ← consume input
    return { node := .empty AST_ERROR, isValid := false }

/-! ## Qualifiers -/

/-- One round of the loop over the qualifiers. -/
def parseQualifierStep (qualifierList : ASTNode) : ParserM (ASTNode ⊕ ASTNode) := do
  if (← isAt input TKN_PUB) then
    return .inl (qualifierList.appendChild (← consumeIntoNode input AST_QUALIFIER))
  else
    return .inr qualifierList

def parseQualifiers : ParserM ASTNode :=
  whileTrue (parseQualifierStep input) input.fuel (.empty AST_QUALIFIER_LIST)

/-- Only called at `pub`, so that there is always a list of qualifiers. -/
def parsePub : ParserM ParseResult := do
  let qualifierList ← parseQualifiers input
  match (← get input).type with
  | TKN_FUNC => parseFunc input sub (some qualifierList)
  | TKN_CONST => parseConst input sub
  | TKN_STRUCT => parseStruct input sub
  | TKN_ENUM => parseEnum input sub
  | TKN_UNION => parseUnion input sub
  | TKN_CASE => parseUnionCase input sub
  | TKN_PROTO => parseProto input sub
  | TKN_TYPE => parseTypeAlias input sub
  | TKN_NATIVE => parseNative input sub
  | TKN_USE => parseUse input sub
  | TKN_VAR => StmtParser.parseVar input sub
  | _ =>
    reportUnexpectedToken input
    return { node := .empty AST_ERROR, isValid := false }

end Banjo.DeclParser
