import Banjo.Parser.DeclParser

/-!
# Modules

A module is a block without braces that ends with the file. The parsers of one level are those that
call the parsers one level deeper.
-/

namespace Banjo.Parser

open TokenStream TokenType ASTNodeType

variable (input : Input) (sub : Subparsers)

/-! ## Parameters -/

/-- The type of a parameter, the last part of it. -/
def parseParamType (node : NodeBuilder) (type : ASTNodeType) : ParserM ParseResult := do
  let result ← ExprParser.parseType input sub {}
  let node := node.appendChild result.node
  if !result.isValid then
    if (← isAt input TKN_RPAREN) then
      let node ← node.consume input
      return { node := ← node.build input type, isValid := false }
    else
      return { node := ← node.build input type, isValid := false }
  return { node := ← node.build input type }

/-- A parameter behind an optional `mut`. -/
def parseParamRest (node : NodeBuilder) (isMut : Bool) : ParserM ParseResult := do
  if (← isAt input TKN_SELF) then
    let node := node.appendChild (← consumeIntoNode input AST_SELF)
    return { node := ← node.build input (if isMut then AST_REF_MUT_PARAM else AST_REF_PARAM) }
  else
    if isMut then
      reportUnexpectedToken input
    if (← isAt input TKN_REF) then
      let mut node ← node.consume input
      let mut isMut := isMut
      if (← isAt input TKN_MUT) then
        isMut := true
        node ← node.consume input
      node := node.appendChild (← consumeIntoNode input AST_IDENTIFIER)
      node ← node.consume input
      parseParamType input sub node (if isMut then AST_REF_MUT_PARAM else AST_REF_PARAM)
    else if (← peek input 1).is TKN_COLON then
      let node := node.appendChild (← consumeIntoNode input AST_IDENTIFIER)
      let node ← node.consume input
      parseParamType input sub node AST_PARAM
    else
      parseParamType input sub (node.appendChild (.empty AST_EMPTY)) AST_PARAM

def parseParam : ParserM ParseResult := do
  let node ← buildNode input
  if (← isAt input TKN_AT) then
    parseAttributeWrapper input sub.param
  else if (← isAt input TKN_MUT) then
    let node ← node.consume input
    parseParamRest input sub node true
  else
    parseParamRest input sub node false

/-! ## Children of a block -/

/-- The statement behind an expression that is assigned to. -/
def assignType : TokenType → Option ASTNodeType
  | TKN_EQ => some AST_ASSIGN_STMT
  | TKN_PLUS_EQ => some AST_ADD_ASSIGN_STMT
  | TKN_MINUS_EQ => some AST_SUB_ASSIGN_STMT
  | TKN_STAR_EQ => some AST_MUL_ASSIGN_STMT
  | TKN_SLASH_EQ => some AST_DIV_ASSIGN_STMT
  | TKN_PERCENT_EQ => some AST_MOD_ASSIGN_STMT
  | TKN_AND_EQ => some AST_BIT_AND_ASSIGN_STMT
  | TKN_OR_EQ => some AST_BIT_OR_ASSIGN_STMT
  | TKN_CARET_EQ => some AST_BIT_XOR_ASSIGN_STMT
  | TKN_SHL_EQ => some AST_SHL_ASSIGN_STMT
  | TKN_SHR_EQ => some AST_SHR_ASSIGN_STMT
  | _ => none

def parseExprOrAssign : ParserM ParseResult := do
  let node ← buildNode input
  let result ← ExprParser.parse input sub {}
  if !result.isValid then
    return (node.appendChild result.node).buildError AST_EXPR_STMT
  match assignType (← get input).type with
  | some type => StmtParser.parseAssign input sub result.node type
  | none => checkStmtTerminator input (node.appendChild result.node) AST_EXPR_STMT

def parseTry : ParserM ParseResult := do
  if (← peek input 2).is TKN_IN then
    StmtParser.parseTry input sub
  else
    let node ← buildNode input
    let result ← ExprParser.parse input sub {}
    let node := node.appendChild result.node
    if result.isValid then
      checkStmtTerminator input node AST_EXPR_STMT
    else
      return node.buildError AST_EXPR_STMT

def parseMeta : ParserM ParseResult := do
  if (← peek input 1).is TKN_IF || (← peek input 1).is TKN_FOR then
    StmtParser.parseMetaStmt input sub
  else
    parseExprOrAssign input sub

/-- The parser of the child of a block that starts with a token of this type. -/
def blockChildParser (type : TokenType) : ParserM ParseResult :=
  match type with
  | TKN_VAR => StmtParser.parseVar input sub
  | TKN_REF => StmtParser.parseRef input sub
  | TKN_CONST => DeclParser.parseConst input sub
  | TKN_FUNC => DeclParser.parseFunc input sub none
  | TKN_IF => StmtParser.parseIfChain input sub
  | TKN_SWITCH => StmtParser.parseSwitch input sub
  | TKN_TRY => parseTry input sub
  | TKN_WHILE => StmtParser.parseWhile input sub
  | TKN_FOR => StmtParser.parseFor input sub
  | TKN_BREAK => StmtParser.parseBreak input
  | TKN_CONTINUE => StmtParser.parseContinue input
  | TKN_RETURN => StmtParser.parseReturn input sub
  | TKN_PUB => DeclParser.parsePub input sub
  | TKN_STRUCT => DeclParser.parseStruct input sub
  | TKN_ENUM => DeclParser.parseEnum input sub
  | TKN_UNION => DeclParser.parseUnion input sub
  | TKN_PROTO => DeclParser.parseProto input sub
  | TKN_TYPE => DeclParser.parseTypeAlias input sub
  | TKN_CASE => DeclParser.parseUnionCase input sub
  | TKN_SELF => parseExprOrAssign input sub
  | TKN_NATIVE => DeclParser.parseNative input sub
  | TKN_USE => DeclParser.parseUse input sub
  | TKN_META => parseMeta input sub
  | TKN_LBRACE => parseBlock input sub
  | TKN_AT => parseAttributeWrapper input sub.blockChild
  | _ => parseExprOrAssign input sub

def parseBlockChild : ParserM ParseResult := do
  blockChildParser input sub (← get input).type

/-! ## Modules -/

/-- The parsers that may call each other this often. -/
def subparsers : ℕ → Subparsers
  | 0 => ⟨fun _ ↦ failure, fun _ ↦ failure, failure, failure, failure, failure⟩
  | depth + 1 =>
    let sub := subparsers depth
    { expr := ExprParser.parse input sub
      unaryLevel := ExprParser.parseUnaryLevel input sub
      type := ExprParser.parseType input sub {}
      param := parseParam input sub
      useTree := DeclParser.parseUseTree input sub
      blockChild := parseBlockChild input sub }

/-- One round of the loop over the children of a module. -/
def parseTopLevelStep (node : NodeBuilder) : ParserM (NodeBuilder ⊕ NodeBuilder) := do
  if (← isAt input TKN_EOF) then
    return .inr node
  else
    return .inl (← parseAndAppendBlockChild input sub node)

def parseTopLevelBlock : ParserM ASTNode := do
  let node ← buildNode input
  let node ← whileTrue (parseTopLevelStep input sub) input.fuel node
  node.build input AST_BLOCK

def parseModule : Option (ASTNode × State) :=
  (do
    let block ← parseTopLevelBlock input (subparsers input input.fuel)
    let mod := (ASTNode.empty AST_MODULE).appendChild block
    return mod.setRangeFromChildren).run { position := 0 }

end Banjo.Parser
