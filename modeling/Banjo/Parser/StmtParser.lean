import Banjo.Parser.ExprParser

/-!
# Statements

Every parser of this file is called at its keyword, which it reads first.
-/

namespace Banjo.StmtParser

open Banjo.Parser TokenStream TokenType ASTNodeType

variable (input : Input) (sub : Subparsers)

/-- An expression, with struct literals or without. -/
def expr (allowStructLiterals : Bool := false) : ParserM ParseResult :=
  ExprParser.parse input sub { allowStructLiterals }

def type : ParserM ParseResult := ExprParser.parseType input sub {}

/-! ## Assignments and variables -/

def parseAssign (lhsNode : ASTNode) (type : ASTNodeType) : ParserM ParseResult := do
  let node ← buildNode input
  let node ← node.consume input
  let node := node.appendChild lhsNode
  let result ← expr input sub true
  let node := node.appendChild result.node
  if !result.isValid then
    return node.buildError type
  checkStmtTerminator input node type

def parseVarWithType (node : NodeBuilder) (nodeType : ASTNodeType) : ParserM ParseResult := do
  let node ← node.consume input
  let result ← type input sub
  let node := node.appendChild result.node
  if !result.isValid then
    return node.buildError AST_ERROR
  if (← isAt input TKN_EQ) then
    let node ← node.consume input
    let result ← expr input sub true
    let node := node.appendChild result.node
    if !result.isValid then
      return node.buildError nodeType
    checkStmtTerminator input node nodeType
  else
    checkStmtTerminator input node nodeType

def parseVarWithoutType (node : NodeBuilder) (nodeType : ASTNodeType) : ParserM ParseResult := do
  let node ← node.consume input
  let result ← expr input sub true
  let node := node.appendChild result.node
  if !result.isValid then
    return node.buildError nodeType
  checkStmtTerminator input node nodeType

def parseVarOrRef (node : NodeBuilder) (nodeType typeTypeless : ASTNodeType) :
    ParserM ParseResult := do
  if !(← isAt input TKN_IDENTIFIER) then
    reportExpectedIdent input
    return node.buildError AST_ERROR
  let node := node.appendChild (← consumeIntoNode input AST_IDENTIFIER)
  if (← isAt input TKN_COLON) then
    parseVarWithType input sub node nodeType
  else if (← isAt input TKN_EQ) then
    parseVarWithoutType input sub node typeTypeless
  else
    reportUnexpectedToken input
    return node.buildError AST_ERROR

def parseVar : ParserM ParseResult := do
  let node ← buildNode input
  let node ← node.consume input
  parseVarOrRef input sub node AST_VAR_DEF AST_TYPELESS_VAR_DEF

def parseRef : ParserM ParseResult := do
  let node ← buildNode input
  let node ← node.consume input
  if (← isAt input TKN_MUT) then
    let node ← node.consume input
    parseVarOrRef input sub node AST_REF_MUT_VAR_DEF AST_TYPELESS_REF_MUT_VAR_DEF
  else
    parseVarOrRef input sub node AST_REF_VAR_DEF AST_TYPELESS_REF_VAR_DEF

/-! ## Branches -/

/-- One round of the loop over the `else` branches of an `if` statement. -/
def parseElseStep (node : NodeBuilder) : ParserM (NodeBuilder ⊕ ParseResult) := do
  if (← isAt input TKN_ELSE) then
    if (← peek input 1).is TKN_IF then
      let elseIfNode ← buildNode input
      let elseIfNode ← elseIfNode.consume input
      let elseIfNode ← elseIfNode.consume input
      let result ← expr input sub
      let elseIfNode := elseIfNode.appendChild result.node
      if !result.isValid then
        let elseIfNode := elseIfNode.appendChild (.empty AST_ERROR)
        let node := node.appendChild
          (← elseIfNode.buildWithInferredRange input AST_ELSE_IF_BRANCH)
        let node ← node.buildWithInferredRange input AST_IF_BRANCH
        return .inr { node, isValid := false }
      let elseIfNode := elseIfNode.appendChild (← parseBlock input sub).node
      return .inl (node.appendChild (← elseIfNode.build input AST_ELSE_IF_BRANCH))
    else if (← peek input 1).is TKN_LBRACE then
      let elseNode ← buildNode input
      let elseNode ← elseNode.consume input
      let elseNode := elseNode.appendChild (← parseBlock input sub).node
      return .inl (node.appendChild (← elseNode.build input AST_ELSE_BRANCH))
    else
      let _ ← consume input
      reportUnexpectedToken input
      return .inr { node := ← node.build input AST_IF_STMT }
  else
    return .inr { node := ← node.build input AST_IF_STMT }

def parseIfChain : ParserM ParseResult := do
  let node ← buildNode input
  let firstIf ← buildNode input
  let firstIf ← firstIf.consume input
  let result ← expr input sub
  let firstIf := firstIf.appendChild result.node
  if !result.isValid then
    let firstIf := firstIf.appendChild (.empty AST_ERROR)
    let node := node.appendChild (← firstIf.buildWithInferredRange input AST_IF_BRANCH)
    return { node := ← node.buildWithInferredRange input AST_IF_STMT, isValid := false }
  let result ← parseBlock input sub
  let firstIf := firstIf.appendChild result.node
  if !result.isValid then
    let node := node.appendChild (← firstIf.buildWithInferredRange input AST_IF_BRANCH)
    return { node := ← node.buildWithInferredRange input AST_IF_STMT, isValid := false }
  let node := node.appendChild (← firstIf.build input AST_IF_BRANCH)
  whileTrue (parseElseStep input sub) input.fuel node

/-- The loop over the cases ends with its node, or with the result of the statement. -/
abbrev CasesEnd := NodeBuilder ⊕ ParseResult

/-- One round of the loop over the cases of a `switch` statement. -/
def parseCaseStep (node casesNode : NodeBuilder) : ParserM (NodeBuilder ⊕ CasesEnd) := do
  if (← isAt input TKN_CASE) then
    let caseNode ← buildNode input
    let caseNode ← caseNode.consume input
    if (← get input).value = ['_'] then
      let _ ← consume input
      let caseNode := caseNode.appendChild (← parseBlock input sub).node
      return .inl (casesNode.appendChild (← caseNode.build input AST_SWITCH_DEFAULT_BRANCH))
    let caseNode := caseNode.appendChild (← consumeIntoNode input AST_IDENTIFIER)
    let caseNode ← caseNode.consume input
    let result ← type input sub
    if result.isValid then
      let caseNode := caseNode.appendChild result.node
      let caseNode := caseNode.appendChild (← parseBlock input sub).node
      return .inl (casesNode.appendChild (← caseNode.build input AST_SWITCH_CASE_BRANCH))
    else
      return .inr (.inr (node.buildError AST_ERROR))
  else
    return .inr (.inl casesNode)

def parseSwitch : ParserM ParseResult := do
  let node ← buildNode input
  let node ← node.consume input
  let result ← expr input sub
  if !result.isValid then
    return node.buildError AST_ERROR
  let node := node.appendChild result.node
  let casesNode ← buildNode input
  let casesNode ← casesNode.consume input
  match ← whileTrue (parseCaseStep input sub node) input.fuel casesNode with
  | .inl casesNode =>
    let casesNode ← casesNode.consume input
    let node := node.appendChild (← casesNode.build input AST_SWITCH_CASE_LIST)
    return { node := ← node.build input AST_SWITCH_STMT }
  | .inr result => return result

/-- What follows the block of a `try` statement: an `except` branch, an `else` branch or neither. -/
def parseTryRest (node : NodeBuilder) : ParserM ParseResult := do
  if (← isAt input TKN_EXCEPT) then
    let errorCaseNode ← buildNode input
    let errorCaseNode ← errorCaseNode.consume input
    if !(← isAt input TKN_IDENTIFIER) then
      reportExpectedIdent input
      return node.buildError AST_ERROR
    let errorCaseNode := errorCaseNode.appendChild (← consumeIntoNode input AST_IDENTIFIER)
    let errorCaseNode ← errorCaseNode.consume input
    let result ← type input sub
    if !result.isValid then
      return node.buildError AST_ERROR
    let errorCaseNode := errorCaseNode.appendChild result.node
    let errorCaseNode := errorCaseNode.appendChild (← parseBlock input sub).node
    let node := node.appendChild (← errorCaseNode.build input AST_TRY_EXCEPT_BRANCH)
    return { node := ← node.build input AST_TRY_STMT }
  else if (← isAt input TKN_ELSE) then
    let elseCaseNode ← buildNode input
    let elseCaseNode ← elseCaseNode.consume input
    let elseCaseNode := elseCaseNode.appendChild (← parseBlock input sub).node
    let node := node.appendChild (← elseCaseNode.build input AST_TRY_ELSE_BRANCH)
    return { node := ← node.build input AST_TRY_STMT }
  else
    return { node := ← node.build input AST_TRY_STMT }

def parseTry : ParserM ParseResult := do
  let node ← buildNode input
  let successCaseNode ← buildNode input
  let successCaseNode ← successCaseNode.consume input
  if !(← isAt input TKN_IDENTIFIER) then
    reportExpectedIdent input
    return node.buildError AST_ERROR
  let successCaseNode := successCaseNode.appendChild (← consumeIntoNode input AST_IDENTIFIER)
  if !(← isAt input TKN_IN) then
    reportUnexpectedToken input
    return node.buildError AST_ERROR
  let successCaseNode ← successCaseNode.consume input
  let result ← expr input sub
  if !result.isValid then
    return node.buildError AST_ERROR
  let successCaseNode := successCaseNode.appendChild result.node
  let successCaseNode := successCaseNode.appendChild (← parseBlock input sub).node
  parseTryRest input sub
    (node.appendChild (← successCaseNode.build input AST_TRY_SUCCESS_BRANCH))

/-! ## Loops -/

def parseWhile : ParserM ParseResult := do
  let node ← buildNode input
  let node ← node.consume input
  let result ← expr input sub
  if !result.isValid then
    return node.buildError AST_ERROR
  let node := node.appendChild result.node
  let node := node.appendChild (← parseBlock input sub).node
  return { node := ← node.build input AST_WHILE_STMT }

/-- The variable, the expression and the block of a loop. -/
def parseForRest (node : NodeBuilder) (type : ASTNodeType) : ParserM ParseResult := do
  if !(← isAt input TKN_IDENTIFIER) then
    reportExpectedIdent input
    return node.buildError AST_ERROR
  let node := node.appendChild (← consumeIntoNode input AST_IDENTIFIER)
  if !(← isAt input TKN_IN) then
    reportUnexpectedToken input
    return node.buildError AST_ERROR
  let node ← node.consume input
  let result ← expr input sub
  if !result.isValid then
    return node.buildError AST_ERROR
  let node := node.appendChild result.node
  let node := node.appendChild (← parseBlock input sub).node
  return { node := ← node.build input type }

def parseFor : ParserM ParseResult := do
  let node ← buildNode input
  let node ← node.consume input
  if (← isAt input TKN_REF) then
    let node ← node.consume input
    if (← isAt input TKN_MUT) then
      let node ← node.consume input
      parseForRest input sub node AST_FOR_REF_MUT_STMT
    else
      parseForRest input sub node AST_FOR_REF_STMT
  else
    parseForRest input sub node AST_FOR_STMT

/-! ## Jumps -/

def parseBreak : ParserM ParseResult := do
  let builder ← buildNode input
  let builder ← builder.consume input
  checkStmtTerminator input builder AST_BREAK_STMT

def parseContinue : ParserM ParseResult := do
  let builder ← buildNode input
  let builder ← builder.consume input
  checkStmtTerminator input builder AST_CONTINUE_STMT

def parseReturn : ParserM ParseResult := do
  let builder ← buildNode input
  let builder ← builder.consume input
  if !(← isAt input TKN_SEMI) && !(← previous input).endOfLine then
    let result ← expr input sub true
    let builder := builder.appendChild result.node
    if !result.isValid then
      return { node := ← builder.build input AST_RETURN_STMT, isValid := false }
    checkStmtTerminator input builder AST_RETURN_STMT
  else
    checkStmtTerminator input builder AST_RETURN_STMT

/-! ## Meta statements -/

/-- One round of the loop over the `else` branches of a `meta if` statement. -/
def parseMetaElseStep (node : NodeBuilder) : ParserM (NodeBuilder ⊕ ParseResult) := do
  if (← isAt input TKN_ELSE) then
    let branch ← buildNode input
    let branch ← branch.consume input
    if (← isAt input TKN_IF) then
      let branch ← branch.consume input
      let result ← expr input sub
      if !result.isValid then
        return .inr (node.buildError AST_ERROR)
      let branch := branch.appendChild result.node
      let branch := branch.appendChild (← parseBlock input sub).node
      return .inl (node.appendChild (← branch.build input AST_META_ELSE_IF_BRANCH))
    else if (← isAt input TKN_LBRACE) then
      let branch := branch.appendChild (← parseBlock input sub).node
      return .inl (node.appendChild (← branch.build input AST_META_ELSE_BRANCH))
    else
      reportUnexpectedToken input
      return .inr (node.buildError AST_ERROR)
  else
    return .inr { node := ← node.build input AST_META_IF_STMT }

def parseMetaIf (node : NodeBuilder) : ParserM ParseResult := do
  let firstBranch ← buildNode input
  let firstBranch ← firstBranch.consume input
  let result ← expr input sub
  if !result.isValid then
    return node.buildError AST_ERROR
  let firstBranch := firstBranch.appendChild result.node
  let firstBranch := firstBranch.appendChild (← parseBlock input sub).node
  let node := node.appendChild (← firstBranch.build input AST_META_IF_BRANCH)
  whileTrue (parseMetaElseStep input sub) input.fuel node

def parseMetaFor (node : NodeBuilder) : ParserM ParseResult := do
  let node ← node.consume input
  parseForRest input sub node AST_META_FOR_STMT

def parseMetaStmt : ParserM ParseResult := do
  let node ← buildNode input
  let node ← node.consume input
  if (← isAt input TKN_IF) then
    parseMetaIf input sub node
  else if (← isAt input TKN_FOR) then
    parseMetaFor input sub node
  else
    reportUnexpectedToken input
    return node.buildError AST_ERROR

end Banjo.StmtParser
