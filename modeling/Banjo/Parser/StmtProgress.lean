import Banjo.Parser.Progress

/-!
# The progress of statements and declarations

A statement or declaration reads its keyword, and what it calls behind it does not go back.
-/

set_option mvcgen.warning false

namespace Banjo.StmtParser

open Std.Do Banjo.Parser TokenStream TokenType ASTNodeType

variable {input : Input} {sub : Subparsers} {n : ℕ}
  (hfuel : 2 * input.tokens.length + 1 < input.fuel) (hsub : sub.Ends input n)
  (s₀ : State) (hn : input.rest s₀ ≤ n)

include hfuel hsub hn

theorem expr_spec (allowStructLiterals : Bool) :
    Yields s₀ (expr input sub allowStructLiterals) fun r s ↦
      s₀.position ≤ s.position ∧ (r.isValid = true → s₀.position < s.position) := by
  have hparse := ExprParser.parse_spec hfuel hsub
  refine of_weaker fun Q hQ ↦ ?_
  mvcgen [expr, hparse]
  all_goals grind [Reads]

theorem type_spec : NeverBack s₀ (type input sub) := by
  have hparse := ExprParser.parseType_spec hfuel hsub
  refine of_weaker fun Q hQ ↦ ?_
  mvcgen [type, hparse]
  all_goals grind [Reads]

theorem block_spec : NeverBack s₀ (parseBlock input sub) := by
  have hblock := parseBlock_spec hfuel hsub
  refine of_weaker fun Q hQ ↦ ?_
  mvcgen [hblock]
  all_goals grind

/-! ## Assignments and variables -/

theorem parseAssign_spec (lhsNode : ASTNode) (nodeType : ASTNodeType) :
    NeverBack s₀ (parseAssign input sub lhsNode nodeType) := by
  have hexpr := expr_spec hfuel hsub
  refine of_weaker fun Q hQ ↦ ?_
  mvcgen [parseAssign, hexpr]
  all_goals grind [Input.rest]

variable (node : NodeBuilder)

theorem parseVarOrRef_spec (nodeType typeTypeless : ASTNodeType) :
    NeverBack s₀ (parseVarOrRef input sub node nodeType typeTypeless) := by
  have hexpr := expr_spec hfuel hsub
  have htype := type_spec hfuel hsub
  refine of_weaker fun Q hQ ↦ ?_
  mvcgen [parseVarOrRef, parseVarWithType, parseVarWithoutType, hexpr, htype]
  all_goals grind [Input.rest, Keeps]

theorem parseVar_spec : Advances s₀ (parseVar input sub) := by
  have hvar := parseVarOrRef_spec hfuel hsub
  refine of_weaker fun Q hQ ↦ ?_
  mvcgen [parseVar, hvar]
  all_goals grind [Input.rest]

theorem parseRef_spec : Advances s₀ (parseRef input sub) := by
  have hvar := parseVarOrRef_spec hfuel hsub
  refine of_weaker fun Q hQ ↦ ?_
  mvcgen [parseRef, hvar]
  all_goals grind [Input.rest]

/-! ## Branches -/

theorem parseElseStep_spec : Yields s₀ (parseElseStep input sub node) (Round input s₀) := by
  have hexpr := expr_spec hfuel hsub
  have hblock := block_spec hfuel hsub
  mvcgen [parseElseStep, hexpr, hblock]
  all_goals grind [Round, Input.rest, Keeps]

theorem parseIfChain_spec : Advances s₀ (parseIfChain input sub) := by
  have hexpr := expr_spec hfuel hsub
  have hblock := block_spec hfuel hsub
  have hloop := loop_spec hfuel fun node s (hs : input.rest s < n + 1) ↦
    parseElseStep_spec hfuel hsub s (Nat.lt_succ_iff.mp hs) node
  refine of_weaker fun Q hQ ↦ ?_
  mvcgen [parseIfChain, hexpr, hblock, hloop]
  all_goals grind [Input.rest]

theorem parseCaseStep_spec (casesNode : NodeBuilder) :
    Yields s₀ (parseCaseStep input sub node casesNode) (Round input s₀) := by
  have htype := type_spec hfuel hsub
  have hblock := block_spec hfuel hsub
  mvcgen [parseCaseStep, htype, hblock]
  all_goals grind [Round, Input.rest]

theorem parseSwitch_spec : Advances s₀ (parseSwitch input sub) := by
  have hexpr := expr_spec hfuel hsub
  have hloop := fun node ↦ loop_spec hfuel fun casesNode s (hs : input.rest s < n + 1) ↦
    parseCaseStep_spec hfuel hsub s (Nat.lt_succ_iff.mp hs) node casesNode
  mvcgen [parseSwitch, hexpr, hloop]
  all_goals grind [Input.rest]

theorem parseTryRest_spec : NeverBack s₀ (parseTryRest input sub node) := by
  have htype := type_spec hfuel hsub
  have hblock := block_spec hfuel hsub
  mvcgen [parseTryRest, htype, hblock]
  all_goals grind [Input.rest, Keeps]

theorem parseTry_spec : Advances s₀ (parseTry input sub) := by
  have hexpr := expr_spec hfuel hsub
  have hblock := block_spec hfuel hsub
  have hrest := parseTryRest_spec hfuel hsub
  refine of_weaker fun Q hQ ↦ ?_
  mvcgen [parseTry, hexpr, hblock, hrest]
  all_goals grind [Input.rest, Keeps]

/-! ## Loops and jumps -/

theorem parseWhile_spec : Advances s₀ (parseWhile input sub) := by
  have hexpr := expr_spec hfuel hsub
  have hblock := block_spec hfuel hsub
  mvcgen [parseWhile, hexpr, hblock]
  all_goals grind [Input.rest]

theorem parseForRest_spec (nodeType : ASTNodeType) :
    NeverBack s₀ (parseForRest input sub node nodeType) := by
  have hexpr := expr_spec hfuel hsub
  have hblock := block_spec hfuel hsub
  mvcgen [parseForRest, hexpr, hblock]
  all_goals grind [Input.rest, Keeps]

theorem parseFor_spec : Advances s₀ (parseFor input sub) := by
  have hrest := parseForRest_spec hfuel hsub
  refine of_weaker fun Q hQ ↦ ?_
  mvcgen [parseFor, hrest]
  all_goals grind [Input.rest]

omit hfuel hsub hn in
@[spec]
theorem parseBreak_spec : Advances s₀ (parseBreak input) := by
  refine of_weaker fun Q hQ ↦ ?_
  mvcgen [parseBreak]
  all_goals grind

omit hfuel hsub hn in
@[spec]
theorem parseContinue_spec : Advances s₀ (parseContinue input) := by
  refine of_weaker fun Q hQ ↦ ?_
  mvcgen [parseContinue]
  all_goals grind

theorem parseReturn_spec : Advances s₀ (parseReturn input sub) := by
  have hexpr := expr_spec hfuel hsub
  refine of_weaker fun Q hQ ↦ ?_
  mvcgen [parseReturn, hexpr]
  all_goals grind [Input.rest]

/-! ## Meta statements -/

theorem parseMetaElseStep_spec : Yields s₀ (parseMetaElseStep input sub node) (Round input s₀) := by
  have hexpr := expr_spec hfuel hsub
  have hblock := block_spec hfuel hsub
  mvcgen [parseMetaElseStep, hexpr, hblock]
  all_goals grind [Round, Input.rest, Keeps]

theorem parseMetaIf_spec : NeverBack s₀ (parseMetaIf input sub node) := by
  have hexpr := expr_spec hfuel hsub
  have hblock := block_spec hfuel hsub
  have hloop := loop_spec hfuel fun node s (hs : input.rest s < n + 1) ↦
    parseMetaElseStep_spec hfuel hsub s (Nat.lt_succ_iff.mp hs) node
  refine of_weaker fun Q hQ ↦ ?_
  mvcgen [parseMetaIf, hexpr, hblock, hloop]
  all_goals grind [Input.rest]

theorem parseMetaStmt_spec : Advances s₀ (parseMetaStmt input sub) := by
  have hmeta := parseMetaIf_spec hfuel hsub
  have hrest := parseForRest_spec hfuel hsub
  refine of_weaker fun Q hQ ↦ ?_
  mvcgen [parseMetaStmt, parseMetaFor, hmeta, hrest]
  all_goals grind [Input.rest, Keeps]

end Banjo.StmtParser

namespace Banjo.DeclParser

open Std.Do Banjo.Parser TokenStream TokenType ASTNodeType

variable {input : Input} {sub : Subparsers} {n : ℕ}
  (hfuel : 2 * input.tokens.length + 1 < input.fuel) (hsub : sub.Ends input n)
  (s₀ : State) (hn : input.rest s₀ ≤ n)

include hfuel hsub hn

/-! ## Generic parameters -/

theorem parseConstraintType_spec : NeverBack s₀ (parseConstraintType input sub) := by
  have htype := StmtParser.type_spec hfuel hsub
  mvcgen [parseConstraintType, htype]
  all_goals grind

theorem parseTypeConstraint_spec : NeverBack s₀ (parseTypeConstraint input sub) := by
  have htype := parseConstraintType_spec hfuel hsub
  have hstep : ∀ node s₀, input.rest s₀ < n + 1 →
      Yields s₀ (parseConstraintStep input sub node) (Round input s₀) := by
    intro node s₁ hs₁
    mvcgen [parseConstraintStep, htype]
    all_goals grind [Round, Input.rest]
  have hloop := loop_spec hfuel hstep
  refine of_weaker fun Q hQ ↦ ?_
  mvcgen [parseTypeConstraint, htype, hloop]
  all_goals grind [Input.rest]

omit hn in
theorem parseGenericParam_spec : Forward input (n + 1) (parseGenericParam input sub) := by
  intro s₀ hn
  have hconstraint := parseTypeConstraint_spec hfuel hsub
  mvcgen [parseGenericParam, hconstraint]
  all_goals grind [Input.rest]

theorem parseGenericParamList_spec : Advances s₀ (parseGenericParamList input sub) :=
  parseList_spec hfuel AST_GENERIC_PARAM_LIST TKN_RBRACKET true
    (parseGenericParam_spec hfuel hsub) s₀ (by grind [Input.rest])

/-! ## Functions -/

variable (node : NodeBuilder)

omit hn in
theorem parseFuncParams_spec (generic : Bool) (hn : input.rest s₀ < n) :
    NeverBack s₀ (parseFuncParams input sub node generic) := by
  have hparams := parseParamList_spec hfuel hsub
  have hreturn := parseReturnType_spec hsub
  mvcgen [parseFuncParams, parseFuncReturn, hparams, hreturn]
  all_goals grind [Input.rest, Keeps]

omit hn in
theorem parseFuncHead_spec (hn : input.rest s₀ < n) :
    NeverBack s₀ (parseFuncHead input sub node) := by
  have hgeneric := parseGenericParamList_spec hfuel hsub
  have hparams := parseFuncParams_spec hfuel hsub
  refine of_weaker fun Q hQ ↦ ?_
  mvcgen [parseFuncHead, hgeneric, hparams]
  all_goals grind [Input.rest]

theorem parseFunc_spec (qualifierList : Option ASTNode) (hat : (input.current s₀).type ≠ TKN_EOF) :
    Advances s₀ (parseFunc input sub qualifierList) := by
  have hhead := parseFuncHead_spec hfuel hsub
  have hblock := StmtParser.block_spec hfuel hsub
  mvcgen [parseFunc, hhead, hblock]
  all_goals grind [Input.rest, Keeps]

/-! ## Constants and types -/

theorem parseConst_spec : Advances s₀ (parseConst input sub) := by
  have hexpr := StmtParser.expr_spec hfuel hsub
  have htype := StmtParser.type_spec hfuel hsub
  refine of_weaker fun Q hQ ↦ ?_
  mvcgen [parseConst, hexpr, htype]
  all_goals grind [Input.rest, Keeps]

theorem parseStructRest_spec (type : ASTNodeType) :
    NeverBack s₀ (parseStructRest input sub node type) := by
  have hblock := StmtParser.block_spec hfuel hsub
  have hforward : Forward input (n + 1) (StmtParser.type input sub) := fun s hs ↦
    StmtParser.type_spec hfuel hsub s (Nat.lt_succ_iff.mp hs)
  have himpl := parseList_spec hfuel AST_IMPL_LIST TKN_LBRACE false hforward
  mvcgen [parseStructRest, hblock, himpl]
  all_goals grind [Input.rest]

theorem parseStruct_spec : Advances s₀ (parseStruct input sub) := by
  have hgeneric := parseGenericParamList_spec hfuel hsub
  have hrest := parseStructRest_spec hfuel hsub
  refine of_weaker fun Q hQ ↦ ?_
  mvcgen [parseStruct, hgeneric, hrest]
  all_goals grind [Input.rest, Keeps]

omit hn in
theorem parseEnumVariant_spec : Forward input (n + 1) (parseEnumVariant input sub) := by
  intro s₀ hn
  have hexpr := StmtParser.expr_spec hfuel hsub
  mvcgen [parseEnumVariant, hexpr]
  all_goals grind [Input.rest]

theorem parseEnum_spec : Advances s₀ (parseEnum input sub) := by
  have hvariants := parseList_spec hfuel AST_ENUM_VARIANT_LIST TKN_RBRACE true
    (parseEnumVariant_spec hfuel hsub)
  mvcgen [parseEnum, hvariants]
  all_goals grind [Input.rest, Keeps]

theorem parseUnion_spec : Advances s₀ (parseUnion input sub) := by
  have hblock := StmtParser.block_spec hfuel hsub
  mvcgen [parseUnion, hblock]
  all_goals grind [Input.rest, Keeps]

theorem parseUnionCase_spec
    (hat : (input.current s₀).type ≠ TKN_EOF) : Advances s₀ (parseUnionCase input sub) := by
  have hparams := parseParamList_spec hfuel hsub
  refine of_weaker fun Q hQ ↦ ?_
  mvcgen [parseUnionCase, hparams]
  all_goals grind [Input.rest, Keeps]

theorem parseProto_spec : Advances s₀ (parseProto input sub) := by
  have hgeneric := parseGenericParamList_spec hfuel hsub
  have hblock := StmtParser.block_spec hfuel hsub
  mvcgen [parseProto, parseProtoRest, hgeneric, hblock]
  all_goals grind [Input.rest, Keeps]

theorem parseTypeAlias_spec : Advances s₀ (parseTypeAlias input sub) := by
  have hgeneric := parseGenericParamList_spec hfuel hsub
  have htype := StmtParser.type_spec hfuel hsub
  refine of_weaker fun Q hQ ↦ ?_
  mvcgen [parseTypeAlias, parseTypeAliasRest, hgeneric, htype]
  all_goals grind [Input.rest, Keeps]

/-! ## Uses -/

theorem parseUseTreeElement_spec : NeverBack s₀ (parseUseTreeElement input sub) := by
  have hlist := parseList_spec hfuel AST_USE_LIST TKN_RBRACE true hsub.useTree
  refine of_weaker fun Q hQ ↦ ?_
  mvcgen [parseUseTreeElement, hlist]
  all_goals grind [Input.rest, Keeps]

theorem parseUseTree_spec : NeverBack s₀ (parseUseTree input sub) := by
  have helement := parseUseTreeElement_spec hfuel hsub
  have hstep : ∀ node s₀, input.rest s₀ < n + 1 →
      Yields s₀ (parseUseTreeStep input sub node) (Round input s₀) := by
    intro node s₁ hs₁
    mvcgen [parseUseTreeStep, helement]
    all_goals grind [Round, Input.rest]
  have hloop := loop_spec hfuel hstep
  refine of_weaker fun Q hQ ↦ ?_
  mvcgen [parseUseTree, helement, hloop]
  all_goals grind [Input.rest]

theorem parseUse_spec : Advances s₀ (parseUse input sub) := by
  have htree := parseUseTree_spec hfuel hsub
  refine of_weaker fun Q hQ ↦ ?_
  mvcgen [parseUse, htree]
  all_goals grind [Input.rest]

/-! ## Native declarations and qualifiers -/

theorem parseNative_spec
    (hat : (input.current s₀).type ≠ TKN_EOF) : Advances s₀ (parseNative input sub) := by
  have htype := StmtParser.type_spec hfuel hsub
  have hhead := parseFuncHead_spec hfuel hsub
  refine of_weaker fun Q hQ ↦ ?_
  mvcgen [parseNative, parseNativeVar, parseNativeFunc, htype, hhead]
  all_goals grind [Input.rest, Keeps]

omit hsub hn in
theorem parseQualifiers_spec (hat : (input.current s₀).type = TKN_PUB) :
    Advances s₀ (parseQualifiers input) := by
  refine whileTrue_spec (I := fun _ s ↦ s = s₀ ∨ s₀.position < s.position)
    (μ := fun _ s ↦ input.rest s) ?_ (Or.inl rfl) ?_
  · intro node s₁ hinv
    mvcgen [parseQualifierStep]
    all_goals grind [Input.rest]
  · grind [Input.rest]

theorem parsePub_spec
    (hat : (input.current s₀).type = TKN_PUB) : Advances s₀ (parsePub input sub) := by
  have hqualifiers := parseQualifiers_spec hfuel
  have hfunc := parseFunc_spec hfuel hsub
  have hconst := parseConst_spec hfuel hsub
  have hstruct := parseStruct_spec hfuel hsub
  have henum := parseEnum_spec hfuel hsub
  have hunion := parseUnion_spec hfuel hsub
  have hcase := parseUnionCase_spec hfuel hsub
  have hproto := parseProto_spec hfuel hsub
  have halias := parseTypeAlias_spec hfuel hsub
  have hnative := parseNative_spec hfuel hsub
  have huse := parseUse_spec hfuel hsub
  have hvar := StmtParser.parseVar_spec hfuel hsub
  refine of_weaker fun Q hQ ↦ ?_
  mvcgen [parsePub, hqualifiers, hfunc, hconst, hstruct, henum, hunion, hcase, hproto, halias,
    hnative, huse, hvar]
  all_goals grind [Input.rest, Keeps]

end Banjo.DeclParser
