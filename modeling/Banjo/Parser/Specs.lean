import Mathlib
import Banjo.Parser.Parser

/-!
# What the parsers consume

Every parser ends and moves the position forward only. The measure behind it is the number of tokens
from the position on: a loop goes round again, and a parser calls another one a level deeper, only
behind a token that is not an end of file.
-/

set_option mvcgen.warning false

namespace Banjo.Parser

open Std.Do TokenStream TokenType ASTNodeType

variable {input : Input} {sub : Subparsers} {α β : Type}

/-- From the state, the parser ends with such a result in such a state. -/
abbrev Yields (s₀ : State) (p : ParserM α) (Q : α → State → Prop) : Prop :=
  ⦃fun s ↦ ⌜s = s₀⌝⦄ p ⦃⇓ a s => ⌜Q a s⌝⦄

/-- The parser ends, and does not go back. -/
abbrev NeverBack (s₀ : State) (p : ParserM α) : Prop :=
  ⦃fun s ↦ ⌜s = s₀⌝⦄ p ⦃⇓ _ s => ⌜s₀.position ≤ s.position⌝⦄

/-- The parser ends behind a token it has read. -/
abbrev Advances (s₀ : State) (p : ParserM α) : Prop :=
  ⦃fun s ↦ ⌜s = s₀⌝⦄ p ⦃⇓ _ s => ⌜s₀.position < s.position⌝⦄

/-- To meet a postcondition is to meet every weaker one. In this form the postcondition of a call at
the end of a parser is not taken for that of the parser. -/
theorem of_weaker {p : ParserM α} {s₀ : State} {R : α → State → Prop}
    (h : ∀ Q : α → State → Prop, (∀ a s, R a s → Q a s) → Yields s₀ p Q) : Yields s₀ p R :=
  h R fun _ _ h ↦ h

/-! ## Loops -/

variable {body : β → ParserM (β ⊕ α)} {n : ℕ}

/-- A loop whose rounds keep an invariant and decrease a measure ends with what its last round
returns. -/
theorem whileTrue_spec {I : β → State → Prop} {μ : β → State → ℕ} {Q : α → State → Prop}
    (step : ∀ b s₀, I b s₀ → Yields s₀ (body b) fun r s ↦
      r.elim (fun b' ↦ I b' s ∧ μ b' s < μ b s₀) (fun a ↦ Q a s)) {b : β} {s₀ : State}
    (hinv : I b s₀) (hn : μ b s₀ < n) : Yields s₀ (whileTrue body n b) Q := by
  induction n generalizing b s₀ with
  | zero => exact absurd hn (Nat.not_lt_zero _)
  | succ n ih =>
    rw [whileTrue]
    mvcgen [step, ih]
    all_goals grind

/-! ## Reading -/

/-- The number of tokens from the position on. -/
def Input.rest (input : Input) (s : State) : ℕ := input.tokens.length - s.position

/-- The token at the position. -/
def Input.current (input : Input) (s : State) : Token := input.token s.position

theorem type_of_length_le {i : ℕ} (h : input.tokens.length ≤ i) :
    (input.token i).type = TKN_EOF := by
  rw [Input.token, List.getElem?_eq_none h]
  exact input.eof_type

/-- There is a token at the position, unless an end of file is read there. -/
@[grind =>]
theorem position_lt_of_current {s : State} (h : (input.current s).type ≠ TKN_EOF) :
    s.position < input.tokens.length :=
  not_le.mp fun hlength ↦ h (type_of_length_le hlength)

variable {s₀ : State}

@[spec]
theorem get_spec : Yields s₀ (get input) fun r s ↦ s = s₀ ∧ r = input.current s₀ := by
  mvcgen [TokenStream.get]
  all_goals grind [Input.current]

@[spec]
theorem isAt_spec (type : TokenType) :
    Yields s₀ (isAt input type) fun r s ↦ s = s₀ ∧ (r = true ↔ (input.current s₀).type = type) := by
  mvcgen [isAt]
  all_goals grind [Token.is]

@[spec]
theorem consume_spec : Yields s₀ (TokenStream.consume input) fun r s ↦
    r = input.current s₀ ∧ s = { s₀ with position := s₀.position + 1 } := by
  mvcgen [TokenStream.consume]
  all_goals grind [Input.current]

@[spec]
theorem peek_spec (offset : ℕ) :
    Yields s₀ (peek input offset) fun r s ↦ s = s₀ ∧ r = input.token (s₀.position + offset) := by
  mvcgen [peek]
  all_goals grind

@[spec]
theorem previous_spec : Yields s₀ (previous input) fun _ s ↦ s = s₀ := by
  mvcgen [previous]

/-- Only the position and what the recovery needs matter to the parsers. -/
structure Keeps (s₀ s : State) : Prop where
  position : s.position = s₀.position
  skip : s.skipStmtDeclRecovery = s₀.skipStmtDeclRecovery
  prev : s.prevRecoverPos = s₀.prevRecoverPos

@[spec]
theorem report_spec (message : Report) : Yields s₀ (report message) fun _ s ↦ Keeps s₀ s := by
  mvcgen [report]
  all_goals grind [Keeps]

@[spec]
theorem reportUnexpectedToken_spec :
    Yields s₀ (reportUnexpectedToken input) fun _ s ↦ Keeps s₀ s := by
  mvcgen [reportUnexpectedToken]
  all_goals grind

@[spec]
theorem reportExpected_spec (type : TokenType) :
    Yields s₀ (reportExpected input type) fun _ s ↦ Keeps s₀ s := by
  mvcgen [reportExpected]
  all_goals grind

@[spec]
theorem reportExpectedIdent_spec : Yields s₀ (reportExpectedIdent input) fun _ s ↦ Keeps s₀ s := by
  mvcgen [reportExpectedIdent]
  all_goals grind

/-! ## Nodes -/

variable (node : NodeBuilder) (type : ASTNodeType)

@[grind =]
theorem buildError_isValid : (node.buildError type).isValid = false :=
  rfl

@[spec]
theorem buildNode_spec : Yields s₀ (buildNode input) fun _ s ↦ s = s₀ := by
  mvcgen [buildNode]
  all_goals grind

@[spec]
theorem nodeConsume_spec :
    Yields s₀ (node.consume input) fun _ s ↦ s = { s₀ with position := s₀.position + 1 } := by
  mvcgen [NodeBuilder.consume]
  all_goals grind

@[spec]
theorem build_spec : Yields s₀ (node.build input type) fun _ s ↦ s = s₀ := by
  mvcgen [NodeBuilder.build]
  all_goals grind

@[spec]
theorem buildWithInferredRange_spec :
    Yields s₀ (node.buildWithInferredRange input type) fun _ s ↦ s = s₀ := by
  mvcgen [NodeBuilder.buildWithInferredRange]
  all_goals grind

@[spec]
theorem consumeIntoNode_spec : Yields s₀ (consumeIntoNode input type) fun _ s ↦
    s = { s₀ with position := s₀.position + 1 } := by
  mvcgen [consumeIntoNode]
  all_goals grind

@[spec]
theorem isAtCompletionPoint_spec : Yields s₀ (isAtCompletionPoint input) fun r s ↦
    s = s₀ ∧ (r = true → (input.current s₀).type = TKN_COMPLETION) := by
  mvcgen [isAtCompletionPoint]
  all_goals grind [Token.is]

@[spec]
theorem parseCompletionPoint_spec : Yields s₀ (parseCompletionPoint input) fun _ s ↦
    Keeps { s₀ with position := s₀.position + 1 } s := by
  mvcgen [parseCompletionPoint]
  all_goals grind [Keeps]

@[spec]
theorem createDummyBlock_spec : Yields s₀ (createDummyBlock input) fun _ s ↦ s = s₀ := by
  mvcgen [createDummyBlock]
  all_goals grind

@[spec]
theorem checkStmtTerminator_spec : NeverBack s₀ (checkStmtTerminator input node type) := by
  mvcgen [checkStmtTerminator]
  all_goals grind [Keeps]

/-! ## Recovery -/

variable (depth : ℕ)

/-- Inside a block, only a depth of zero may leave the position where it is. -/
theorem skipInBlock_spec : Yields s₀ (skipInBlock input depth) fun r s ↦
    s₀.position ≤ s.position ∧ Keeps { s₀ with position := s.position } s ∧
      r.elim (fun depth' ↦ input.rest s + min depth' 1 < input.rest s₀ + min depth 1)
        (fun _ ↦ True) := by
  mvcgen [skipInBlock]
  all_goals grind [Keeps, Input.rest]

/-- What a parser that only recovers leaves as it is. -/
structure Skips (s₀ s : State) : Prop where
  position : s₀.position ≤ s.position
  skip : s.skipStmtDeclRecovery = s₀.skipStmtDeclRecovery
  prev : s.prevRecoverPos = s₀.prevRecoverPos

variable (hfuel : 2 * input.tokens.length + 1 < input.fuel)

include hfuel

@[spec]
theorem skipBlock_spec :
    Yields s₀ (whileTrue (skipInBlock input) input.fuel depth) fun _ s ↦ Skips s₀ s := by
  refine whileTrue_spec (I := fun _ s ↦ Skips s₀ s)
    (μ := fun depth s ↦ input.rest s + min depth 1) ?_ ⟨le_rfl, rfl, rfl⟩ ?_
  · intro depth s₁ hinv
    have hspec := @skipInBlock_spec input s₁
    mvcgen [hspec]
    all_goals grind [Keeps, Skips]
  · grind [Input.rest]

/-- A round of the recovery consumes a token or ends; it only ends at a token to stop at. -/
theorem recoverStep_spec : Yields s₀ (recoverStep input ()) fun r s ↦
    Skips s₀ s ∧ r.elim (fun _ ↦ s₀.position < s.position ∧
        input.rest s < input.rest s₀)
      (fun _ ↦ s = s₀ ∧ isRecoveryPoint (input.current s₀).type) := by
  mvcgen [recoverStep]
  all_goals grind [Skips, Input.rest, isRecoveryPoint]

@[spec]
theorem recoverLoop_spec : Yields s₀ (whileTrue (recoverStep input) input.fuel ()) fun _ s ↦
    Skips s₀ s ∧ (¬isRecoveryPoint (input.current s₀).type →
      s₀.position < s.position) := by
  refine whileTrue_spec (I := fun _ s ↦ Skips s₀ s ∧ (s = s₀ ∨ s₀.position < s.position))
    (μ := fun _ s ↦ input.rest s) ?_ ⟨⟨le_rfl, rfl, rfl⟩, Or.inl rfl⟩ ?_
  · rintro ⟨⟩ s₁ hinv
    have hspec := @recoverStep_spec input s₁ hfuel
    mvcgen [hspec]
    all_goals grind [Skips]
  · grind [Input.rest]

/-- The recovery leaves a token that is not one to stop at behind. -/
@[spec]
theorem recover_spec : Yields s₀ (recover input) fun _ s ↦
    s₀.position ≤ s.position ∧ s.skipStmtDeclRecovery = s₀.skipStmtDeclRecovery ∧
      (¬isRecoveryPoint (input.current s₀).type → s₀.position < s.position) := by
  mvcgen [recover]
  all_goals grind [Skips, isRecoveryPoint]

/-! ## Lists -/

/-- A round that does not end the loop has read a token. -/
structure Round (input : Input) (s₀ : State) (r : β ⊕ α) (s : State) : Prop where
  position : s₀.position ≤ s.position
  progress : r.elim (fun _ ↦ input.rest s < input.rest s₀) (fun _ ↦ True)

/-- A loop whose rounds read tokens ends, and does not go back. -/
theorem loop_spec (hstep : ∀ b s₀, input.rest s₀ < n → Yields s₀ (body b) (Round input s₀)) (b : β)
    (s₀ : State) (hn : input.rest s₀ < n) : NeverBack s₀ (whileTrue body input.fuel b) := by
  refine whileTrue_spec (I := fun _ s ↦ s₀.position ≤ s.position ∧ input.rest s < n)
    (μ := fun _ s ↦ input.rest s) ?_ ⟨le_rfl, hn⟩ ?_
  · intro b s₁ hinv
    mvcgen [hstep]
    all_goals grind [Round]
  · grind [Input.rest]

/-- What a parser of one element has to do: it ends, and does not go back. -/
abbrev Forward (input : Input) (n : ℕ) (p : ParserM α) : Prop :=
  ∀ s₀, input.rest s₀ < n → NeverBack s₀ p

section Lists

variable {n : ℕ} {elementParser : ParserM ParseResult} (type : ASTNodeType)
  (terminator : TokenType) (consumeTerminator : Bool)

@[spec]
theorem parseListSeparator_spec (state : ListState) :
    Yields s₀ (parseListSeparator input type terminator consumeTerminator state)
      (Round input s₀) := by
  mvcgen [parseListSeparator]
  all_goals grind [Round, Keeps, Input.rest]

/-- A round of a list consumes a token or ends. -/
theorem parseListStep_spec (helement : Forward input n elementParser) (hn : input.rest s₀ < n)
    (state : ListState) :
    Yields s₀ (parseListStep input type terminator elementParser consumeTerminator state)
      (Round input s₀) := by
  unfold Forward at helement
  refine of_weaker fun Q hQ ↦ ?_
  mvcgen [parseListStep, helement]
  all_goals grind [Round, Input.rest]

theorem parseList_spec (helement : Forward input n elementParser) (s₀ : State)
    (hn : input.tokens.length - (s₀.position + 1) < n) :
    Advances s₀ (parseList input type terminator elementParser consumeTerminator) := by
  have hloop := loop_spec hfuel fun state s hs ↦
    parseListStep_spec hfuel type terminator consumeTerminator helement hs state
  mvcgen [parseList, hloop]
  all_goals grind [Input.rest]

end Lists

/-! ## Attributes -/

section Attributes

variable {n : ℕ}

omit hfuel in
@[spec]
theorem parseAttribute_spec : Advances s₀ (parseAttribute input) := by
  mvcgen [parseAttribute]
  all_goals grind

@[spec]
theorem parseAttributeList_spec : Advances s₀ (parseAttributeList input) := by
  have helement : Forward input (input.tokens.length + 1) (parseAttribute input) := by
    intro s _
    refine of_weaker fun Q hQ ↦ ?_
    mvcgen
    all_goals grind
  have hlist := parseList_spec hfuel AST_ATTRIBUTE_LIST TKN_RBRACKET true helement
  refine of_weaker fun Q hQ ↦ ?_
  mvcgen [parseAttributeList, hlist]
  all_goals grind

theorem parseAttributeWrapper_spec
    {childParser : ParserM ParseResult} (hchild : Forward input n childParser)
    (hn : input.rest s₀ ≤ n) (hat : (input.current s₀).type = TKN_AT) :
    Advances s₀ (parseAttributeWrapper input childParser) := by
  unfold Forward at hchild
  mvcgen [parseAttributeWrapper, hchild]
  all_goals grind [Input.rest]

end Attributes

end Banjo.Parser
