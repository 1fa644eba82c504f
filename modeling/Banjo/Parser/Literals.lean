import Banjo.Parser.TokenStream
import Banjo.Utils.LargeIntText

/-!
# Literals

Every literal becomes a node, valid or not: one that is not is reported and stands for a fixed
value.
-/

open List

namespace Banjo.ExprParser

open Banjo.Parser TokenStream TokenType ASTNodeType

variable (input : Input)

def isHexDigit (c : Char) : Bool :=
  ('0' ≤ c && c ≤ '9') || ('a' ≤ c && c ≤ 'f') || ('A' ≤ c && c ≤ 'F')

def hexDigitValue (c : Char) : ℕ :=
  if '0' ≤ c && c ≤ '9' then c.toNat - '0'.toNat
  else if 'a' ≤ c && c ≤ 'f' then 10 + c.toNat - 'a'.toNat
  else 10 + c.toNat - 'A'.toNat

/-- The largest integer of 64 bits in a base. -/
def maxInteger : ℕ → List Char
  | 2 => "1111111111111111111111111111111111111111111111111111111111111111".toList
  | 8 => "1777777777777777777777".toList
  | 16 => "FFFFFFFFFFFFFFFF".toList
  | _ => "18446744073709551615".toList

/-- The digits from the front, until two of them differ. -/
def notAbove : List Char → List Char → Bool
  | a :: as, b :: bs =>
    if hexDigitValue a > hexDigitValue b then false
    else if hexDigitValue a < hexDigitValue b then true
    else notAbove as bs
  | _, _ => true

def validateIntegerRange (value : List Char) (base : ℕ) : Bool :=
  if value.length > (maxInteger base).length then false
  else if value.length = (maxInteger base).length then notAbove value (maxInteger base)
  else true

/-- The base of a literal and the characters behind its prefix. -/
def literalBase : List Char → ℕ × List Char
  | '0' :: 'x' :: value => (16, value)
  | '0' :: 'b' :: value => (2, value)
  | '0' :: 'o' :: value => (8, value)
  | value => (10, value)

/-- Leading zeros, but not the last digit, are dropped. -/
def stripZeros : List Char → List Char
  | '0' :: c :: value => stripZeros (c :: value)
  | value => value

/-- What is wrong with an integer literal, in the order of the reports. -/
def intLiteralErrors (token : Token) : List Report :=
  let (base, value) := literalBase token.value
  let value := stripZeros value
  let digit c := isHexDigit c && hexDigitValue c < base
  if value.isEmpty || !value.all digit then [.invalidIntLiteral token]
  else if !validateIntegerRange value base then [.intLiteralTooLarge token]
  else []

def reportAll (messages : List Report) : ParserM Unit :=
  modify fun state ↦ { state with reports := state.reports ++ messages }

/-- A literal of one token, whose node has the value `replacement` if something is wrong. -/
def parseLiteral (type : ASTNodeType) (errors : Token → List Report) (replacement : List Char) :
    ParserM ParseResult := do
  let errors := errors (← get input)
  reportAll errors
  let node ← consumeIntoNode input type
  return { node := if errors.isEmpty then node else node.setValue replacement }

def parseIntLiteral : ParserM ParseResult :=
  parseLiteral input AST_INT_LITERAL intLiteralErrors ['0']

def isFpLiteral (value : List Char) : Bool :=
  let value := if value.head? = some '-' then value.tail else value
  value.all (fun c ↦ c = '.' || ('0' ≤ c && c ≤ '9')) && value.count '.' ≤ 1

def parseFpLiteral : ParserM ParseResult :=
  parseLiteral input AST_FP_LITERAL
    (fun token ↦ if isFpLiteral token.value then [] else [.invalidFpLiteral token])
    ['0', '.', '0']

def parseNumberLiteral : ParserM ParseResult := do
  if (← get input).value.contains '.' then
    parseFpLiteral input
  else
    parseIntLiteral input

/-! ## Characters and strings -/

/-- The length of the escape sequence that starts with the backslash in front. -/
def validateEscapeSequence : List Char → Option ℕ
  | _ :: 'x' :: a :: b :: _ => if isHexDigit a && isHexDigit b then some 4 else none
  | _ :: c :: _ => if c ∈ ['n', 'r', 't', '0', '\\', '\'', '"'] then some 2 else none
  | _ => none

/-- The characters between the quotes. -/
def quoted (token : Token) : List Char := (token.value.drop 1).take (token.value.length - 2)

def charLiteralErrors (token : Token) : List Report :=
  match quoted token with
  | [c] => if c.toNat > 127 then [.invalidCharLiteral token] else []
  | '\\' :: rest =>
    match validateEscapeSequence ('\\' :: rest) with
    | some length =>
      if rest.length + 1 = length then [] else [.invalidCharLiteral token]
    | none => [.invalidEscapeSequence (token.position + 1)]
  | _ => [.invalidCharLiteral token]

/-- The positions of the escape sequences that are not valid, from `index` on. -/
def invalidEscapes (index : ℕ) : ℕ → List Char → List ℕ
  | _, [] => []
  | skip + 1, _ :: value => invalidEscapes (index + 1) skip value
  | 0, c :: value =>
    if c = '\\' then
      match validateEscapeSequence (c :: value) with
      | some length => invalidEscapes (index + 1) (length - 1) value
      | none => index :: invalidEscapes (index + 1) 0 value
    else
      invalidEscapes (index + 1) 0 value

def stringLiteralErrors (token : Token) : List Report :=
  (invalidEscapes 0 0 (quoted token)).map fun index ↦
    .invalidEscapeSequence (token.position + 1 + index)

/-- A literal in quotes, which are not part of its value. -/
def parseQuoted (type : ASTNodeType) (errors : Token → List Report) : ParserM ParseResult := do
  let token ← consume input
  reportAll (errors token)
  let value := if (errors token).isEmpty then quoted token else ['_']
  let node := ASTNode.withValue type value token.range
  return { node := node.setTokens [(← getThe State).position - 1] }

def parseCharLiteral : ParserM ParseResult :=
  parseQuoted input AST_CHAR_LITERAL charLiteralErrors

def parseStringLiteral : ParserM ParseResult :=
  parseQuoted input AST_STRING_LITERAL stringLiteralErrors

/-!
## The values of integer literals

A literal is checked on its digits, by their number and then from the front, and converted from the
text of its token. The check is exact: without leading zeros, longer numerals are larger, and those
of one length compare like their digits.
-/

open Banjo.Parser LargeInt

/-- The number that the text of a literal stands for. -/
def literalValue (text : List Char) : ℕ := numeral (literalBase text).1 (literalBase text).2

/-! ### The parser -/

variable (input : Input) (state : State)

theorem parseIntLiteral_eq :
    parseIntLiteral input state = some
      ({ node :=
          let node := (ASTNode.ofToken .AST_INT_LITERAL (input.token state.position)).setTokens
            [state.position + 1 - 1]
          if (intLiteralErrors (input.token state.position)).isEmpty then node
          else node.setValue ['0'] },
        { state with
          position := state.position + 1
          reports := state.reports ++ intLiteralErrors (input.token state.position) }) := rfl

/-- The literal at the position is accepted: nothing is reported. -/
def Accepts (input : Input) (state : State) : Prop :=
  ∀ result, parseIntLiteral input state = some result → result.2.reports = state.reports

/-- The number that is built of the node of the literal. -/
def Builds (input : Input) (state : State) (n : ℤ) : Prop :=
  ∃ result, parseIntLiteral input state = some result ∧ (ofText result.1.node.value).value = n

theorem accepts_iff : Accepts input state ↔ intLiteralErrors (input.token state.position) = [] := by
  unfold Accepts
  rw [parseIntLiteral_eq]
  simp

theorem builds_of_accepts {input : Input} {state : State} (h : Accepts input state) (n : ℤ) :
    Builds input state n ↔ (ofText (input.token state.position).value).value = n := by
  rw [accepts_iff] at h
  unfold Builds
  rw [parseIntLiteral_eq, h]
  simp only [Option.some.injEq, exists_eq_left']
  rfl

/-! ### Numerals of one length -/

variable {base : ℕ} {digits : List Char}

theorem numeral_lt (h : ∀ c ∈ digits, digit c < base) :
    numeral base digits < base ^ digits.length := by
  induction digits with
  | nil => exact Nat.one_pos
  | cons c digits ih =>
    have hrest := ih fun c hc ↦ h c (mem_cons_of_mem _ hc)
    have hc : digit c + 1 ≤ base := h c mem_cons_self
    rw [numeral_cons, length_cons, pow_succ]
    calc numeral base digits + base ^ digits.length * digit c
        < base ^ digits.length * (digit c + 1) := by rw [Nat.mul_succ]; omega
      _ ≤ base ^ digits.length * base := Nat.mul_le_mul_left _ hc

variable {c : Char}

theorem hexDigitValue_eq (h : isHexDigit c = true) : hexDigitValue c = digit c := by
  unfold isHexDigit at h
  unfold hexDigitValue digit
  simp only [Bool.or_eq_true, Bool.and_eq_true, decide_eq_true_eq] at h ⊢
  split_ifs with hdec hlow hup
  · rfl
  · rfl
  · rfl
  · exact absurd h (by tauto)

/-- The first digits that differ decide. -/
theorem numeral_le_of_notAbove {as bs : List Char} (hlength : as.length = bs.length)
    (has : ∀ c ∈ as, isHexDigit c = true ∧ digit c < base) (hbs : ∀ c ∈ bs, isHexDigit c = true)
    (h : notAbove as bs = true) : numeral base as ≤ numeral base bs := by
  induction as generalizing bs with
  | nil => exact Nat.zero_le _
  | cons a as ih =>
    cases bs with
    | nil => exact absurd hlength (Nat.succ_ne_zero _)
    | cons b bs =>
      have hlength : as.length = bs.length := Nat.succ_inj.mp hlength
      have has' : ∀ c ∈ as, isHexDigit c = true ∧ digit c < base := fun c hc ↦
        has c (mem_cons_of_mem _ hc)
      rw [notAbove, hexDigitValue_eq (has a mem_cons_self).1,
        hexDigitValue_eq (hbs b mem_cons_self)] at h
      rw [numeral_cons, numeral_cons, hlength]
      split_ifs at h with hgt hlt
      · have hrest := numeral_lt fun c hc ↦ (has' c hc).2
        rw [hlength] at hrest
        calc numeral base as + base ^ bs.length * digit a
            ≤ base ^ bs.length * (digit a + 1) := by rw [Nat.mul_succ]; omega
          _ ≤ base ^ bs.length * digit b := Nat.mul_le_mul_left _ hlt
          _ ≤ numeral base bs + base ^ bs.length * digit b := Nat.le_add_left _ _
      · have heq : digit a = digit b := by omega
        have hrest := ih hlength has' (fun c hc ↦ hbs c (mem_cons_of_mem _ hc)) h
        rw [heq]
        exact Nat.add_le_add_right hrest _

theorem numeral_stripZeros (base : ℕ) (digits : List Char) :
    numeral base (stripZeros digits) = numeral base digits := by
  fun_induction stripZeros digits with
  | case1 c digits ih =>
    have hzero : digit '0' = 0 := by decide
    rw [ih, numeral_cons base '0', hzero, Nat.mul_zero, Nat.add_zero]
  | case2 => rfl

theorem stripZeros_of_ne (h : c ≠ '0') : stripZeros (c :: digits) = c :: digits := by
  rw [stripZeros]
  simp [h]

/-! ### The check -/

/-- The bases of literals. -/
def IsBase (base : ℕ) : Prop := base = 2 ∨ base = 8 ∨ base = 10 ∨ base = 16

theorem isBase_literalBase (text : List Char) : IsBase (literalBase text).1 := by
  unfold literalBase IsBase
  split <;> simp

theorem maxInteger_spec (h : IsBase base) :
    numeral base (maxInteger base) < 2 ^ 64 ∧ base ^ ((maxInteger base).length - 1) ≤ 2 ^ 64 ∧
      ∀ c ∈ maxInteger base, isHexDigit c = true := by
  rw [← all_eq_true]
  obtain rfl | rfl | rfl | rfl := h <;> decide

theorem numeral_lt_of_validate (hbase : IsBase base)
    (hdigits : ∀ c ∈ digits, isHexDigit c = true ∧ digit c < base)
    (h : validateIntegerRange digits base = true) : numeral base digits < 2 ^ 64 := by
  obtain ⟨hmax, hpow, hhex⟩ := maxInteger_spec hbase
  have hpos : 0 < base := by
    obtain rfl | rfl | rfl | rfl := hbase <;> decide
  unfold validateIntegerRange at h
  split_ifs at h with hlong hlength
  · exact (numeral_le_of_notAbove hlength hdigits hhex h).trans_lt hmax
  · calc numeral base digits < base ^ digits.length := numeral_lt fun c hc ↦ (hdigits c hc).2
      _ ≤ base ^ ((maxInteger base).length - 1) := Nat.pow_le_pow_right hpos (by omega)
      _ ≤ 2 ^ 64 := hpow

/-- What is known of a literal without errors. -/
structure Valid (text : List Char) : Prop where
  nonempty : (literalBase text).2 ≠ []
  digits : ∀ c ∈ stripZeros (literalBase text).2,
    isHexDigit c = true ∧ digit c < (literalBase text).1
  fits : literalValue text < 2 ^ 64

theorem valid_of_errors_eq_nil {token : Token} (h : intLiteralErrors token = []) :
    Valid token.value := by
  unfold intLiteralErrors at h
  dsimp only at h
  split_ifs at h with hinvalid hlarge
  rw [Bool.or_eq_true, not_or, Bool.not_eq_true, Bool.not_eq_true, Bool.not_eq_false'] at hinvalid
  obtain ⟨hempty, hall⟩ := hinvalid
  have hdigits : ∀ c ∈ stripZeros (literalBase token.value).2,
      isHexDigit c = true ∧ digit c < (literalBase token.value).1 := by
    intro c hc
    have hdigit := all_eq_true.mp hall c hc
    rw [Bool.and_eq_true, decide_eq_true_iff] at hdigit
    exact ⟨hdigit.1, hexDigitValue_eq hdigit.1 ▸ hdigit.2⟩
  refine ⟨?_, hdigits, ?_⟩
  · intro hnil
    rw [hnil] at hempty
    cases hempty
  · rw [literalValue, ← numeral_stripZeros]
    exact numeral_lt_of_validate (isBase_literalBase _) hdigits (by simpa using hlarge)

/-! ### The conversion -/

variable {text : List Char}

/-- A character behind the zero in front that is neither a prefix nor a decimal digit is one that
the check finds. -/
theorem textBase_of_decimal
    (hletter : ∀ c digits, text = '0' :: c :: digits → c ≠ 'x' ∧ c ≠ 'b' ∧ c ≠ 'o')
    (hdigits : ∀ c ∈ stripZeros text, isHexDigit c = true ∧ digit c < 10) :
    textBase text = (10, text) := by
  unfold textBase
  split
  · rename_i c digits
    obtain ⟨hx, hb, ho⟩ := hletter c digits rfl
    have hdecimal : c ≠ '0' → isHexDigit c = true ∧ digit c < 10 := by
      intro hc
      refine hdigits c ?_
      rw [stripZeros, stripZeros_of_ne hc]
      exact mem_cons_self
    have hX : c ≠ 'X' := by
      rintro rfl
      exact absurd (hdecimal (by decide)) (by decide)
    have hB : c ≠ 'B' := by
      rintro rfl
      exact absurd (hdecimal (by decide)) (by decide)
    have hO : c ≠ 'O' := by
      rintro rfl
      exact absurd (hdecimal (by decide)) (by decide)
    rw [if_neg (not_or.mpr ⟨hx, hX⟩), if_neg (not_or.mpr ⟨hb, hB⟩), if_neg (not_or.mpr ⟨ho, hO⟩)]
  · rfl

theorem head_ne_minus
    (hdigits : ∀ c ∈ stripZeros text, isHexDigit c = true) : text.head? ≠ some '-' := by
  intro hhead
  obtain ⟨digits, rfl⟩ := head?_eq_some_iff.mp hhead
  rw [stripZeros_of_ne (by decide)] at hdigits
  exact absurd (hdigits '-' mem_cons_self) (by decide)

/-- The conversion finds the base that was checked. -/
theorem textBase_eq_of_valid (h : Valid text) :
    text.head? ≠ some '-' ∧ textBase text = literalBase text := by
  obtain ⟨-, hdigits, -⟩ := h
  revert hdigits
  fun_cases literalBase text with
  | case1 value => exact fun _ ↦ ⟨nofun, rfl⟩
  | case2 value => exact fun _ ↦ ⟨nofun, rfl⟩
  | case3 value => exact fun _ ↦ ⟨nofun, rfl⟩
  | case4 _ hx hb ho =>
    intro hdigits
    refine ⟨head_ne_minus fun c hc ↦ (hdigits c hc).1, textBase_of_decimal ?_ hdigits⟩
    rintro c digits rfl
    exact ⟨fun hc ↦ hx digits (hc ▸ rfl), fun hc ↦ hb digits (hc ▸ rfl),
      fun hc ↦ ho digits (hc ▸ rfl)⟩

theorem value_ofText_of_valid (h : Valid text) : (ofText text).value = literalValue text := by
  obtain ⟨hhead, hbase⟩ := textBase_eq_of_valid h
  rw [ofText_of_head_ne hhead, value_mk_false, magnitudeOf, hbase, toNat_readDigits h.fits]
  rfl

/-! ### Literals and texts -/

end Banjo.ExprParser
