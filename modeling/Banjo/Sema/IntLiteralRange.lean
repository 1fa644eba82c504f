import Banjo.Parser.Literals
import Banjo.Target.StandardDataLayout

/-!
# The ranges of integer literals

A minus sign in front of a literal becomes a part of the literal, any other one an operator. The
value of the literal is compared with the range of the type it is coerced to, whatever operators are
around it, and for the unsigned types of 64 bits there is no range.
-/

open List

namespace Banjo.Sema.IntLiteralRange

open LargeInt
open ExprParser (literalValue intLiteralErrors literalBase isHexDigit stripZeros hexDigitValue)
open Target (Platform)

/-! ## Nodes -/

/-- The nodes of a literal with signs and parentheses. -/
inductive LiteralNode where
  | intLiteral (token : Token)
  | negExpr (value : LiteralNode)
  | parenExpr (subExpression : LiteralNode)

namespace LiteralNode

def token : LiteralNode → Token
  | intLiteral token => token
  | negExpr value => value.token
  | parenExpr subExpression => subExpression.token

/-- The value in mathematics. -/
def value : LiteralNode → ℤ
  | intLiteral token => literalValue token.value
  | negExpr value => -value.value
  | parenExpr subExpression => subExpression.value

/-- A minus sign stands right in front of the literal. -/
def hasSign : LiteralNode → Bool
  | intLiteral _ => false
  | negExpr (intLiteral _) => true
  | negExpr value => value.hasSign
  | parenExpr subExpression => subExpression.hasSign

/-- The other minus signs. -/
def operators : LiteralNode → ℕ
  | intLiteral _ => 0
  | negExpr (intLiteral _) => 0
  | negExpr value => value.operators + 1
  | parenExpr subExpression => subExpression.operators

end LiteralNode

/-- The digits of a literal are digits in its base, and there are some. -/
structure WellFormed (token : Token) : Prop where
  nonempty : (literalBase token.value).2 ≠ []
  digits : ∀ c ∈ (literalBase token.value).2,
    isHexDigit c = true ∧ digit c < (literalBase token.value).1

/-! ## Expressions -/

inductive IntType where
  | I8 | I16 | I32 | I64 | U8 | U16 | U32 | U64 | USIZE
  deriving DecidableEq, Repr

namespace IntType

def isSigned : IntType → Bool
  | I8 | I16 | I32 | I64 => true
  | _ => false

def bits (platform : Platform) : IntType → ℕ
  | I8 | U8 => 8
  | I16 | U16 => 16
  | I32 | U32 => 32
  | I64 | U64 => 64
  | USIZE => 8 * Target.primitiveSize platform platform.params.usizeType

/-- The numbers of a type. -/
def Holds (platform : Platform) (type : IntType) (n : ℤ) : Prop :=
  if type.isSigned then -2 ^ (type.bits platform - 1) ≤ n ∧ n < 2 ^ (type.bits platform - 1)
  else 0 ≤ n ∧ n < 2 ^ type.bits platform

instance (platform : Platform) (type : IntType) (n : ℤ) : Decidable (type.Holds platform n) :=
  inferInstanceAs (Decidable (ite _ _ _))

end IntType

/-- `INT_LITERAL` is the type of a literal before it is coerced. -/
inductive ExprType where
  | INT_LITERAL
  | primitive (type : IntType)
  deriving DecidableEq, Repr

inductive Expr where
  | intLiteral (type : Option ExprType) (value : LargeInt)
  | neg (type : Option ExprType) (value : Expr)
  deriving DecidableEq, Repr

namespace Expr

def type : Expr → Option ExprType
  | intLiteral type _ => type
  | neg type _ => type

/-- The literal below the signs. -/
def literal : Expr → LargeInt
  | intLiteral _ value => value
  | neg _ value => value.literal

end Expr

/-! ## The generator -/

/-- The value of the literal's node, which the parser has replaced after a report. -/
def nodeValue (token : Token) : List Char :=
  if (intLiteralErrors token).isEmpty then token.value else ['0']

def generateIntLiteral (token : Token) : LargeInt := ofText (nodeValue token)

def generateExpr : LiteralNode → Expr
  | .intLiteral token => .intLiteral none (generateIntLiteral token)
  -- `generate_unary_expr` folds the sign.
  | .negExpr (.intLiteral token) => .intLiteral none (generateIntLiteral token).neg
  | .negExpr value => .neg none (generateExpr value)
  | .parenExpr subExpression => generateExpr subExpression

/-! ## The analysis -/

inductive Report where
  | cannotNegateUnsigned
  | cannotNegate
  | typeMismatch
  | intLiteralOutOfRange (value lower upper : LargeInt)
  deriving DecidableEq, Repr

/-- `analyze_uncoerced`. -/
def analyzeUncoerced : Expr → Except Report Expr
  | .intLiteral _ value => .ok (.intLiteral (some .INT_LITERAL) value)
  | .neg _ value => do
    let value ← analyzeUncoerced value
    match value.type with
    | some .INT_LITERAL => return .neg (some .INT_LITERAL) value
    | some (.primitive type) =>
      if type.isSigned then return .neg (some (.primitive type)) value
      else throw .cannotNegateUnsigned
    | none => throw .cannotNegate

/-- The range of a type, where there is a check. -/
def range : IntType → Option (LargeInt × LargeInt)
  | .I8 => some (ofSigned (-128), ofSigned 127)
  | .I16 => some (ofSigned (-32768), ofSigned 32767)
  | .I32 => some (ofSigned (-2147483648), ofSigned 2147483647)
  | .I64 => some (ofSigned (-9223372036854775808), ofSigned 9223372036854775807)
  | .U8 => some (⟨0, false⟩, ⟨255, false⟩)
  | .U16 => some (⟨0, false⟩, ⟨65535, false⟩)
  | .U32 => some (⟨0, false⟩, ⟨4294967295, false⟩)
  | .U64 => none -- Taken care of by the parser.
  | .USIZE => none

/-- `check_int_literal_range`. -/
def checkIntLiteralRange (type : IntType) (value : LargeInt) : List Report :=
  match range type with
  | some (lower, upper) =>
    if value.lt lower || upper.lt value then [.intLiteralOutOfRange value lower upper] else []
  | none => []

/-- `finalize_by_coercion`: an error, or the expression and what has been reported. -/
def finalizeByCoercion (type : IntType) : Expr → Except Report (Expr × List Report)
  | .intLiteral exprType value =>
    if exprType = some (.primitive type) then .ok (.intLiteral exprType value, [])
    else .ok (.intLiteral (some (.primitive type)) value, checkIntLiteralRange type value)
  | .neg exprType value =>
    if exprType = some (.primitive type) then .ok (.neg exprType value, [])
    else do
      let (value, reports) ← finalizeByCoercion type value
      let exprType := if exprType = some .INT_LITERAL then value.type else exprType
      if exprType ≠ some (.primitive type) then throw .typeMismatch
      return (.neg exprType value, reports)

/-- The compiler reports nothing. -/
def Accepts (type : IntType) (node : LiteralNode) : Prop :=
  intLiteralErrors node.token = [] ∧
    ∃ expr, (analyzeUncoerced (generateExpr node)).bind (finalizeByCoercion type) = .ok (expr, [])

/-! ## What is checked -/

/-- The operators have no effect on the check of the literal below them. -/
theorem exists_finalizeByCoercion (type : IntType) (expr : Expr) :
    ∃ analyzed final, analyzeUncoerced expr = .ok analyzed ∧
      analyzed.type = some .INT_LITERAL ∧ final.type = some (.primitive type) ∧
      finalizeByCoercion type analyzed = .ok (final, checkIntLiteralRange type expr.literal) := by
  induction expr with
  | intLiteral exprType value => exact ⟨_, _, rfl, rfl, rfl, rfl⟩
  | neg exprType value ih =>
    obtain ⟨analyzed, final, hanalyzed, htype, hfinal, hfinalize⟩ := ih
    refine ⟨.neg (some .INT_LITERAL) analyzed, .neg (some (.primitive type)) final, ?_, rfl, rfl,
      ?_⟩
    · rw [analyzeUncoerced, hanalyzed]
      simp only [bind, Except.bind, htype]
      rfl
    · rw [finalizeByCoercion, hfinalize]
      simp [bind, Except.bind, pure, Except.pure, hfinal, Expr.literal]

theorem accepts_iff (type : IntType) (node : LiteralNode) :
    Accepts type node ↔ intLiteralErrors node.token = [] ∧
      checkIntLiteralRange type (generateExpr node).literal = [] := by
  obtain ⟨analyzed, final, hanalyzed, -, -, hfinal⟩ := exists_finalizeByCoercion type
    (generateExpr node)
  refine and_congr_right fun _ ↦ ?_
  rw [hanalyzed]
  simp only [Except.bind, hfinal, Except.ok.injEq, Prod.mk.injEq]
  exact ⟨fun ⟨_, _, h⟩ ↦ h, fun h ↦ ⟨final, rfl, h⟩⟩

variable (node : LiteralNode)

theorem literal_generateExpr :
    (generateExpr node).literal =
      if node.hasSign then (generateIntLiteral node.token).neg
      else generateIntLiteral node.token := by
  fun_induction generateExpr node with
  | case1 token => rfl
  | case2 token => rfl
  | case3 value hvalue ih =>
    rw [Expr.literal, ih]
    cases value with
    | intLiteral token => exact absurd rfl (hvalue token)
    | negExpr value => rfl
    | parenExpr subExpression => rfl
  | case4 subExpression ih => exact ih

/-- The value of a node by the sign and the operators. -/
theorem LiteralNode.value_eq :
    node.value = (-1) ^ node.operators *
      if node.hasSign then -(literalValue node.token.value : ℤ)
      else literalValue node.token.value := by
  fun_induction LiteralNode.operators node with
  | case1 token => simp [LiteralNode.value, LiteralNode.hasSign, LiteralNode.token]
  | case2 token => simp [LiteralNode.value, LiteralNode.hasSign, LiteralNode.token]
  | case3 value hvalue ih =>
    have hsign : value.negExpr.hasSign = value.hasSign := by
      cases value with
      | intLiteral token => exact absurd rfl (hvalue token)
      | negExpr value => rfl
      | parenExpr subExpression => rfl
    rw [LiteralNode.value, ih, hsign, LiteralNode.token, pow_succ]
    ring
  | case4 subExpression ih => exact ih

/-! ## What the parser accepts -/

variable {c : Char} {digits : List Char}

theorem mem_of_mem_stripZeros (h : c ∈ stripZeros digits) : c ∈ digits := by
  fun_induction stripZeros digits with
  | case1 d digits ih => exact mem_cons_of_mem _ (ih h)
  | case2 => exact h

theorem stripZeros_ne_nil (h : digits ≠ []) : stripZeros digits ≠ [] := by
  fun_induction stripZeros digits with
  | case1 d digits ih => exact ih (cons_ne_nil _ _)
  | case2 => exact h

theorem digit_pos (hhex : isHexDigit c = true) (hc : c ≠ '0') : 0 < digit c := by
  unfold isHexDigit at hhex
  simp only [Bool.or_eq_true, Bool.and_eq_true, decide_eq_true_eq] at hhex
  unfold digit
  split_ifs with hdecimal hlower hupper
  · have hle : '0'.toNat ≤ c.toNat := hdecimal.1
    have hne : c.toNat ≠ '0'.toNat := fun heq ↦ hc (Char.toNat_inj.mp heq)
    omega
  · have hle : 'a'.toNat ≤ c.toNat := hlower.1
    omega
  · have hle : 'A'.toNat ≤ c.toNat := hupper.1
    omega
  · exact absurd hhex (by tauto)

variable {base : ℕ}

/-- Without leading zeros, a numeral is as large as its length says. -/
theorem pow_le_numeral_stripZeros {digits : List Char} (hlength : 2 ≤ (stripZeros digits).length)
    (hhex : ∀ c ∈ stripZeros digits, isHexDigit c = true) :
    base ^ ((stripZeros digits).length - 1) ≤ numeral base (stripZeros digits) := by
  fun_induction stripZeros digits with
  | case1 d digits ih => exact ih hlength hhex
  | case2 digits hnot =>
    obtain _ | ⟨c, _ | ⟨d, digits⟩⟩ := digits
    · simp at hlength
    · simp at hlength
    · have hc : c ≠ '0' := fun hc ↦ hnot d digits (by rw [hc])
      have hdigit : 0 < digit c := digit_pos (hhex c mem_cons_self) hc
      rw [numeral_cons, length_cons, Nat.add_sub_cancel]
      calc base ^ (d :: digits).length = base ^ (d :: digits).length * 1 := (Nat.mul_one _).symm
        _ ≤ base ^ (d :: digits).length * digit c := Nat.mul_le_mul_left _ hdigit
        _ ≤ _ := Nat.le_add_left _ _

/-- The first digits that differ decide. -/
theorem numeral_lt_of_notAbove_eq_false {as bs : List Char} (hlength : as.length = bs.length)
    (has : ∀ c ∈ as, isHexDigit c = true) (hbs : ∀ c ∈ bs, isHexDigit c = true ∧ digit c < base)
    (h : ExprParser.notAbove as bs = false) : numeral base bs < numeral base as := by
  induction as generalizing bs with
  | nil =>
    obtain rfl : bs = [] := length_eq_zero_iff.mp hlength.symm
    cases h
  | cons a as ih =>
    cases bs with
    | nil => exact absurd hlength (Nat.succ_ne_zero _)
    | cons b bs =>
      have hlength : as.length = bs.length := Nat.succ_inj.mp hlength
      have hbs' : ∀ c ∈ bs, isHexDigit c = true ∧ digit c < base := fun c hc ↦
        hbs c (mem_cons_of_mem _ hc)
      rw [ExprParser.notAbove, ExprParser.hexDigitValue_eq (has a mem_cons_self),
        ExprParser.hexDigitValue_eq (hbs b mem_cons_self).1] at h
      rw [numeral_cons, numeral_cons, hlength]
      split_ifs at h with hgt hlt
      · have hrest := ExprParser.numeral_lt fun c hc ↦ (hbs' c hc).2
        calc numeral base bs + base ^ bs.length * digit b
            < base ^ bs.length * (digit b + 1) := by rw [Nat.mul_succ]; omega
          _ ≤ base ^ bs.length * digit a := Nat.mul_le_mul_left _ hgt
          _ ≤ numeral base as + base ^ bs.length * digit a := Nat.le_add_left _ _
      · have heq : digit a = digit b := by omega
        have hrest := ih hlength (fun c hc ↦ has c (mem_cons_of_mem _ hc)) hbs' h
        rw [heq]
        exact Nat.add_lt_add_right hrest _

theorem maxInteger_largest (h : ExprParser.IsBase base) :
    2 ^ 64 ≤ numeral base (ExprParser.maxInteger base) + 1 ∧
      2 ^ 64 ≤ base ^ (ExprParser.maxInteger base).length ∧
      ∀ c ∈ ExprParser.maxInteger base, isHexDigit c = true ∧ digit c < base := by
  have hall : 2 ^ 64 ≤ numeral base (ExprParser.maxInteger base) + 1 ∧
      2 ^ 64 ≤ base ^ (ExprParser.maxInteger base).length ∧
      (ExprParser.maxInteger base).all (fun c ↦ isHexDigit c && digit c < base) = true := by
    obtain rfl | rfl | rfl | rfl := h <;> decide +kernel
  refine ⟨hall.1, hall.2.1, fun c hc ↦ ?_⟩
  have hdigit := all_eq_true.mp hall.2.2 c hc
  rwa [Bool.and_eq_true, decide_eq_true_iff] at hdigit

theorem validateIntegerRange_of_numeral_lt {base : ℕ} {digits : List Char}
    (hbase : ExprParser.IsBase base) (hhex : ∀ c ∈ stripZeros digits, isHexDigit c = true)
    (h : numeral base (stripZeros digits) < 2 ^ 64) :
    ExprParser.validateIntegerRange (stripZeros digits) base = true := by
  obtain ⟨hmax, hpow, hdigits⟩ := maxInteger_largest hbase
  have hpos : 0 < base := by
    obtain rfl | rfl | rfl | rfl := hbase <;> decide
  have hmaxLength : 1 ≤ (ExprParser.maxInteger base).length := by
    obtain rfl | rfl | rfl | rfl := hbase <;> decide
  unfold ExprParser.validateIntegerRange
  split_ifs with hlong hlength
  · have hle := @pow_le_numeral_stripZeros base digits (by omega) hhex
    have hmono : base ^ (ExprParser.maxInteger base).length
        ≤ base ^ ((stripZeros digits).length - 1) := Nat.pow_le_pow_right hpos (by omega)
    exact absurd (hpow.trans (hmono.trans hle)) (not_le.mpr h)
  · by_contra hnot
    have hlt := numeral_lt_of_notAbove_eq_false hlength hhex hdigits
      (Bool.eq_false_of_not_eq_true hnot)
    omega
  · rfl

/-- A literal is accepted by the parser when it has no more than 64 bits. -/
theorem intLiteralErrors_eq_nil_iff {token : Token} (h : WellFormed token) :
    intLiteralErrors token = [] ↔ literalValue token.value < 2 ^ 64 := by
  refine ⟨fun herrors ↦ (ExprParser.valid_of_errors_eq_nil herrors).fits, fun hlt ↦ ?_⟩
  have hdigits : ∀ c ∈ stripZeros (literalBase token.value).2,
      isHexDigit c = true ∧ digit c < (literalBase token.value).1 :=
    fun c hc ↦ h.digits c (mem_of_mem_stripZeros hc)
  rw [literalValue, ← ExprParser.numeral_stripZeros] at hlt
  unfold intLiteralErrors
  dsimp only
  rw [validateIntegerRange_of_numeral_lt (ExprParser.isBase_literalBase _)
    (fun c hc ↦ (hdigits c hc).1) hlt, if_neg, if_neg (by decide)]
  simp only [Bool.or_eq_true, List.isEmpty_iff, Bool.not_eq_true', not_or]
  refine ⟨stripZeros_ne_nil h.nonempty, ?_⟩
  rw [Bool.not_eq_false, List.all_eq_true]
  intro c hc
  rw [Bool.and_eq_true, decide_eq_true_iff, ExprParser.hexDigitValue_eq (hdigits c hc).1]
  exact hdigits c hc

theorem value_generateIntLiteral {token : Token} (h : intLiteralErrors token = []) :
    (generateIntLiteral token).value = literalValue token.value ∧
      (generateIntLiteral token).negative = false := by
  have hvalid := ExprParser.valid_of_errors_eq_nil h
  have hnode : nodeValue token = token.value := by
    rw [nodeValue, h]
    rfl
  rw [generateIntLiteral, hnode]
  refine ⟨ExprParser.value_ofText_of_valid hvalid, ?_⟩
  rw [ofText_of_head_ne (ExprParser.textBase_eq_of_valid hvalid).1]

/-! ## The range check -/

/-- The check against a range whose ends are not zeros with a sign. -/
theorem not_lt_and_not_lt_iff {value lower upper : LargeInt}
    (hlower : lower.negative = false ∨ lower.value < 0) (hupper : 0 < upper.value) :
    (value.lt lower || upper.lt value) = false ↔
      lower.value ≤ value.value ∧ value.value ≤ upper.value ∧
        ¬(value.value = 0 ∧ value.negative = true ∧ lower.value = 0) := by
  rw [Bool.or_eq_false_iff, ← Bool.not_eq_true, ← Bool.not_eq_true, lt_iff, lt_iff]
  rcases hlower with hlower | hlower
  · constructor
    · rintro ⟨hlow, hup⟩
      exact ⟨by omega, by omega, fun ⟨hzero, hneg, hlowzero⟩ ↦
        hlow (.inr ⟨hzero, hlowzero, hneg, hlower⟩)⟩
    · rintro ⟨hlow, hup, hzero⟩
      refine ⟨?_, by omega⟩
      rintro (hlt | ⟨hvalue, hlowzero, hneg, -⟩)
      · omega
      · exact hzero ⟨hvalue, hneg, hlowzero⟩
  · omega

/-- The types whose range is checked: those that fit in 32 bits, and `i64`. -/
def IntType.isChecked : IntType → Bool
  | .U64 | .USIZE => false
  | _ => true

variable (platform : Platform)

variable {type : IntType}

/-- The range is that of the type, with its upper end in it. -/
theorem exists_range (h : type.isChecked = true) :
    ∃ lower upper, range type = some (lower, upper) ∧
      (lower.negative = false ∨ lower.value < 0) ∧ 0 < upper.value ∧
      (lower.value = 0 ↔ type.isSigned = false) ∧
      ∀ n, type.Holds platform n ↔ lower.value ≤ n ∧ n ≤ upper.value := by
  cases type with
  | U64 | USIZE => cases h
  | I8 =>
    refine ⟨_, _, rfl, by decide, by decide, by decide, fun n ↦ ?_⟩
    change -128 ≤ n ∧ n < 128 ↔ -128 ≤ n ∧ n ≤ 127
    omega
  | I16 =>
    refine ⟨_, _, rfl, by decide, by decide, by decide, fun n ↦ ?_⟩
    change -32768 ≤ n ∧ n < 32768 ↔ -32768 ≤ n ∧ n ≤ 32767
    omega
  | I32 =>
    refine ⟨_, _, rfl, by decide, by decide, by decide, fun n ↦ ?_⟩
    change -2147483648 ≤ n ∧ n < 2147483648 ↔ -2147483648 ≤ n ∧ n ≤ 2147483647
    omega
  | I64 =>
    refine ⟨_, _, rfl, by decide, by decide, by decide, fun n ↦ ?_⟩
    change -9223372036854775808 ≤ n ∧ n < 9223372036854775808 ↔
      -9223372036854775808 ≤ n ∧ n ≤ 9223372036854775807
    omega
  | U8 =>
    refine ⟨_, _, rfl, by decide, by decide, by decide, fun n ↦ ?_⟩
    change 0 ≤ n ∧ n < 256 ↔ 0 ≤ n ∧ n ≤ 255
    omega
  | U16 =>
    refine ⟨_, _, rfl, by decide, by decide, by decide, fun n ↦ ?_⟩
    change 0 ≤ n ∧ n < 65536 ↔ 0 ≤ n ∧ n ≤ 65535
    omega
  | U32 =>
    refine ⟨_, _, rfl, by decide, by decide, by decide, fun n ↦ ?_⟩
    change 0 ≤ n ∧ n < 4294967296 ↔ 0 ≤ n ∧ n ≤ 4294967295
    omega

theorem checkIntLiteralRange_eq_nil_iff (type : IntType) (value : LargeInt) :
    checkIntLiteralRange type value = [] ↔
      (type.isChecked = true → type.Holds platform value.value ∧
        ¬(value.value = 0 ∧ value.negative = true ∧ type.isSigned = false)) := by
  by_cases hchecked : type.isChecked = true
  · obtain ⟨lower, upper, hrange, hlower, hupper, hsigned, hholds⟩ := exists_range platform hchecked
    have hcheck : checkIntLiteralRange type value = [] ↔
        (value.lt lower || upper.lt value) = false := by
      rw [checkIntLiteralRange, hrange]
      cases h : value.lt lower || upper.lt value <;> simp [h]
    rw [hcheck, not_lt_and_not_lt_iff hlower hupper, hholds, hsigned, and_assoc]
    exact ⟨fun h _ ↦ h, fun h ↦ h hchecked⟩
  · refine iff_of_true ?_ fun h ↦ absurd h hchecked
    cases type with
    | U64 | USIZE => rfl
    | I8 | I16 | I32 | I64 | U8 | U16 | U32 => exact absurd rfl hchecked

/-! ## Literals under signs -/

/-- A report is made exactly for what the type does not hold. -/
def ChecksRange (platform : Platform) (type : IntType) (node : LiteralNode) : Prop :=
  Accepts type node ↔ type.Holds platform node.value

/-- The literals for which the check is right, by the value of their digits, the sign in front of
the literal and the number of other signs. -/
def RangeSeen (platform : Platform) (type : IntType) (node : LiteralNode) : Prop :=
  let digits := literalValue node.token.value
  let negated := (node.operators + if node.hasSign then 1 else 0) % 2 = 1
  if type.isChecked then
    if type.isSigned then digits = 2 ^ (type.bits platform - 1) → node.operators % 2 = 0
    else 2 ^ type.bits platform ≤ digits ∨ (node.hasSign = true ↔ negated ∧ digits ≠ 0)
  else 2 ^ 64 ≤ digits ∨ digits < 2 ^ type.bits platform ∧ (negated → digits = 0)

theorem bits_pos_le (type : IntType) : 0 < type.bits platform ∧ type.bits platform ≤ 64 := by
  cases type <;> cases platform <;> decide +revert

theorem holds_signed_iff (h : type.isSigned = true) (n : ℤ) :
    type.Holds platform n ↔ -((2 ^ (type.bits platform - 1) : ℕ) : ℤ) ≤ n ∧
      n < ((2 ^ (type.bits platform - 1) : ℕ) : ℤ) := by
  rw [IntType.Holds, if_pos h]
  push_cast
  rfl

theorem holds_unsigned_iff (h : type.isSigned = false)
    (n : ℤ) : type.Holds platform n ↔ 0 ≤ n ∧ n < ((2 ^ type.bits platform : ℕ) : ℤ) := by
  rw [IntType.Holds, h]
  push_cast
  rfl

/-- The value of the node, by the parity of the operators. -/
theorem value_of_parity :
    (node.operators % 2 = 0 → node.value = if node.hasSign then
      -(literalValue node.token.value : ℤ) else literalValue node.token.value) ∧
    (node.operators % 2 = 1 → node.value = if node.hasSign then
      (literalValue node.token.value : ℤ) else -literalValue node.token.value) := by
  rw [node.value_eq]
  refine ⟨fun heven ↦ ?_, fun hodd ↦ ?_⟩
  · rw [(Nat.even_iff.mpr heven).neg_one_pow, one_mul]
  · rw [(Nat.odd_iff.mpr hodd).neg_one_pow]
    split <;> simp

theorem value_literal {node : LiteralNode} (h : intLiteralErrors node.token = []) :
    (generateExpr node).literal.value = (if node.hasSign then
      -(literalValue node.token.value : ℤ) else literalValue node.token.value) ∧
      (generateExpr node).literal.negative = node.hasSign := by
  obtain ⟨hvalue, hnegative⟩ := value_generateIntLiteral h
  rw [literal_generateExpr]
  cases node.hasSign
  · exact ⟨hvalue, hnegative⟩
  · exact ⟨by simp [hvalue], by simp [neg, hnegative]⟩

theorem unsigned_of_not_isChecked (h : type.isChecked = false) : type.isSigned = false := by
  cases type <;> first | rfl | cases h

/-- A literal of more than 64 bits is reported, and no type holds it under any signs. -/
theorem checksRange_of_large (type : IntType) (node : LiteralNode)
    (h : WellFormed node.token) (hlarge : 2 ^ 64 ≤ literalValue node.token.value) :
    ChecksRange platform type node ∧ RangeSeen platform type node := by
  obtain ⟨heven, hodd⟩ := value_of_parity node
  have hpow : 2 ^ type.bits platform ≤ 2 ^ 64 :=
    Nat.pow_le_pow_right (by decide) (bits_pos_le platform type).2
  have hpow' : 2 ^ (type.bits platform - 1) < 2 ^ 64 :=
    Nat.pow_lt_pow_right (by decide) (by have := bits_pos_le platform type; omega)
  have hnot : ¬type.Holds platform node.value := by
    have hvalue : node.value = literalValue node.token.value ∨
        node.value = -literalValue node.token.value := by
      rcases Nat.mod_two_eq_zero_or_one node.operators with hparity | hparity
      · rw [heven hparity]
        split <;> simp
      · rw [hodd hparity]
        split <;> simp
    cases hsigned : type.isSigned
    · rw [holds_unsigned_iff platform hsigned]
      omega
    · rw [holds_signed_iff platform hsigned]
      omega
  constructor
  · rw [ChecksRange, accepts_iff, intLiteralErrors_eq_nil_iff h]
    exact iff_of_false (fun haccepts ↦ absurd haccepts.1 (not_lt.mpr hlarge)) hnot
  · unfold RangeSeen
    dsimp only
    cases type.isChecked
    · exact .inl hlarge
    · cases type.isSigned
      · exact .inl (hpow.trans hlarge)
      · exact fun heq ↦ by omega

def token (text : String) : Token := { type := .TKN_LITERAL, value := text.toList, position := 0 }

/-- `-128`. -/
def lowest : LiteralNode := .negExpr (.intLiteral (token "128"))

/-- `-1`. -/
def minusOne : LiteralNode := .negExpr (.intLiteral (token "1"))

end Banjo.Sema.IntLiteralRange
