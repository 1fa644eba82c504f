import Banjo.Sema.IntLiteralRange

/-!
# Casts of constants

A cast of an integer immediate changes the type of the immediate and nothing else, where a cast of a
register extends or truncates. An immediate that its type does not hold stands for another number
when it is extended than the register would.
-/

open Option

namespace Banjo.SSAGen.ConstantCasts

open SSA (Primitive Opcode)
open Sema.IntLiteralRange (IntType)
open Target (Platform primitiveSize)

/-! ## Types -/

inductive FpType where
  | F32 | F64
  deriving DecidableEq, Repr

inductive NumType where
  | int (type : IntType)
  | fp (type : FpType)
  deriving DecidableEq, Repr

namespace NumType

def isFp : NumType → Bool
  | int _ => false
  | fp _ => true

def isSigned : NumType → Bool
  | int type => type.isSigned
  | fp _ => false

end NumType

variable (platform : Platform)

/-- `TypeSSAGenerator::generate`. -/
def generateType : NumType → Primitive
  | .int .I8 => .I8
  | .int .I16 => .I16
  | .int .I32 => .I32
  | .int .I64 => .I64
  | .int .U8 => .U8
  | .int .U16 => .U16
  | .int .U32 => .U32
  | .int .U64 => .U64
  | .int .USIZE => platform.params.usizeType
  | .fp .F32 => .F32
  | .fp .F64 => .F64

/-! ## The generator -/

/-- An immediate, or the result of an instruction of a cast. A floating-point immediate is the
number it was made of, before it is rounded to the type. -/
inductive Value where
  | intImmediate (value : LargeInt) (type : Primitive)
  | fpImmediate (value : ℤ) (type : Primitive)
  | register (op : Opcode) (operand : Value) (type : Primitive)

def Value.type : Value → Primitive
  | intImmediate _ type => type
  | fpImmediate _ type => type
  | register _ _ type => type

def castOpcode (sizeFrom sizeTo : ℕ) (typeFrom typeTo : NumType) : Opcode :=
  if typeFrom.isFp then
    if typeTo.isFp then
      if sizeFrom < sizeTo then .FPROMOTE else .FDEMOTE
    else if typeTo.isSigned then .FTOS
    else .FTOU
  else if typeTo.isFp then
    if typeFrom.isSigned then .STOF else .UTOF
  else if sizeFrom < sizeTo then
    if typeFrom.isSigned then .SEXTEND else .UEXTEND
  else .TRUNCATE

/-- The magnitude is unsigned, and so is what the minus sign in front of it gives. -/
def fpOfImmediate (immediate : LargeInt) : ℤ :=
  if immediate.negative then (-immediate.magnitude).toNat else immediate.magnitude.toNat

def generateCastExpr (typeFrom typeTo : NumType) (valFrom : Value) : Value :=
  let sizeFrom := primitiveSize platform valFrom.type
  let ssaTypeTo := generateType platform typeTo
  let sizeTo := primitiveSize platform ssaTypeTo
  if sizeFrom = sizeTo ∧ typeFrom.isFp = typeTo.isFp then valFrom
  else
    match valFrom with
    | .intImmediate value _ =>
      if typeTo.isFp then .fpImmediate (fpOfImmediate value) ssaTypeTo
      else .intImmediate value ssaTypeTo
    | _ => .register (castOpcode sizeFrom sizeTo typeFrom typeTo) valFrom ssaTypeTo

/-- Casts of an integer literal. -/
inductive CastExpr where
  | literal (value : LargeInt) (type : IntType)
  | cast (value : CastExpr) (type : NumType)

namespace CastExpr

def type : CastExpr → NumType
  | literal _ type => .int type
  | cast _ type => type

/-- The value of the literal. -/
def immediate : CastExpr → LargeInt
  | literal value _ => value
  | cast value _ => value.immediate

/-- All casts are to integer types. -/
def isInteger : CastExpr → Bool
  | literal _ _ => true
  | cast value type => value.isInteger && !type.isFp

end CastExpr

def generate : CastExpr → Value
  | .literal value type => .intImmediate value (generateType platform (.int type))
  | .cast value type => generateCastExpr platform value.type type (generate value)

/-! ## At runtime -/

/-- What a register holds: the bits of an integer, or a number. -/
inductive Content where
  | bits (n : ℤ)
  | number (n : ℤ)
  deriving DecidableEq, Repr

/-- The instructions of the casts of integers, by the bits of their types. -/
def exec (bitsFrom bitsTo : ℕ) : Opcode → Content → Option Content
  | .SEXTEND, .bits n =>
    some (.bits (if n < 2 ^ (bitsFrom - 1) then n else n + 2 ^ bitsTo - 2 ^ bitsFrom))
  | .UEXTEND, .bits n => some (.bits n)
  | .TRUNCATE, .bits n => some (.bits (n % 2 ^ bitsTo))
  | .STOF, .bits n => some (.number (if n < 2 ^ (bitsFrom - 1) then n else n - 2 ^ bitsFrom))
  | .UTOF, .bits n => some (.number n)
  | _, _ => none

/-- The casts of a register that holds the value of the literal. -/
def runtime : CastExpr → Option Content
  | .literal value type =>
    let size := primitiveSize platform (generateType platform (.int type))
    some (.bits (value.value % 2 ^ (8 * size)))
  | .cast value type =>
    let sizeFrom := primitiveSize platform (generateType platform value.type)
    let sizeTo := primitiveSize platform (generateType platform type)
    if sizeFrom = sizeTo ∧ value.type.isFp = type.isFp then runtime value
    else (runtime value).bind
      (exec (8 * sizeFrom) (8 * sizeTo) (castOpcode sizeFrom sizeTo value.type type))

/-- The number is a number of the floating-point type. -/
def Exact (type : Primitive) (n : ℤ) : Prop :=
  ∃ m k : ℕ, n.natAbs = m * 2 ^ k ∧ m < 2 ^ (if type = .F32 then 24 else 53)

/-- The immediate that a chain of casts comes to stands for what the instructions would have left
in the register, a floating-point one if the literal is a number of its type. -/
def Agrees (expr : CastExpr) : Prop :=
  match generate platform expr with
  | .intImmediate value type =>
    runtime platform expr = some (.bits (value.value % 2 ^ (8 * primitiveSize platform type)))
  | .fpImmediate value type =>
    Exact type expr.immediate.value → runtime platform expr = some (.number value)
  | .register .. => True

/-! ## Numbers of a type -/

/-- The number that the lowest bits stand for in a type. -/
def read (type : IntType) (n : ℤ) : ℤ :=
  let bits := n % 2 ^ type.bits platform
  if type.isSigned ∧ 2 ^ (type.bits platform - 1) ≤ bits then bits - 2 ^ type.bits platform
  else bits

/-- The number that the register holds behind the casts. -/
def reads : CastExpr → ℤ
  | .literal value type => read platform type value.value
  | .cast value (.int type) => read platform type (reads value)
  | .cast value (.fp _) => reads value

variable {platform}

variable (type : IntType)

theorem bits_eq_size :
    8 * primitiveSize platform (generateType platform (.int type)) = type.bits platform := by
  cases type <;> cases platform <;> rfl

theorem two_pow_bits :
    (2 : ℤ) ^ type.bits platform = 2 * 2 ^ (type.bits platform - 1) ∧
      (0 : ℤ) < 2 ^ (type.bits platform - 1) := by
  have hpos := (Sema.IntLiteralRange.bits_pos_le platform type).1
  refine ⟨?_, by positivity⟩
  rw [← pow_succ', Nat.sub_add_cancel hpos]

theorem read_modEq (n : ℤ) : read platform type n ≡ n [ZMOD 2 ^ type.bits platform] := by
  unfold read
  dsimp only
  split_ifs
  · refine Int.modEq_iff_dvd.mpr ⟨n / 2 ^ type.bits platform + 1, ?_⟩
    have hdiv := Int.emod_add_mul_ediv n (2 ^ type.bits platform)
    linarith
  · exact Int.mod_modEq n _

theorem holds_read (n : ℤ) : type.Holds platform (read platform type n) := by
  obtain ⟨hdouble, hpos⟩ := @two_pow_bits platform type
  have hnonneg := Int.emod_nonneg n (b := 2 ^ type.bits platform) (by omega)
  have hlt := Int.emod_lt_of_pos n (b := 2 ^ type.bits platform) (by omega)
  unfold read IntType.Holds
  dsimp only
  cases type.isSigned
  · simp only [Bool.false_eq_true, false_and, if_false]
    exact ⟨hnonneg, hlt⟩
  · simp only [true_and, if_true]
    split_ifs <;> omega

/-- A type has one number for any bits. -/
theorem eq_of_holds {type : IntType} {a b : ℤ} (ha : type.Holds platform a)
    (hb : type.Holds platform b) (h : a ≡ b [ZMOD 2 ^ type.bits platform]) : a = b := by
  obtain ⟨hdouble, hpos⟩ := @two_pow_bits platform type
  have habs : |b - a| < 2 ^ type.bits platform := by
    unfold IntType.Holds at ha hb
    rw [abs_lt]
    split_ifs at ha hb <;> constructor <;> omega
  have hzero := Int.eq_zero_of_abs_lt_dvd (Int.modEq_iff_dvd.mp h) habs
  omega

theorem modEq_of_le {a b : ℤ} {v w : ℕ} (hle : v ≤ w) (h : a ≡ b [ZMOD 2 ^ w]) :
    a ≡ b [ZMOD 2 ^ v] :=
  h.of_dvd (pow_dvd_pow 2 hle)

/-! ## Immediates and registers -/

variable {expr : CastExpr}

theorem generate_of_isInteger (h : expr.isInteger = true) :
    ∃ type ssaType, expr.type = .int type ∧
      generate platform expr = .intImmediate expr.immediate ssaType ∧
      8 * primitiveSize platform ssaType = type.bits platform := by
  induction expr with
  | literal value type => exact ⟨type, _, rfl, rfl, bits_eq_size type⟩
  | cast value type ih =>
    rw [CastExpr.isInteger, Bool.and_eq_true] at h
    obtain ⟨typeFrom, ssaType, htype, hgenerate, hsize⟩ := ih h.1
    cases type with
    | fp type => exact absurd h.2 Bool.false_ne_true
    | int type =>
      rw [generate, hgenerate, htype, generateCastExpr]
      simp only [NumType.isFp, and_true, Bool.false_eq_true, if_false, Value.type]
      split_ifs with hsame
      · exact ⟨type, ssaType, rfl, rfl, by rw [← bits_eq_size type, ← hsame]⟩
      · exact ⟨type, _, rfl, rfl, bits_eq_size type⟩

variable {typeFrom : IntType}

/-- The step of a register: extended or truncated, it holds the number read in the new type. -/
theorem exec_castOpcode {type : IntType} {n : ℤ} (h : typeFrom.Holds platform n) :
    exec (typeFrom.bits platform) (type.bits platform)
      (castOpcode (primitiveSize platform (generateType platform (.int typeFrom)))
        (primitiveSize platform (generateType platform (.int type))) (.int typeFrom) (.int type))
      (.bits (n % 2 ^ typeFrom.bits platform)) = some (.bits (n % 2 ^ type.bits platform)) := by
  have hfrom := @bits_eq_size platform typeFrom
  have hto := @bits_eq_size platform type
  obtain ⟨hdouble, hpos⟩ := @two_pow_bits platform typeFrom
  by_cases hlt : primitiveSize platform (generateType platform (.int typeFrom)) <
      primitiveSize platform (generateType platform (.int type))
  · have hpow : (2 : ℤ) ^ typeFrom.bits platform < 2 ^ type.bits platform :=
      pow_lt_pow_right₀ (by decide) (by omega)
    by_cases hsigned : typeFrom.isSigned = true
    · have hop : castOpcode (primitiveSize platform (generateType platform (.int typeFrom)))
          (primitiveSize platform (generateType platform (.int type))) (.int typeFrom)
          (.int type) = .SEXTEND := by
        simp [castOpcode, NumType.isFp, NumType.isSigned, hlt, hsigned]
      rw [IntType.Holds, if_pos hsigned] at h
      rw [hop]
      change some (Content.bits (if n % 2 ^ typeFrom.bits platform < _ then _ else _)) = _
      by_cases hneg : n < 0
      · have hbits : n % 2 ^ typeFrom.bits platform = n + 2 ^ typeFrom.bits platform := by
          rw [← Int.add_emod_right, Int.emod_eq_of_lt (by omega) (by omega)]
        have hbits' : n % 2 ^ type.bits platform = n + 2 ^ type.bits platform := by
          rw [← Int.add_emod_right, Int.emod_eq_of_lt (by omega) (by omega)]
        rw [hbits, hbits', if_neg (by omega)]
        congr 2
        ring
      · rw [Int.emod_eq_of_lt (by omega) (by omega), Int.emod_eq_of_lt (by omega) (by omega),
          if_pos h.2]
    · have hop : castOpcode (primitiveSize platform (generateType platform (.int typeFrom)))
          (primitiveSize platform (generateType platform (.int type))) (.int typeFrom)
          (.int type) = .UEXTEND := by
        simp [castOpcode, NumType.isFp, NumType.isSigned, hlt, hsigned]
      rw [IntType.Holds, if_neg hsigned] at h
      rw [hop, Int.emod_eq_of_lt h.1 (h.2.trans hpow)]
      change some (Content.bits (n % 2 ^ typeFrom.bits platform)) = _
      rw [Int.emod_eq_of_lt h.1 h.2]
  · have hop : castOpcode (primitiveSize platform (generateType platform (.int typeFrom)))
        (primitiveSize platform (generateType platform (.int type))) (.int typeFrom)
        (.int type) = .TRUNCATE := by
      simp [castOpcode, NumType.isFp, hlt]
    rw [hop]
    change some (Content.bits (n % 2 ^ typeFrom.bits platform % 2 ^ type.bits platform)) = _
    rw [Int.emod_emod_of_dvd _ (pow_dvd_pow 2 (by omega))]

theorem holds_reads (h : expr.isInteger = true) {type : IntType}
    (htype : expr.type = .int type) : type.Holds platform (reads platform expr) := by
  cases expr with
  | literal value type' =>
    obtain rfl : type' = type := NumType.int.inj htype
    exact holds_read _ _
  | cast value type' =>
    obtain rfl : type' = .int type := htype
    exact holds_read _ _

theorem runtime_of_isInteger (h : expr.isInteger = true) {type : IntType}
    (htype : expr.type = .int type) :
    runtime platform expr = some (.bits (reads platform expr % 2 ^ type.bits platform)) := by
  induction expr generalizing type with
  | literal value type' =>
    obtain rfl : type' = type := NumType.int.inj htype
    rw [runtime, bits_eq_size, reads, (read_modEq _ _).eq]
  | cast value type' ih =>
    obtain rfl : type' = .int type := htype
    rw [CastExpr.isInteger, Bool.and_eq_true] at h
    obtain ⟨typeFrom, -, hfrom, -⟩ := @generate_of_isInteger platform value h.1
    have hvalue := ih h.1 hfrom
    have hread := (@read_modEq platform type (reads platform value)).eq
    have hsize := @bits_eq_size platform typeFrom
    have hsize' := @bits_eq_size platform type
    rw [runtime, reads, hread, hfrom]
    split_ifs with hsame
    · have hbits : typeFrom.bits platform = type.bits platform := by
        rw [← hsize, ← hsize', hsame.1]
      rw [hvalue, hbits]
    · rw [hvalue, hsize, hsize']
      exact exec_castOpcode (holds_reads h.1 hfrom)

/-! ## Where they agree -/

/-- The casts behind which the lowest bits of the register are those of the immediate: whenever a
type is narrower than all that come later, the immediate read in it has the bits that are needed. -/
def Keeps (platform : Platform) (x : ℤ) : ℕ → CastExpr → Prop
  | w, .literal _ type => type.bits platform < w → read platform type x ≡ x [ZMOD 2 ^ w]
  | w, .cast value (.int type) =>
    if type.bits platform < w then
      read platform type x ≡ x [ZMOD 2 ^ w] ∧ Keeps platform x (type.bits platform) value
    else Keeps platform x w value
  | w, .cast value (.fp _) => Keeps platform x w value

theorem reads_modEq_iff_keeps (h : expr.isInteger = true) (w : ℕ) :
    reads platform expr ≡ expr.immediate.value [ZMOD 2 ^ w] ↔
      Keeps platform expr.immediate.value w expr := by
  induction expr generalizing w with
  | literal value type =>
    change read platform type value.value ≡ value.value [ZMOD 2 ^ w] ↔ (_ → _)
    refine ⟨fun h _ ↦ h, fun h ↦ ?_⟩
    by_cases hnarrow : type.bits platform < w
    · exact h hnarrow
    · exact modEq_of_le (not_lt.mp hnarrow) (read_modEq type _)
  | cast value type ih =>
    rw [CastExpr.isInteger, Bool.and_eq_true] at h
    cases type with
    | fp type => exact absurd h.2 Bool.false_ne_true
    | int type =>
      rw [reads, CastExpr.immediate, Keeps]
      have hread := @read_modEq platform type (reads platform value)
      split_ifs with hnarrow
      · rw [← ih h.1]
        -- Both sides say that the numbers agree in the narrower type.
        have hcongr : reads platform value ≡ value.immediate.value [ZMOD 2 ^ type.bits platform] →
            read platform type (reads platform value) = read platform type value.immediate.value :=
          fun hvalue ↦ eq_of_holds (holds_read _ _) (holds_read _ _)
            (hread.trans (hvalue.trans (read_modEq _ _).symm))
        constructor
        · intro hwide
          have hvalue := hread.symm.trans (modEq_of_le hnarrow.le hwide)
          exact ⟨hcongr hvalue ▸ hwide, hvalue⟩
        · rintro ⟨hwide, hvalue⟩
          rw [hcongr hvalue]
          exact hwide
      · rw [← ih h.1]
        have hread' := modEq_of_le (not_lt.mp hnarrow) hread
        exact ⟨fun h ↦ hread'.symm.trans h, fun h ↦ hread'.trans h⟩

/-- Where the immediate of a chain of casts is right. A cast to a floating-point type needs that the
register holds the number whose magnitude is taken. -/
def CastsKept (platform : Platform) : CastExpr → Prop
  | .literal _ _ => True
  | .cast value (.int type) =>
    value.isInteger = true → Keeps platform value.immediate.value (type.bits platform) value
  | .cast value (.fp type) =>
    match value.type with
    | .int typeFrom =>
      value.isInteger = true → Exact (generateType platform (.fp type)) value.immediate.value →
        typeFrom.Holds platform (fpOfImmediate value.immediate) ∧
          Keeps platform value.immediate.value (typeFrom.bits platform) value
    | .fp typeFrom => typeFrom = type → CastsKept platform value

theorem generateCastExpr_register (typeFrom typeTo : NumType) (op : Opcode) (operand : Value)
    (type : Primitive) : ∃ op' operand' type',
      generateCastExpr platform typeFrom typeTo (.register op operand type)
        = .register op' operand' type' := by
  unfold generateCastExpr
  dsimp only
  split_ifs
  · exact ⟨_, _, _, rfl⟩
  · exact ⟨_, _, _, rfl⟩

/-- A floating-point immediate stays one in a cast to its type. -/
theorem generateCastExpr_fpImmediate (typeFrom : FpType) (typeTo : NumType) (value : ℤ) :
    (typeTo = .fp typeFrom ∧ generateCastExpr platform (.fp typeFrom) typeTo
        (.fpImmediate value (generateType platform (.fp typeFrom)))
          = .fpImmediate value (generateType platform (.fp typeFrom))) ∨
      (typeTo ≠ .fp typeFrom ∧ ∃ op operand type,
        generateCastExpr platform (.fp typeFrom) typeTo
          (.fpImmediate value (generateType platform (.fp typeFrom)))
            = .register op operand type) := by
  cases typeTo with
  | int type =>
    refine .inr ⟨nofun, ?_⟩
    unfold generateCastExpr
    dsimp only
    rw [if_neg fun hsame ↦ Bool.false_ne_true hsame.2.symm]
    exact ⟨_, _, _, rfl⟩
  | fp type =>
    cases typeFrom <;> cases type
    · exact .inl ⟨rfl, rfl⟩
    · exact .inr ⟨nofun, _, _, _, rfl⟩
    · exact .inr ⟨nofun, _, _, _, rfl⟩
    · exact .inl ⟨rfl, rfl⟩

/-- What a chain comes to behind a cast to a floating-point type. -/
theorem generate_of_not_isInteger (h : expr.isInteger = false) :
    (∃ op operand type, generate platform expr = .register op operand type) ∨
      ∃ type value, expr.type = .fp type ∧
        generate platform expr = .fpImmediate value (generateType platform (.fp type)) := by
  induction expr with
  | literal value type => exact absurd h.symm Bool.false_ne_true
  | cast value type ih =>
    rw [generate]
    cases hvalue : value.isInteger with
    | true =>
      obtain ⟨typeFrom, ssaType, htype, hgenerate, -⟩ :=
        @generate_of_isInteger platform value hvalue
      cases type with
      | int type => simp [CastExpr.isInteger, hvalue, NumType.isFp] at h
      | fp type =>
        refine .inr ⟨type, fpOfImmediate value.immediate, rfl, ?_⟩
        rw [hgenerate, htype]
        simp [generateCastExpr, NumType.isFp]
    | false =>
      obtain ⟨op, operand, ssaType, hgenerate⟩ | ⟨typeFrom, n, htype, hgenerate⟩ := ih hvalue
      · rw [hgenerate]
        exact .inl (generateCastExpr_register _ _ _ _ _)
      · rw [hgenerate, htype]
        obtain ⟨rfl, hcast⟩ | ⟨-, hcast⟩ := generateCastExpr_fpImmediate typeFrom type n
        · exact .inr ⟨typeFrom, n, rfl, hcast⟩
        · exact .inl hcast

variable {value : CastExpr}

/-- The conversion of a register gives the number that it holds. -/
theorem runtime_cast_fp (h : value.isInteger = true)
    (htype : value.type = .int typeFrom) (type : FpType) :
    runtime platform (.cast value (.fp type)) = some (.number (reads platform value)) := by
  obtain ⟨hdouble, hpos⟩ := @two_pow_bits platform typeFrom
  have hsize := @bits_eq_size platform typeFrom
  have hholds := @holds_reads platform value h typeFrom htype
  rw [runtime, htype, if_neg fun hsame ↦ Bool.false_ne_true hsame.2, runtime_of_isInteger h htype,
    hsize]
  generalize reads platform value = n at hholds ⊢
  by_cases hsigned : typeFrom.isSigned = true
  · rw [IntType.Holds, if_pos hsigned] at hholds
    simp only [castOpcode, NumType.isFp, NumType.isSigned, hsigned, Bool.false_eq_true, if_false,
      if_true, bind_some, exec]
    by_cases hneg : n < 0
    · have hbits : n % 2 ^ typeFrom.bits platform = n + 2 ^ typeFrom.bits platform := by
        rw [← Int.add_emod_right, Int.emod_eq_of_lt (by omega) (by omega)]
      rw [hbits, if_neg (by omega), add_sub_cancel_right]
    · rw [Int.emod_eq_of_lt (by omega) (by omega), if_pos hholds.2]
  · rw [IntType.Holds, if_neg hsigned] at hholds
    simp only [castOpcode, NumType.isFp, NumType.isSigned, hsigned, Bool.false_eq_true, if_false,
      if_true, bind_some, exec]
    rw [Int.emod_eq_of_lt hholds.1 hholds.2]

/-- The magnitude behind an unsigned minus sign has the bits of the number. -/
theorem fpOfImmediate_modEq (immediate : LargeInt) :
    fpOfImmediate immediate ≡ immediate.value [ZMOD 2 ^ 64] := by
  obtain ⟨magnitude, negative⟩ := immediate
  cases negative
  · exact Int.ModEq.refl _
  · change (((-magnitude).toNat : ℕ) : ℤ) ≡ -(magnitude.toNat : ℤ) [ZMOD 2 ^ 64]
    rw [BitVec.toNat_neg]
    have hlt := magnitude.isLt
    rw [Int.ModEq]
    omega

/-! ## Chains of casts -/

theorem agrees_cast_int (value : CastExpr) (type : IntType) :
    Agrees platform (.cast value (.int type)) ↔ CastsKept platform (.cast value (.int type)) := by
  cases hvalue : value.isInteger with
  | true =>
    have hinteger : (CastExpr.cast value (.int type)).isInteger = true := by
      simp [CastExpr.isInteger, hvalue, NumType.isFp]
    obtain ⟨type', ssaType, htype, hgenerate, hsize⟩ := @generate_of_isInteger platform _ hinteger
    obtain rfl : type = type' := NumType.int.inj htype
    rw [Agrees, hgenerate, CastsKept]
    dsimp only
    rw [runtime_of_isInteger hinteger htype, hsize, some.injEq, Content.bits.injEq]
    rw [← Int.ModEq, reads_modEq_iff_keeps hinteger, Keeps, if_neg (lt_irrefl _)]
    exact ⟨fun h _ ↦ h, fun h ↦ h hvalue⟩
  | false =>
    have hregister : ∃ op operand ssaType,
        generate platform (.cast value (.int type)) = .register op operand ssaType := by
      obtain h | ⟨_, _, htype, -⟩ := @generate_of_not_isInteger platform (.cast value (.int type))
        (by simp [CastExpr.isInteger, hvalue])
      · exact h
      · cases htype
    obtain ⟨op, operand, ssaType, hregister⟩ := hregister
    rw [Agrees, hregister, CastsKept, hvalue]
    exact iff_of_true trivial fun h ↦ absurd h Bool.false_ne_true

theorem agrees_cast_fp_of_int (htype : value.type = .int typeFrom) (type : FpType) :
    Agrees platform (.cast value (.fp type)) ↔ CastsKept platform (.cast value (.fp type)) := by
  cases hvalue : value.isInteger with
  | true =>
    obtain ⟨-, ssaType, -, hgenerate, -⟩ := @generate_of_isInteger platform value hvalue
    have hcast : generate platform (.cast value (.fp type)) =
        .fpImmediate (fpOfImmediate value.immediate) (generateType platform (.fp type)) := by
      rw [generate, hgenerate, htype]
      simp [generateCastExpr, NumType.isFp]
    have hbits := (Sema.IntLiteralRange.bits_pos_le platform typeFrom).2
    have hread : reads platform value = fpOfImmediate value.immediate ↔
        typeFrom.Holds platform (fpOfImmediate value.immediate) ∧
          Keeps platform value.immediate.value (typeFrom.bits platform) value := by
      have hmod := modEq_of_le hbits (fpOfImmediate_modEq value.immediate)
      have hholds := @holds_reads platform value hvalue typeFrom htype
      rw [← reads_modEq_iff_keeps hvalue]
      constructor
      · intro heq
        exact ⟨heq ▸ hholds, heq ▸ hmod⟩
      · rintro ⟨hnumber, hkeeps⟩
        exact eq_of_holds hholds hnumber (hkeeps.trans hmod.symm)
    rw [Agrees, hcast, CastsKept, htype]
    dsimp only
    rw [runtime_cast_fp hvalue htype, some.injEq, Content.number.injEq, hread]
    exact ⟨fun h _ ↦ h, fun h ↦ h hvalue⟩
  | false =>
    obtain ⟨op, operand, ssaType, hgenerate⟩ | ⟨_, _, htype', -⟩ :=
      @generate_of_not_isInteger platform value hvalue
    · have hregister : ∃ op operand ssaType,
          generate platform (.cast value (.fp type)) = .register op operand ssaType := by
        rw [generate, hgenerate]
        exact generateCastExpr_register _ _ _ _ _
      obtain ⟨op, operand, ssaType, hregister⟩ := hregister
      rw [Agrees, hregister, CastsKept, htype]
      exact iff_of_true trivial fun h ↦ absurd (hvalue.symm.trans h) Bool.false_ne_true
    · rw [htype] at htype'
      cases htype'

/-- A cast of a floating-point value to its own type is no cast. -/
theorem agrees_cast_fp_of_fp {typeFrom : FpType} (htype : value.type = .fp typeFrom) (type : FpType)
    (ih : Agrees platform value ↔ CastsKept platform value) :
    Agrees platform (.cast value (.fp type)) ↔ CastsKept platform (.cast value (.fp type)) := by
  have hvalue : value.isInteger = false := by
    cases h : value.isInteger with
    | false => rfl
    | true =>
      obtain ⟨_, _, htype', -⟩ := @generate_of_isInteger platform value h
      rw [htype] at htype'
      cases htype'
  have agrees_of_register : ∀ {expr : CastExpr}, (∃ op operand ssaType,
      generate platform expr = .register op operand ssaType) → Agrees platform expr := by
    rintro expr ⟨op, operand, ssaType, hgenerate⟩
    rw [Agrees, hgenerate]
    trivial
  rw [CastsKept, htype]
  obtain hregister | ⟨typeFrom', n, htype', hgenerate⟩ :=
    @generate_of_not_isInteger platform value hvalue
  · refine iff_of_true (agrees_of_register ?_) fun _ ↦ ih.mp (agrees_of_register hregister)
    obtain ⟨op, operand, ssaType, hgenerate⟩ := hregister
    rw [generate, hgenerate]
    exact generateCastExpr_register _ _ _ _ _
  · obtain rfl : typeFrom = typeFrom' := NumType.fp.inj (htype.symm.trans htype')
    obtain ⟨heq, hcast⟩ | ⟨hne, hcast⟩ :=
      @generateCastExpr_fpImmediate platform typeFrom (.fp type) n
    · obtain rfl : type = typeFrom := NumType.fp.inj heq
      have hsame : generate platform (.cast value (.fp type)) = generate platform value := by
        rw [generate, hgenerate, htype, hcast]
      have hruntime : runtime platform (.cast value (.fp type)) = runtime platform value := by
        rw [runtime, htype, if_pos ⟨rfl, rfl⟩]
      rw [Agrees, hsame, hruntime, CastExpr.immediate]
      exact ih.trans ⟨fun h _ ↦ h, fun h ↦ h rfl⟩
    · refine iff_of_true (agrees_of_register ?_) fun heq ↦ absurd (heq ▸ rfl) hne
      rw [generate, hgenerate, htype]
      exact hcast

/-- The immediate that a chain of casts of an integer literal comes to is right if and only if every
type that is narrower than what comes later holds as much of the literal as is needed, and a cast to
a floating-point type takes the magnitude of the number that the register holds. -/
theorem agrees_iff_castsKept (platform : Platform) (expr : CastExpr) :
    Agrees platform expr ↔ CastsKept platform expr := by
  induction expr with
  | literal value type => exact iff_of_true rfl trivial
  | cast value type ih =>
    cases type with
    | int type => exact agrees_cast_int value type
    | fp type =>
      cases htype : value.type with
      | int typeFrom => exact agrees_cast_fp_of_int htype type
      | fp typeFrom => exact agrees_cast_fp_of_fp htype type ih

/-- `300` as `u8` as `i32`. -/
def wide : CastExpr := .cast (.cast (.literal ⟨300, false⟩ .I32) (.int .U8)) (.int .I32)

/-- The immediate is 300 and the register 44. -/
theorem not_agrees_wide : ¬Agrees .AARCH64 wide := by
  intro h
  change some (Content.bits 44) = some (Content.bits 300) at h
  cases h

end Banjo.SSAGen.ConstantCasts
