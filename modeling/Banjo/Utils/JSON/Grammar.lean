import Banjo.Utils.JSON.Parser

/-!
# The grammar of JSON

A grammar with switches for what the parser reads and JSON does not have, and for what JSON has and
the parser does not read. The names of an object may repeat, and then the first counts.
-/

namespace Banjo.JSON

variable {F : Type}

/-- What is read beyond the numbers, strings and names that JSON and the parser agree on. -/
structure Dialect where
  /-- Zeros in front of a number. -/
  leadingZeros : Prop
  /-- A point without digits behind it. -/
  emptyFractions : Prop
  exponents : Prop
  /-- Control characters in a string. -/
  controls : Prop
  /-- An escaped slash, or the number of a character. -/
  otherEscapes : Prop
  /-- Any character for the first quotation mark of a name. -/
  openNames : Prop
  /-- The numbers that are read. -/
  numbers : List Char → Prop

/-- Everything that is read in one dialect is read in another. -/
structure Dialect.Within (dialect dialect' : Dialect) : Prop where
  leadingZeros : dialect.leadingZeros → dialect'.leadingZeros
  emptyFractions : dialect.emptyFractions → dialect'.emptyFractions
  exponents : dialect.exponents → dialect'.exponents
  controls : dialect.controls → dialect'.controls
  otherEscapes : dialect.otherEscapes → dialect'.otherEscapes
  openNames : dialect.openNames → dialect'.openNames
  numbers : ∀ token, dialect.numbers token → dialect'.numbers token

/-! ## Numbers -/

def Digits (text : List Char) : Prop := text ≠ [] ∧ ∀ c ∈ text, c.isDigit

def Integer (dialect : Dialect) (text : List Char) : Prop :=
  Digits text ∧ (dialect.leadingZeros ∨ text = ['0'] ∨ text.head? ≠ some '0')

def Fraction (dialect : Dialect) (text : List Char) : Prop :=
  text = [] ∨ ∃ digits, text = '.' :: digits ∧
    (dialect.emptyFractions ∧ digits = [] ∨ Digits digits)

def Exponent (dialect : Dialect) (text : List Char) : Prop :=
  text = [] ∨ dialect.exponents ∧ ∃ letter sign digits, text = letter :: (sign ++ digits) ∧
    (letter = 'e' ∨ letter = 'E') ∧ (sign = [] ∨ sign = ['-'] ∨ sign = ['+']) ∧ Digits digits

/-- The parts of a number. -/
structure Number (dialect : Dialect) (sign digits fraction exponent : List Char) : Prop where
  signed : sign = [] ∨ sign = ['-']
  integer : Integer dialect digits
  fractional : Fraction dialect fraction
  exponential : Exponent dialect exponent
  allowed : dialect.numbers (sign ++ digits ++ fraction ++ exponent)

/-- A number without fraction and exponent is an integer. -/
def numberValue (doubles : Doubles F) (sign digits fraction exponent : List Char) : Value F :=
  if fraction = [] ∧ exponent = [] then
    .int (if sign = [] then ofDigits digits else -ofDigits digits)
  else
    .float (doubles.value (sign ++ digits ++ fraction ++ exponent))

/-! ## Strings -/

def isHexDigit (c : Char) : Bool := c.isDigit || ('a' ≤ c && c ≤ 'f') || ('A' ≤ c && c ≤ 'F')

/-- The characters between the quotation marks and what they stand for. The four digits of `\u`
stand for the characters that `decode` gives them. -/
inductive Chars (dialect : Dialect) (decode : List Char → List Char) :
    List Char → List Char → Prop
  | nil : Chars dialect decode [] []
  | plain {c body value} (hquote : c ≠ '"') (hbackslash : c ≠ '\\')
      (hcontrol : dialect.controls ∨ ' ' ≤ c) (hrest : Chars dialect decode body value) :
      Chars dialect decode (c :: body) (c :: value)
  | escape {letter c body value} (hletter : unescape letter = some c)
      (hrest : Chars dialect decode body value) :
      Chars dialect decode ('\\' :: letter :: body) (c :: value)
  | slash {body value} (hother : dialect.otherEscapes) (hrest : Chars dialect decode body value) :
      Chars dialect decode ('\\' :: '/' :: body) ('/' :: value)
  | number {digits body value} (hother : dialect.otherEscapes) (hlength : digits.length = 4)
      (hdigits : ∀ c ∈ digits, isHexDigit c) (hrest : Chars dialect decode body value) :
      Chars dialect decode ('\\' :: 'u' :: (digits ++ body)) (decode digits ++ value)

/-! ## Values -/

def Whitespace (text : List Char) : Prop := ∀ c ∈ text, isWhitespace c

/-- A value in an array, with the white space around it. -/
structure Item (F : Type) where
  before : List Char
  text : List Char
  value : Value F
  after : List Char

namespace Item

def element (item : Item F) : List Char := item.before ++ (item.text ++ item.after)

structure Spaced (item : Item F) : Prop where
  before : Whitespace item.before
  after : Whitespace item.after

end Item

/-- A name and its value in an object. -/
structure Member (F : Type) where
  before : List Char
  quote : Char
  name : List Char
  key : List Char
  behindName : List Char
  item : Item F

namespace Member

/-- A member without the white space in front of it. -/
def body (member : Member F) : List Char :=
  member.quote :: (member.name ++ '"' :: (member.behindName ++ ':' :: member.item.element))

def element (member : Member F) : List Char := member.before ++ member.body

structure Named (dialect : Dialect) (decode : List Char → List Char)
    (member : Member F) : Prop where
  before : Whitespace member.before
  quote : member.quote = '"' ∨ dialect.openNames ∧ isWhitespace member.quote = false
  name : Chars dialect decode member.name member.key
  behindName : Whitespace member.behindName
  item : member.item.Spaced

end Member

/-- The entries of an object whose members are read one after the other. -/
def entries (members : List (Member F)) : List (List Char × Value F) :=
  members.foldl (fun object member ↦ add object member.key member.item.value) []

variable (doubles : Doubles F) (decode : List Char → List Char) (dialect : Dialect)

/-- A text stands for a value. -/
inductive Reads : List Char → Value F → Prop
  | null : Reads ['n', 'u', 'l', 'l'] .null
  | boolFalse : Reads ['f', 'a', 'l', 's', 'e'] (.bool false)
  | boolTrue : Reads ['t', 'r', 'u', 'e'] (.bool true)
  | number {sign digits fraction exponent}
      (h : Number dialect sign digits fraction exponent) :
      Reads (sign ++ digits ++ fraction ++ exponent)
        (numberValue doubles sign digits fraction exponent)
  | string {body value} (h : Chars dialect decode body value) :
      Reads ('"' :: (body ++ ['"'])) (.string value)
  | emptyArray {space} (h : Whitespace space) : Reads ('[' :: (space ++ [']'])) (.array [])
  | array {first : Item F} {items : List (Item F)} (hspaced : ∀ item ∈ first :: items, item.Spaced)
      (hitems : ∀ item ∈ first :: items, Reads item.text item.value) :
      Reads ('[' :: (first.element ++ ((items.flatMap fun item ↦ ',' :: item.element) ++ [']'])))
        (.array ((first :: items).map Item.value))
  | emptyObject {space} (h : Whitespace space) : Reads ('{' :: (space ++ ['}'])) (.object [])
  | object {first : Member F} {members : List (Member F)} (hfirst : first.quote ≠ '}')
      (hnamed : ∀ member ∈ first :: members, member.Named dialect decode)
      (hmembers : ∀ member ∈ first :: members, Reads member.item.text member.item.value) :
      Reads ('{' :: (first.element ++
          ((members.flatMap fun member ↦ ',' :: member.element) ++ ['}'])))
        (.object (entries (first :: members)))

/-- A whole text: a value with white space around it. -/
def Text (text : List Char) (value : Value F) : Prop :=
  ∃ item : Item F, item.Spaced ∧ Reads doubles decode dialect item.text item.value ∧
    text = item.element ∧ value = item.value

/-! ## Dialects -/

/-- JSON -/
def strict : Dialect where
  leadingZeros := False
  emptyFractions := False
  exponents := True
  controls := False
  otherEscapes := True
  openNames := False
  numbers _ := True

/-- Does the library convert this number without an exception? -/
def Convertible (token : List Char) : Prop :=
  if '.' ∈ token then doubles.inRange token else (stoll token).isSome

/-- What the parser reads. -/
def lenient : Dialect where
  leadingZeros := True
  emptyFractions := True
  exponents := False
  controls := True
  otherEscapes := False
  openNames := True
  numbers := Convertible doubles

/-- What both have. -/
def common : Dialect where
  leadingZeros := False
  emptyFractions := False
  exponents := False
  controls := False
  otherEscapes := False
  openNames := False
  numbers := Convertible doubles

variable {doubles decode dialect}

theorem common_within_strict : (common doubles).Within strict := by
  constructor <;> simp [common, strict]

theorem common_within_lenient : (common doubles).Within (lenient doubles) := by
  constructor <;> simp [common, lenient]

section Within

variable {dialect' : Dialect} (h : dialect.Within dialect')
include h

theorem Number.within {sign digits fraction exponent : List Char}
    (hnumber : Number dialect sign digits fraction exponent) :
    Number dialect' sign digits fraction exponent where
  signed := hnumber.signed
  integer := hnumber.integer.imp_right fun hzeros ↦ hzeros.imp_left h.leadingZeros
  fractional := hnumber.fractional.imp_right fun ⟨digits, heq, hdigits⟩ ↦
    ⟨digits, heq, hdigits.imp_left fun hempty ↦ hempty.imp_left h.emptyFractions⟩
  exponential := hnumber.exponential.imp_right fun hexponent ↦ hexponent.imp_left h.exponents
  allowed := h.numbers _ hnumber.allowed

theorem Chars.within {body value : List Char} (hchars : Chars dialect decode body value) :
    Chars dialect' decode body value := by
  induction hchars with
  | nil => exact .nil
  | plain hquote hbackslash hcontrol _ ih =>
    exact .plain hquote hbackslash (hcontrol.imp_left h.controls) ih
  | escape hletter _ ih => exact .escape hletter ih
  | slash hother _ ih => exact .slash (h.otherEscapes hother) ih
  | number hother hlength hdigits _ ih => exact .number (h.otherEscapes hother) hlength hdigits ih

theorem Member.Named.within {member : Member F} (hnamed : member.Named dialect decode) :
    member.Named dialect' decode where
  before := hnamed.before
  quote := hnamed.quote.imp_right fun hopen ↦ hopen.imp_left h.openNames
  name := hnamed.name.within h
  behindName := hnamed.behindName
  item := hnamed.item

variable {text : List Char} {value : Value F}

theorem Reads.within (hreads : Reads doubles decode dialect text value) :
    Reads doubles decode dialect' text value := by
  induction hreads with
  | null => exact .null
  | boolFalse => exact .boolFalse
  | boolTrue => exact .boolTrue
  | number hparts => exact .number (hparts.within h)
  | string hchars => exact .string (hchars.within h)
  | emptyArray hspace => exact .emptyArray hspace
  | array hspaced _ ih => exact .array hspaced ih
  | emptyObject hspace => exact .emptyObject hspace
  | object hfirst hnamed _ ih =>
    exact .object hfirst (fun member hmem ↦ (hnamed member hmem).within h) ih

theorem Text.within (htext : Text doubles decode dialect text value) :
    Text doubles decode dialect' text value := by
  obtain ⟨item, hspaced, hreads, heq⟩ := htext
  exact ⟨item, hspaced, hreads.within h, heq⟩

end Within

end Banjo.JSON
