import Mathlib.Algebra.Group.Nat.Defs
import Mathlib.Algebra.Order.Group.Int
import Mathlib.Data.List.Basic

/-!
# JSON values

A character is a `char`. What the library makes of a floating-point number is left open: the type of
the doubles and their values.
-/

namespace Banjo.JSON

/-- `Value`. An object is the list of its entries in the order of `std::unordered_map`, which has at
most one for a key. -/
inductive Value (F : Type) where
  | string (value : List Char)
  | int (value : ℤ)
  | float (value : F)
  | bool (value : Bool)
  | object (entries : List (List Char × Value F))
  | array (values : List (Value F))
  | null

/-- `Object::add`, which keeps the first value of a key. -/
def add {α : Type} (entries : List (List Char × α)) (key : List Char) (value : α) :
    List (List Char × α) :=
  if key ∈ entries.map Prod.fst then entries else entries ++ [(key, value)]

/-- `std::stod`: its values, and whether it does not throw `std::out_of_range`. -/
structure Doubles (F : Type) where
  value : List Char → F
  inRange : List Char → Bool

/-!
## The JSON parser

A parser walks over a buffer by an `unsigned` position. Its loops and its recursion are counted, so
that a run that does not end runs out for every number of turns.
-/

/-- What a function of the parser ends with instead of a value: an empty `std::optional`, an
exception of the library, or a read behind the buffer. -/
inductive Failure where
  | rejected
  | outOfRange
  | outOfBounds
  deriving DecidableEq

/-- From a position to a result and the position behind it. -/
abbrev Parsing (α : Type) : Type := ℕ → Option (Except Failure α × ℕ)

namespace Parsing

variable {α β : Type}

instance : Monad Parsing where
  pure a := fun position ↦ some (.ok a, position)
  bind x f := fun position ↦
    match x position with
    | some (.ok a, position) => f a position
    | some (.error failure, position) => some (.error failure, position)
    | none => none

theorem bind_apply (x : Parsing α) (f : α → Parsing β) (position : ℕ) : (x >>= f) position =
    match x position with
    | some (.ok a, position) => f a position
    | some (.error failure, position) => some (.error failure, position)
    | none => none := rfl

def fail (failure : Failure) : Parsing α := fun position ↦ some (.error failure, position)

/-- No more turns. -/
def exhausted : Parsing α := fun _ ↦ none

def here : Parsing ℕ := fun position ↦ some (.ok position, position)

def advance (count : ℕ) : Parsing Unit :=
  fun position ↦ some (.ok (), (position + count) % 2 ^ 32)

end Parsing

open Parsing

/-! ## Characters -/

section Parser

variable (buffer : List Char)

def get : Parsing (Option Char) := fun position ↦ some (.ok buffer[position]?, position)

def consume : Parsing (Option Char) := do
  let c ← get buffer
  if c.isSome then
    advance 1
  return c

def consumeN (count : ℕ) : Parsing (Option (List Char)) := do
  let position ← here
  if (position + count) % 2 ^ 32 > buffer.length then
    return none
  else
    advance count
    return some ((buffer.drop position).take count)

def isWhitespace (c : Char) : Bool := c = ' ' || c = '\n' || c = '\r' || c = '\t'

def skipWhitespace : ℕ → Parsing Unit
  | 0 => exhausted
  | fuel + 1 => do
    match ← get buffer with
    | some c =>
      if isWhitespace c then
        advance 1
        skipWhitespace fuel
    | none => return

/-! ## Values without parts -/

variable {F : Type}

/-- `parse_null`, `parse_false` and `parse_true` -/
def parseKeyword (keyword : List Char) (value : Value F) : Parsing (Value F) := do
  if (← consumeN buffer keyword.length) = some keyword then
    return value
  else
    fail .rejected

/-- The characters of a number, and whether there is a point among them. -/
def parseDigits : ℕ → Bool → Parsing Bool
  | 0, _ => exhausted
  | fuel + 1, isFp => do
    match ← get buffer with
    | some c =>
      if c.isDigit then
        advance 1
        if (← get buffer) = some '.' then
          if isFp then
            fail .rejected
          else
            advance 1
            parseDigits fuel true
        else
          parseDigits fuel isFp
      else
        return isFp
    | none => return isFp

/-- The number without a sign. -/
def ofDigits (digits : List Char) : ℤ := Nat.ofDigitChars 10 digits 0

/-- `std::stoll`; there is no value when it throws. -/
def stoll (text : List Char) : Option ℤ :=
  let negative : Bool := text.head? = some '-'
  let digits := (if negative then text.tail else text).takeWhile Char.isDigit
  let value := if negative then -ofDigits digits else ofDigits digits
  if digits ≠ [] ∧ -2 ^ 63 ≤ value ∧ value < 2 ^ 63 then some value else none

variable (doubles : Doubles F)

/-- `std::stod` -/
def stod (text : List Char) : Option F :=
  if doubles.inRange text then some (doubles.value text) else none

/-- `parse_number` behind its loop. -/
def finishNumber (start : ℕ) (isFp : Bool) : Parsing (Value F) := do
  let position ← here
  let last := buffer[(position + (2 ^ 32 - 1)) % 2 ^ 32]?
  if last = none then
    fail .outOfBounds
  else if last = some '-' then
    fail .rejected
  else
    let slice := (buffer.drop start).take ((position + (2 ^ 32 - start)) % 2 ^ 32)
    if isFp then
      match stod doubles slice with
      | some value => return .float value
      | none => fail .outOfRange
    else
      match stoll slice with
      | some value => return .int value
      | none => fail .outOfRange

def parseNumber (fuel : ℕ) : Parsing (Value F) := do
  let start ← here
  if (← get buffer) = some '-' then
    advance 1
  let isFp ← parseDigits buffer fuel false
  finishNumber buffer doubles start isFp

/-- The character that a letter behind a backslash stands for. -/
def unescape : Char → Option Char
  | '"' => some '"'
  | '\\' => some '\\'
  | 'b' => some '\x08'
  | 'f' => some '\x0c'
  | 'n' => some '\n'
  | 'r' => some '\r'
  | 't' => some '\t'
  | _ => none

/-- The loop of `parse_string_raw` -/
def parseChars : ℕ → List Char → Parsing (List Char)
  | 0, _ => exhausted
  | fuel + 1, value => do
    match ← consume buffer with
    | none => fail .rejected
    | some '\\' =>
      match (← consume buffer).bind unescape with
      | some c => parseChars fuel (value ++ [c])
      | none => fail .rejected
    | some '"' => return value
    | some c => parseChars fuel (value ++ [c])

def parseStringRaw (fuel : ℕ) : Parsing (List Char) := do
  advance 1
  parseChars buffer fuel []

/-! ## Arrays and objects -/

/-- `parse_array` and `parse_object` up to their loops. -/
def parseOpen (fuel : ℕ) (close : Char) (empty : Value F) (loop : Parsing (Value F)) :
    Parsing (Value F) := do
  advance 1
  skipWhitespace buffer fuel
  if (← get buffer) = some close then
    advance 1
    return empty
  else
    loop

/-- What stands behind an item: the end, or the next turn of the loop. -/
def parseNext (fuel : ℕ) (close : Char) (done : Value F) (loop : Parsing (Value F)) :
    Parsing (Value F) := do
  skipWhitespace buffer fuel
  let c ← get buffer
  if c = some close then
    advance 1
    return done
  else if c = some ',' then
    advance 1
    skipWhitespace buffer fuel
    loop
  else
    fail .rejected

mutual

def parseValue : ℕ → Parsing (Value F)
  | 0 => exhausted
  | fuel + 1 => do
    match ← get buffer with
    | none => fail .rejected
    | some c =>
      if c = 'n' then parseKeyword buffer ['n', 'u', 'l', 'l'] .null
      else if c = 'f' then parseKeyword buffer ['f', 'a', 'l', 's', 'e'] (.bool false)
      else if c = 't' then parseKeyword buffer ['t', 'r', 'u', 'e'] (.bool true)
      else if c = '-' ∨ c.isDigit then parseNumber buffer doubles fuel
      else if c = '"' then return .string (← parseStringRaw buffer fuel)
      else if c = '[' then parseOpen buffer fuel ']' (.array []) (parseItems fuel [])
      else if c = '{' then parseOpen buffer fuel '}' (.object []) (parseMembers fuel [])
      else fail .rejected

/-- The loop of `parse_array` -/
def parseItems : ℕ → List (Value F) → Parsing (Value F)
  | 0, _ => exhausted
  | fuel + 1, array => do
    let value ← parseValue fuel
    parseNext buffer fuel ']' (.array (array ++ [value])) (parseItems fuel (array ++ [value]))

/-- The loop of `parse_object` -/
def parseMembers : ℕ → List (List Char × Value F) → Parsing (Value F)
  | 0, _ => exhausted
  | fuel + 1, object => do
    let key ← parseStringRaw buffer fuel
    skipWhitespace buffer fuel
    if (← get buffer) = some ':' then
      advance 1
      skipWhitespace buffer fuel
      let value ← parseValue fuel
      parseNext buffer fuel '}' (.object (add object key value))
        (parseMembers fuel (add object key value))
    else
      fail .rejected

end

/-- `parse`. An exception of the library is not caught. -/
def parse (fuel : ℕ) : Option (Except Failure (Value F)) := do
  let (_, start) ← skipWhitespace buffer fuel 0
  let (value, position) ← parseValue buffer doubles fuel start
  match value with
  | .error .rejected =>
    let _ ← skipWhitespace buffer fuel position
    return .error .rejected
  | .error failure => return .error failure
  | .ok value =>
    let (_, position) ← skipWhitespace buffer fuel position
    return if position = buffer.length then .ok value else .error .rejected

/-- What a run ends with. -/
def Parses (result : Except Failure (Value F)) : Prop :=
  ∃ turns, ∀ fuel ≥ turns, parse buffer doubles fuel = some result

end Parser

end Banjo.JSON
