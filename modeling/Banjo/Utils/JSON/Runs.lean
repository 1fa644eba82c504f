import Banjo.Utils.JSON.Grammar
import Mathlib.Data.List.TakeWhile

/-!
# Runs of the parser on what it reads

In a buffer of less than `2 ^ 32` characters the position never wraps around while there are
characters left. Every function of the parser then reads what its part of the grammar allows, as far
as it goes, and gives its value.
-/

open List Option

namespace Banjo.JSON

open Parsing

variable {α β : Type} {buffer : List Char} {position : ℕ} {rest : List Char}

/-! ## Positions -/

/-- From a position on the buffer has this text. -/
structure At (buffer : List Char) (position : ℕ) (text : List Char) : Prop where
  le : position ≤ buffer.length
  drop_eq : buffer.drop position = text

namespace At

variable {text : List Char}

theorem getElem? (h : At buffer position text) : buffer[position]? = text.head? := by
  rw [← h.drop_eq, head?_drop]

theorem length (h : At buffer position text) : position + text.length = buffer.length := by
  have := h.le
  rw [← h.drop_eq, length_drop]
  omega

theorem append (h : At buffer position (text ++ rest)) :
    At buffer (position + text.length) rest := by
  have hlength := h.length
  rw [length_append] at hlength
  refine ⟨by omega, ?_⟩
  rw [← drop_drop, h.drop_eq, drop_left]

theorem tail {c : Char} (h : At buffer position (c :: rest)) : At buffer (position + 1) rest :=
  @append _ _ rest [c] h

end At

/-! ## Steps -/

theorem bind_of_ok {x : Parsing α} {a : α} {position' : ℕ}
    (h : x position = some (.ok a, position')) (f : α → Parsing β) :
    (x >>= f) position = f a position' := by
  rw [Parsing.bind_apply, h]

theorem get_bind (f : Option Char → Parsing β) :
    (get buffer >>= f) position = f buffer[position]? position :=
  rfl

theorem here_bind (f : ℕ → Parsing β) : (here >>= f) position = f position position := rfl

theorem advance_bind {count : ℕ} (h : position + count < 2 ^ 32) (f : Unit → Parsing β) :
    (advance count >>= f) position = f () (position + count) := by
  refine bind_of_ok ?_ f
  rw [advance, Nat.mod_eq_of_lt h]

variable (hsize : buffer.length < 2 ^ 32)
include hsize

variable {c : Char}

theorem At.advance_bind (h : At buffer position (c :: rest)) (f : Unit → Parsing β) :
    (advance 1 >>= f) position = f () (position + 1) := by
  have := h.length
  rw [length_cons] at this
  exact JSON.advance_bind (by omega) f

theorem At.consume_bind (h : At buffer position (c :: rest)) (f : Option Char → Parsing β) :
    (consume buffer >>= f) position = f (some c) (position + 1) := by
  refine bind_of_ok ?_ f
  rw [consume, get_bind, h.getElem?]
  exact h.advance_bind hsize _

variable {fuel : ℕ} {space : List Char}

/-- White space is skipped up to the next other character. -/
theorem skipWhitespace_eq (hspace : Whitespace space)
    (hrest : ∀ c, rest.head? = some c → isWhitespace c = false)
    (h : At buffer position (space ++ rest)) (hfuel : space.length < fuel) :
    skipWhitespace buffer fuel position = some (.ok (), position + space.length) := by
  induction space generalizing position fuel with
  | nil =>
    obtain ⟨fuel, rfl⟩ := Nat.exists_eq_add_of_lt hfuel
    rw [skipWhitespace, get_bind, h.getElem?]
    cases hhead : rest.head? with
    | none => simp [hhead]; rfl
    | some c => simp [hhead, hrest c hhead]; rfl
  | cons c space ih =>
    rw [cons_append] at h
    obtain ⟨fuel, rfl⟩ := Nat.exists_eq_add_of_lt hfuel
    have hc : isWhitespace c = true := hspace c mem_cons_self
    rw [skipWhitespace, get_bind, h.getElem?]
    simp only [head?_cons, hc, if_true]
    rw [h.advance_bind hsize, ih (fun c hmem ↦ hspace c (mem_cons_of_mem _ hmem)) h.tail
      (by simp at hfuel ⊢; omega), length_cons, Nat.add_assoc, Nat.add_comm 1]

/-! ## Keywords -/

theorem parseKeyword_eq {F : Type} {keyword : List Char} (value : Value F)
    (h : At buffer position (keyword ++ rest)) :
    parseKeyword buffer keyword value position = some (.ok value, position + keyword.length) := by
  have hlength := h.length
  rw [length_append] at hlength
  have hconsume : consumeN buffer keyword.length position =
      some (.ok (some keyword), position + keyword.length) := by
    rw [consumeN, here_bind, Nat.mod_eq_of_lt (by omega), if_neg (by omega),
      advance_bind (by omega), h.drop_eq, take_left]
    rfl
  rw [parseKeyword, bind_of_ok hconsume, if_pos rfl]
  rfl

/-! ## Numbers -/

/-- What stands behind a number cannot go on with it. -/
def Stops (fraction rest : List Char) : Prop :=
  ∀ c, rest.head? = some c → c.isDigit = false ∧ (c = '.' → fraction = ['.'])

variable {isFp : Bool}

omit hsize in
theorem parseDigits_of_stops (hstops : ∀ c, rest.head? = some c → c.isDigit = false)
    (h : At buffer position rest) (hfuel : 0 < fuel) :
    parseDigits buffer fuel isFp position = some (.ok isFp, position) := by
  obtain ⟨fuel, rfl⟩ := Nat.exists_eq_add_of_lt hfuel
  rw [Nat.zero_add, parseDigits, get_bind, h.getElem?]
  cases hhead : rest.head? with
  | none => rfl
  | some c => simp [hstops c hhead]; rfl

variable {digits : List Char}

/-- Digits that no point follows. -/
theorem parseDigits_digits (hdigits : ∀ c ∈ digits, c.isDigit)
    (hstops : ∀ c, rest.head? = some c → c.isDigit = false ∧ (c = '.' → digits = []))
    (h : At buffer position (digits ++ rest)) (hfuel : digits.length < fuel) :
    parseDigits buffer fuel isFp position = some (.ok isFp, position + digits.length) := by
  induction digits generalizing position fuel with
  | nil => exact parseDigits_of_stops (fun c hc ↦ (hstops c hc).1) h hfuel
  | cons c digits ih =>
    rw [cons_append] at h
    obtain ⟨fuel, rfl⟩ := Nat.exists_eq_add_of_lt hfuel
    have hc : c.isDigit = true := hdigits c mem_cons_self
    have hnext : (digits ++ rest).head? ≠ some '.' := by
      cases digits with
      | nil => exact fun hpoint ↦ absurd ((hstops '.' hpoint).2 rfl) (cons_ne_nil _ _)
      | cons c' digits =>
        intro hpoint
        obtain rfl : c' = '.' := by simpa using hpoint
        exact absurd (hdigits '.' (by simp)) (by decide)
    rw [parseDigits, get_bind, h.getElem?]
    simp only [head?_cons, hc, if_true]
    rw [h.advance_bind hsize, get_bind, h.tail.getElem?, if_neg hnext,
      ih (fun c hmem ↦ hdigits c (mem_cons_of_mem _ hmem))
        (fun c hc ↦ (hstops c hc).imp_right fun h hpoint ↦ absurd (h hpoint) (by simp)) h.tail
        (by simp at hfuel ⊢; omega), length_cons, Nat.add_assoc, Nat.add_comm 1]

/-- Digits up to the point. -/
theorem parseDigits_point (hdigits : Digits digits)
    (h : At buffer position (digits ++ '.' :: rest)) (hfuel : digits.length ≤ fuel) :
    ∃ fuel', fuel ≤ fuel' + digits.length ∧ parseDigits buffer fuel false position =
      parseDigits buffer fuel' true (position + (digits.length + 1)) := by
  obtain ⟨hne, hall⟩ := hdigits
  induction digits generalizing position fuel with
  | nil => exact absurd rfl hne
  | cons c digits ih =>
    rw [cons_append] at h
    obtain ⟨fuel, rfl⟩ := Nat.exists_eq_add_of_le hfuel
    rw [length_cons, show digits.length + 1 + fuel = digits.length + fuel + 1 by omega,
      parseDigits, get_bind, h.getElem?]
    have hc : c.isDigit = true := hall c mem_cons_self
    simp only [head?_cons, hc, if_true]
    rw [h.advance_bind hsize, get_bind, h.tail.getElem?]
    cases digits with
    | nil =>
      refine ⟨fuel, by simp, ?_⟩
      rw [nil_append, if_pos head?_cons, if_neg (by simp), h.tail.advance_bind hsize,
        length_nil, Nat.zero_add, Nat.add_assoc]
    | cons c' digits =>
      have hpoint : ((c' :: digits) ++ '.' :: rest).head? ≠ some '.' := by
        intro hpoint
        obtain rfl : c' = '.' := by simpa using hpoint
        exact absurd (hall '.' (by simp)) (by decide)
      rw [if_neg hpoint]
      obtain ⟨fuel', hle, heq⟩ := ih h.tail (Nat.le_add_right _ fuel) (cons_ne_nil _ _)
        fun c hmem ↦ hall c (mem_cons_of_mem _ hmem)
      refine ⟨fuel', by omega, ?_⟩
      rw [heq, show position + 1 + ((c' :: digits).length + 1) =
        position + ((c' :: digits).length + 1 + 1) by omega]

variable {sign : List Char}

omit hsize in
theorem stoll_eq (hsign : sign = [] ∨ sign = ['-'])
    (hdigits : Digits digits) {value : ℤ} (h : stoll (sign ++ digits) = some value) :
    (if sign = [] then ofDigits digits else -ofDigits digits) = value := by
  have htake : digits.takeWhile Char.isDigit = digits := takeWhile_eq_self_iff.mpr hdigits.2
  obtain rfl | rfl := hsign
  · have hhead : digits.head? ≠ some '-' := fun hhead ↦
      absurd (hdigits.2 _ (mem_of_mem_head? hhead)) (by decide)
    simp only [stoll, nil_append, decide_eq_false hhead, Bool.false_eq_true, if_false, htake]
      at h
    split_ifs at h
    rw [if_pos rfl]
    exact some.inj h
  · simp only [stoll, cons_append, nil_append, head?_cons, tail_cons,
      decide_true, if_true, htake] at h
    split_ifs at h
    rw [if_neg (cons_ne_nil _ _)]
    exact some.inj h

variable {dialect : Dialect} {fraction : List Char}

omit hsize in
/-- A number of the parser has a point if and only if it has a fraction. -/
theorem point_mem_iff (hsign : sign = [] ∨ sign = ['-']) (hdigits : Digits digits)
    (hfraction : Fraction dialect fraction) : '.' ∈ sign ++ digits ++ fraction ↔ fraction ≠ [] := by
  have hsign' : '.' ∉ sign := by obtain rfl | rfl := hsign <;> decide
  have hdigits' : '.' ∉ digits := fun hmem ↦ absurd (hdigits.2 '.' hmem) (by decide)
  rw [mem_append, mem_append]
  constructor
  · rintro ((hmem | hmem) | hmem)
    · exact absurd hmem hsign'
    · exact absurd hmem hdigits'
    · exact ne_nil_of_mem hmem
  · intro hne
    obtain rfl | ⟨digits', rfl, -⟩ := hfraction
    · exact absurd rfl hne
    · exact Or.inr mem_cons_self

variable {F : Type} {doubles : Doubles F}

/-- What a number is converted to. -/
def convert (doubles : Doubles F) (token : List Char) : Except Failure (Value F) :=
  if '.' ∈ token then
    (stod doubles token).elim (.error .outOfRange) (.ok ∘ .float)
  else
    (stoll token).elim (.error .outOfRange) (.ok ∘ .int)

omit hsize in
theorem convert_eq_ok (hsign : sign = [] ∨ sign = ['-']) (hdigits : Digits digits)
    (hfraction : Fraction dialect fraction)
    (hconvertible : Convertible doubles (sign ++ digits ++ fraction)) :
    convert doubles (sign ++ digits ++ fraction) =
      .ok (numberValue doubles sign digits fraction []) := by
  have hpoint := point_mem_iff hsign hdigits hfraction
  unfold convert numberValue
  unfold Convertible at hconvertible
  by_cases hnil : fraction = []
  · subst hnil
    rw [if_neg (by simpa using hpoint)] at hconvertible ⊢
    obtain ⟨value, hvalue⟩ := isSome_iff_exists.mp hconvertible
    rw [hvalue, if_pos ⟨rfl, rfl⟩]
    rw [append_nil] at hvalue
    rw [stoll_eq hsign hdigits hvalue]
    rfl
  · rw [if_pos (hpoint.mpr hnil)] at hconvertible ⊢
    rw [stod, if_pos hconvertible, if_neg (by simp [hnil]), append_nil]
    rfl

/-- The characters of a number are read as far as they go. -/
theorem parseDigits_number (hdigits : Digits digits)
    (hfraction : Fraction (lenient doubles) fraction) (hstops : Stops fraction rest)
    (h : At buffer position (digits ++ (fraction ++ rest)))
    (hfuel : digits.length + fraction.length < fuel) :
    parseDigits buffer fuel false position =
      some (.ok (decide (fraction ≠ [])), position + (digits.length + fraction.length)) := by
  obtain rfl | ⟨digits', rfl, hdigits'⟩ := hfraction
  · refine (parseDigits_digits hsize hdigits.2 (fun c hc ↦ ?_) h (by simpa using hfuel)).trans ?_
    · exact (hstops c hc).imp_right fun hpoint heq ↦ absurd (hpoint heq) (by simp)
    · simp
  · obtain ⟨fuel', hle, heq⟩ := parseDigits_point hsize hdigits h
      (show digits.length ≤ fuel by omega)
    rw [length_cons] at hfuel
    have hall : ∀ c ∈ digits', c.isDigit := by
      obtain ⟨-, rfl⟩ | hdigits' := hdigits'
      · simp
      · exact hdigits'.2
    have hrest := h.append.tail
    rw [heq, ← Nat.add_assoc, parseDigits_digits hsize hall (fun c hc ↦ ?_) hrest (by omega)]
    · simp
      omega
    · refine (hstops c hc).imp_right fun hpoint heq ↦ ?_
      simpa using hpoint heq

omit hsize in
theorem ne_minus_of_mem (hdigits : Digits digits)
    (hfraction : Fraction dialect fraction) (hmem : c ∈ digits ++ fraction) : c ≠ '-' := by
  rintro rfl
  obtain hmem | hmem := mem_append.mp hmem
  · exact absurd (hdigits.2 _ hmem) (by decide)
  · obtain rfl | ⟨digits', rfl, hdigits'⟩ := hfraction
    · cases hmem
    · obtain hpoint | hmem := mem_cons.mp hmem
      · exact absurd hpoint (by decide)
      · obtain ⟨-, rfl⟩ | hdigits' := hdigits'
        · cases hmem
        · exact absurd (hdigits'.2 _ hmem) (by decide)

/-- What `parse_number` does behind the characters. -/
theorem parseNumber_slice (hdigits : Digits digits) (hfraction : Fraction dialect fraction)
    (h : At buffer position (sign ++ digits ++ fraction ++ rest)) :
    buffer[(position + (sign ++ digits ++ fraction).length + (2 ^ 32 - 1)) % 2 ^ 32]? ≠ none ∧
      buffer[(position + (sign ++ digits ++ fraction).length + (2 ^ 32 - 1)) % 2 ^ 32]? ≠ some '-' ∧
      (buffer.drop position).take
        ((position + (sign ++ digits ++ fraction).length + (2 ^ 32 - position)) % 2 ^ 32) =
          sign ++ digits ++ fraction := by
  have hlength := h.length
  have hle := h.le
  set token := sign ++ digits ++ fraction with htoken
  rw [length_append] at hlength
  have hne : digits ++ fraction ≠ [] := by simp [hdigits.1]
  have hpos : 0 < token.length := by
    rw [htoken, append_assoc, length_append]
    have := length_pos_iff.mpr hne
    omega
  have hlast : buffer[(position + token.length + (2 ^ 32 - 1)) % 2 ^ 32]? =
      some ((digits ++ fraction).getLast hne) := by
    rw [show position + token.length + (2 ^ 32 - 1) = position + (token.length - 1) + 2 ^ 32 by
      omega, Nat.add_mod_right, Nat.mod_eq_of_lt (by omega), ← getElem?_drop, h.drop_eq,
      getElem?_append_left (by omega), ← getLast?_eq_getElem?, htoken, append_assoc,
      getLast?_append_of_ne_nil _ hne, getLast?_eq_some_getLast hne]
  refine ⟨?_, ?_, ?_⟩
  · rw [hlast]
    exact some_ne_none _
  · rw [hlast]
    intro hminus
    exact ne_minus_of_mem hdigits hfraction (getLast_mem hne) (some.inj hminus)
  · rw [show position + token.length + (2 ^ 32 - position) = token.length + 2 ^ 32 by omega,
      Nat.add_mod_right, Nat.mod_eq_of_lt (by omega), h.drop_eq, take_left]

theorem parseNumber_eq (hsign : sign = [] ∨ sign = ['-']) (hdigits : Digits digits)
    (hfraction : Fraction (lenient doubles) fraction) (hstops : Stops fraction rest)
    (h : At buffer position (sign ++ digits ++ fraction ++ rest))
    (hfuel : digits.length + fraction.length < fuel) :
    parseNumber buffer doubles fuel position =
      some (convert doubles (sign ++ digits ++ fraction),
        position + (sign ++ digits ++ fraction).length) := by
  obtain ⟨hnone, hminus, hslice⟩ := parseNumber_slice hsize hdigits hfraction h
  have hdigits' : At buffer (position + sign.length) (digits ++ (fraction ++ rest)) := by
    rw [append_assoc, append_assoc] at h
    exact h.append
  have hrun := parseDigits_number hsize hdigits hfraction hstops hdigits' hfuel
  rw [Nat.add_assoc, ← length_append, ← length_append, ← append_assoc] at hrun
  set token := sign ++ digits ++ fraction
  -- The sign is read on its own.
  have hstart : parseNumber buffer doubles fuel position = (parseDigits buffer fuel false >>=
      finishNumber buffer doubles position) (position + sign.length) := by
    obtain rfl | rfl := hsign
    · have hhead : buffer[position]? ≠ some '-' := by
        obtain ⟨c, digits', rfl⟩ := exists_cons_of_ne_nil hdigits.1
        rw [h.getElem?]
        rintro ⟨⟩
        exact absurd (hdigits.2 '-' mem_cons_self) (by decide)
      rw [parseNumber, here_bind, get_bind, if_neg hhead]
      rfl
    · rw [parseNumber, here_bind, get_bind, if_pos (by rw [h.getElem?]; rfl), h.advance_bind hsize]
      rfl
  have hpoint := point_mem_iff hsign hdigits hfraction
  rw [hstart, bind_of_ok hrun, finishNumber, here_bind, if_neg hnone,
    if_neg hminus, hslice, convert]
  by_cases hnil : fraction = []
  · rw [if_neg (by simpa using hnil), if_neg fun hmem ↦ hpoint.mp hmem hnil]
    cases stoll token <;> rfl
  · rw [if_pos (by simpa using hnil), if_pos (hpoint.mpr hnil)]
    cases stod doubles token <;> rfl

/-! ## Strings -/

variable {body value : List Char}

/-- A string is read up to its closing quotation mark. -/
theorem parseChars_eq {decode : List Char → List Char}
    (hchars : Chars (lenient doubles) decode body value) (acc : List Char)
    (h : At buffer position (body ++ '"' :: rest)) (hfuel : body.length < fuel) :
    parseChars buffer fuel acc position =
      some (.ok (acc ++ value), position + (body.length + 1)) := by
  induction hchars generalizing acc position fuel with
  | nil =>
    obtain ⟨fuel, rfl⟩ := Nat.exists_eq_add_of_lt hfuel
    rw [nil_append] at h
    rw [parseChars, h.consume_bind hsize, append_nil]
    rfl
  | @plain c body value hquote hbackslash _ _ ih =>
    obtain ⟨fuel, rfl⟩ := Nat.exists_eq_add_of_lt hfuel
    rw [cons_append] at h
    have hrun := ih (acc ++ [c]) h.tail (show body.length < body.length + 1 + fuel by omega)
    rw [parseChars, h.consume_bind hsize]
    simp only [length_cons]
    rw [hrun, append_assoc, singleton_append, Nat.add_assoc, Nat.add_comm 1]
  | @escape letter c body value hletter _ ih =>
    obtain ⟨fuel, rfl⟩ := Nat.exists_eq_add_of_lt hfuel
    rw [cons_append, cons_append] at h
    have hrun := ih (acc ++ [c]) h.tail.tail (show body.length <
      body.length + 1 + 1 + fuel by omega)
    rw [parseChars, h.consume_bind hsize]
    simp only [length_cons]
    rw [h.tail.consume_bind hsize, bind_some, hletter]
    dsimp only
    rw [hrun, append_assoc, singleton_append]
    congr 2
    omega
  | slash hother => exact absurd hother (by simp [lenient])
  | number hother => exact absurd hother (by simp [lenient])

theorem parseStringRaw_eq {decode : List Char → List Char} {quote : Char}
    (hchars : Chars (lenient doubles) decode body value)
    (h : At buffer position (quote :: (body ++ '"' :: rest))) (hfuel : body.length < fuel) :
    parseStringRaw buffer fuel position = some (.ok value, position + (body.length + 2)) := by
  rw [parseStringRaw, h.advance_bind hsize, parseChars_eq hsize hchars [] h.tail hfuel, nil_append]
  congr 2
  omega

/-! ## Values -/

/-- What may stand behind a value. -/
def Delimited (rest : List Char) : Prop :=
  ∀ c, rest.head? = some c → isWhitespace c ∨ c = ',' ∨ c = ']' ∨ c = '}'

omit hsize in
theorem Delimited.stops (h : Delimited rest) (fraction : List Char) : Stops fraction rest := by
  intro c hc
  obtain hspace | rfl | rfl | rfl := h c hc
  · simp only [isWhitespace, Bool.or_eq_true, decide_eq_true_eq] at hspace
    obtain ((rfl | rfl) | rfl) | rfl := hspace <;> simp
  all_goals simp

omit hsize in
theorem delimited_of_whitespace (hspace : Whitespace space)
    (hrest : Delimited rest) : Delimited (space ++ rest) := by
  intro c hc
  cases space with
  | nil => exact hrest c hc
  | cons c' space =>
    obtain rfl : c' = c := by simpa using hc
    exact Or.inl (hspace c' mem_cons_self)

variable {decode : List Char → List Char}

omit hsize in
/-- A value begins with a character that is neither white space nor the end of an array. -/
theorem Reads.exists_head {text : List Char} {value : Value F}
    (h : Reads doubles decode dialect text value) :
    ∃ c text', text = c :: text' ∧ isWhitespace c = false ∧ c ≠ ']' := by
  cases h with
  | number hnumber =>
    obtain ⟨c, digits, hdigits⟩ := exists_cons_of_ne_nil hnumber.integer.1.1
    have hc := hnumber.integer.1.2
    subst hdigits
    obtain rfl | rfl := hnumber.signed
    · refine ⟨c, _, rfl, ?_, ?_⟩
      · have := hc c mem_cons_self
        by_contra hspace
        simp only [isWhitespace, Bool.not_eq_false, Bool.or_eq_true, decide_eq_true_eq] at hspace
        obtain ((rfl | rfl) | rfl) | rfl := hspace <;> exact absurd this (by decide)
      · rintro rfl
        exact absurd (hc _ mem_cons_self) (by decide)
    · exact ⟨'-', _, rfl, by decide, by decide⟩
  | null => exact ⟨_, _, rfl, by decide, by decide⟩
  | boolFalse => exact ⟨_, _, rfl, by decide, by decide⟩
  | boolTrue => exact ⟨_, _, rfl, by decide, by decide⟩
  | string => exact ⟨_, _, rfl, by decide, by decide⟩
  | emptyArray => exact ⟨_, _, rfl, by decide, by decide⟩
  | array => exact ⟨_, _, rfl, by decide, by decide⟩
  | emptyObject => exact ⟨_, _, rfl, by decide, by decide⟩
  | object => exact ⟨_, _, rfl, by decide, by decide⟩

/-! ### Lists of items -/

variable {close : Char}

variable (empty : Value F) (loop : Parsing (Value F)) {openChar : Char}

theorem parseOpen_empty (hspace : Whitespace space) (hclose : isWhitespace close = false)
    (h : At buffer position (openChar :: (space ++ close :: rest))) (hfuel : space.length < fuel) :
    parseOpen buffer fuel close empty loop position =
      some (.ok empty, position + (space.length + 2)) := by
  rw [parseOpen, h.advance_bind hsize, bind_of_ok (skipWhitespace_eq hsize hspace
    (by rintro c ⟨⟩; exact hclose) h.tail hfuel), get_bind, h.tail.append.getElem?,
    if_pos head?_cons, h.tail.append.advance_bind hsize]
  change some (Except.ok empty, _) = _
  congr 2
  omega

theorem parseOpen_loop (hspace : Whitespace space)
    (hrest : ∀ c, rest.head? = some c → isWhitespace c = false ∧ c ≠ close)
    (h : At buffer position (openChar :: (space ++ rest))) (hfuel : space.length < fuel) :
    parseOpen buffer fuel close empty loop position = loop (position + 1 + space.length) := by
  rw [parseOpen, h.advance_bind hsize, bind_of_ok (skipWhitespace_eq hsize hspace
    (fun c hc ↦ (hrest c hc).1) h.tail hfuel), get_bind, h.tail.append.getElem?, if_neg]
  exact fun hhead ↦ (hrest close hhead).2 rfl

variable (done : Value F)

theorem parseNext_close
    (loop : Parsing (Value F)) (hspace : Whitespace space) (hclose : isWhitespace close = false)
    (h : At buffer position (space ++ close :: rest)) (hfuel : space.length < fuel) :
    parseNext buffer fuel close done loop position =
      some (.ok done, position + (space.length + 1)) := by
  rw [parseNext, bind_of_ok (skipWhitespace_eq hsize hspace
    (by rintro c ⟨⟩; exact hclose) h hfuel), get_bind, h.append.getElem?,
    if_pos head?_cons, h.append.advance_bind hsize]
  rfl

theorem parseNext_comma {space' : List Char}
    (loop : Parsing (Value F)) (hspace : Whitespace space) (hclose : close ≠ ',')
    (hspace' : Whitespace space') (hrest : ∀ c, rest.head? = some c → isWhitespace c = false)
    (h : At buffer position (space ++ ',' :: (space' ++ rest))) (hfuel : space.length < fuel)
    (hfuel' : space'.length < fuel) :
    parseNext buffer fuel close done loop position =
      loop (position + space.length + 1 + space'.length) := by
  rw [parseNext, bind_of_ok (skipWhitespace_eq hsize hspace
    (by rintro c ⟨⟩; decide) h hfuel), get_bind, h.append.getElem?, head?_cons,
    if_neg (by simpa using hclose.symm), if_pos rfl, h.append.advance_bind hsize,
    bind_of_ok (skipWhitespace_eq hsize hspace' hrest h.append.tail hfuel')]

end Banjo.JSON
