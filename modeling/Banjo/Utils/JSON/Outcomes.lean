import Banjo.Utils.JSON.Complete

/-!
# How a run of the parser ends

Whatever stands in the buffer, a run on it ends: with the value of a text in the parser's dialect,
or rejected, or with an exception for a number that is read before anything is found to be wrong.
-/

open List Option

namespace Banjo.JSON

open Parsing

variable {F : Type} {α β : Type}

/-! ## The position of the parser -/

/-- A position stays an `unsigned`. -/
def Bounded (x : Parsing α) : Prop :=
  ∀ position < 2 ^ 32, ∀ result position', x position = some (result, position') →
    position' < 2 ^ 32

theorem bounded_pure (a : α) : Bounded (pure a) := by
  rintro position hlt _ _ ⟨⟩
  exact hlt

theorem bounded_fail (failure : Failure) : Bounded (fail failure : Parsing α) := by
  rintro position hlt _ _ ⟨⟩
  exact hlt

theorem bounded_exhausted : Bounded (exhausted : Parsing α) := by
  rintro position _ _ _ ⟨⟩

theorem bounded_here : Bounded here := by
  rintro position hlt _ _ ⟨⟩
  exact hlt

theorem bounded_get (buffer : List Char) : Bounded (get buffer) := by
  rintro position hlt _ _ ⟨⟩
  exact hlt

theorem bounded_advance (count : ℕ) : Bounded (advance count) := by
  rintro position _ _ _ ⟨⟩
  exact Nat.mod_lt _ (by decide)

variable {x : Parsing α}

theorem Bounded.bind {f : α → Parsing β} (hx : Bounded x) (hf : ∀ a, Bounded (f a)) :
    Bounded (x >>= f) := by
  intro position hlt result position' h
  rw [Parsing.bind_apply] at h
  split at h
  · rename_i a p hx'
    exact hf a p (hx position hlt _ p hx') _ _ h
  · rename_i e p hx'
    cases h
    exact hx position hlt _ _ hx'
  · cases h

variable {buffer : List Char}

section

variable {doubles : Doubles F}

theorem bounded_consume : Bounded (consume buffer) := by
  refine (bounded_get buffer).bind fun c ↦ ?_
  split_ifs
  · exact (bounded_advance 1).bind fun _ ↦ bounded_pure _
  · exact bounded_pure _

variable (fuel : ℕ)

theorem bounded_skipWhitespace : Bounded (skipWhitespace buffer fuel) := by
  induction fuel with
  | zero => exact bounded_exhausted
  | succ fuel ih =>
    refine (bounded_get buffer).bind fun c ↦ ?_
    cases c with
    | none => exact bounded_pure _
    | some c =>
      dsimp only
      split_ifs
      · exact (bounded_advance 1).bind fun _ ↦ ih
      · exact bounded_pure _

theorem bounded_parseKeyword (keyword : List Char) (value : Value F) :
    Bounded (parseKeyword buffer keyword value) := by
  refine Bounded.bind (bounded_here.bind fun position ↦ ?_) fun slice ↦ ?_
  · split_ifs
    · exact bounded_pure _
    · exact (bounded_advance _).bind fun _ ↦ bounded_pure _
  · split_ifs
    · exact bounded_pure _
    · exact bounded_fail _

theorem bounded_parseDigits (isFp : Bool) : Bounded (parseDigits buffer fuel isFp) := by
  induction fuel generalizing isFp with
  | zero => exact bounded_exhausted
  | succ fuel ih =>
    refine (bounded_get buffer).bind fun c ↦ ?_
    cases c with
    | none => exact bounded_pure _
    | some c =>
      by_cases hc : c.isDigit
      · simp only [hc, if_true]
        refine (bounded_advance 1).bind fun _ ↦ (bounded_get buffer).bind fun c ↦ ?_
        split_ifs
        · exact bounded_fail _
        · exact (bounded_advance 1).bind fun _ ↦ ih true
        · exact ih _
      · simp only [hc, Bool.false_eq_true, if_false]
        exact bounded_pure _

theorem bounded_parseNumber : Bounded (parseNumber buffer doubles fuel) := by
  have hfinish : ∀ start isFp, Bounded (finishNumber buffer doubles start isFp) := by
    intro start isFp
    refine bounded_here.bind fun position ↦ ?_
    dsimp only
    split_ifs
    · exact bounded_fail _
    · exact bounded_fail _
    · split
      · exact bounded_pure _
      · exact bounded_fail _
    · split
      · exact bounded_pure _
      · exact bounded_fail _
  have hdigits : ∀ start, Bounded (parseDigits buffer fuel false >>= finishNumber
    buffer doubles start) :=
    fun start ↦ (bounded_parseDigits fuel false).bind (hfinish start)
  refine bounded_here.bind fun start ↦ (bounded_get buffer).bind fun c ↦ ?_
  split_ifs
  · exact (bounded_advance 1).bind fun _ ↦ hdigits start
  · exact hdigits start

theorem bounded_parseStringRaw : Bounded (parseStringRaw buffer fuel) := by
  refine (bounded_advance 1).bind fun _ ↦ ?_
  generalize ([] : List Char) = value
  induction fuel generalizing value with
  | zero => exact bounded_exhausted
  | succ fuel ih =>
    refine bounded_consume.bind fun c ↦ ?_
    split
    · exact bounded_fail _
    · refine bounded_consume.bind fun c ↦ ?_
      split
      · exact ih _
      · exact bounded_fail _
    · exact bounded_pure _
    · exact ih _

variable (close : Char) {loop : Parsing (Value F)}

theorem bounded_parseOpen (empty : Value F)
    (hloop : Bounded loop) : Bounded (parseOpen buffer fuel close empty loop) := by
  refine (bounded_advance 1).bind fun _ ↦ (bounded_skipWhitespace fuel).bind fun _ ↦
    (bounded_get buffer).bind fun c ↦ ?_
  split_ifs
  · exact (bounded_advance 1).bind fun _ ↦ bounded_pure _
  · exact hloop

theorem bounded_parseNext (done : Value F)
    (hloop : Bounded loop) : Bounded (parseNext buffer fuel close done loop) := by
  refine (bounded_skipWhitespace fuel).bind fun _ ↦ (bounded_get buffer).bind fun c ↦ ?_
  split_ifs
  · exact (bounded_advance 1).bind fun _ ↦ bounded_pure _
  · exact (bounded_advance 1).bind fun _ ↦ (bounded_skipWhitespace fuel).bind fun _ ↦ hloop
  · exact bounded_fail _

theorem bounded_parseValue : Bounded (parseValue buffer doubles fuel) ∧
    (∀ array, Bounded (parseItems buffer doubles fuel array)) ∧
      ∀ object, Bounded (parseMembers buffer doubles fuel object) := by
  induction fuel with
  | zero => exact ⟨bounded_exhausted, fun _ ↦ bounded_exhausted, fun _ ↦ bounded_exhausted⟩
  | succ fuel ih =>
    obtain ⟨hvalue, hitems, hmembers⟩ := ih
    refine ⟨?_, fun array ↦ ?_, fun object ↦ ?_⟩
    · refine (bounded_get buffer).bind fun c ↦ ?_
      cases c with
      | none => exact bounded_fail _
      | some c =>
        dsimp only
        split_ifs
        · exact bounded_parseKeyword _ _
        · exact bounded_parseKeyword _ _
        · exact bounded_parseKeyword _ _
        · exact bounded_parseNumber fuel
        · exact (bounded_parseStringRaw fuel).bind fun _ ↦ bounded_pure _
        · exact bounded_parseOpen fuel _ _ (hitems [])
        · exact bounded_parseOpen fuel _ _ (hmembers [])
        · exact bounded_fail _
    · exact hvalue.bind fun value ↦ bounded_parseNext fuel _ _ (hitems _)
    · refine (bounded_parseStringRaw fuel).bind fun key ↦ (bounded_skipWhitespace fuel).bind fun _ ↦
        (bounded_get buffer).bind fun c ↦ ?_
      split_ifs
      · exact (bounded_advance 1).bind fun _ ↦ (bounded_skipWhitespace fuel).bind fun _ ↦
          hvalue.bind fun value ↦ bounded_parseNext fuel _ _ (hmembers _)
      · exact bounded_fail _

/-- A text of `2 ^ 32` characters or more is never parsed to its end. -/
theorem not_parses_of_le (hsize : 2 ^ 32 ≤ buffer.length) (value : Value F) :
    ¬Parses buffer doubles (.ok value) := by
  rintro ⟨turns, h⟩
  have hrun := h turns le_rfl
  simp only [parse, bind_eq_bind, bind_eq_some_iff, Prod.exists] at hrun
  obtain ⟨_, start, hstart, result, position, hvalue, hrun⟩ := hrun
  have hlt := bounded_skipWhitespace turns 0 (by decide) _ _ hstart
  have hlt' := (bounded_parseValue turns).1 start hlt _ _ hvalue
  cases result with
  | error failure =>
    cases failure <;> simp [bind_eq_some_iff] at hrun
  | ok value' =>
    simp only [bind_eq_some_iff, Prod.exists] at hrun
    obtain ⟨_, position', hskip, hrun⟩ := hrun
    have hlt'' := bounded_skipWhitespace turns position hlt' _ _ hskip
    rw [if_neg (by omega)] at hrun
    cases hrun

end

/-! ## What is found to be wrong -/

/-- What is being read. -/
inductive Place where
  | value
  | items
  | members

/-- The parser comes to a number that is not converted. -/
inductive Reaches (doubles : Doubles F) (decode : List Char → List Char) :
    Place → List Char → Prop
  | number {sign digits fraction rest} (hsign : sign = [] ∨ sign = ['-']) (hdigits : Digits digits)
      (hfraction : Fraction (lenient doubles) fraction) (hstops : Stops fraction rest)
      (hthrows : ¬Convertible doubles (sign ++ digits ++ fraction)) :
      Reaches doubles decode .value (sign ++ digits ++ fraction ++ rest)
  | array {space input} (hspace : Whitespace space) (h : Reaches doubles decode .items input) :
      Reaches doubles decode .value ('[' :: (space ++ input))
  | object {space input} (hspace : Whitespace space) (hfirst : input.head? ≠ some '}')
      (h : Reaches doubles decode .members input) :
      Reaches doubles decode .value ('{' :: (space ++ input))
  | first {input} (h : Reaches doubles decode .value input) : Reaches doubles decode .items input
  | item {item : Item F} {space input} (hreads : Reads doubles decode (lenient doubles) item.text
        item.value) (hafter : Whitespace item.after) (hspace : Whitespace space)
      (h : Reaches doubles decode .items input) :
      Reaches doubles decode .items (item.text ++ (item.after ++ ',' :: (space ++ input)))
  | named {member : Member F} {input} (hnamed : member.Named (lenient doubles) decode)
      (h : Reaches doubles decode .value input) :
      Reaches doubles decode .members (member.quote :: (member.name ++ '"' :: (member.behindName ++
        ':' :: (member.item.before ++ input))))
  | member {member : Member F} {space input} (hnamed : member.Named (lenient doubles) decode)
      (hreads : Reads doubles decode (lenient doubles) member.item.text member.item.value)
      (hspace : Whitespace space) (h : Reaches doubles decode .members input) :
      Reaches doubles decode .members (member.body ++ ',' :: (space ++ input))

variable {position : ℕ} {input : List Char}

theorem bind_of_error {failure : Failure} {position' : ℕ}
    (h : x position = some (.error failure, position')) (f : α → Parsing β) :
    (x >>= f) position = some (.error failure, position') := by
  rw [Parsing.bind_apply, h]

/-- The run finds out that something is wrong. -/
def Rejects (run : Option (Except Failure α × ℕ)) : Prop :=
  ∃ position, run = some (.error .rejected, position)

theorem Rejects.bind (h : Rejects (x position)) (f : α → Parsing β) :
    Rejects ((x >>= f) position) := by
  obtain ⟨position', h⟩ := h
  exact ⟨position', bind_of_error h f⟩

theorem rejects_fail : Rejects ((fail .rejected : Parsing α) position) := ⟨position, rfl⟩

section

variable (hsize : buffer.length < 2 ^ 32)
include hsize

variable {fuel : ℕ}

theorem exists_skipWhitespace (h : At buffer position input)
    (hfuel : input.length < fuel) : ∃ space rest, input = space ++ rest ∧ Whitespace space ∧
      (∀ c, rest.head? = some c → isWhitespace c = false) ∧
      skipWhitespace buffer fuel position = some (.ok (), position + space.length) := by
  have hsplit := takeWhile_append_dropWhile (p := isWhitespace) (l := input)
  have hspace : Whitespace (input.takeWhile isWhitespace) := fun c hmem ↦ mem_takeWhile_imp hmem
  have hrest : ∀ c, (input.dropWhile isWhitespace).head? = some c → isWhitespace c = false := by
    intro c hc
    have := head?_dropWhile_not isWhitespace input
    rw [hc] at this
    simpa using this
  refine ⟨_, _, hsplit.symm, hspace, hrest, ?_⟩
  have hlength := (List.takeWhile_prefix (p := isWhitespace) (l := input)).length_le
  exact skipWhitespace_eq hsize hspace hrest (hsplit.symm ▸ h) (by omega)

omit hsize in
theorem parseKeyword_cases (keyword : List Char) (value : Value F) (h : At buffer position input) :
    (∃ rest, input = keyword ++ rest) ∨ Rejects (parseKeyword buffer keyword value position) := by
  by_cases hinput : keyword <+: input
  · obtain ⟨rest, rfl⟩ := hinput
    exact Or.inl ⟨rest, rfl⟩
  · refine Or.inr ?_
    obtain ⟨slice, position', hrun, hslice⟩ : ∃ slice position',
        consumeN buffer keyword.length position = some (.ok slice, position') ∧
          slice ≠ some keyword := by
      rw [consumeN, here_bind]
      split_ifs
      · exact ⟨none, _, rfl, by simp⟩
      · refine ⟨_, _, rfl, fun heq ↦ hinput ?_⟩
        rw [h.drop_eq] at heq
        rw [← some.inj heq]
        exact take_prefix _ _
    rw [parseKeyword, bind_of_ok hrun, if_neg hslice]
    exact rejects_fail

theorem parseDigits_true_cases (h : At buffer position input) (hfuel : input.length < fuel) :
    (∃ digits rest, input = digits ++ rest ∧ (∀ c ∈ digits, c.isDigit) ∧
      ∀ c, rest.head? = some c → c.isDigit = false ∧ (c = '.' → digits = [])) ∨
    Rejects (parseDigits buffer fuel true position) := by
  induction fuel generalizing position input with
  | zero => omega
  | succ fuel ih =>
    rw [parseDigits, get_bind, h.getElem?]
    cases input with
    | nil => exact Or.inl ⟨[], [], rfl, by simp, by simp⟩
    | cons c input =>
      by_cases hc : c.isDigit
      · simp only [head?_cons, hc, if_true]
        rw [h.advance_bind hsize, get_bind, h.tail.getElem?]
        split_ifs with hpoint
        · exact Or.inr rejects_fail
        · refine (ih h.tail (by simpa using hfuel)).imp_left ?_
          rintro ⟨digits, rest, rfl, hdigits, hrest⟩
          refine ⟨c :: digits, rest, rfl, forall_mem_cons.mpr ⟨hc, hdigits⟩, fun c' hc' ↦ ?_⟩
          refine ⟨(hrest c' hc').1, ?_⟩
          rintro rfl
          obtain rfl := (hrest '.' hc').2 rfl
          exact absurd hc' hpoint
      · refine Or.inl ⟨[], c :: input, rfl, by simp, ?_⟩
        rintro c' ⟨⟩
        exact ⟨by simpa using hc, fun _ ↦ rfl⟩

variable {c : Char}

theorem parseDigits_false_cases (doubles : Doubles F) (hc : c.isDigit = true)
    (h : At buffer position (c :: input)) (hfuel : input.length + 1 < fuel) :
    (∃ digits fraction rest, c :: input = digits ++ (fraction ++ rest) ∧ Digits digits ∧
      Fraction (lenient doubles) fraction ∧ Stops fraction rest) ∨
    Rejects (parseDigits buffer fuel false position) := by
  induction fuel generalizing position input c with
  | zero => omega
  | succ fuel ih =>
    rw [parseDigits, get_bind, h.getElem?]
    simp only [head?_cons, hc, if_true]
    rw [h.advance_bind hsize, get_bind, h.tail.getElem?]
    have hone : Digits [c] := ⟨cons_ne_nil _ _, forall_mem_singleton.mpr hc⟩
    by_cases hpoint : input.head? = some '.'
    · rw [if_pos hpoint, if_neg (by simp)]
      obtain ⟨input, rfl⟩ : ∃ input', input = '.' :: input' := by
        cases input with
        | nil => cases hpoint
        | cons c' input =>
          obtain rfl : c' = '.' := by simpa using hpoint
          exact ⟨input, rfl⟩
      rw [h.tail.advance_bind hsize]
      refine (parseDigits_true_cases hsize h.tail.tail
        (by simp only [length_cons] at hfuel; omega)).imp_left ?_
      rintro ⟨digits, rest, rfl, hdigits, hrest⟩
      refine ⟨[c], '.' :: digits, rest, rfl, hone, Or.inr ⟨digits, rfl, ?_⟩, fun c' hc' ↦ ?_⟩
      · obtain rfl | hne := eq_or_ne digits []
        · exact Or.inl ⟨trivial, rfl⟩
        · exact Or.inr ⟨hne, hdigits⟩
      · exact (hrest c' hc').imp_right fun hpoint heq ↦ by rw [hpoint heq]
    · rw [if_neg hpoint]
      obtain hnil | ⟨c', input', rfl⟩ : input = [] ∨ ∃ c' input', input = c' :: input' := by
        cases input <;> simp
      · subst hnil
        exact Or.inl ⟨[c], [], [], rfl, hone, Or.inl rfl, by rintro _ ⟨⟩⟩
      · by_cases hc' : c'.isDigit
        · refine (ih hc' h.tail (by simpa using hfuel)).imp_left ?_
          rintro ⟨digits, fraction, rest, heq, hdigits, hfraction, hstops⟩
          refine ⟨c :: digits, fraction, rest, by rw [heq]; rfl, ?_, hfraction, hstops⟩
          exact ⟨cons_ne_nil _ _, forall_mem_cons.mpr ⟨hc, hdigits.2⟩⟩
        · refine Or.inl ⟨[c], [], c' :: input', rfl, hone, Or.inl rfl, ?_⟩
          rintro _ ⟨⟩
          refine ⟨by simpa using hc', ?_⟩
          rintro rfl
          exact absurd rfl hpoint

/-- A number is read, or rejected. -/
theorem parseNumber_cases {doubles : Doubles F} (hc : c = '-' ∨ c.isDigit = true)
    (h : At buffer position (c :: input)) (hfuel : input.length + 1 < fuel) :
    (∃ sign digits fraction rest, c :: input = sign ++ digits ++ fraction ++ rest ∧
      (sign = [] ∨ sign = ['-']) ∧ Digits digits ∧ Fraction (lenient doubles) fraction ∧
      Stops fraction rest) ∨
    Rejects (parseNumber buffer doubles fuel position) := by
  by_cases hdigit : c.isDigit
  · have hhead : buffer[position]? ≠ some '-' := by
      rw [h.getElem?]
      rintro ⟨⟩
      exact absurd hdigit (by decide)
    rw [parseNumber, here_bind, get_bind, if_neg hhead]
    refine (parseDigits_false_cases hsize doubles hdigit h hfuel).imp
      ?_ fun hrejects ↦ hrejects.bind _
    rintro ⟨digits, fraction, rest, heq, hparts⟩
    exact ⟨[], digits, fraction, rest, by simpa using heq, Or.inl rfl, hparts⟩
  · obtain rfl : c = '-' := hc.resolve_right hdigit
    rw [parseNumber, here_bind, get_bind, if_pos (by rw [h.getElem?]; rfl), h.advance_bind hsize]
    obtain hnil | ⟨c', input', rfl, hc'⟩ : (∀ c', input.head? = some c' → c'.isDigit = false) ∨
        ∃ c' input', input = c' :: input' ∧ c'.isDigit = true := by
      cases input with
      | nil => exact Or.inl (by rintro _ ⟨⟩)
      | cons c' input =>
        by_cases hc' : c'.isDigit
        · exact Or.inr ⟨c', input, rfl, hc'⟩
        · refine Or.inl ?_
          rintro _ ⟨⟩
          simpa using hc'
    · -- Only the sign has been read.
      refine Or.inr ?_
      have hle := h.length
      simp only [length_cons] at hle
      have hlast : buffer[(position + 1 + (2 ^ 32 - 1)) % 2 ^ 32]? = some '-' := by
        rw [show position + 1 + (2 ^ 32 - 1) = position + 2 ^ 32 by omega, Nat.add_mod_right,
          Nat.mod_eq_of_lt (by omega), h.getElem?]
        rfl
      have hrun : parseDigits buffer fuel false (position + 1) = some (.ok false, position + 1) :=
        parseDigits_of_stops hnil h.tail (by omega)
      have hfinish : Rejects (finishNumber buffer doubles position false (position + 1)) := by
        rw [finishNumber, here_bind, if_neg (by rw [hlast]; simp), if_pos hlast]
        exact rejects_fail
      simpa only [bind_of_ok hrun] using hfinish
    · simp only [length_cons] at hfuel
      refine (parseDigits_false_cases hsize doubles hc' h.tail (by omega)).imp ?_
        fun hrejects ↦ hrejects.bind _
      rintro ⟨digits, fraction, rest, heq, hparts⟩
      refine ⟨['-'], digits, fraction, rest, ?_, Or.inr rfl, hparts⟩
      rw [heq]
      simp

omit hsize in
theorem consume_bind_none (h : buffer[position]? = none) (f : Option Char → Parsing β) :
    (consume buffer >>= f) position = f none position := by
  refine bind_of_ok ?_ f
  rw [consume, get_bind, h]
  rfl

variable (acc : List Char)

theorem parseChars_backslash (h : At buffer position ('\\' :: input)) (fuel : ℕ) :
    parseChars buffer (fuel + 1) acc position = (consume buffer >>= fun letter ↦
      match letter.bind unescape with
      | some c => parseChars buffer fuel (acc ++ [c])
      | none => fail .rejected) (position + 1) := by
  rw [parseChars, h.consume_bind hsize]
  rfl

theorem parseChars_plain (hquote : c ≠ '"') (hbackslash : c ≠ '\\')
    (h : At buffer position (c :: input)) (fuel : ℕ) :
    parseChars buffer (fuel + 1) acc position =
      parseChars buffer fuel (acc ++ [c]) (position + 1) := by
  rw [parseChars, h.consume_bind hsize]
  simp only

/-- A string is read up to its closing quotation mark, or rejected. -/
theorem parseChars_cases (doubles : Doubles F) (decode : List Char → List Char) (acc : List Char)
    (h : At buffer position input) (hfuel : input.length < fuel) :
    (∃ body value rest, input = body ++ '"' :: rest ∧ Chars (lenient doubles) decode body value) ∨
    Rejects (parseChars buffer fuel acc position) := by
  induction fuel using Nat.strong_induction_on generalizing position input acc with
  | _ fuel ih =>
    obtain _ | fuel := fuel
    · omega
    cases input with
    | nil =>
      rw [parseChars, consume_bind_none h.getElem?]
      exact Or.inr rejects_fail
    | cons c input =>
      rw [length_cons] at hfuel
      obtain rfl | hquote := eq_or_ne c '"'
      · exact Or.inl ⟨[], [], input, rfl, .nil⟩
      obtain rfl | hbackslash := eq_or_ne c '\\'
      · rw [parseChars_backslash hsize acc h]
        cases input with
        | nil =>
          rw [consume_bind_none h.tail.getElem?]
          exact Or.inr rejects_fail
        | cons letter input =>
          rw [h.tail.consume_bind hsize, bind_some]
          cases hletter : unescape letter with
          | none => exact Or.inr rejects_fail
          | some c =>
            rw [length_cons] at hfuel
            refine (ih fuel (by omega) (acc ++ [c]) h.tail.tail (by omega)).imp_left ?_
            rintro ⟨body, value, rest, rfl, hchars⟩
            exact ⟨'\\' :: letter :: body, c :: value, rest, rfl, .escape hletter hchars⟩
      · rw [parseChars_plain hsize acc hquote hbackslash h]
        refine (ih fuel (by omega) (acc ++ [c]) h.tail (by omega)).imp_left ?_
        rintro ⟨body, value, rest, rfl, hchars⟩
        exact ⟨c :: body, c :: value, rest, rfl, .plain hquote hbackslash (Or.inl trivial) hchars⟩

/-! ## Arrays and objects -/

/-- The parser is behind the value it has read. -/
def Ends (buffer : List Char) (value : α) (rest : List Char) (run : Option (Except Failure α × ℕ)) :
    Prop :=
  ∃ position, At buffer position rest ∧ run = some (.ok value, position)

theorem parseOpen_cases (close : Char) (empty : Value F) (loop : Parsing (Value F))
    (h : At buffer position (c :: input)) (hfuel : input.length < fuel) :
    (∃ space rest, input = space ++ close :: rest ∧ Whitespace space ∧
      Ends buffer empty rest (parseOpen buffer fuel close empty loop position)) ∨
    ∃ space rest position', input = space ++ rest ∧ Whitespace space ∧
      (∀ c, rest.head? = some c → isWhitespace c = false) ∧ rest.head? ≠ some close ∧
      At buffer position' rest ∧ parseOpen buffer fuel close empty loop position =
        loop position' := by
  obtain ⟨space, rest, rfl, hspace, hrest, hskip⟩ := exists_skipWhitespace hsize h.tail hfuel
  have hat := h.tail.append
  by_cases hclose : rest.head? = some close
  · obtain ⟨rest, rfl⟩ : ∃ rest', rest = close :: rest' := head?_eq_some_iff.mp hclose
    refine Or.inl ⟨space, rest, rfl, hspace, _, hat.tail, ?_⟩
    rw [parseOpen, h.advance_bind hsize, bind_of_ok hskip, get_bind, hat.getElem?, if_pos hclose,
      hat.advance_bind hsize]
    rfl
  · refine Or.inr ⟨space, rest, _, rfl, hspace, hrest, hclose, hat, ?_⟩
    rw [parseOpen, h.advance_bind hsize, bind_of_ok hskip, get_bind, hat.getElem?, if_neg hclose]

theorem parseNext_cases (close : Char) (done : Value F) (loop : Parsing (Value F))
    (h : At buffer position input) {fuel : ℕ} (hfuel : input.length < fuel) :
    (∃ space rest, input = space ++ close :: rest ∧ Whitespace space ∧
      Ends buffer done rest (parseNext buffer fuel close done loop position)) ∨
    (∃ space space' rest position', input = space ++ ',' :: (space' ++ rest) ∧ Whitespace space ∧
      Whitespace space' ∧ (∀ c, rest.head? = some c → isWhitespace c = false) ∧
      At buffer position' rest ∧ parseNext buffer fuel close done loop position = loop position') ∨
    Rejects (parseNext buffer fuel close done loop position) := by
  obtain ⟨space, rest, rfl, hspace, -, hskip⟩ := exists_skipWhitespace hsize h hfuel
  have hat := h.append
  rw [parseNext, bind_of_ok hskip, get_bind, hat.getElem?]
  by_cases hclose : rest.head? = some close
  · obtain ⟨rest, rfl⟩ : ∃ rest', rest = close :: rest' := head?_eq_some_iff.mp hclose
    refine Or.inl ⟨space, rest, rfl, hspace, _, hat.tail, ?_⟩
    rw [if_pos hclose, hat.advance_bind hsize]
    rfl
  rw [if_neg hclose]
  by_cases hcomma : rest.head? = some ','
  · obtain ⟨rest, rfl⟩ : ∃ rest', rest = ',' :: rest' := head?_eq_some_iff.mp hcomma
    simp only [length_append, length_cons] at hfuel
    obtain ⟨space', rest, rfl, hspace', hrest, hskip'⟩ :=
      exists_skipWhitespace hsize hat.tail (show rest.length < fuel by omega)
    refine Or.inr (Or.inl ⟨space, space', rest, _, rfl, hspace, hspace', hrest,
      hat.tail.append, ?_⟩)
    rw [if_pos hcomma, hat.advance_bind hsize, bind_of_ok hskip']
  · rw [if_neg hcomma]
    exact Or.inr (Or.inr rejects_fail)

end

/-! ## Values -/

/-- The run is left by an exception. -/
def Throws (run : Option (Except Failure α × ℕ)) : Prop :=
  ∃ position, run = some (.error .outOfRange, position)

theorem Throws.bind (h : Throws (x position)) (f : α → Parsing β) :
    Throws ((x >>= f) position) := by
  obtain ⟨position', h⟩ := h
  exact ⟨position', bind_of_error h f⟩

variable (buffer) (doubles : Doubles F) (decode : List Char → List Char)

/-- How a run ends that reads what is found in front of the rest. -/
def Outcome (place : Place) (found : Value F → List Char → Prop) (input : List Char)
    (run : Option (Except Failure (Value F) × ℕ)) : Prop :=
  (∃ value rest, found value rest ∧ Ends buffer value rest run) ∨ Rejects run ∨
    (Reaches doubles decode place input ∧ Throws run)

def FoundValue (input : List Char) (value : Value F) (rest : List Char) : Prop :=
  ∃ text, input = text ++ rest ∧ Reads doubles decode (lenient doubles) text value

def FoundItems (array : List (Value F)) (input : List Char) (value : Value F) (rest : List Char) :
    Prop :=
  ∃ (first : Item F) (items : List (Item F)), first.before = [] ∧
    input = first.element ++ ((items.flatMap fun item ↦ ',' :: item.element) ++ ']' :: rest) ∧
    (∀ item ∈ first :: items, item.Spaced) ∧
    (∀ item ∈ first :: items, Reads doubles decode (lenient doubles) item.text item.value) ∧
    value = .array (array ++ (first :: items).map Item.value)

def FoundMembers (object : List (List Char × Value F)) (input : List Char) (value : Value F)
    (rest : List Char) : Prop :=
  ∃ (first : Member F) (members : List (Member F)), first.before = [] ∧
    input = first.element ++ ((members.flatMap fun member ↦ ',' :: member.element) ++ '}' :: rest) ∧
    (∀ member ∈ first :: members, member.Named (lenient doubles) decode) ∧
    (∀ member ∈ first :: members,
      Reads doubles decode (lenient doubles) member.item.text member.item.value) ∧
    value = .object ((first :: members).foldl
      (fun object member ↦ add object member.key member.item.value) object)

variable {buffer doubles decode}

theorem convert_eq_error {token : List Char} (h : ¬Convertible doubles token) :
    convert doubles token = .error .outOfRange := by
  unfold convert
  unfold Convertible at h
  split_ifs at h ⊢
  · rw [stod, if_neg h]
    rfl
  · rw [not_isSome_iff_eq_none.mp h]
    rfl

/-- The white space in front of the first item. -/
theorem FoundItems.array {input rest space : List Char} {value : Value F}
    (hspace : Whitespace space) (h : FoundItems doubles decode [] input value rest) :
    FoundValue doubles decode ('[' :: (space ++ input)) value rest := by
  obtain ⟨first, items, hbefore, rfl, hspaced, hreads, rfl⟩ := h
  have hfirst := hspaced first mem_cons_self
  refine ⟨_, ?_, @Reads.array _ _ _ _ { first with before := space } items
    (forall_mem_cons.mpr ⟨⟨hspace, hfirst.after⟩, (forall_mem_cons.mp hspaced).2⟩)
    (forall_mem_cons.mpr (forall_mem_cons.mp hreads))⟩
  simp [Item.element, hbefore]

theorem FoundItems.cons {array : List (Value F)} {item : Item F} {space input rest : List Char}
    {value : Value F} (hbefore : item.before = []) (hafter : Whitespace item.after)
    (hreads : Reads doubles decode (lenient doubles) item.text item.value)
    (hspace : Whitespace space)
    (h : FoundItems doubles decode (array ++ [item.value]) input value rest) :
    FoundItems doubles decode array (item.text ++ (item.after ++ ',' :: (space ++ input))) value
      rest := by
  obtain ⟨first, items, hbefore', rfl, hspaced, hreads', rfl⟩ := h
  have hfirst := hspaced first mem_cons_self
  refine ⟨item, { first with before := space } :: items, hbefore, ?_, ?_, ?_, ?_⟩
  · simp [Item.element, hbefore, hbefore']
  · exact forall_mem_cons.mpr ⟨⟨by simp [hbefore, Whitespace], hafter⟩,
      forall_mem_cons.mpr ⟨⟨hspace, hfirst.after⟩, (forall_mem_cons.mp hspaced).2⟩⟩
  · exact forall_mem_cons.mpr ⟨hreads, forall_mem_cons.mpr (forall_mem_cons.mp hreads')⟩
  · simp

theorem FoundMembers.object {rest space : List Char} {value : Value F}
    (hspace : Whitespace space) (hfirst : input.head? ≠ some '}')
    (h : FoundMembers doubles decode [] input value rest) :
    FoundValue doubles decode ('{' :: (space ++ input)) value rest := by
  obtain ⟨first, members, hbefore, rfl, hnamed, hreads, rfl⟩ := h
  have hname := hnamed first mem_cons_self
  refine ⟨_, ?_, @Reads.object _ _ _ _ { first with before := space } members ?_
    (forall_mem_cons.mpr ⟨{ hname with before := hspace }, (forall_mem_cons.mp hnamed).2⟩)
    (forall_mem_cons.mpr (forall_mem_cons.mp hreads))⟩
  · simp [Member.element, Member.body, hbefore]
  · intro hquote
    exact hfirst (by simpa [Member.element, Member.body, hbefore] using hquote)

theorem FoundMembers.cons {object : List (List Char × Value F)} {member : Member F}
    {space input rest : List Char} {value : Value F} (hbefore : member.before = [])
    (hnamed : member.Named (lenient doubles) decode)
    (hreads : Reads doubles decode (lenient doubles) member.item.text member.item.value)
    (hspace : Whitespace space)
    (h : FoundMembers doubles decode (add object member.key member.item.value) input value rest) :
    FoundMembers doubles decode object (member.body ++ ',' :: (space ++ input)) value rest := by
  obtain ⟨first, members, hbefore', rfl, hnamed', hreads', rfl⟩ := h
  have hname := hnamed' first mem_cons_self
  refine ⟨member, { first with before := space } :: members, hbefore, ?_, ?_, ?_, ?_⟩
  · simp [Member.element, Member.body, hbefore, hbefore']
  · exact forall_mem_cons.mpr ⟨hnamed, forall_mem_cons.mpr
      ⟨{ hname with before := hspace }, (forall_mem_cons.mp hnamed').2⟩⟩
  · exact forall_mem_cons.mpr ⟨hreads, forall_mem_cons.mpr (forall_mem_cons.mp hreads')⟩
  · simp

section

variable (hsize : buffer.length + 1 < 2 ^ 32)
include hsize

omit hsize in
theorem Outcome.of_found {text rest : List Char} {value : Value F}
    {run : Option (Except Failure (Value F) × ℕ)} (hinput : input = text ++ rest)
    (hreads : Reads doubles decode (lenient doubles) text value) (h : At buffer position input)
    (hrun : run = some (.ok value, position + text.length)) :
    Outcome buffer doubles decode .value (FoundValue doubles decode input) input run := by
  subst hinput
  exact Or.inl ⟨value, rest, ⟨text, rfl, hreads⟩, _, h.append, hrun⟩

variable {fuel : ℕ}

theorem outcome_parseNumber {c : Char} (hc : c = '-' ∨ c.isDigit = true)
    (h : At buffer position (c :: input)) (hfuel : input.length + 1 < fuel) :
    Outcome buffer doubles decode .value (FoundValue doubles decode (c :: input)) (c :: input)
      (parseNumber buffer doubles fuel position) := by
  have hsize' : buffer.length < 2 ^ 32 := by omega
  obtain ⟨sign, digits, fraction, rest, heq, hsign, hdigits, hfraction, hstops⟩ | hrejects :=
    parseNumber_cases hsize' hc h hfuel
  · have hlength := congrArg List.length heq
    simp only [length_cons, length_append] at hlength
    rw [heq] at h
    have hrun := parseNumber_eq hsize' hsign hdigits hfraction hstops h
      (show digits.length + fraction.length < fuel by omega)
    by_cases hconvertible : Convertible doubles (sign ++ digits ++ fraction)
    · rw [convert_eq_ok hsign hdigits hfraction hconvertible] at hrun
      have hnumber : Number (lenient doubles) sign digits fraction [] :=
        ⟨hsign, ⟨hdigits, Or.inl trivial⟩, hfraction, Or.inl rfl, by rwa [append_nil]⟩
      have hreads : Reads doubles decode (lenient doubles) _ _ := .number hnumber
      rw [append_nil] at hreads
      rw [heq]
      exact Outcome.of_found rfl hreads h hrun
    · rw [convert_eq_error hconvertible] at hrun
      refine Or.inr (Or.inr ⟨?_, _, hrun⟩)
      rw [heq]
      exact .number hsign hdigits hfraction hstops hconvertible
  · exact Or.inr (Or.inl hrejects)

theorem outcome_parseItems {array : List (Value F)} (h : At buffer position input) {fuel : ℕ}
    (hfuel : 2 * input.length + 3 < fuel + 1)
    (hvalue : Outcome buffer doubles decode .value (FoundValue doubles decode input) input
      (parseValue buffer doubles fuel position))
    (hitems : ∀ {position' input'} (array : List (Value F)), At buffer position' input' →
      2 * input'.length + 3 < fuel → Outcome buffer doubles decode .items
        (FoundItems doubles decode array input') input'
        (parseItems buffer doubles fuel array position')) :
    Outcome buffer doubles decode .items (FoundItems doubles decode array input) input
      (parseItems buffer doubles (fuel + 1) array position) := by
  have hsize' : buffer.length < 2 ^ 32 := by omega
  rw [parseItems]
  obtain ⟨value, rest, ⟨text, rfl, hreads⟩, position', hat, hrun⟩ | hrejects |
    ⟨hreaches, hthrows⟩ :=
    hvalue
  · rw [length_append] at hfuel
    rw [bind_of_ok hrun]
    obtain ⟨after, rest, rfl, hafter, hend⟩ |
        ⟨after, space, rest, position'', rfl, hafter, hspace, -, hat', hrun'⟩ | hrejects :=
      parseNext_cases hsize' ']' (.array (array ++ [value]))
        (parseItems buffer doubles fuel (array ++ [value])) hat (show rest.length < fuel by omega)
    · refine Or.inl ⟨_, rest, ⟨⟨[], text, value, after⟩, [], rfl, ?_, ?_, ?_, rfl⟩, hend⟩
      · simp [Item.element]
      · exact forall_mem_singleton.mpr ⟨by simp [Whitespace], hafter⟩
      · exact forall_mem_singleton.mpr hreads
    · rw [hrun']
      simp only [length_append, length_cons] at hfuel
      have hmore := hitems (array ++ [value]) hat' (by omega)
      obtain ⟨value', rest', hfound, hend⟩ | hrejects | ⟨hreaches, hthrows⟩ := hmore
      · exact Or.inl ⟨value', rest', @FoundItems.cons _ _ _ _ ⟨[], text, value, after⟩ _ _ _ _
          rfl hafter hreads hspace hfound, hend⟩
      · exact Or.inr (Or.inl hrejects)
      · exact Or.inr (Or.inr ⟨@Reaches.item _ _ _ ⟨[], text, value, after⟩ _ _ hreads hafter
          hspace hreaches, hthrows⟩)
    · exact Or.inr (Or.inl hrejects)
  · exact Or.inr (Or.inl (hrejects.bind _))
  · exact Or.inr (Or.inr ⟨.first hreaches, hthrows.bind _⟩)

/-- A name is read up to the value behind it, or rejected. -/
theorem parseMembers_cases (doubles : Doubles F) (decode : List Char → List Char)
    (object : List (List Char × Value F))
    (hhead : ∀ c, input.head? = some c → isWhitespace c = false) (h : At buffer position input)
    (hfuel : input.length < fuel) :
    (∃ quote name key behindName before rest position', input = quote :: (name ++ '"' ::
        (behindName ++ ':' :: (before ++ rest))) ∧ isWhitespace quote = false ∧
      Chars (lenient doubles) decode name key ∧ Whitespace behindName ∧ Whitespace before ∧
      At buffer position' rest ∧ parseMembers buffer doubles (fuel + 1) object position =
        (parseValue buffer doubles fuel >>= fun value ↦
          parseNext buffer fuel '}' (.object (add object key value))
            (parseMembers buffer doubles fuel (add object key value))) position') ∨
    Rejects (parseMembers buffer doubles (fuel + 1) object position) := by
  have hsize' : buffer.length < 2 ^ 32 := by omega
  rw [parseMembers]
  cases input with
  | nil =>
    -- The first quotation mark is not looked for.
    have hle := h.length
    rw [length_nil, Nat.add_zero] at hle
    have hnone : buffer[position + 1]? = none := getElem?_eq_none (by omega)
    have hchars : ∀ fuel, 0 < fuel → Rejects (parseChars buffer fuel [] (position + 1)) := by
      intro fuel hfuel
      obtain _ | fuel := fuel
      · omega
      rw [parseChars, consume_bind_none hnone]
      exact rejects_fail
    refine Or.inr (Rejects.bind ?_ _)
    rw [parseStringRaw, advance_bind (by omega)]
    exact hchars fuel (by simpa using hfuel)
  | cons quote input =>
    rw [length_cons] at hfuel
    obtain ⟨name, key, rest, rfl, hchars⟩ | hrejects :=
      parseChars_cases hsize' doubles decode [] h.tail (show input.length < fuel by omega)
    · simp only [length_append, length_cons] at hfuel
      have hrun := parseStringRaw_eq hsize' hchars h (show name.length < fuel by omega)
      have hat := h.tail.append.tail
      rw [show position + 1 + name.length + 1 = position + (name.length + 2) by omega] at hat
      rw [bind_of_ok hrun]
      obtain ⟨behindName, rest, rfl, hbehind, -, hskip⟩ :=
        exists_skipWhitespace hsize' hat (show rest.length < fuel by omega)
      have hat' := hat.append
      rw [bind_of_ok hskip, get_bind, hat'.getElem?]
      by_cases hcolon : rest.head? = some ':'
      · obtain ⟨rest, rfl⟩ : ∃ rest', rest = ':' :: rest' := head?_eq_some_iff.mp hcolon
        simp only [length_append, length_cons] at hfuel
        obtain ⟨before, rest, rfl, hbefore, -, hskip'⟩ :=
          exists_skipWhitespace hsize' hat'.tail (show rest.length < fuel by omega)
        refine Or.inl ⟨quote, name, key, behindName, before, rest, _, rfl, hhead quote rfl, hchars,
          hbehind, hbefore, hat'.tail.append, ?_⟩
        rw [if_pos hcolon, hat'.advance_bind hsize', bind_of_ok hskip']
      · rw [if_neg hcolon]
        exact Or.inr rejects_fail
    · refine Or.inr (Rejects.bind ?_ _)
      rw [parseStringRaw, h.advance_bind hsize']
      exact hrejects

theorem outcome_parseMembers {object : List (List Char × Value F)}
    (hhead : ∀ c, input.head? = some c → isWhitespace c = false) (h : At buffer position input)
    (hfuel : 2 * input.length + 3 < fuel + 1)
    (hvalue : ∀ {position' input'}, At buffer position' input' → 2 * input'.length + 2 < fuel →
      Outcome buffer doubles decode .value (FoundValue doubles decode input') input'
        (parseValue buffer doubles fuel position'))
    (hmembers : ∀ {position' input'} (object : List (List Char × Value F)),
      (∀ c, input'.head? = some c → isWhitespace c = false) → At buffer position' input' →
      2 * input'.length + 3 < fuel → Outcome buffer doubles decode .members
        (FoundMembers doubles decode object input') input'
        (parseMembers buffer doubles fuel object position')) :
    Outcome buffer doubles decode .members (FoundMembers doubles decode object input) input
      (parseMembers buffer doubles (fuel + 1) object position) := by
  have hsize' : buffer.length < 2 ^ 32 := by omega
  obtain ⟨quote, name, key, behindName, before, rest, position', rfl, hquote, hchars, hbehind,
      hbefore, hat, hrun⟩ | hrejects :=
    parseMembers_cases hsize doubles decode object hhead h (show input.length < fuel by omega)
  · rw [hrun]
    simp only [length_append, length_cons] at hfuel
    have hname : ∀ text value after, Whitespace after → (⟨[], quote, name, key, behindName,
        ⟨before, text, value, after⟩⟩ : Member F).Named (lenient doubles) decode :=
      fun _ _ _ hafter ↦ ⟨by simp [Whitespace], Or.inr ⟨trivial, hquote⟩, hchars, hbehind, hbefore,
        hafter⟩
    obtain ⟨value, rest, ⟨text, rfl, hreads⟩, position'', hat', hrun'⟩ | hrejects |
        ⟨hreaches, hthrows⟩ := hvalue hat (by omega)
    · rw [length_append] at hfuel
      rw [bind_of_ok hrun']
      obtain ⟨after, rest, rfl, hafter, hend⟩ |
          ⟨after, space, rest, _, rfl, hafter, hspace, hhead', hat'', hrun''⟩ | hrejects :=
        parseNext_cases hsize' '}' (.object (add object key value))
          (parseMembers buffer doubles fuel (add object key value)) hat'
          (show rest.length < fuel by omega)
      · refine Or.inl ⟨_, rest, ⟨⟨[], quote, name, key, behindName,
          ⟨before, text, value, after⟩⟩, [],
          rfl, ?_, forall_mem_singleton.mpr (hname text value after hafter),
          forall_mem_singleton.mpr hreads, rfl⟩, hend⟩
        simp [Member.element, Member.body, Item.element]
      · rw [hrun'']
        simp only [length_append, length_cons] at hfuel
        have hmore := hmembers (add object key value) hhead' hat'' (by omega)
        have hnamed := hname text value after hafter
        have hinput : quote :: (name ++ '"' :: (behindName ++ ':' :: (before ++ (text ++ (after ++
            ',' :: (space ++ rest)))))) = (⟨[], quote, name, key, behindName,
              ⟨before, text, value, after⟩⟩ : Member F).body ++ ',' :: (space ++ rest) := by
          simp [Member.body, Item.element]
        rw [hinput]
        obtain ⟨value', rest', hfound, hend⟩ | hrejects | ⟨hreaches, hthrows⟩ := hmore
        · exact Or.inl ⟨value', rest', .cons rfl hnamed hreads hspace hfound, hend⟩
        · exact Or.inr (Or.inl hrejects)
        · exact Or.inr (Or.inr ⟨.member hnamed hreads hspace hreaches, hthrows⟩)
      · exact Or.inr (Or.inl hrejects)
    · exact Or.inr (Or.inl (hrejects.bind _))
    · have hnamed := hname [] .null [] (by simp [Whitespace])
      exact Or.inr (Or.inr ⟨.named hnamed hreaches, hthrows.bind _⟩)
  · exact Or.inr (Or.inl hrejects)

theorem outcome_parseValue (h : At buffer position input)
    (hfuel : 2 * input.length + 2 < fuel + 1)
    (hitems : ∀ {position' input'} (array : List (Value F)), At buffer position' input' →
      2 * input'.length + 3 < fuel → Outcome buffer doubles decode .items
        (FoundItems doubles decode array input') input'
        (parseItems buffer doubles fuel array position'))
    (hmembers : ∀ {position' input'} (object : List (List Char × Value F)),
      (∀ c, input'.head? = some c → isWhitespace c = false) → At buffer position' input' →
      2 * input'.length + 3 < fuel → Outcome buffer doubles decode .members
        (FoundMembers doubles decode object input') input'
        (parseMembers buffer doubles fuel object position')) :
    Outcome buffer doubles decode .value (FoundValue doubles decode input) input
      (parseValue buffer doubles (fuel + 1) position) := by
  have hsize' : buffer.length < 2 ^ 32 := by omega
  rw [parseValue, get_bind, h.getElem?]
  cases input with
  | nil => exact Or.inr (Or.inl rejects_fail)
  | cons c input =>
    rw [length_cons] at hfuel
    -- The three words.
    have hkeyword : ∀ (keyword : List Char) (value : Value F),
        Reads doubles decode (lenient doubles) keyword value →
        Outcome buffer doubles decode .value (FoundValue doubles decode (c :: input)) (c :: input)
          (parseKeyword buffer keyword value position) := by
      intro keyword value hreads
      obtain ⟨rest, heq⟩ | hrejects := parseKeyword_cases keyword value h
      · exact Outcome.of_found heq hreads h (parseKeyword_eq hsize' value (heq ▸ h))
      · exact Or.inr (Or.inl hrejects)
    dsimp only [head?_cons]
    split_ifs with hn hf ht hnumber hquote harray hobject
    · exact hkeyword _ _ .null
    · exact hkeyword _ _ .boolFalse
    · exact hkeyword _ _ .boolTrue
    · exact outcome_parseNumber hsize hnumber h (by omega)
    · subst hquote
      obtain ⟨body, value, rest, rfl, hchars⟩ | hrejects :=
        parseChars_cases hsize' doubles decode [] h.tail (show input.length < fuel by omega)
      · simp only [length_append, length_cons] at hfuel
        have hrun := parseStringRaw_eq hsize' hchars h (show body.length < fuel by omega)
        have hinput : '"' :: (body ++ '"' :: rest) = '"' :: (body ++ ['"']) ++ rest := by simp
        refine Outcome.of_found hinput (.string hchars) h ((bind_of_ok hrun _).trans ?_)
        rw [length_cons, length_append, length_singleton]
        rfl
      · refine Or.inr (Or.inl (Rejects.bind ?_ _))
        rw [parseStringRaw, h.advance_bind hsize']
        exact hrejects
    · subst harray
      obtain ⟨space, rest, rfl, hspace, hend⟩ |
          ⟨space, rest, position', rfl, hspace, -, -, hat, hrun⟩ :=
        parseOpen_cases hsize' ']' (.array []) (parseItems buffer doubles fuel []) h
          (show input.length < fuel by omega)
      · exact Or.inl ⟨_, rest, ⟨_, by simp, .emptyArray hspace⟩, hend⟩
      · rw [hrun]
        rw [length_append] at hfuel
        obtain ⟨value, rest', hfound, hend⟩ | hrejects | ⟨hreaches, hthrows⟩ :=
          hitems [] hat (by omega)
        · exact Or.inl ⟨value, rest', hfound.array hspace, hend⟩
        · exact Or.inr (Or.inl hrejects)
        · exact Or.inr (Or.inr ⟨.array hspace hreaches, hthrows⟩)
    · subst hobject
      obtain ⟨space, rest, rfl, hspace, hend⟩ |
          ⟨space, rest, position', rfl, hspace, hhead, hfirst, hat, hrun⟩ :=
        parseOpen_cases hsize' '}' (.object []) (parseMembers buffer doubles fuel []) h
          (show input.length < fuel by omega)
      · exact Or.inl ⟨_, rest, ⟨_, by simp, .emptyObject hspace⟩, hend⟩
      · rw [hrun]
        rw [length_append] at hfuel
        obtain ⟨value, rest', hfound, hend⟩ | hrejects | ⟨hreaches, hthrows⟩ :=
          hmembers [] hhead hat (by omega)
        · exact Or.inl ⟨value, rest', hfound.object hspace hfirst, hend⟩
        · exact Or.inr (Or.inl hrejects)
        · exact Or.inr (Or.inr ⟨.object hspace hfirst hreaches, hthrows⟩)
    · exact Or.inr (Or.inl rejects_fail)

/-- Whatever stands in the buffer, the parser reads a value, rejects the text or throws. -/
theorem outcome (fuel : ℕ) :
    (∀ {position input}, At buffer position input → 2 * input.length + 2 < fuel →
      Outcome buffer doubles decode .value (FoundValue doubles decode input) input
        (parseValue buffer doubles fuel position)) ∧
    (∀ {position input} (array : List (Value F)), At buffer position input →
      2 * input.length + 3 < fuel → Outcome buffer doubles decode .items
        (FoundItems doubles decode array input) input
        (parseItems buffer doubles fuel array position)) ∧
    ∀ {position input} (object : List (List Char × Value F)),
      (∀ c, input.head? = some c → isWhitespace c = false) → At buffer position input →
      2 * input.length + 3 < fuel → Outcome buffer doubles decode .members
        (FoundMembers doubles decode object input) input
        (parseMembers buffer doubles fuel object position) := by
  induction fuel with
  | zero => exact ⟨fun _ hfuel ↦ by omega, fun _ _ hfuel ↦ by omega, fun _ _ _ hfuel ↦ by omega⟩
  | succ fuel ih =>
    obtain ⟨hvalue, hitems, hmembers⟩ := ih
    refine ⟨fun hat hfuel ↦ ?_, fun array hat hfuel ↦ ?_, fun object hhead hat hfuel ↦ ?_⟩
    · exact outcome_parseValue hsize hat hfuel hitems hmembers
    · exact outcome_parseItems hsize hat hfuel (hvalue hat (by omega)) hitems
    · exact outcome_parseMembers hsize hhead hat hfuel hvalue hmembers

end

end Banjo.JSON
