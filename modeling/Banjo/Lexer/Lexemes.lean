import Banjo.Lexer.Lossless

/-!
# Lexing what is written

A text of tokens with a blank between any two of them is read as these tokens, and two that would be
glued together without the blank are not.
-/

open List

namespace Banjo.Lexer

open TokenType

/-- A token as it is written. -/
structure Lexeme where
  type : TokenType
  text : List Char
  deriving DecidableEq, Repr

def Lexeme.ofToken (token : Token) : Lexeme := ⟨token.type, token.value⟩

/-- The text ends, or goes on with a blank. -/
def Stops (after : List Char) : Prop := after = [] ∨ ∃ rest, after = ' ' :: rest

/-- Where it stops, the text is read as one token of the type. -/
inductive IsToken : Lexeme → Prop
  | name {c : Char} {rest : List Char} : isIdentifierStartChar c = true →
      rest.all isIdentifierChar = true →
      IsToken ⟨(KEYWORDS.lookup (String.ofList (c :: rest))).getD TKN_IDENTIFIER, c :: rest⟩
  | number {c : Char} {rest : List Char} : isNumberStartChar c = true →
      numberLength (c :: rest) = rest.length + 1 → IsToken ⟨TKN_LITERAL, c :: rest⟩
  | character {rest : List Char} : closes '\'' rest = true →
      literalLength '\'' rest = rest.length → IsToken ⟨TKN_CHARACTER, '\'' :: rest⟩
  | string {rest : List Char} : closes '"' rest = true →
      literalLength '"' rest = rest.length → IsToken ⟨TKN_STRING, '"' :: rest⟩
  | punctuation {c : Char} {rest : List Char} {type : TokenType} :
      (∀ after, Stops after → punctuation c ((rest ++ after).getD 0 EOF_CHAR)
        ((rest ++ after).getD 1 EOF_CHAR) = some (type, rest.length + 1)) →
      IsToken ⟨type, c :: rest⟩

/-- Tokens with a blank in front of each of them. -/
def spaced (ls : List Lexeme) : List Char := ls.flatMap fun l ↦ ' ' :: l.text

/-- Tokens with a blank between any two of them. -/
def written : List Lexeme → List Char
  | [] => []
  | l :: ls => l.text ++ spaced ls

theorem stops_spaced (ls : List Lexeme) : Stops (spaced ls) := by
  cases ls with
  | nil => exact .inl rfl
  | cons l ls => exact .inr ⟨l.text ++ spaced ls, rfl⟩

/-! ## Where the parts of a text stop -/

section Stop

variable {after : List Char}

variable {xs : List Char}

theorem takeWhile_append_of_stops {p : Char → Bool} (hp : p ' ' = false)
    (hxs : xs.all p = true) (h : Stops after) : (xs ++ after).takeWhile p = xs := by
  rw [takeWhile_append_of_pos (all_eq_true.mp hxs)]
  obtain rfl | ⟨rest, rfl⟩ := h
  · rw [takeWhile_nil, append_nil]
  · rw [takeWhile_cons_of_neg (by simp [hp]), append_nil]

/-- A number that is all of a text is one in front of a blank, too. -/
theorem numberLength_append (hxs : numberLength xs = xs.length) (h : Stops after) :
    numberLength (xs ++ after) = xs.length := by
  induction xs with
  | nil =>
    obtain rfl | ⟨rest, rfl⟩ := h
    · rfl
    · rfl
  | cons c xs ih =>
    rw [numberLength, length_cons] at hxs
    split_ifs at hxs with hc
    have hdots : ¬(c = '.' ∧ (xs ++ after).head? = some '.') := by
      rintro ⟨rfl, hhead⟩
      cases xs with
      | nil => obtain rfl | ⟨rest, rfl⟩ := h <;> cases hhead
      | cons d xs => exact hc (by simpa using .inr (Option.some.inj hhead))
    simp only [Bool.or_eq_true, Bool.and_eq_true, decide_eq_true_eq, not_or] at hc hdots
    rw [cons_append, numberLength,
      if_neg (by simpa using ⟨by simpa using hc.1, by simpa using hdots⟩), ih (by omega),
      length_cons]

/-- A closed literal does not look at what is behind it. -/
theorem literalLength_append {terminator : Char} (hxs : closes terminator xs = true)
    (after : List Char) : literalLength terminator (xs ++ after) = literalLength terminator xs := by
  fun_induction closes terminator xs with
  | case1 => cases hxs
  | case2 rest => cases hxs
  | case3 hc => cases hxs
  | case4 escaped rest hc ih =>
    rw [Bool.and_eq_true, decide_eq_true_eq] at hxs
    rw [cons_append, cons_append, literalLength.eq_def,
      literalLength.eq_def terminator ('\\' :: escaped :: rest)]
    simp only [if_neg hc, if_neg hxs.1, if_true, ih hxs.2]
  | case5 c rest hc hq ih =>
    rw [Bool.or_eq_true, decide_eq_true_eq] at hxs
    rw [cons_append, literalLength.eq_def, literalLength.eq_def terminator (c :: rest)]
    simp only [if_neg hc, if_neg hq]
    split_ifs with hterm
    · rfl
    · rw [ih (hxs.resolve_left hterm)]

/-- What starts punctuation starts nothing else. -/
theorem readers_of_punctuation {c next second : Char} {token : TokenType × ℕ}
    (h : punctuation c next second = some token) : c ≠ EOF_CHAR ∧ isWhitespaceChar c = false ∧
      isIdentifierStartChar c = false ∧ isNumberStartChar c = false ∧ c ≠ '\'' ∧ c ≠ '"' ∧
      c ≠ '#' := by
  unfold punctuation at h
  split at h <;> first | decide | cases h

end Stop

/-! ## Reading a text -/

section Read

variable {options : Options} {text : List Char} {st : State}

/-- What is left of the text. -/
def Left (text : List Char) (st : State) (rest : List Char) : Prop := text.drop st.position = rest

theorem Left.charAt {rest : List Char} (h : Left text st rest) (offset : ℕ) :
    charAt text (st.position + offset) = rest.getD offset EOF_CHAR := by
  rw [Lexer.charAt, ← h, getD_eq_getElem?_getD, getD_eq_getElem?_getD, getElem?_drop]

variable {after front : List Char}

theorem Left.value (h : Left text st (front ++ after)) :
    value text st.position (st.position + front.length) = front := by
  refine ext_getElem (by simp) fun i hi hi' ↦ ?_
  simp only [Lexer.value, getElem_map, getElem_range', Nat.one_mul]
  rw [h.charAt, getD_append _ _ _ _ hi', getD_eq_getElem _ _ hi']

theorem Left.drop (h : Left text st (front ++ after)) :
    text.drop (st.position + front.length) = after := by
  rw [← drop_drop, h, drop_left]

/-- A reader that finishes a token of the characters in front of the rest. -/
theorem Left.finishToken (h : Left text st (front ++ after))
    (type : TokenType) {st' : State} (hst' : st' = finishToken options text st.position type
      { st with position := st.position + front.length }) :
    st'.tokens.map Lexeme.ofToken = st.tokens.map Lexeme.ofToken ++ [⟨type, front⟩] ∧
      Left text st' after := by
  subst hst'
  refine ⟨?_, h.drop⟩
  rw [Lexer.finishToken, map_append, map_singleton, Lexeme.ofToken]
  dsimp only
  rw [h.value]

/-- Nothing is inserted without a completion point. -/
theorem step_eq (hcompletion : options.completionPoint = none) :
    step options text st = readToken options text st := by
  rw [step, tryInsertCompletionToken, hcompletion]

variable {c : Char}

/-- A class of characters without those. -/
theorem ne_of_class {p : Char → Bool} (hp : [' ', '\n', '\r', '\t', EOF_CHAR].all fun c ↦ !p c)
    (hc : p c = true) : c ≠ EOF_CHAR ∧ isWhitespaceChar c = false := by
  have hne : c ∉ [' ', '\n', '\r', '\t', EOF_CHAR] := by
    intro hmem
    have := all_eq_true.mp hp c hmem
    rw [hc] at this
    cases this
  simp only [mem_cons, not_or] at hne
  simp [isWhitespaceChar, hne]

variable {l : Lexeme}

theorem IsToken.head (h : IsToken l) :
    ∃ c rest, l.text = c :: rest ∧ c ≠ EOF_CHAR ∧ isWhitespaceChar c = false := by
  cases h with
  | name hc _ => exact ⟨_, _, rfl, ne_of_class (by decide) hc⟩
  | number hc _ => exact ⟨_, _, rfl, ne_of_class (by decide) hc⟩
  | character => exact ⟨_, _, rfl, by decide, by decide⟩
  | string => exact ⟨_, _, rfl, by decide, by decide⟩
  | punctuation h =>
    obtain ⟨heof, hblank, -⟩ := readers_of_punctuation (h [] (.inl rfl))
    exact ⟨_, _, rfl, heof, hblank⟩

theorem isIdentifierStartChar_of_number (hc : isNumberStartChar c = true) :
    isIdentifierStartChar c = false := by
  have hne : c ≠ '_' := by
    rintro rfl
    cases hc
  simp [isNumberStartChar, Char.le_def, UInt32.le_iff_toNat_le] at hc
  simp [isIdentifierStartChar, Char.le_def, UInt32.le_iff_toNat_le, hne]
  omega

theorem isIdentifierChar_of_start (hc : isIdentifierStartChar c = true) :
    isIdentifierChar c = true := by
  simp only [isIdentifierStartChar, isIdentifierChar, Bool.or_eq_true] at hc ⊢
  tauto

/-- A turn at a token reads it. -/
theorem step_token (hcompletion : options.completionPoint = none) (hl : IsToken l)
    (hafter : Stops after) (h : Left text st (l.text ++ after)) :
    (step options text st).tokens.map Lexeme.ofToken = st.tokens.map Lexeme.ofToken ++ [l] ∧
      Left text (step options text st) after := by
  rw [step_eq hcompletion]
  have hchar := h.charAt
  obtain ⟨type, front⟩ := l
  obtain ⟨c, rest, rfl, -, hblank⟩ := hl.head
  have hc : charAt text st.position = c := hchar 0
  suffices hread : readToken options text st = finishToken options text st.position type
      { st with position := st.position + (c :: rest).length } by
    exact h.finishToken type hread
  rw [readToken, hc, if_neg (Bool.eq_false_iff.mp hblank)]
  cases hl with
  | name hstart hrest =>
    have hall : (c :: rest).all isIdentifierChar = true := by
      rw [all_cons, isIdentifierChar_of_start hstart, hrest]
      rfl
    rw [if_pos hstart, readIdentifier, h, takeWhile_append_of_stops (by decide) hall hafter]
  | number hstart hlength =>
    have hnot := isIdentifierStartChar_of_number hstart
    rw [if_neg (Bool.eq_false_iff.mp hnot), if_pos hstart, readNumber, h,
      numberLength_append hlength hafter]
  | character hclosed hlength =>
    rw [if_neg (by decide), if_neg (by decide), if_pos rfl, readCharOrString, ← drop_drop, h,
      cons_append, drop_one, tail_cons, literalLength_append hclosed, hlength,
      length_cons, Nat.add_assoc, Nat.add_comm 1]
  | string hclosed hlength =>
    rw [if_neg (by decide), if_neg (by decide), if_neg (by decide), if_pos rfl, readCharOrString,
      ← drop_drop, h, cons_append, drop_one, tail_cons,
      literalLength_append hclosed, hlength, length_cons, Nat.add_assoc, Nat.add_comm 1]
  | punctuation hpunctuation =>
    have hread := hpunctuation after hafter
    obtain ⟨-, -, hidentifier, hnumber, hquote, hdoubleQuote, hhash⟩ := readers_of_punctuation hread
    rw [if_neg (Bool.eq_false_iff.mp hidentifier), if_neg (Bool.eq_false_iff.mp hnumber),
      if_neg hquote, if_neg hdoubleQuote, if_neg hhash, readPunctuation, hc]
    have hnext : charAt text (st.position + 1) = (rest ++ after).getD 0 EOF_CHAR := hchar 1
    have hsecond : charAt text (st.position + 2) = (rest ++ after).getD 1 EOF_CHAR := hchar 2
    rw [hnext, hsecond, hread]
    rfl

/-- A turn at a blank passes it. -/
theorem step_blank (hcompletion : options.completionPoint = none)
    (hc : isWhitespaceChar c = false) (h : Left text st (' ' :: c :: after)) :
    (step options text st).tokens = st.tokens ∧ Left text (step options text st) (c :: after) := by
  have hblank : (' ' :: c :: after).takeWhile isWhitespaceChar = [' '] := by
    rw [takeWhile_cons_of_pos (by decide), takeWhile_cons_of_neg (Bool.eq_false_iff.mp hc)]
  have hchar : charAt text st.position = ' ' := h.charAt 0
  have hdrop : text.drop (st.position + 1) = c :: after := by
    rw [← drop_drop, h]
    rfl
  rw [step_eq hcompletion, readToken, hchar, if_pos (by decide), readWhitespace, h, hblank,
    if_neg (by decide), attachToken]
  split_ifs
  · exact ⟨rfl, hdrop⟩
  · exact ⟨rfl, hdrop⟩

theorem loop_nil (h : Left text st []) (fuel : ℕ) : loop options text fuel st = st := by
  cases fuel with
  | zero => rfl
  | succ fuel =>
    have heof : charAt text st.position = EOF_CHAR := h.charAt 0
    rw [loop, if_pos heof]

variable {fuel : ℕ} {ls : List Lexeme}

/-- Two turns for every blank with a token behind it. -/
theorem loop_spaced (hcompletion : options.completionPoint = none)
    (hls : ∀ l ∈ ls, IsToken l) (hfuel : (spaced ls).length ≤ fuel)
    (h : Left text st (spaced ls)) : (loop options text fuel st).tokens.map Lexeme.ofToken
      = st.tokens.map Lexeme.ofToken ++ ls := by
  induction ls generalizing st fuel with
  | nil => rw [loop_nil h, append_nil]
  | cons l ls ih =>
    have hl := hls l mem_cons_self
    obtain ⟨c, rest, htext, hc, hblank⟩ := hl.head
    have hspaced : spaced (l :: ls) = ' ' :: (l.text ++ spaced ls) := rfl
    rw [hspaced, length_cons, length_append] at hfuel
    rw [hspaced] at h
    have hlength : 0 < l.text.length := by
      rw [htext]
      exact Nat.succ_pos _
    obtain ⟨fuel, rfl⟩ : ∃ n, fuel = n + 2 := Nat.exists_eq_add_of_le' (by omega)
    have hfront : l.text ++ spaced ls = c :: (rest ++ spaced ls) := by
      rw [htext]
      rfl
    rw [hfront] at h
    obtain ⟨htokens, hleft⟩ := step_blank hcompletion hblank h
    rw [← hfront] at hleft
    obtain ⟨hread, hafter⟩ := step_token hcompletion hl (stops_spaced ls) hleft
    have hspace : charAt text st.position = ' ' := h.charAt 0
    have hfirst : charAt text (step options text st).position = c := by
      rw [htext] at hleft
      exact hleft.charAt 0
    rw [loop, hspace, if_neg (by decide), loop, hfirst, if_neg hc,
      ih (fun l hl ↦ hls l (mem_cons_of_mem _ hl)) (by omega) hafter, hread, htokens, append_assoc]
    rfl

theorem loop_written (hcompletion : options.completionPoint = none)
    (hls : ∀ l ∈ ls, IsToken l) (hfuel : (written ls).length ≤ fuel)
    (h : Left text st (written ls)) : (loop options text fuel st).tokens.map Lexeme.ofToken
      = st.tokens.map Lexeme.ofToken ++ ls := by
  cases ls with
  | nil => rw [loop_nil h, append_nil]
  | cons l ls =>
    have hl := hls l mem_cons_self
    obtain ⟨c, rest, htext, hc, -⟩ := hl.head
    have hwritten : written (l :: ls) = l.text ++ spaced ls := rfl
    rw [hwritten, htext, length_append, length_cons] at hfuel
    rw [hwritten] at h
    obtain ⟨fuel, rfl⟩ : ∃ n, fuel = n + 1 := Nat.exists_eq_add_of_le' (by omega)
    obtain ⟨hread, hafter⟩ := step_token hcompletion hl (stops_spaced ls) h
    have hfirst : charAt text st.position = c := by
      rw [htext] at h
      exact h.charAt 0
    rw [loop, hfirst, if_neg hc,
      loop_spaced hcompletion (fun l hl ↦ hls l (mem_cons_of_mem _ hl)) (by omega) hafter,
      hread, append_assoc]
    rfl

end Read

variable (options : Options)

theorem map_ofToken_finishLine (st : State) :
    (finishLine options st).tokens.map Lexeme.ofToken = st.tokens.map Lexeme.ofToken := by
  rw [finishLine]
  split_ifs
  · rcases eq_nil_or_concat st.tokens with heq | ⟨front, token, heq⟩
    · rw [heq]
      rfl
    · simp only [heq, concat_eq_append, modifyBack_append, map_append]
      rfl
  · rfl

/-- **Lexing what is written**: the tokens, and two at the end of the file behind them. -/
theorem tokenize_written (hcompletion : options.completionPoint = none)
    {ls : List Lexeme} (hls : ∀ l ∈ ls, IsToken l) : ∃ tokens position,
    (tokenize options (written ls)).tokens = tokens ++ [eofToken position, eofToken position] ∧
      tokens.map Lexeme.ofToken = ls := by
  refine ⟨_, _, rfl, ?_⟩
  have hleft : Left (written ls) (start options) (written ls) := rfl
  rw [map_ofToken_finishLine, loop_written hcompletion hls (Nat.le_refl _) hleft]
  rfl

/-! ## The mode of the lexer -/

/-- The states have the same tokens, none of which is an end of file. -/
structure InStep (st st' : State) : Prop where
  tokens : st'.tokens = st.tokens
  position : st'.position = st.position
  completionTokenInserted : st'.completionTokenInserted = st.completionTokenInserted
  types : ∀ l ∈ st.tokens.map Lexeme.ofToken, l.type ≠ TKN_EOF

variable {options : Options} {text : List Char} {st st' : State}

namespace InStep

theorem move (h : InStep st st') (position : ℕ) :
    InStep { st with position } { st' with position } :=
  ⟨h.tokens, rfl, h.completionTokenInserted, h.types⟩

section

variable (h : InStep st st') (mode : Mode)

include h

theorem finishLine :
    InStep (finishLine options st) (finishLine { options with mode } st') := by
  obtain ⟨position, tokens, _, _, inserted⟩ := st'
  obtain ⟨rfl, rfl, rfl, htypes⟩ := h
  refine ⟨?_, ?_, ?_, by rwa [map_ofToken_finishLine]⟩ <;> unfold Lexer.finishLine <;> split <;> rfl

theorem attachToken (start : ℕ) (type : TokenType) :
    InStep (attachToken options text start type st)
      (attachToken { options with mode } text start type st') := by
  unfold Lexer.attachToken
  split <;> split <;> exact ⟨h.tokens, h.position, h.completionTokenInserted, h.types⟩

theorem finishToken (start length : ℕ) {type : TokenType}
    (htype : type ≠ TKN_EOF) :
    InStep (finishToken options text start type { st with position := start + length })
      (finishToken { options with mode } text start type
        { st' with position := start + length }) := by
  refine ⟨by rw [Lexer.finishToken, Lexer.finishToken, h.tokens], rfl, h.completionTokenInserted,
    fun l hl ↦ ?_⟩
  rw [Lexer.finishToken, map_append, mem_append] at hl
  rcases hl with hl | hl
  · exact h.types l hl
  · rw [mem_singleton.mp hl]
    exact htype

theorem readToken :
    InStep (readToken options text st) (readToken { options with mode } text st') := by
  have hkeyword (name : String) : (KEYWORDS.lookup name).getD TKN_IDENTIFIER ≠ TKN_EOF := by
    cases hlookup : KEYWORDS.lookup name with
    | none => decide
    | some type =>
      obtain ⟨front, back, heq, -⟩ := lookup_eq_some_iff.mp hlookup
      have hmem : (name, type) ∈ KEYWORDS := heq ▸ mem_append_right _ mem_cons_self
      exact (by decide : ∀ entry ∈ KEYWORDS, entry.2 ≠ TKN_EOF) _ hmem
  unfold Lexer.readToken
  rw [h.position]
  dsimp only
  split_ifs
  · rw [readWhitespace, readWhitespace, h.position]
    split_ifs
    · exact ((h.move _).finishLine mode).attachToken mode _ _
    · exact (h.move _).attachToken mode _ _
  · rw [readIdentifier, readIdentifier, h.position]
    exact h.finishToken mode _ _ (hkeyword _)
  · rw [readNumber, readNumber, h.position]
    exact h.finishToken mode _ _ (by decide)
  · rw [readCharOrString, readCharOrString, h.position, Nat.add_assoc]
    exact h.finishToken mode _ _ (by decide)
  · rw [readCharOrString, readCharOrString, h.position, Nat.add_assoc]
    exact h.finishToken mode _ _ (by decide)
  · rw [readComment, readComment, h.position]
    exact (h.move _).attachToken mode _ _
  · unfold readPunctuation
    rw [h.position]
    split
    · next htype =>
      refine h.finishToken mode _ _ ?_
      unfold punctuation at htype
      split at htype <;> (try split_ifs at htype) <;> cases htype <;> decide
    · exact h.move _

theorem step :
    InStep (step options text st) (step { options with mode } text st') := by
  have hread := @readToken options text _ _ h mode
  unfold Lexer.step tryInsertCompletionToken
  dsimp only
  rw [hread.position, hread.tokens, hread.completionTokenInserted]
  split
  · split
    · refine ⟨rfl, rfl, rfl, fun l hl ↦ ?_⟩
      rw [map_append, mem_append] at hl
      rcases hl with hl | hl
      · split at hl
        · exact hread.types l (map_subset _ (dropLast_subset _) hl)
        · exact hread.types l hl
      · rw [mem_singleton.mp hl]
        exact (by decide : TKN_COMPLETION ≠ TKN_EOF)
    · exact hread
  · exact hread

theorem loop (fuel : ℕ) :
    InStep (loop options text fuel st) (loop { options with mode } text fuel st') := by
  induction fuel generalizing st st' with
  | zero => exact h
  | succ fuel ih =>
    rw [Lexer.loop, Lexer.loop, h.position]
    split
    · exact h
    · exact ih (h.step mode)

end

theorem tokenize (options : Options) (mode : Mode) (text : List Char) :
    InStep (Lexer.finishLine options (Lexer.loop options text text.length (start options)))
      (Lexer.finishLine { options with mode }
        (Lexer.loop { options with mode } text text.length (start { options with mode }))) :=
  have hstart : InStep (start options) (start { options with mode }) :=
    ⟨rfl, rfl, rfl, fun _ hl ↦ absurd hl not_mem_nil⟩
  (hstart.loop mode text.length).finishLine mode

end InStep

/-- **Keeping whitespace does not change the tokens**: the formatter reads the tokens the compiler
reads, whatever the text. -/
theorem tokens_tokenize_mode (options : Options) (mode : Mode) (text : List Char) :
    (tokenize { options with mode } text).tokens = (tokenize options text).tokens := by
  have h := InStep.tokenize options mode text
  rw [tokenize, tokenize, h.tokens, h.position]

/-- The tokens but for two at the end. -/
theorem type_ne_eof_of_tokenize (options : Options) (text : List Char) {i : ℕ} {token : Token}
    (h : (tokenize options text).tokens[i]? = some token)
    (hi : i + 2 < (tokenize options text).tokens.length) : token.type ≠ TKN_EOF := by
  have htypes := (InStep.tokenize options options.mode text).types
  rw [tokenize] at h hi
  rw [length_append] at hi
  rw [getElem?_append_left (by simpa using hi)] at h
  exact htypes _ (mem_map_of_mem (mem_of_getElem? h))

end Banjo.Lexer
