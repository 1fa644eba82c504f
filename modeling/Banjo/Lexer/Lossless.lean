import Banjo.Lexer.Lexer
import Mathlib.Logic.Relation
import Mathlib.Data.Nat.Basic
import Mathlib.Order.Basic

/-!
# When the lexer loses nothing

What is attached to the tokens and the tokens themselves, in order, go from the start of the text to
the position of the lexer, as long as every character the lexer gets to starts a token and the
literals it gets to are closed. A character that starts nothing is dropped, and the token of an open
literal has the `EOF_CHAR` after the text in it; what is lost that way never comes back.
-/

namespace Banjo.Lexer

open Relation TokenList

/-- Where a token is and what it stands for. -/
def extent (token : Token) : ℕ × List Char := (token.position, token.value)

/-- Extents one after the other, from one position to another. -/
def Covers (text : List Char) : ℕ → List (ℕ × List Char) → ℕ → Prop
  | start, [], stop => start = stop
  | start, (position, chars) :: rest, stop => position = start ∧
      chars = value text start (start + chars.length) ∧ Covers text (start + chars.length) rest stop

def chars (extents : List (ℕ × List Char)) : List Char := extents.flatMap Prod.snd

/-- The pieces of a token list partition the text: one is where the one before it ends, the
attachments are aligned with the tokens and have all attached tokens, and together the pieces are
the text. -/
structure Lossless (text : List Char) (list : TokenList) : Prop where
  aligned : list.attachments.length + 1 = list.tokens.length
  attached : (list.attachments.map (span list.attachedTokens)).flatten = list.attachedTokens
  covers : Covers text 0 (list.pieces.map extent) text.length
  text : list.pieces.flatMap Token.value = text

/-! ## Positions in the text -/

section Text

variable {text : List Char}

variable {position : ℕ}

theorem drop_eq_cons (h : charAt text position ≠ EOF_CHAR) :
    position < text.length ∧
      text.drop position = charAt text position :: text.drop (position + 1) := by
  have hlt : position < text.length := by
    by_contra hge
    rw [charAt, List.getD_eq_default _ _ (not_lt.mp hge)] at h
    exact h rfl
  refine ⟨hlt, ?_⟩
  rw [List.drop_eq_getElem_cons hlt, charAt, List.getD_eq_getElem _ _ hlt]

theorem charAt_eq_eof (h : EOF_CHAR ∉ text) :
    charAt text position = EOF_CHAR ↔ text.length ≤ position := by
  constructor
  · intro heq
    by_contra hlt
    rw [not_le] at hlt
    rw [charAt, List.getD_eq_getElem _ _ hlt] at heq
    exact h (heq ▸ List.getElem_mem hlt)
  · exact fun hge ↦ List.getD_eq_default _ _ hge

@[simp] theorem length_value (start stop : ℕ) : (value text start stop).length = stop - start := by
  simp [value]

theorem value_append {a b c : ℕ} (hab : a ≤ b) (hbc : b ≤ c) :
    value text a b ++ value text b c = value text a c := by
  rw [value, value, value, ← List.map_append]
  have hsplit := @List.range'_append_1 a (b - a) (c - b)
  rw [Nat.add_sub_cancel' hab] at hsplit
  rw [hsplit, show b - a + (c - b) = c - a by omega]

theorem value_self : value text 0 text.length = text := by
  rw [value, Nat.sub_zero, ← List.range_eq_range']
  refine List.ext_getElem (by simp) fun i hi hi' ↦ ?_
  rw [List.getElem_map, List.getElem_range, charAt, List.getD_eq_getElem _ _ hi']

variable {start stop : ℕ}

/-- The character after the text. -/
theorem eof_mem_value (hstart : start ≤ text.length) (hstop : text.length < stop) :
    EOF_CHAR ∈ value text start stop := by
  refine List.mem_map.mpr ⟨text.length, ?_, List.getD_eq_default _ _ le_rfl⟩
  rw [List.mem_range'_1]
  omega

variable {extents : List (ℕ × List Char)}

theorem Covers.append {middle : ℕ} (h : Covers text start extents middle) (hle : middle ≤ stop) :
    Covers text start (extents ++ [(middle, value text middle stop)]) stop := by
  induction extents generalizing start with
  | nil =>
    obtain rfl : start = middle := h
    have hlength : start + (value text start stop).length = stop := by
      rw [length_value]
      omega
    exact ⟨rfl, by rw [hlength], hlength⟩
  | cons head rest ih => exact ⟨h.1, h.2.1, ih h.2.2⟩

theorem Covers.chars_eq (h : Covers text start extents stop) :
    start ≤ stop ∧ chars extents = value text start stop := by
  induction extents generalizing start with
  | nil =>
    obtain rfl : start = stop := h
    simp [chars, value]
  | cons head rest ih =>
    obtain ⟨-, hchars, hrest⟩ := h
    obtain ⟨hle, hvalue⟩ := ih hrest
    refine ⟨by omega, ?_⟩
    rw [chars, List.flatMap_cons]
    rw [chars] at hvalue
    rw [hvalue, ← value_append (Nat.le_add_right start head.2.length) hle, ← hchars]

end Text

/-! ## Attachments -/

/-- The attachments of groups of attached tokens that are stored one after the other. -/
def spans : ℕ → List (List Token) → List Span
  | _, [] => []
  | first, group :: groups =>
    (if group = [] then ⟨0, 0⟩ else ⟨first, group.length⟩) :: spans (first + group.length) groups

variable (first : ℕ) (groups : List (List Token))

theorem spans_append (groups' : List (List Token)) : spans first (groups ++ groups')
    = spans first groups ++ spans (first + groups.flatten.length) groups' := by
  induction groups generalizing first with
  | nil => rfl
  | cons group groups ih =>
    rw [List.cons_append, spans, spans, ih, List.flatten_cons, List.length_append, List.cons_append,
      Nat.add_assoc]

@[simp] theorem length_spans : (spans first groups).length = groups.length := by
  induction groups generalizing first with
  | nil => rfl
  | cons group groups ih => rw [spans, List.length_cons, List.length_cons, ih]

/-- Each span has its group. -/
theorem map_span (before : List Token) (groups : List (List Token)) :
    (spans before.length groups).map (span (before ++ groups.flatten)) = groups := by
  induction groups generalizing before with
  | nil => rfl
  | cons group groups ih =>
    rw [spans, List.map_cons, List.flatten_cons]
    have hrest := ih (before ++ group)
    rw [List.length_append, List.append_assoc] at hrest
    rw [hrest]
    congr 1
    split_ifs with hgroup
    · rw [hgroup, span, List.take_zero]
    · rw [span, List.drop_left, List.take_left]

/-- The attached tokens of a lexer state, by the token they come before; the last group is for the
token that is read next. -/
structure Grouped (st : State) (front : List (List Token)) (last : List Token) : Prop where
  length : front.length = st.tokens.length
  attached : st.attachedTokens = (front ++ [last]).flatten
  attachments : st.attachments = spans 0 (front ++ [last])

/-- The extents of what was read, in order. -/
def order (front : List (List Token)) (last : List Token) (tokens : List Token) :
    List (ℕ × List Char) :=
  (List.zipWith (fun group token ↦ group.map extent ++ [token]) front
    (tokens.map extent)).flatten ++
    last.map extent

/-- What was read has these extents. -/
def HasRead (st : State) (extents : List (ℕ × List Char)) : Prop :=
  ∃ front last, Grouped st front last ∧ extents = order front last st.tokens

section Finish

variable {options : Options} {st : State} {extents : List (ℕ × List Char)}

theorem modifyBack_append {α : Type} (f : α → α) (xs : List α) (x : α) :
    modifyBack f (xs ++ [x]) = xs ++ [f x] := by
  rw [modifyBack, List.getLast?_concat, List.dropLast_concat]

/-- Only the extents of the tokens count. -/
theorem HasRead.congr {st' : State} (h : HasRead st extents)
    (htokens : st'.tokens.map extent = st.tokens.map extent)
    (hattached : st'.attachedTokens = st.attachedTokens)
    (hattachments : st'.attachments = st.attachments) : HasRead st' extents := by
  obtain ⟨front, last, hgrouped, rfl⟩ := h
  have hlength := congrArg List.length htokens
  rw [List.length_map, List.length_map] at hlength
  refine ⟨front, last, ⟨hgrouped.length.trans hlength.symm, ?_, ?_⟩, ?_⟩
  · rw [hattached, hgrouped.attached]
  · rw [hattachments, hgrouped.attachments]
  · rw [order, order, htokens]

theorem map_extent_modifyBack (tokens : List Token) :
    (modifyBack (fun token ↦ { token with endOfLine := true }) tokens).map extent
      = tokens.map extent := by
  rcases List.eq_nil_or_concat tokens with rfl | ⟨front, token, rfl⟩
  · rfl
  · rw [List.concat_eq_append, modifyBack_append, List.map_append, List.map_append]
    rfl

theorem HasRead.finishLine (h : HasRead st extents) (options : Options) :
    HasRead (finishLine options st) extents := by
  rw [Lexer.finishLine]
  split_ifs
  · exact h.congr (map_extent_modifyBack _) rfl rfl
  · exact h

theorem position_finishLine (options : Options) (st : State) :
    (finishLine options st).position = st.position := by
  rw [Lexer.finishLine]
  split_ifs <;> rfl

theorem HasRead.move (h : HasRead st extents) (position : ℕ) :
    HasRead { st with position } extents := h.congr rfl rfl rfl

theorem HasRead.finishToken (h : HasRead st extents) (text : List Char)
    (hmode : options.mode = .KEEP_WHITESPACE) (start : ℕ) (type : TokenType) :
    HasRead (finishToken options text start type st)
      (extents ++ [(start, value text start st.position)]) := by
  obtain ⟨front, last, hgrouped, rfl⟩ := h
  rw [Lexer.finishToken, if_pos hmode]
  refine ⟨front ++ [last], [], ⟨?_, ?_, ?_⟩, ?_⟩
  · rw [List.length_append, List.length_append, hgrouped.length]
    rfl
  · dsimp only
    rw [hgrouped.attached, List.flatten_append, List.flatten_append, List.flatten_append]
    simp
  · dsimp only
    rw [hgrouped.attachments, spans_append 0 (front ++ [last])]
    rfl
  · dsimp only
    have hzip : front.length = (st.tokens.map extent).length := by
      rw [List.length_map, hgrouped.length]
    rw [order, order, List.map_append, List.map_singleton, List.zipWith_append hzip,
      List.flatten_append]
    simp [extent]

theorem HasRead.attachToken (h : HasRead st extents) (text : List Char)
    (hmode : options.mode = .KEEP_WHITESPACE) (start : ℕ) (type : TokenType) :
    HasRead (attachToken options text start type st)
      (extents ++ [(start, value text start st.position)]) := by
  obtain ⟨front, last, hgrouped, rfl⟩ := h
  rw [Lexer.attachToken, if_neg (not_not.mpr hmode)]
  refine ⟨front, last ++ [⟨type, value text start st.position, start, false⟩], ⟨?_, ?_, ?_⟩, ?_⟩
  · exact hgrouped.length
  · dsimp only
    rw [hgrouped.attached, List.flatten_append, List.flatten_append]
    simp
  · dsimp only
    rw [hgrouped.attachments, hgrouped.attached, spans_append, spans_append, spans, spans, spans,
      modifyBack_append, Nat.zero_add]
    congr 2
    by_cases hlast : last = []
    · simp [hlast]
    · have hlength : last.length ≠ 0 := fun h ↦ hlast (List.length_eq_zero_iff.mp h)
      simp [hlast]
  · dsimp only
    rw [order, order, List.map_append, List.append_assoc]
    rfl

end Finish

/-! ## What the readers consume -/

/-- The literal that goes on with these characters is closed. -/
def closes (terminator : Char) : List Char → Bool
  | [] => false
  | c :: rest =>
    if c = EOF_CHAR then false
    else if c = '\\' then
      match rest with
      | [] => false
      | escaped :: rest => escaped ≠ EOF_CHAR && closes terminator rest
    else c = terminator || closes terminator rest

variable {rest : List Char} {terminator : Char}

theorem literalLength_of_closes
    (h : closes terminator rest = true) : literalLength terminator rest ≤ rest.length := by
  fun_induction closes terminator rest with
  | case1 => cases h
  | case2 rest => cases h
  | case3 hc => cases h
  | case4 escaped rest hc ih =>
    rw [Bool.and_eq_true, decide_eq_true_eq] at h
    rw [literalLength.eq_def]
    simp only [if_neg hc, if_neg h.1, if_true, List.length_cons]
    have := ih h.2
    omega
  | case5 c rest hc hq ih =>
    rw [Bool.or_eq_true, decide_eq_true_eq] at h
    rw [literalLength.eq_def]
    simp only [if_neg hc, if_neg hq, List.length_cons]
    split_ifs with hterm
    · omega
    · have := ih (h.resolve_left hterm)
      omega

/-- An open literal takes all of the text and the character after it. -/
theorem literalLength_of_not_closes (heof : EOF_CHAR ∉ rest)
    (h : closes terminator rest = false) : literalLength terminator rest = rest.length + 1 := by
  fun_induction closes terminator rest with
  | case1 => rfl
  | case2 rest => exact absurd List.mem_cons_self heof
  | case3 hc => rfl
  | case4 escaped rest hc ih =>
    simp only [List.mem_cons, not_or] at heof
    have hescaped : escaped ≠ EOF_CHAR := fun h ↦ heof.2.1 h.symm
    rw [Bool.and_eq_false_iff] at h
    rw [literalLength.eq_def]
    simp only [if_neg hc, if_neg hescaped, if_true, List.length_cons]
    rw [ih heof.2.2 (h.resolve_left (by simpa using hescaped))]
  | case5 c rest hc hq ih =>
    simp only [List.mem_cons, not_or] at heof
    rw [Bool.or_eq_false_iff, decide_eq_false_iff_not] at h
    rw [literalLength.eq_def]
    simp only [if_neg hc, if_neg hq, if_neg h.1, List.length_cons]
    rw [ih heof.2 h.2]

theorem numberLength_le (rest : List Char) : numberLength rest ≤ rest.length := by
  induction rest with
  | nil => exact le_rfl
  | cons c rest ih =>
    rw [numberLength, List.length_cons]
    split_ifs <;> omega

/-- The character at a position starts a token, and a literal that opens there is closed. -/
def Starts (text : List Char) (position : ℕ) : Bool :=
  let c := charAt text position
  isWhitespaceChar c || isIdentifierStartChar c || isNumberStartChar c || c = '#' ||
    (if c = '\'' || c = '"' then closes c (text.drop (position + 1))
    else (punctuation c (charAt text (position + 1)) (charAt text (position + 2))).isSome)

/-- What reading at a position does: `extents` grow by what is passed, or an unknown character is
dropped. -/
structure Reads (text : List Char) (st st' : State) (extents extents' : List (ℕ × List Char)) :
    Prop where
  read : HasRead st' extents'
  lt : st.position < st'.position
  starts : Starts text st.position = true → st'.position ≤ text.length ∧
    extents' = extents ++ [(st.position, value text st.position st'.position)]
  drops : Starts text st.position = false → (st'.position ≤ text.length ∧ extents' = extents) ∨
    (text.length < st'.position ∧
      extents' = extents ++ [(st.position, value text st.position st'.position)])

section Read

variable {options : Options} {text : List Char} {st : State} {extents : List (ℕ × List Char)}

variable {n : ℕ}

theorem Reads.of_starts {st' : State} (hstarts : Starts text st.position = true)
    (hread : HasRead st' (extents ++ [(st.position, value text st.position (st.position + n))]))
    (hposition : st'.position = st.position + n) (hpos : 0 < n)
    (hle : st.position + n ≤ text.length) : ∃ extents', Reads text st st' extents extents' := by
  refine ⟨_, hread, by omega, fun _ ↦ ⟨by omega, by rw [hposition]⟩, fun hnot ↦ ?_⟩
  rw [hstarts] at hnot
  cases hnot

/-- The characters that follow in the buffer are in the text. -/
theorem punctuation_le (hc : charAt text st.position ≠ EOF_CHAR) {type : TokenType}
    (h : punctuation (charAt text st.position) (charAt text (st.position + 1))
      (charAt text (st.position + 2)) = some (type, n)) : 0 < n ∧
        st.position + n ≤ text.length := by
  have h0 := (drop_eq_cons hc).1
  have hnext : ∀ {position : ℕ} {c : Char}, charAt text position = c → c ≠ EOF_CHAR →
      position < text.length := fun heq hne ↦ (drop_eq_cons (heq ▸ hne)).1
  have h1 : ∀ {c : Char}, charAt text (st.position + 1) = c → c ≠ EOF_CHAR →
      st.position + 2 ≤ text.length := fun heq hne ↦ hnext heq hne
  have h2 : ∀ {c : Char}, charAt text (st.position + 2) = c → c ≠ EOF_CHAR →
      st.position + 3 ≤ text.length := fun heq hne ↦ hnext heq hne
  unfold punctuation at h
  split at h <;> (try cases h) <;> (try exact ⟨Nat.one_pos, h0⟩)
  -- what is left are the tokens whose length depends on the next one or two characters
  all_goals
    rw [Option.some.injEq] at h
    repeat' split at h
    all_goals
      cases h
      refine ⟨by omega, ?_⟩
      first
      | exact h0
      | exact h2 ‹charAt text (st.position + 2) = _› (by decide)
      | exact h1 ‹charAt text (st.position + 1) = _› (by decide)

theorem takeWhile_pos {p : Char → Bool} (hc : charAt text st.position ≠ EOF_CHAR)
    (hp : p (charAt text st.position) = true) :
    0 < ((text.drop st.position).takeWhile p).length ∧
      st.position + ((text.drop st.position).takeWhile p).length ≤ text.length := by
  obtain ⟨hlt, hdrop⟩ := drop_eq_cons hc
  refine ⟨?_, ?_⟩
  · rw [hdrop, List.takeWhile_cons_of_pos hp]
    exact Nat.succ_pos _
  · have hle := (List.takeWhile_prefix (l := text.drop st.position) p).length_le
    rw [List.length_drop] at hle
    omega

theorem readToken_reads (hmode : options.mode = .KEEP_WHITESPACE) (heof : EOF_CHAR ∉ text)
    (hc : charAt text st.position ≠ EOF_CHAR) (h : HasRead st extents) :
    ∃ extents', Reads text st (readToken options text st) extents extents' := by
  obtain ⟨hlt, hdrop⟩ := drop_eq_cons hc
  have hliteral : ∀ type terminator, charAt text st.position = terminator →
      (terminator = '\'' ∨ terminator = '"') →
      (Starts text st.position = closes terminator (text.drop (st.position + 1))) →
      ∃ extents', Reads text st (readCharOrString options text type terminator st)
        extents extents' := by
    intro type terminator _ _ hstarts
    have hread := (h.move (st.position + 1 +
      literalLength terminator (text.drop (st.position + 1)))).finishToken text hmode
      st.position type
    refine ⟨_, hread, ?_, fun hclosed ↦ ⟨?_, rfl⟩, fun hopen ↦ Or.inr ⟨?_, rfl⟩⟩
    · change st.position < st.position + 1 + _
      omega
    · rw [hstarts] at hclosed
      have hle := literalLength_of_closes hclosed
      rw [List.length_drop] at hle
      change st.position + 1 + _ ≤ text.length
      omega
    · rw [hstarts] at hopen
      have heq := literalLength_of_not_closes (fun hmem ↦ heof (List.mem_of_mem_drop hmem)) hopen
      rw [List.length_drop] at heq
      change text.length < st.position + 1 + _
      omega
  rw [readToken]
  split_ifs with hblank hidentifier hnumber hchar hstring hcomment
  · -- whitespace
    obtain ⟨hpos, hle⟩ := takeWhile_pos hc hblank
    have hstarts : Starts text st.position = true := by simp [Starts, hblank]
    rw [readWhitespace]
    split_ifs
    · have hread := ((h.move (st.position + ((text.drop st.position).takeWhile
        isWhitespaceChar).length)).finishLine options).attachToken text hmode st.position
        .TKN_WHITESPACE
      rw [position_finishLine] at hread
      refine Reads.of_starts hstarts hread ?_ hpos hle
      rw [attachToken, if_neg (not_not.mpr hmode)]
      exact position_finishLine _ _
    · refine Reads.of_starts hstarts ((h.move _).attachToken text hmode st.position
        .TKN_WHITESPACE) ?_ hpos hle
      rw [attachToken, if_neg (not_not.mpr hmode)]
  · have hstart : isIdentifierChar (charAt text st.position) = true := by
      rw [isIdentifierStartChar] at hidentifier
      rw [isIdentifierChar]
      grind
    obtain ⟨hpos, hle⟩ := takeWhile_pos hc hstart
    exact Reads.of_starts (by simp [Starts, hidentifier])
      ((h.move _).finishToken text hmode st.position _) rfl
      hpos hle
  · have hpos : 0 < numberLength (text.drop st.position) := by
      have hdigit : isNumberChar (charAt text st.position) = true ∧
          charAt text st.position ≠ '.' := by
        rw [isNumberStartChar] at hnumber
        refine ⟨by rw [isNumberChar, hnumber]; rfl, fun heq ↦ ?_⟩
        rw [heq] at hnumber
        revert hnumber
        decide
      rw [hdrop, numberLength, if_neg (by simp [hdigit])]
      exact Nat.succ_pos _
    have hle := numberLength_le (text.drop st.position)
    rw [List.length_drop] at hle
    exact Reads.of_starts (by simp [Starts, hnumber])
      ((h.move _).finishToken text hmode st.position _) rfl
      hpos (by omega)
  · refine hliteral _ _ hchar (Or.inl rfl) ?_
    rw [Starts, hchar]
    rfl
  · refine hliteral _ _ hstring (Or.inr rfl) ?_
    rw [Starts, hstring]
    rfl
  · obtain ⟨hpos, hle⟩ := takeWhile_pos (p := fun c ↦ c ≠ '\n' && c ≠ EOF_CHAR) hc (by
      rw [hcomment]
      rfl)
    refine Reads.of_starts (by simp [Starts, hcomment])
      ((h.move _).attachToken text hmode st.position .TKN_COMMENT) ?_ hpos hle
    rw [readComment, attachToken, if_neg (not_not.mpr hmode)]
  · have hstarts : Starts text st.position = (punctuation (charAt text st.position)
        (charAt text (st.position + 1)) (charAt text (st.position + 2))).isSome := by
      simp [Starts, hblank, hidentifier, hnumber, hchar, hstring, hcomment]
    rw [readPunctuation]
    cases hpunctuation : punctuation (charAt text st.position) (charAt text (st.position + 1))
        (charAt text (st.position + 2)) with
    | some token =>
      obtain ⟨hpos, hle⟩ := punctuation_le hc hpunctuation
      exact Reads.of_starts (by rw [hstarts, hpunctuation]; rfl)
        ((h.move _).finishToken text hmode st.position _) rfl hpos hle
    | none =>
      -- the character is consumed, and no token has it
      refine ⟨extents, h.move _, Nat.lt_succ_self _, fun hyes ↦ ?_, fun _ ↦ Or.inl ⟨hlt, rfl⟩⟩
      rw [hstarts, hpunctuation] at hyes
      cases hyes

end Read

/-! ## The token list at the end -/

section Final

variable {st : State} {front : List (List Token)} {last : List Token}

theorem chars_pieces (tokens : List Token) :
    tokens.flatMap Token.value = chars (tokens.map extent) := by
  rw [chars, List.flatMap_map]
  rfl

/-- The token list of a state, with the two tokens at the end. -/
def finish (st : State) : TokenList :=
  ⟨st.tokens ++ [eofToken st.position, eofToken st.position], st.attachedTokens, st.attachments⟩

theorem Grouped.map_span (h : Grouped st front last) :
    st.attachments.map (span st.attachedTokens) = front ++ [last] := by
  rw [h.attachments, h.attached]
  exact Lexer.map_span [] (front ++ [last])

/-- The last group of attached tokens is before the first `TKN_EOF`. -/
theorem Grouped.pieces (h : Grouped st front last) : (finish st).pieces.map extent
    = order front last st.tokens ++ [(st.position, [])] := by
  have hzip : (finish st).pieces = (List.zipWith (fun group token ↦ group ++ [token])
      (front ++ [last]) (finish st).tokens).flatten := by
    rw [← h.map_span, List.zipWith_map_left]
    rfl
  have hfront : (List.zipWith (fun group token ↦ group ++
    [token]) front st.tokens).flatten.map extent
      = (List.zipWith (fun group token ↦ group.map extent ++ [token]) front
        (st.tokens.map extent)).flatten := by
    rw [List.map_flatten, List.map_zipWith, List.zipWith_map_right]
    simp
  rw [hzip, finish, List.zipWith_append h.length, List.flatten_append,
    List.map_append, hfront, order,
    List.append_assoc]
  simp [extent, eofToken]

theorem Grouped.aligned (h : Grouped st front last) :
    (finish st).attachments.length + 1 = (finish st).tokens.length := by
  rw [finish, h.attachments, length_spans, List.length_append, List.length_append, h.length]
  rfl

end Final

/-! ## Running the lexer -/

section Run

variable {options : Options} {text : List Char}

/-- A turn of the loop of `tokenize`. -/
def Turn (options : Options) (text : List Char) (st st' : State) : Prop :=
  charAt text st.position ≠ EOF_CHAR ∧ st' = step options text st

/-- Wherever the lexer gets to from a state, a token starts. -/
def AllStart (options : Options) (text : List Char) (st : State) : Prop :=
  ∀ st', ReflTransGen (Turn options text) st st' → charAt text st'.position ≠ EOF_CHAR →
    Starts text st'.position = true

/-- Everything up to the position was read. -/
def Exact (text : List Char) (extents : List (ℕ × List Char)) (position : ℕ) : Prop :=
  Covers text 0 extents position ∧ position ≤ text.length

/-- A character was dropped or one that is not in the text was read. -/
def Lossy (text : List Char) (extents : List (ℕ × List Char)) (position : ℕ) : Prop :=
  EOF_CHAR ∈ chars extents ∨ ((chars extents).length < position ∧ position ≤ text.length)

variable {st st' : State} {extents extents' : List (ℕ × List Char)}

theorem chars_append (a b : List (ℕ × List Char)) : chars (a ++ b) = chars a ++ chars b :=
  List.flatMap_append

theorem Reads.exact (h : Reads text st st' extents extents')
    (hstarts : Starts text st.position = true) (hexact : Exact text extents st.position) :
    Exact text extents' st'.position := by
  obtain ⟨hle, rfl⟩ := h.starts hstarts
  exact ⟨hexact.1.append h.lt.le, hle⟩

theorem Reads.lossy_of_exact (h : Reads text st st' extents extents')
    (hstarts : Starts text st.position = false) (hexact : Exact text extents st.position) :
    Lossy text extents' st'.position := by
  rcases h.drops hstarts with ⟨hle, rfl⟩ | ⟨hlt, rfl⟩
  · have hlength := congrArg List.length hexact.1.chars_eq.2
    rw [length_value, Nat.sub_zero] at hlength
    exact Or.inr ⟨hlength ▸ h.lt, hle⟩
  · refine Or.inl ?_
    rw [chars_append]
    exact List.mem_append_right _ (by simpa [chars] using eof_mem_value hexact.2 hlt)

theorem Reads.lossy (h : Reads text st st' extents extents')
    (hlossy : Lossy text extents st.position) (hposition : st.position ≤ text.length) :
    Lossy text extents' st'.position := by
  have hread : extents' = extents ++ [(st.position, value text st.position st'.position)] →
      EOF_CHAR ∈ chars extents → EOF_CHAR ∈ chars extents' := by
    rintro rfl hmem
    rw [chars_append]
    exact List.mem_append_left _ hmem
  have hgrow : extents' = extents ++ [(st.position, value text st.position st'.position)] →
      (chars extents').length = (chars extents).length + (st'.position - st.position) := by
    rintro rfl
    rw [chars_append, List.length_append]
    simp [chars]
  have hlt := h.lt
  cases hstarts : Starts text st.position with
  | true =>
    obtain ⟨hle, heq⟩ := h.starts hstarts
    rcases hlossy with hmem | ⟨hlength, -⟩
    · exact Or.inl (hread heq hmem)
    · have := hgrow heq
      exact Or.inr ⟨by omega, hle⟩
  | false =>
    rcases h.drops hstarts with ⟨hle, rfl⟩ | ⟨hover, heq⟩
    · exact hlossy.imp_right fun hlength ↦ ⟨by omega, hle⟩
    · refine Or.inl ?_
      rw [heq, chars_append]
      exact List.mem_append_right _ (by simpa [chars] using eof_mem_value hposition hover)

/-- Where the loop ends, everything was read if a token started everywhere, and else something was
lost. -/
theorem loop_spec (hmode : options.mode = .KEEP_WHITESPACE)
    (hcompletion : options.completionPoint = none) (heof : EOF_CHAR ∉ text) (fuel : ℕ) (st : State)
    (extents : List (ℕ × List Char)) (hfuel : text.length ≤ st.position + fuel)
    (h : HasRead st extents) :
    ∃ extents', HasRead (loop options text fuel st) extents' ∧
      text.length ≤ (loop options text fuel st).position ∧
      (Lossy text extents st.position → Lossy text extents' (loop options text fuel st).position) ∧
      (Exact text extents st.position → AllStart options text st →
        Exact text extents' (loop options text fuel st).position) ∧
      (Exact text extents st.position → ¬AllStart options text st →
        Lossy text extents' (loop options text fuel st).position) := by
  have hend : text.length ≤ st.position → AllStart options text st := by
    intro hge st' hrun hne
    rcases hrun.cases_head with rfl | ⟨next, ⟨hturn, -⟩, -⟩
    · exact absurd ((charAt_eq_eof heof).mpr hge) hne
    · exact absurd ((charAt_eq_eof heof).mpr hge) hturn
  induction fuel generalizing st extents with
  | zero => exact ⟨extents, h, hfuel, id, fun hexact _ ↦ hexact, fun _ hnot ↦
    absurd (hend hfuel) hnot⟩
  | succ fuel ih =>
    rw [loop]
    split_ifs with hc
    · have hge := (charAt_eq_eof heof).mp hc
      exact ⟨extents, h, hge, id, fun hexact _ ↦ hexact, fun _ hnot ↦ absurd (hend hge) hnot⟩
    · have hstep : step options text st = readToken options text st := by
        rw [step, tryInsertCompletionToken, hcompletion]
      have hlt := (drop_eq_cons hc).1
      obtain ⟨next, hreads⟩ := readToken_reads hmode heof hc h
      rw [← hstep] at hreads
      have hturn : Turn options text st (step options text st) := ⟨hc, rfl⟩
      have hall : AllStart options text st ↔ Starts text st.position = true ∧
          AllStart options text (step options text st) := by
        constructor
        · exact fun hall ↦ ⟨hall st .refl hc, fun st' hrun ↦ hall st' (hrun.head hturn)⟩
        · rintro ⟨hstarts, hall⟩ st' hrun hne
          rcases hrun.cases_head with rfl | ⟨_, ⟨-, rfl⟩, hrun⟩
          · exact hstarts
          · exact hall st' hrun hne
      have hend' : text.length ≤ (step options text st).position →
          AllStart options text (step options text st) := by
        intro hge st' hrun hne
        rcases hrun.cases_head with rfl | ⟨_, ⟨hturn, -⟩, -⟩
        · exact absurd ((charAt_eq_eof heof).mpr hge) hne
        · exact absurd ((charAt_eq_eof heof).mpr hge) hturn
      obtain ⟨extents', hread, hposition, hlossy, hexact, hnot⟩ :=
        ih _ next (by have := hreads.lt; omega) hreads.read hend'
      refine ⟨extents', hread, hposition, fun h ↦ hlossy (hreads.lossy h hlt.le), ?_, ?_⟩
      · exact fun h hstart ↦ hexact (hreads.exact (hall.mp hstart).1 h) (hall.mp hstart).2
      · intro h hstart
        cases hstarts : Starts text st.position with
        | true => exact hnot (hreads.exact hstarts h) fun hrest ↦ hstart (hall.mpr ⟨hstarts, hrest⟩)
        | false => exact hlossy (hreads.lossy_of_exact hstarts h)

end Run

end Banjo.Lexer
