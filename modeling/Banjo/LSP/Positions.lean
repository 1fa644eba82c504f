import Mathlib.Data.BitVec

/-!
# Positions of the language server

A position is an offset into the text here and a line with a column there. `pos_from_lsp` looks for
the ends of the lines above without looking for the end of the text, so it needs as many of them as
the client asks for. Reading outside of the text is `none`.
-/

open List Option

namespace Banjo.LSP

/-! ## Code -/

abbrev Source := List (BitVec 8)

@[ext] structure LSPTextPosition where
  line : ℕ
  column : ℕ
  deriving DecidableEq, Repr

/-- The `while` in `pos_from_lsp` and the increment behind it: what is passed and what follows. -/
def skipLine : Source → Option (ℕ × Source)
  | [] => none
  | c :: rest =>
    if c ≠ 10#8 then (skipLine rest).map fun (offset, rest) ↦ (offset + 1, rest) else some (1, rest)

def skipLines : ℕ → Source → Option ℕ
  | 0, _ => some 0
  | lines + 1, source => do
    let (offset, rest) ← skipLine source
    (skipLines lines rest).map (offset + ·)

def posFromLsp (source : Source) (line column : ℤ) : Option ℕ :=
  (skipLines line.toNat source).map (· + column.toNat)

/-- A turn of the loops that count. -/
def count (position : LSPTextPosition) (c : BitVec 8) : LSPTextPosition :=
  if c = 10#8 then ⟨position.line + 1, 0⟩ else ⟨position.line, position.column + 1⟩

/-- The loop over the offsets of a range, from `0` on. -/
def countRange (source : Source) (start «end» : ℕ) : Option LSPTextPosition :=
  if start < «end» ∧ source.length < «end» then none
  else some (((source.take «end»).drop start).foldl count ⟨0, 0⟩)

def posToLsp (source : Source) (position : ℕ) : Option LSPTextPosition :=
  countRange source 0 position

structure SemanticToken where
  start : ℕ
  «end» : ℕ
  type : ℕ
  modifiers : ℕ

structure LSPSemanticToken where
  deltaLine : ℕ
  deltaStartColumn : ℕ
  length : ℤ
  type : ℕ
  modifiers : ℕ

/-- The loop of `tokens_to_lsp` from a position on. -/
def tokensFrom (source : Source) : ℕ → List SemanticToken → Option (List LSPSemanticToken)
  | _, [] => some []
  | position, token :: tokens => do
    let delta ← countRange source position token.start
    (tokensFrom source (max position token.start) tokens).map
      (⟨delta.line, delta.column, token.end - token.start, token.type, token.modifiers⟩ :: ·)

def tokensToLsp (source : Source) (tokens : List SemanticToken) : Option (List LSPSemanticToken) :=
  tokensFrom source 0 tokens

/-! ## What the client makes of tokens -/

/-- A line relative to the token before, and a column relative to it on the same line only. -/
def LSPTextPosition.shift (position delta : LSPTextPosition) : LSPTextPosition :=
  if delta.line = 0 then ⟨position.line, position.column + delta.column⟩
  else ⟨position.line + delta.line, delta.column⟩

/-- Where the tokens are, the one before them at a position. -/
def decodeTokens : LSPTextPosition → List LSPSemanticToken → List LSPTextPosition
  | _, [] => []
  | before, token :: tokens =>
    let position := before.shift ⟨token.deltaLine, token.deltaStartColumn⟩
    position :: decodeTokens position tokens

/-- What a request at a line and a column and the tokens of a text are asked for. -/
structure Translates (source : Source) (line column : ℤ) : Prop where
  roundTrip : ∀ p ≤ source.length, ∃ position, posToLsp source p = some position ∧
    posFromLsp source position.line position.column = some p
  inside : posFromLsp source line column ≠ none
  tokens : ∀ tokens : List SemanticToken, tokens.Pairwise (fun a b ↦ a.start ≤ b.start) →
    (tokensToLsp source tokens).map (decodeTokens ⟨0, 0⟩)
      = tokens.mapM fun token ↦ posToLsp source token.start

/-! ## Counting -/

variable {source : Source}

variable (position : LSPTextPosition)

@[simp] theorem shift_line (delta : LSPTextPosition) :
    (position.shift delta).line = position.line + delta.line := by
  rw [LSPTextPosition.shift]
  by_cases h : delta.line = 0 <;> simp [h]

theorem shift_column (delta : LSPTextPosition) : (position.shift delta).column
    = if delta.line = 0 then position.column + delta.column else delta.column := by
  rw [LSPTextPosition.shift]
  split_ifs <;> rfl

theorem shift_assoc (delta delta' : LSPTextPosition) :
    (position.shift delta).shift delta' = position.shift (delta.shift delta') := by
  ext
  · simp [Nat.add_assoc]
  · rw [shift_column, shift_column, shift_column, shift_column, shift_line]
    by_cases h' : delta'.line = 0
    · rw [h', if_pos rfl, if_pos rfl, Nat.add_zero]
      split_ifs
      · rw [Nat.add_assoc]
      · rfl
    · rw [if_neg h', if_neg h', if_neg (by omega)]

variable (c : BitVec 8)

theorem count_eq_shift : count position c = position.shift (count ⟨0, 0⟩ c) := by
  by_cases hc : c = 10#8 <;> simp [count, hc, LSPTextPosition.shift]

theorem foldl_count (l : Source) :
    l.foldl count position = position.shift (l.foldl count ⟨0, 0⟩) := by
  induction l generalizing position with
  | nil => rfl
  | cons c l ih =>
    rw [foldl_cons, foldl_cons, ih, ih (count ⟨0, 0⟩ c), count_eq_shift, shift_assoc]

variable (lines : ℕ)

theorem skipLines_cons : skipLines (lines + 1) (c :: source)
    = (skipLines (if c = 10#8 then lines else lines + 1) source).map (1 + ·) := by
  rw [skipLines, skipLine]
  by_cases hc : c = 10#8
  · simp [hc]
  · rw [if_pos hc, if_neg hc, skipLines]
    cases skipLine source with
    | none => rfl
    | some skipped =>
      obtain ⟨offset, rest⟩ := skipped
      cases h : skipLines lines rest with
      | none => simp [h]
      | some more =>
        simp only [h, map_some, bind_eq_bind, bind_some, some.injEq]
        omega

/-- As many lines as there are ends of lines can be skipped. -/
theorem skipLines_ne_none_iff : skipLines lines source ≠ none ↔ lines ≤ source.count 10#8 := by
  induction source generalizing lines with
  | nil => cases lines <;> simp [skipLines, skipLine]
  | cons c source ih =>
    cases lines with
    | zero => simp [skipLines]
    | succ lines =>
      rw [skipLines_cons, ne_eq, map_eq_none_iff, ← ne_eq, ih, List.count_cons]
      by_cases hc : c = 10#8 <;> simp [hc]

theorem skipLines_count (before after : Source) :
    ∃ offset, skipLines (before.foldl count ⟨0, 0⟩).line (before ++ after) = some offset ∧
      offset + (before.foldl count ⟨0, 0⟩).column = before.length := by
  induction before with
  | nil => exact ⟨0, rfl, rfl⟩
  | cons c before ih =>
    obtain ⟨offset, hoffset, hsum⟩ := ih
    rw [foldl_cons, foldl_count, shift_line, shift_column, cons_append, length_cons]
    by_cases hc : c = 10#8
    · rw [count, if_pos hc, Nat.zero_add, Nat.add_comm 1, skipLines_cons, if_pos hc, hoffset]
      refine ⟨1 + offset, rfl, ?_⟩
      rw [show ∀ n, (⟨1, 0⟩ : LSPTextPosition).column + n = n from Nat.zero_add, ite_self]
      omega
    · rw [count, if_neg hc, Nat.zero_add]
      cases hline : (before.foldl count ⟨0, 0⟩).line with
      | zero =>
        rw [hline, skipLines, some.injEq] at hoffset
        exact ⟨0, rfl, by simp only [reduceIte]; omega⟩
      | succ lines =>
        rw [skipLines_cons, if_neg hc, ← hline, hoffset]
        exact ⟨1 + offset, rfl, by rw [if_neg (by omega)]; omega⟩

theorem roundTrip (source : Source) {p : ℕ} (hp : p ≤ source.length) :
    ∃ position, posToLsp source p = some position ∧
      posFromLsp source position.line position.column = some p := by
  obtain ⟨offset, hoffset, hsum⟩ := skipLines_count (source.take p) (source.drop p)
  rw [take_append_drop, length_take_of_le hp] at *
  refine ⟨_, if_neg (by omega), ?_⟩
  rw [drop_zero, posFromLsp, Int.toNat_natCast, Int.toNat_natCast, hoffset, map_some, hsum]

/-! ## Tokens -/

variable {before : LSPTextPosition}

/-- The position of a token is the one before it and what was counted between. -/
theorem posToLsp_shift {start «end» : ℕ} (hle : start ≤ «end»)
    (hbefore : posToLsp source start = some before) :
    posToLsp source «end» = (countRange source start «end»).map before.shift := by
  have hsplit : source.take «end» = source.take start ++ (source.take «end»).drop start := by
    conv_lhs => rw [← take_append_drop start (source.take «end»), take_take, min_eq_left hle]
  rw [posToLsp, countRange] at hbefore ⊢
  rw [countRange]
  have hin : ¬(0 < start ∧ source.length < start) := fun h ↦ by simp [h] at hbefore
  rw [if_neg hin, some.injEq, drop_zero] at hbefore
  by_cases hout : source.length < «end»
  · rcases Nat.eq_or_lt_of_le hle with rfl | hlt
    · rw [if_neg hin, if_neg (by omega), drop_zero, hbefore, drop_eq_nil_of_le (by simp)]
      simp [LSPTextPosition.shift]
    · rw [if_pos ⟨by omega, hout⟩, if_pos ⟨hlt, hout⟩]
      rfl
  · rw [if_neg (by omega), if_neg (by omega), drop_zero, map_some, hsplit, foldl_append,
      hbefore, foldl_count, ← hsplit]

theorem tokens_translate (tokens : List SemanticToken) {position : ℕ}
    (hsorted : tokens.Pairwise fun a b ↦ a.start ≤ b.start)
    (hle : ∀ token ∈ tokens, position ≤ token.start)
    (hbefore : posToLsp source position = some before) :
    (tokensFrom source position tokens).map (decodeTokens before)
      = tokens.mapM fun token ↦ posToLsp source token.start := by
  induction tokens generalizing position before with
  | nil => rfl
  | cons token tokens ih =>
    rw [pairwise_cons] at hsorted
    have hstart := hle token mem_cons_self
    have htoken := posToLsp_shift hstart hbefore
    rw [tokensFrom, mapM_cons, htoken, max_eq_right hstart]
    cases hdelta : countRange source position token.start with
    | none => rfl
    | some delta =>
      rw [hdelta] at htoken
      have hrest := ih hsorted.2 hsorted.1 htoken
      simp only [bind_eq_bind, bind_some, map_some, ← hrest]
      cases tokensFrom source token.start tokens <;> rfl

end Banjo.LSP
