import Banjo.Utils.JSON.Outcomes

/-!
# The parser and JSON

The parser agrees with JSON on a text that has its value in the part that both have, and on a text
that neither of them reads, unless the parser comes to a number that is not converted. A text of
JSON that is not in the common part leads the parser to a character that it does not know what to do
with.
-/

open List Option

namespace Banjo.JSON

open Parsing

variable {F : Type} {α β : Type} {doubles : Doubles F} {decode : List Char → List Char}
  {buffer : List Char}

/-! ## Numbers that are not converted -/

theorem Reaches.head {place : Place} {input : List Char} (h : Reaches doubles decode place input)
    {c : Char} (hc : input.head? = some c) :
    isWhitespace c = false ∧ (place ≠ .members → c ≠ ']') := by
  induction h with
  | @number sign digits fraction rest hsign hdigits hfraction _ _ =>
    have hnumber : Number { lenient doubles with numbers := fun _ ↦ True } sign
      digits fraction [] :=
      ⟨hsign, ⟨hdigits, Or.inl trivial⟩, hfraction, Or.inl rfl, trivial⟩
    have hreads : Reads doubles decode _ _ _ := .number hnumber
    have hvisible := hreads.exists_head
    rw [append_nil] at hvisible
    exact (Visible.head hvisible _ hc).imp_right fun h _ ↦ h
  | array | object =>
    cases hc
    exact ⟨by decide, fun _ ↦ by decide⟩
  | first _ ih => exact ⟨(ih hc).1, fun _ ↦ (ih hc).2 (by simp)⟩
  | item hreads _ _ _ _ => exact (Visible.head hreads.exists_head _ hc).imp_right fun h _ ↦ h
  | named hnamed _ _ => exact ⟨hnamed.visible [] hc, fun h ↦ absurd rfl h⟩
  | member hnamed _ _ _ _ => exact ⟨hnamed.visible _ hc, fun h ↦ absurd rfl h⟩

section

variable (hsize : buffer.length < 2 ^ 32)
include hsize

def Place.turns : Place → ℕ
  | .value => 2
  | .items | .members => 3

/-- The function that reads what stands there throws. -/
def Thrown (buffer : List Char) (doubles : Doubles F) (fuel position : ℕ) : Place → Prop
  | .value => Throws (parseValue buffer doubles fuel position)
  | .items => ∀ array, Throws (parseItems buffer doubles fuel array position)
  | .members => ∀ object, Throws (parseMembers buffer doubles fuel object position)

theorem thrown_of_reaches {place : Place} {input : List Char}
    (h : Reaches doubles decode place input) {position fuel : ℕ} (hat : At buffer position input)
    (hfuel : 2 * input.length + place.turns < fuel) :
    Thrown buffer doubles fuel position place := by
  induction h generalizing position fuel with
  | @number sign digits fraction rest hsign hdigits hfraction hstops hthrows =>
    obtain _ | fuel := fuel
    · omega
    simp only [length_append, Place.turns] at hfuel
    obtain ⟨c, text, hhead, hc⟩ := exists_number_head hsign hdigits (fraction ++ rest)
    rw [← append_assoc] at hhead
    have hrun := parseNumber_eq hsize hsign hdigits hfraction hstops hat
      (show digits.length + fraction.length < fuel by omega)
    rw [convert_eq_error hthrows] at hrun
    exact ⟨_, (parseValue_number hc (hhead ▸ hat) fuel).trans hrun⟩
  | @array space input hspace h ih =>
    obtain _ | fuel := fuel
    · omega
    simp only [length_cons, length_append, Place.turns] at hfuel
    have hthrown := ih hat.tail.append (show _ < fuel by simp only [Place.turns]; omega) []
    have hopen := parseOpen_loop hsize (.array []) (parseItems buffer doubles fuel []) hspace
      (fun c hc ↦ (h.head hc).imp_right fun h ↦ h (by simp)) hat (show space.length < fuel by omega)
    rw [← hopen] at hthrown
    rw [Thrown, parseValue, get_bind, hat.getElem?]
    exact hthrown
  | @object space input hspace hfirst h ih =>
    obtain _ | fuel := fuel
    · omega
    simp only [length_cons, length_append, Place.turns] at hfuel
    have hthrown := ih hat.tail.append (show _ < fuel by simp only [Place.turns]; omega) []
    have hclose : ∀ c, input.head? = some c → isWhitespace c = false ∧ c ≠ '}' := fun c hc ↦
      ⟨(h.head hc).1, fun heq ↦ hfirst (heq ▸ hc)⟩
    have hopen := parseOpen_loop hsize (.object []) (parseMembers buffer doubles fuel []) hspace
      hclose hat (show space.length < fuel by omega)
    rw [← hopen] at hthrown
    rw [Thrown, parseValue, get_bind, hat.getElem?]
    exact hthrown
  | first h ih =>
    intro array
    obtain _ | fuel := fuel
    · omega
    exact (ih hat (by simp only [Place.turns] at hfuel ⊢; omega)).bind _
  | item hreads hafter hspace h ih =>
    intro array
    obtain _ | fuel := fuel
    · omega
    simp only [length_cons, length_append, Place.turns] at hfuel
    rw [parseItems_step hsize array (parsed_of_reads hsize hreads) hafter hspace
      (fun c hc ↦ (h.head hc).1) hat (by omega)]
    exact ih hat.append.append.tail.append (by simp only [Place.turns]; omega) _
  | @named member input hnamed h ih =>
    intro object
    obtain _ | fuel := fuel
    · omega
    simp only [length_cons, length_append, Place.turns] at hfuel
    rw [parseMembers_name hsize object hnamed (fun c hc ↦ (h.head hc).1) hat (by omega)]
    refine (ih ?_ (by simp only [Place.turns] at hfuel ⊢; omega)).bind _
    have := hat.tail.append.tail.append.tail.append
    rwa [show position + 1 + member.name.length + 1 + member.behindName.length + 1 +
      member.item.before.length = position + (member.name.length + 2) +
        member.behindName.length + 1 +
        member.item.before.length by omega] at this
  | member hnamed hreads hspace h ih =>
    intro object
    obtain _ | fuel := fuel
    · omega
    simp only [length_cons, length_append, Place.turns] at hfuel
    rw [parseMembers_step hsize object (parsed_of_reads hsize hreads) hreads.exists_head hnamed
      hspace (fun c hc ↦ (h.head hc).1) hat (by omega)]
    exact ih hat.append.tail.append (by simp only [Place.turns]; omega) _

/-- The text has a number that is not converted before anything else that is wrong. -/
def Overflows (doubles : Doubles F) (decode : List Char → List Char) (text : List Char) : Prop :=
  ∃ space input, Whitespace space ∧ text = space ++ input ∧ Reaches doubles decode .value input

theorem parses_of_overflows (h : Overflows doubles decode buffer) :
    Parses buffer doubles (.error .outOfRange) := by
  obtain ⟨space, input, hspace, htext, hreaches⟩ := h
  refine ⟨2 * buffer.length + 3, fun fuel hfuel ↦ ?_⟩
  have hlength := congrArg length htext
  rw [length_append] at hlength
  have hat : At buffer 0 (space ++ input) := ⟨Nat.zero_le _, htext⟩
  have hskip := skipWhitespace_eq hsize hspace (fun c hc ↦ (hreaches.head hc).1) hat
    (show space.length < fuel by omega)
  obtain ⟨position, hrun⟩ : Throws (parseValue buffer doubles fuel (0 + space.length)) :=
    thrown_of_reaches hsize hreaches hat.append (by simp only [Place.turns]; omega)
  rw [parse, hskip]
  dsimp only [bind_eq_bind, bind_some]
  rw [hrun]
  rfl

omit hsize in
theorem exists_skipWhitespace_run (hsize : buffer.length < 2 ^ 32) (position : ℕ) {fuel : ℕ}
    (hfuel : buffer.length < fuel) :
    ∃ position', skipWhitespace buffer fuel position = some (.ok (), position') := by
  obtain hle | hlt := le_or_gt position buffer.length
  · have hat : At buffer position (buffer.drop position) := ⟨hle, rfl⟩
    obtain ⟨space, rest, -, -, -, hrun⟩ := exists_skipWhitespace hsize hat
      (show (buffer.drop position).length < fuel by rw [length_drop]; omega)
    exact ⟨_, hrun⟩
  · obtain _ | fuel := fuel
    · omega
    refine ⟨position, ?_⟩
    rw [skipWhitespace, get_bind, getElem?_eq_none hlt.le]
    rfl

omit hsize in
/-- What neither is in the parser's dialect nor overflows is rejected. -/
theorem parses_rejected (hsize : buffer.length + 1 < 2 ^ 32)
    (hlenient : ¬∃ value, Text doubles decode (lenient doubles) buffer value)
    (hoverflows : ¬Overflows doubles decode buffer) : Parses buffer doubles (.error .rejected) := by
  have hsize' : buffer.length < 2 ^ 32 := by omega
  refine ⟨2 * buffer.length + 3, fun fuel hfuel ↦ ?_⟩
  have hat : At buffer 0 buffer := ⟨Nat.zero_le _, rfl⟩
  obtain ⟨space, input, htext, hspace, -, hskip⟩ :=
    exists_skipWhitespace hsize' hat (show buffer.length < fuel by omega)
  have hlength := congrArg length htext
  rw [length_append] at hlength
  have hinput : At buffer (0 + space.length) input := (htext ▸ hat : At buffer 0 _).append
  rw [parse, hskip]
  dsimp only [bind_eq_bind, bind_some]
  obtain ⟨value, rest, ⟨text, rfl, hreads⟩, position, hrest, hrun⟩ | ⟨position, hrun⟩ |
      ⟨hreaches, -⟩ := (outcome hsize fuel).1 hinput (show _ < fuel by omega)
  · rw [hrun]
    rw [length_append] at hlength
    obtain ⟨after, rest, rfl, hafter, -, hskip'⟩ :=
      exists_skipWhitespace hsize' hrest (show rest.length < fuel by omega)
    have hend := hrest.append.length
    dsimp only [bind_some]
    rw [hskip']
    dsimp only [bind_some]
    rw [if_neg]
    · rfl
    · intro heq
      obtain rfl : rest = [] := length_eq_zero_iff.mp (by omega)
      refine hlenient ⟨value, ⟨space, text, value, after⟩, ⟨hspace, hafter⟩, hreads, ?_, rfl⟩
      rw [append_nil] at htext
      exact htext
  · rw [hrun]
    dsimp only [bind_some]
    obtain ⟨position', hskip'⟩ := exists_skipWhitespace_run hsize' position
      (show buffer.length < fuel by omega)
    rw [hskip']
    rfl
  · exact absurd ⟨space, input, hspace, htext, hreaches⟩ hoverflows

end

/-! ## Texts that only JSON has -/

/-- The run does not end with a value. -/
def Fails (run : Option (Except Failure α × ℕ)) : Prop :=
  ∀ value position, run ≠ some (.ok value, position)

/-- If the run ends with a value, then in front of something that cannot stand behind a value. -/
def Strays (buffer : List Char) (run : Option (Except Failure α × ℕ)) : Prop :=
  ∀ value position, run = some (.ok value, position) →
    ∃ c, buffer[position]? = some c ∧ ¬Delimited [c]

theorem Fails.strays {run : Option (Except Failure α × ℕ)} (h : Fails run) : Strays buffer run :=
  fun value position hrun ↦ absurd hrun (h value position)

variable {position : ℕ}

theorem exists_of_bind {x : Parsing α} {f : α → Parsing β} {position' : ℕ} {value : β}
    (h : (x >>= f) position = some (.ok value, position')) :
    ∃ a position'', x position = some (.ok a, position'') ∧
      f a position'' = some (.ok value, position') := by
  rw [Parsing.bind_apply] at h
  split at h
  · rename_i heq
    exact ⟨_, _, heq, h⟩
  · cases h
  · cases h

theorem Fails.bind {x : Parsing α} (h : Fails (x position)) (f : α → Parsing β) :
    Fails ((x >>= f) position) := by
  intro value position' hrun
  obtain ⟨a, position'', heq, -⟩ := exists_of_bind hrun
  exact h a position'' heq

theorem delimited_singleton {c : Char} :
    Delimited [c] ↔ isWhitespace c ∨ c = ',' ∨ c = ']' ∨ c = '}' := by
  simp [Delimited]

theorem Strays.bind_parseNext {x : Parsing (Value F)} (h : Strays buffer (x position))
    (fuel : ℕ) {close : Char} (hclose : close = ']' ∨ close = '}') (done : Value F → Value F)
    (loop : Value F → Parsing (Value F)) :
    Fails ((x >>= fun value ↦ parseNext buffer fuel close (done value) (loop value)) position) := by
  intro value position' hrun
  obtain ⟨value', position'', heq, hnext⟩ := exists_of_bind hrun
  obtain ⟨c, hc, hdelimited⟩ := h _ _ heq
  simp only [delimited_singleton, not_or] at hdelimited
  obtain ⟨hspace, hcomma, hbracket, hbrace⟩ := hdelimited
  obtain _ | fuel := fuel
  · cases hnext
  have hskip : skipWhitespace buffer (fuel + 1) position'' = some (.ok (), position'') := by
    rw [skipWhitespace, get_bind, hc]
    simp [hspace]
    rfl
  have hne : c ≠ close := by
    obtain rfl | rfl := hclose
    · exact hbracket
    · exact hbrace
  rw [parseNext, bind_of_ok hskip, get_bind, hc, if_neg (by simpa using hne),
    if_neg (by simpa using hcomma)] at hnext
  cases hnext

/-- Wherever this text stands in the buffer and ends like a value, the parser does not read it. -/
def Deviates (buffer : List Char) (doubles : Doubles F) (text : List Char) : Prop :=
  ∀ (position : ℕ) (rest : List Char) (fuel : ℕ), At buffer position (text ++ rest) →
    Delimited rest → 2 * text.length < fuel →
      Strays buffer (parseValue buffer doubles fuel position)

section

variable (hsize : buffer.length < 2 ^ 32)
include hsize

/-- The characters of a string of JSON are those of the common part or stop the parser. -/
theorem Chars.common_or {body value : List Char} (h : Chars strict decode body value) :
    Chars (common doubles) decode body value ∨ ∀ (acc : List Char) {position : ℕ} {rest : List Char}
      (fuel : ℕ), At buffer position (body ++ '"' :: rest) →
        Fails (parseChars buffer fuel acc position) := by
  have hexhausted : ∀ acc position, Fails (parseChars buffer 0 acc position) := by
    rintro acc position value position' ⟨⟩
  have hescape : ∀ {letter : Char} {body : List Char}, unescape letter = none →
      ∀ (acc : List Char) {position : ℕ} {rest : List Char} (fuel : ℕ),
        At buffer position ('\\' :: letter :: body ++ '"' :: rest) →
          Fails (parseChars buffer fuel acc position) := by
    intro letter body hletter acc position rest fuel hat
    obtain _ | fuel := fuel
    · exact hexhausted acc position
    rw [parseChars_backslash hsize acc hat, hat.tail.consume_bind hsize, bind_some, hletter]
    rintro value position' ⟨⟩
  induction h with
  | nil => exact Or.inl .nil
  | @plain c body value hquote hbackslash hcontrol _ ih =>
    refine ih.imp (fun hchars ↦ .plain hquote hbackslash (Or.inr (hcontrol.resolve_left id)) hchars)
      fun hfails acc position rest fuel hat ↦ ?_
    obtain _ | fuel := fuel
    · exact hexhausted acc position
    rw [parseChars_plain hsize acc hquote hbackslash hat]
    exact hfails _ fuel hat.tail
  | @escape letter c body value hletter _ ih =>
    refine ih.imp (fun hchars ↦ .escape hletter hchars) fun hfails acc position rest fuel hat ↦ ?_
    obtain _ | fuel := fuel
    · exact hexhausted acc position
    rw [parseChars_backslash hsize acc hat, hat.tail.consume_bind hsize, bind_some, hletter]
    exact hfails _ fuel hat.tail.tail
  | slash => exact Or.inr (hescape rfl)
  | number => exact Or.inr (hescape rfl)

theorem Number.common_or {sign digits fraction exponent : List Char}
    (h : Number strict sign digits fraction exponent) :
    Number (common doubles) sign digits fraction exponent ∨
      Deviates buffer doubles (sign ++ digits ++ fraction ++ exponent) := by
  have hfraction : Fraction (lenient doubles) fraction :=
    h.fractional.imp_right fun ⟨digits, heq, hdigits⟩ ↦
      ⟨digits, heq, Or.inr (hdigits.resolve_left fun hempty ↦ hempty.1)⟩
  -- The run up to what cannot belong to the number.
  have hrun : ∀ {position rest fuel}, Stops fraction rest →
      At buffer position (sign ++ digits ++ fraction ++ rest) →
      2 * (sign ++ digits ++ fraction).length < fuel →
      parseValue buffer doubles fuel position =
        some (convert doubles (sign ++ digits ++ fraction),
          position + (sign ++ digits ++ fraction).length) := by
    intro position rest fuel hstops hat hfuel
    obtain _ | fuel := fuel
    · omega
    have hpos := length_pos_iff.mpr h.integer.1.1
    simp only [length_append] at hfuel
    obtain ⟨c, text, hhead, hc⟩ := exists_number_head h.signed h.integer.1 (fraction ++ rest)
    rw [← append_assoc] at hhead
    rw [parseValue_number hc (hhead ▸ hat)]
    exact parseNumber_eq hsize h.signed h.integer.1 hfraction hstops hat (by omega)
  obtain rfl | ⟨-, letter, tail, digits', rfl, hletter, -⟩ := h.exponential
  · by_cases hconvertible : Convertible doubles (sign ++ digits ++ fraction)
    · exact Or.inl ⟨h.signed, h.integer.imp_right fun hzeros ↦ Or.inr (hzeros.resolve_left id),
        h.fractional.imp_right fun ⟨digits, heq, hdigits⟩ ↦
          ⟨digits, heq, Or.inr (hdigits.resolve_left fun hempty ↦ hempty.1)⟩, Or.inl rfl,
        by rwa [append_nil]⟩
    · refine Or.inr fun position rest fuel hat hrest hfuel ↦ Fails.strays ?_
      rw [append_nil] at hat hfuel
      rw [hrun (hrest.stops fraction) hat hfuel, convert_eq_error hconvertible]
      rintro value position ⟨⟩
  · refine Or.inr fun position rest fuel hat hrest hfuel value position' heq ↦ ?_
    have hstops : Stops fraction ((letter :: (tail ++ digits')) ++ rest) := by
      rintro c ⟨⟩
      obtain rfl | rfl := hletter <;> exact ⟨by decide, fun heq ↦ absurd heq (by decide)⟩
    rw [append_assoc] at hat
    rw [length_append] at hfuel
    rw [hrun hstops hat (by omega)] at heq
    simp only [some.injEq, Prod.mk.injEq] at heq
    obtain ⟨-, rfl⟩ := heq
    refine ⟨letter, hat.append.getElem?, ?_⟩
    rw [delimited_singleton]
    obtain rfl | rfl := hletter <;> decide

omit hsize in
theorem delimited_separated (items : List α) (text : α → List Char) {space : List Char}
    (hspace : Whitespace space) {close : Char} (hclose : close = ']' ∨ close = '}')
    (rest : List Char) :
    Delimited (space ++ ((items.flatMap fun item ↦ ',' :: text item) ++ close :: rest)) := by
  refine delimited_of_whitespace hspace fun c hc ↦ ?_
  cases items with
  | nil =>
    cases hc
    exact Or.inr (Or.inr hclose)
  | cons => exact Or.inr (Or.inl (by cases hc; rfl))

variable {position : ℕ} {rest : List Char}

/-- An array is not read if one of its items is not. -/
theorem fails_parseItems (items : List (Item F)) {first : Item F} (acc : List (Value F))
    (hspaced : ∀ item ∈ first :: items, item.Spaced)
    (hvisible : ∀ item ∈ first :: items, Visible item.text)
    (hcases : ∀ item ∈ first :: items, Reads doubles decode (common doubles) item.text item.value ∨
      Deviates buffer doubles item.text)
    (hsome : ∃ item ∈ first :: items, ¬Reads doubles decode (common doubles) item.text item.value)
    (h : At buffer position (first.text ++ (first.after ++
      ((items.flatMap fun item ↦ ',' :: item.element) ++ ']' :: rest)))) {fuel : ℕ}
    (hfuel : 2 * (first.text.length + first.after.length +
      (items.flatMap fun item ↦ ',' :: item.element).length) + 1 < fuel) :
    Fails (parseItems buffer doubles fuel acc position) := by
  induction items generalizing first acc position fuel with
  | nil =>
    obtain _ | fuel := fuel
    · omega
    obtain ⟨item, hmem, hnot⟩ := hsome
    obtain rfl := mem_singleton.mp hmem
    have hdeviates := (hcases item mem_cons_self).resolve_left hnot
    rw [parseItems]
    exact (hdeviates _ _ fuel h (delimited_separated [] Item.element
      (hspaced item mem_cons_self).after (Or.inl rfl) rest) (by omega)).bind_parseNext fuel
        (Or.inl rfl) _ _
  | cons second items ih =>
    obtain _ | fuel := fuel
    · omega
    obtain hreads | hdeviates := hcases first mem_cons_self
    · have hsecond := hspaced second (by simp)
      have hsome' : ∃ item ∈ second :: items,
          ¬Reads doubles decode (common doubles) item.text item.value := by
        obtain ⟨item, hmem, hnot⟩ := hsome
        obtain rfl | hmem := mem_cons.mp hmem
        · exact absurd hreads hnot
        · exact ⟨item, hmem, hnot⟩
      simp only [flatMap_cons, Item.element, cons_append, append_assoc,
        length_cons, length_append] at h hfuel
      rw [parseItems_step hsize acc (parsed_of_reads hsize (hreads.within common_within_lenient))
        (hspaced first mem_cons_self).after hsecond.before
        (fun c hc ↦ ((hvisible second (by simp)).head _ hc).1) h (by omega)]
      exact ih _ (fun item hmem ↦ hspaced item (mem_cons_of_mem _ hmem))
        (fun item hmem ↦ hvisible item (mem_cons_of_mem _ hmem))
        (fun item hmem ↦ hcases item (mem_cons_of_mem _ hmem)) hsome'
        h.append.append.tail.append (by simp only [Item.element]; omega)
    · rw [parseItems]
      exact (hdeviates _ _ fuel h (delimited_separated (second :: items) Item.element
        (hspaced first mem_cons_self).after (Or.inl rfl) rest) (by omega)).bind_parseNext fuel
          (Or.inl rfl) _ _

/-- A member that is not in the common part stops the parser. -/
theorem fails_member {member : Member F} (acc : List (List Char × Value F))
    (hnamed : member.Named strict decode) (hvisible : Visible member.item.text)
    (hcases : Reads doubles decode (common doubles) member.item.text member.item.value ∨
      Deviates buffer doubles member.item.text)
    (hnot : ¬(member.Named (common doubles) decode ∧
      Reads doubles decode (common doubles) member.item.text member.item.value))
    (h : At buffer position (member.body ++ rest))
    (hrest : Delimited (member.item.after ++ rest)) {fuel : ℕ}
    (hfuel : 2 * member.body.length < fuel) :
    Fails (parseMembers buffer doubles (fuel + 1) acc position) := by
  rw [member.body_append] at h
  rw [member.body_length] at hfuel
  obtain hname | hfails : Chars (common doubles) decode member.name member.key ∨ _ :=
    hnamed.name.common_or hsize
  · have hcommon : member.Named (common doubles) decode :=
      { hnamed with
        quote := Or.inl (hnamed.quote.resolve_right fun hopen ↦ hopen.1), name := hname }
    have hdeviates := hcases.resolve_left fun hreads ↦ hnot ⟨hcommon, hreads⟩
    have hvalue := h.tail.append.tail.append.tail.append
    rw [show position + 1 + member.name.length + 1 + member.behindName.length + 1 +
      member.item.before.length = position + (member.name.length + 2) +
        member.behindName.length + 1 +
        member.item.before.length by omega] at hvalue
    rw [parseMembers_name hsize acc (hcommon.within common_within_lenient)
      (fun c hc ↦ (hvisible.head _ hc).1) h (by omega)]
    exact (hdeviates _ _ fuel hvalue hrest (by omega)).bind_parseNext fuel (Or.inr rfl) _ _
  · rw [parseMembers]
    refine Fails.bind ?_ _
    rw [parseStringRaw, h.advance_bind hsize]
    exact hfails [] fuel h.tail

/-- An object is not read if one of its members is not. -/
theorem fails_parseMembers (members : List (Member F)) {first : Member F}
    (acc : List (List Char × Value F))
    (hnamed : ∀ member ∈ first :: members, member.Named strict decode)
    (hvisible : ∀ member ∈ first :: members, Visible member.item.text)
    (hcases : ∀ member ∈ first :: members,
      Reads doubles decode (common doubles) member.item.text member.item.value ∨
        Deviates buffer doubles member.item.text)
    (hsome : ∃ member ∈ first :: members, ¬(member.Named (common doubles) decode ∧
      Reads doubles decode (common doubles) member.item.text member.item.value))
    (h : At buffer position (first.body ++
      ((members.flatMap fun member ↦ ',' :: member.element) ++ '}' :: rest))) {fuel : ℕ}
    (hfuel : 2 * (first.body.length +
      (members.flatMap fun member ↦ ',' :: member.element).length) + 1 < fuel) :
    Fails (parseMembers buffer doubles fuel acc position) := by
  induction members generalizing first acc position fuel with
  | nil =>
    obtain _ | fuel := fuel
    · omega
    obtain ⟨member, hmem, hnot⟩ := hsome
    obtain rfl := mem_singleton.mp hmem
    exact fails_member hsize acc (hnamed member mem_cons_self)
      (hvisible member mem_cons_self) (hcases member mem_cons_self) hnot h
      (delimited_separated [] Member.element (hnamed member mem_cons_self).item.after
        (Or.inr rfl) rest) (by omega)
  | cons second members ih =>
    obtain _ | fuel := fuel
    · omega
    by_cases hfirst : first.Named (common doubles) decode ∧
        Reads doubles decode (common doubles) first.item.text first.item.value
    · obtain ⟨hnamed', hreads⟩ := hfirst
      have hsecond := hnamed second (by simp)
      have hsome' : ∃ member ∈ second :: members, ¬(member.Named (common doubles) decode ∧
          Reads doubles decode (common doubles) member.item.text member.item.value) := by
        obtain ⟨member, hmem, hnot⟩ := hsome
        obtain rfl | hmem := mem_cons.mp hmem
        · exact absurd ⟨hnamed', hreads⟩ hnot
        · exact ⟨member, hmem, hnot⟩
      simp only [flatMap_cons, Member.element, cons_append, append_assoc,
        length_cons, length_append] at h hfuel
      rw [parseMembers_step hsize acc (parsed_of_reads hsize (hreads.within common_within_lenient))
        (hvisible first mem_cons_self) (hnamed'.within common_within_lenient) hsecond.before
        (fun c hc ↦ hsecond.visible _ hc) h (by omega)]
      exact ih _ (fun member hmem ↦ hnamed member (mem_cons_of_mem _ hmem))
        (fun member hmem ↦ hvisible member (mem_cons_of_mem _ hmem))
        (fun member hmem ↦ hcases member (mem_cons_of_mem _ hmem)) hsome'
        h.append.tail.append (by simp only [Member.element]; omega)
    · exact fails_member hsize acc (hnamed first mem_cons_self)
        (hvisible first mem_cons_self) (hcases first mem_cons_self) hfirst h
        (delimited_separated (second :: members) Member.element
          (hnamed first mem_cons_self).item.after (Or.inr rfl) rest) (by omega)

/-- A text of JSON is in the common part, or the parser does not read it. -/
theorem Reads.common_or {text : List Char} {value : Value F}
    (h : Reads doubles decode strict text value) :
    Reads doubles decode (common doubles) text value ∨ Deviates buffer doubles text := by
  induction h with
  | null => exact Or.inl .null
  | boolFalse => exact Or.inl .boolFalse
  | boolTrue => exact Or.inl .boolTrue
  | number hnumber => exact (hnumber.common_or hsize).imp_left .number
  | @string body value hchars =>
    refine (hchars.common_or hsize).imp .string fun hfails position rest fuel
      hat _ _ ↦ Fails.strays ?_
    obtain _ | fuel := fuel
    · rintro value position ⟨⟩
    rw [cons_append, append_assoc] at hat
    rw [parseValue, get_bind, hat.getElem?]
    refine Fails.bind ?_ _
    rw [parseStringRaw, hat.advance_bind hsize]
    exact hfails [] fuel hat.tail
  | emptyArray hspace => exact Or.inl (.emptyArray hspace)
  | @array first items hspaced hreads ih =>
    by_cases hall : ∀ item ∈ first :: items,
        Reads doubles decode (common doubles) item.text item.value
    · exact Or.inl (.array hspaced hall)
    refine Or.inr fun position rest fuel hat _ hfuel ↦ Fails.strays ?_
    obtain _ | fuel := fuel
    · omega
    have hvisible := fun item hmem ↦ (hreads item hmem).exists_head
    simp only [cons_append, append_assoc, Item.element, nil_append] at hat
    simp only [length_cons, length_append, Item.element, length_nil] at hfuel
    have hopen := parseOpen_loop hsize (.array []) (parseItems buffer doubles fuel [])
      (hspaced first mem_cons_self).before
      (fun c hc ↦ Visible.head (hvisible first mem_cons_self) _ hc) hat
      (show first.before.length < fuel by omega)
    have hfails := fails_parseItems hsize items [] hspaced hvisible ih
      (by simpa only [not_forall, exists_prop] using hall) hat.tail.append
      (show _ < fuel by simp only [Item.element]; omega)
    rw [← hopen] at hfails
    rw [parseValue, get_bind, hat.getElem?]
    exact hfails
  | emptyObject hspace => exact Or.inl (.emptyObject hspace)
  | @object first members hquote hnamed hreads ih =>
    by_cases hall : ∀ member ∈ first :: members, member.Named (common doubles) decode ∧
        Reads doubles decode (common doubles) member.item.text member.item.value
    · exact Or.inl (.object hquote (fun member hmem ↦ (hall member hmem).1)
        fun member hmem ↦ (hall member hmem).2)
    refine Or.inr fun position rest fuel hat _ hfuel ↦ Fails.strays ?_
    obtain _ | fuel := fuel
    · omega
    have hvisible := fun member hmem ↦ (hreads member hmem).exists_head
    have hfirst := hnamed first mem_cons_self
    simp only [cons_append, append_assoc, Member.element, nil_append] at hat
    simp only [length_cons, length_append, Member.element, length_nil] at hfuel
    have hhead : ∀ c, (first.body ++ ((members.flatMap fun member ↦ ',' :: (member.before ++
        member.body)) ++ '}' :: rest)).head? = some c → isWhitespace c = false ∧ c ≠ '}' := by
      intro c hc
      refine ⟨hfirst.visible _ hc, ?_⟩
      obtain rfl : first.quote = c := by simpa [Member.body] using hc
      exact hquote
    have hopen := parseOpen_loop hsize (.object []) (parseMembers buffer doubles fuel [])
      hfirst.before hhead hat (show first.before.length < fuel by omega)
    have hfails := fails_parseMembers hsize members [] hnamed hvisible ih
      (by simpa only [not_forall, exists_prop] using hall) hat.tail.append
      (show _ < fuel by simp only [Member.element]; omega)
    rw [← hopen] at hfails
    rw [parseValue, get_bind, hat.getElem?]
    exact hfails

/-- A text of JSON that is parsed is in the common part. -/
theorem Text.common_of_parses {value result : Value F} (h : Text doubles decode strict buffer value)
    (hparses : Parses buffer doubles (.ok result)) :
    Text doubles decode (common doubles) buffer value := by
  obtain ⟨item, hspaced, hreads, htext, rfl⟩ := h
  obtain hcommon | hdeviates := hreads.common_or hsize
  · exact ⟨item, hspaced, hcommon, htext, rfl⟩
  exfalso
  obtain ⟨turns, hturns⟩ := hparses
  have hrun := hturns (max turns (2 * buffer.length + 1)) (le_max_left _ _)
  have hfuel := le_max_right turns (2 * buffer.length + 1)
  set fuel := max turns (2 * buffer.length + 1)
  have hlength := congrArg length htext
  have hat : At buffer 0 (item.before ++ (item.text ++ item.after)) := ⟨Nat.zero_le _, htext⟩
  simp only [Item.element, List.length_append] at hlength
  have hbefore := skipWhitespace_eq hsize hspaced.before
    (fun c hc ↦ (Visible.head hreads.exists_head _ hc).1) hat (show _ < fuel by omega)
  have hdelimited : Delimited item.after := by
    simpa using delimited_of_whitespace hspaced.after (show Delimited [] by rintro c ⟨⟩)
  have hstrays := hdeviates _ _ fuel hat.append hdelimited (by omega)
  rw [parse, hbefore] at hrun
  simp only [bind_eq_bind, bind_some, bind_eq_some_iff, Prod.exists] at hrun
  obtain ⟨outcome, position, hvalue, hrun⟩ := hrun
  cases outcome with
  | error failure => cases failure <;> simp [bind_eq_some_iff] at hrun
  | ok value =>
    obtain ⟨c, hc, hnot⟩ := hstrays value position hvalue
    simp only [delimited_singleton, not_or] at hnot
    simp only [bind_eq_some_iff, Prod.exists] at hrun
    obtain ⟨_, position', hskip, hrun⟩ := hrun
    obtain ⟨fuel', hfuel'⟩ : ∃ fuel', fuel = fuel' + 1 := ⟨fuel - 1, by omega⟩
    rw [hfuel', skipWhitespace, get_bind, hc] at hskip
    simp only [hnot.1] at hskip
    cases hskip
    obtain ⟨hlt, -⟩ := List.getElem?_eq_some_iff.mp hc
    rw [if_neg hlt.ne] at hrun
    cases hrun

end

/-! ## Conformity -/

/-- The parser gives a text of JSON its value and reports an error for every other. -/
def Conforms (doubles : Doubles F) (decode : List Char → List Char) (text : List Char) : Prop :=
  ∃ result, Parses text doubles result ∧
    match result with
    | .ok value => Text doubles decode strict text value
    | .error .rejected => ¬∃ value, Text doubles decode strict text value
    | .error _ => False

theorem conforms_iff_of_lt {text : List Char} (hsize : text.length + 1 < 2 ^ 32) :
    Conforms doubles decode text ↔
      (∃ value, Text doubles decode (common doubles) text value) ∨
        (¬∃ value, Text doubles decode (lenient doubles) text value) ∧
        (¬∃ value, Text doubles decode strict text value) ∧ ¬Overflows doubles decode text := by
  have hsize' : text.length < 2 ^ 32 := by omega
  constructor
  · rintro ⟨result, hparses, hresult⟩
    match result with
    | .ok value => exact Or.inl ⟨value, Text.common_of_parses hsize' hresult hparses⟩
    | .error .rejected =>
      refine Or.inr ⟨fun ⟨value, htext⟩ ↦ ?_, hresult, fun hoverflows ↦ ?_⟩
      · cases (parses_of_text hsize' htext).unique hparses
      · cases (parses_of_overflows hsize' hoverflows).unique hparses
    | .error .outOfRange => exact hresult.elim
    | .error .outOfBounds => exact hresult.elim
  · rintro (⟨value, htext⟩ | ⟨hlenient, hstrict, hoverflows⟩)
    · exact ⟨.ok value, parses_of_text hsize' (htext.within common_within_lenient),
        htext.within common_within_strict⟩
    · exact ⟨.error .rejected, parses_rejected hsize hlenient hoverflows, hstrict⟩

/-- Longer texts of JSON are not read to their end. -/
theorem parse_conforms_iff (doubles : Doubles F) (decode : List Char → List Char)
    (text : List Char) :
    (text.length + 1 < 2 ^ 32 → (Conforms doubles decode text ↔
      (∃ value, Text doubles decode (common doubles) text value) ∨
        (¬∃ value, Text doubles decode (lenient doubles) text value) ∧
        (¬∃ value, Text doubles decode strict text value) ∧ ¬Overflows doubles decode text)) ∧
    (2 ^ 32 ≤ text.length → (∃ value, Text doubles decode strict text value) →
      ¬Conforms doubles decode text) := by
  refine ⟨conforms_iff_of_lt, fun hsize hstrict ↦ ?_⟩
  rintro ⟨result, hparses, hresult⟩
  match result with
  | .ok value => exact not_parses_of_le hsize value hparses
  | .error .rejected => exact hresult hstrict
  | .error .outOfRange => exact hresult
  | .error .outOfBounds => exact hresult

section

private def unitDoubles : Doubles Unit := ⟨fun _ ↦ (), fun _ ↦ true⟩

theorem conforms_array : Conforms unitDoubles id ['[', '1', ']'] := by
  refine ((parse_conforms_iff unitDoubles id _).1 (by decide)).mpr (Or.inl ⟨.array [.int 1], ?_⟩)
  have hnumber : Number (common unitDoubles) [] ['1'] [] [] :=
    ⟨Or.inl rfl, ⟨⟨by simp, by simp⟩, Or.inr (Or.inr (by simp))⟩, Or.inl rfl, Or.inl rfl, by
      simp only [common, Convertible]; decide⟩
  have hreads : Reads unitDoubles id (common unitDoubles) ['1'] (.int 1) := .number hnumber
  have hitem : ∀ item ∈ [(⟨[], ['1'], .int 1, []⟩ : Item Unit)],
      Reads unitDoubles id (common unitDoubles) item.text item.value :=
    forall_mem_singleton.mpr hreads
  have hspaced : ∀ item ∈ [(⟨[], ['1'], .int 1, []⟩ : Item Unit)], item.Spaced :=
    forall_mem_singleton.mpr ⟨by simp [Whitespace], by simp [Whitespace]⟩
  exact ⟨⟨[], ['[', '1', ']'], .array [.int 1], []⟩, ⟨by simp [Whitespace], by simp [Whitespace]⟩,
    .array hspaced hitem, rfl, rfl⟩

/-- A number of twenty digits is not a `long long`. -/
theorem not_conforms_bigNumber : ¬Conforms unitDoubles id (replicate 20 '9') := by
  have hoverflows : Overflows unitDoubles id (replicate 20 '9') := by
    have hthrows : ¬Convertible unitDoubles ([] ++ replicate 20 '9' ++ []) := by
      simp only [Convertible]
      decide
    have hdigits : ∀ c ∈ replicate 20 '9', c.isDigit := fun c hc ↦ by
      obtain rfl := eq_of_mem_replicate hc
      rfl
    exact ⟨[], _, by simp [Whitespace], rfl, @Reaches.number _ _ _ [] _ [] []
      (Or.inl rfl) ⟨by simp, hdigits⟩ (Or.inl rfl) (by rintro c ⟨⟩) hthrows⟩
  rintro ⟨result, hparses, hresult⟩
  have hsize : (replicate 20 '9').length < 2 ^ 32 := by
    rw [length_replicate]
    decide
  have hthrows := parses_of_overflows hsize hoverflows
  obtain rfl := hthrows.unique hparses
  exact hresult

end

end Banjo.JSON
