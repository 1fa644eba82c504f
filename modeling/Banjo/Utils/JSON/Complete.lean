import Banjo.Utils.JSON.Runs

/-!
# Everything in the parser's dialect is parsed

By induction on how a text is read. An array or object is parsed item by item, with the values so
far in front of those to come.
-/

open List Option

namespace Banjo.JSON

open Parsing

variable {F : Type} {doubles : Doubles F} {decode : List Char → List Char} {buffer : List Char}

/-- Wherever this text stands in the buffer and ends like a value, the parser finds its value. -/
def Parsed (buffer : List Char) (doubles : Doubles F) (text : List Char) (value : Value F) : Prop :=
  ∀ {position : ℕ} {rest : List Char} (fuel : ℕ), At buffer position (text ++ rest) →
    Delimited rest → 2 * text.length < fuel →
      parseValue buffer doubles fuel position = some (.ok value, position + text.length)

/-- A text that begins with a character that is neither white space nor the end of an array. -/
def Visible (text : List Char) : Prop :=
  ∃ c text', text = c :: text' ∧ isWhitespace c = false ∧ c ≠ ']'

variable {c : Char}

variable {text : List Char}

theorem Visible.head (h : Visible text) (rest : List Char)
    (hc : (text ++ rest).head? = some c) : isWhitespace c = false ∧ c ≠ ']' := by
  obtain ⟨c', text', rfl, hspace, hclose⟩ := h
  obtain rfl : c' = c := by simpa using hc
  exact ⟨hspace, hclose⟩

variable (hsize : buffer.length < 2 ^ 32)
include hsize

/-! ## Arrays -/

variable {fuel position : ℕ} {rest : List Char}

variable {item : Item F} {space : List Char}

theorem parseItems_step (acc : List (Value F))
    (hparsed : Parsed buffer doubles item.text item.value) (hafter : Whitespace item.after)
    (hspace : Whitespace space) (hrest : ∀ c, rest.head? = some c → isWhitespace c = false)
    (h : At buffer position (item.text ++ (item.after ++ ',' :: (space ++ rest))))
    (hfuel : 2 * (item.text.length + item.after.length + space.length) < fuel) :
    parseItems buffer doubles (fuel + 1) acc position =
      parseItems buffer doubles fuel (acc ++ [item.value])
        (position + item.text.length + item.after.length + 1 + space.length) := by
  have hdelimited : Delimited (item.after ++ ',' :: (space ++ rest)) :=
    delimited_of_whitespace hafter (by rintro c ⟨⟩; simp)
  rw [parseItems, bind_of_ok (hparsed fuel h hdelimited (by omega)),
    parseNext_comma hsize _ _ hafter (by decide) hspace hrest h.append (by omega) (by omega)]

theorem parseItems_last (acc : List (Value F))
    (hparsed : Parsed buffer doubles item.text item.value) (hafter : Whitespace item.after)
    (h : At buffer position (item.text ++ (item.after ++ ']' :: rest)))
    {fuel : ℕ} (hfuel : 2 * (item.text.length + item.after.length) < fuel) :
    parseItems buffer doubles (fuel + 1) acc position =
      some (.ok (.array (acc ++ [item.value])),
        position + item.text.length + (item.after.length + 1)) := by
  have hdelimited : Delimited (item.after ++ ']' :: rest) :=
    delimited_of_whitespace hafter (by rintro c ⟨⟩; simp)
  rw [parseItems, bind_of_ok (hparsed fuel h hdelimited (by omega)),
    parseNext_close hsize _ _ hafter (by decide) h.append (by omega)]

theorem parseItems_eq (items : List (Item F)) {first : Item F} (acc : List (Value F))
    (hspaced : ∀ item ∈ first :: items, item.Spaced)
    (hvisible : ∀ item ∈ first :: items, Visible item.text)
    (hparsed : ∀ item ∈ first :: items, Parsed buffer doubles item.text item.value)
    (h : At buffer position (first.text ++ (first.after ++
      ((items.flatMap fun item ↦ ',' :: item.element) ++ ']' :: rest)))) {fuel : ℕ}
    (hfuel : 2 * (first.text.length + first.after.length +
      (items.flatMap fun item ↦ ',' :: item.element).length) + 1 < fuel) :
    parseItems buffer doubles fuel acc position =
      some (.ok (.array (acc ++ (first :: items).map Item.value)),
        position + (first.text.length + first.after.length +
          ((items.flatMap fun item ↦ ',' :: item.element).length + 1))) := by
  induction items generalizing first acc position fuel with
  | nil =>
    obtain _ | fuel := fuel
    · omega
    rw [parseItems_last hsize acc (hparsed first mem_cons_self)
      (hspaced first mem_cons_self).after h (by omega)]
    simp [Nat.add_assoc]
  | cons second items ih =>
    obtain _ | fuel := fuel
    · omega
    have hsecond := hspaced second (by simp)
    simp only [flatMap_cons, Item.element, cons_append, append_assoc,
      length_cons, length_append] at h hfuel ⊢
    rw [parseItems_step hsize acc (hparsed first mem_cons_self)
      (hspaced first mem_cons_self).after hsecond.before
      (fun c hc ↦ ((hvisible second (by simp)).head _ hc).1) h (by omega),
      ih _ (fun item hmem ↦ hspaced item (mem_cons_of_mem _ hmem))
        (fun item hmem ↦ hvisible item (mem_cons_of_mem _ hmem))
        (fun item hmem ↦ hparsed item (mem_cons_of_mem _ hmem))
        h.append.append.tail.append (by simp only [Item.element]; omega)]
    simp only [Item.element, append_assoc, singleton_append, map_cons]
    congr 2
    omega

/-! ## Objects -/

variable {member : Member F}

omit hsize in
/-- The first character of a name. -/
theorem Member.Named.visible {dialect : Dialect} (h : member.Named dialect decode)
    (rest : List Char) (hc : (member.body ++ rest).head? = some c) : isWhitespace c = false := by
  obtain rfl : member.quote = c := by simpa [Member.body] using hc
  obtain hquote | ⟨-, hquote⟩ := h.quote
  · rw [hquote]
    decide
  · exact hquote

variable (acc : List (List Char × Value F))

/-- A name is read up to its value. -/
theorem parseMembers_name
    (hnamed : member.Named (lenient doubles) decode)
    (hrest : ∀ c, rest.head? = some c → isWhitespace c = false)
    (h : At buffer position (member.quote :: (member.name ++ '"' :: (member.behindName ++
      ':' :: (member.item.before ++ rest)))))
    (hfuel : member.name.length + member.behindName.length + member.item.before.length < fuel) :
    parseMembers buffer doubles (fuel + 1) acc position = (parseValue buffer doubles fuel >>=
      fun value ↦ parseNext buffer fuel '}' (.object (add acc member.key value))
        (parseMembers buffer doubles fuel (add acc member.key value)))
      (position + (member.name.length + 2) + member.behindName.length + 1 +
        member.item.before.length) := by
  have hbehind : At buffer (position + (member.name.length + 2))
      (member.behindName ++ ':' :: (member.item.before ++ rest)) := by
    have := h.tail.append.tail
    rwa [show position + 1 + member.name.length + 1 = position + (member.name.length + 2) by
      omega] at this
  rw [parseMembers, bind_of_ok (parseStringRaw_eq hsize hnamed.name h (by omega)),
    bind_of_ok (skipWhitespace_eq hsize hnamed.behindName (by rintro c ⟨⟩; decide) hbehind
      (by omega)), get_bind, hbehind.append.getElem?, if_pos head?_cons,
    hbehind.append.advance_bind hsize, bind_of_ok (skipWhitespace_eq hsize hnamed.item.before hrest
      hbehind.append.tail (by omega))]

omit hsize in
theorem Member.body_length (member : Member F) : member.body.length =
    member.name.length + 2 + member.behindName.length + 1 + member.item.before.length +
      member.item.text.length + member.item.after.length := by
  simp only [Member.body, Item.element, length_cons, length_append]
  omega

omit hsize in
theorem Member.body_append (member : Member F) (rest : List Char) : member.body ++ rest =
    member.quote :: (member.name ++ '"' :: (member.behindName ++ ':' :: (member.item.before ++
      (member.item.text ++ (member.item.after ++ rest))))) := by
  simp [Member.body, Item.element]

theorem parseMembers_step (hparsed : Parsed buffer doubles member.item.text member.item.value)
    (hvisible : Visible member.item.text) (hnamed : member.Named (lenient doubles) decode)
    (hspace : Whitespace space) (hrest : ∀ c, rest.head? = some c → isWhitespace c = false)
    (h : At buffer position (member.body ++ ',' :: (space ++ rest)))
    (hfuel : 2 * (member.body.length + space.length) < fuel) :
    parseMembers buffer doubles (fuel + 1) acc position =
      parseMembers buffer doubles fuel (add acc member.key member.item.value)
        (position + member.body.length + 1 + space.length) := by
  rw [member.body_append] at h
  rw [member.body_length] at hfuel ⊢
  have hvalue := h.tail.append.tail.append.tail.append
  have hdelimited : Delimited (member.item.after ++ ',' :: (space ++ rest)) :=
    delimited_of_whitespace hnamed.item.after (by rintro c ⟨⟩; simp)
  rw [parseMembers_name hsize acc hnamed (fun c hc ↦ (hvisible.head _ hc).1) h (by omega)]
  have heq : position + (member.name.length + 2) + member.behindName.length + 1 +
      member.item.before.length = position + 1 + member.name.length + 1 +
        member.behindName.length + 1 + member.item.before.length := by omega
  rw [heq, bind_of_ok (hparsed fuel hvalue hdelimited (by omega)),
    parseNext_comma hsize _ _ hnamed.item.after (by decide) hspace hrest hvalue.append (by omega)
      (by omega)]
  congr 1
  omega

theorem parseMembers_last
    (hparsed : Parsed buffer doubles member.item.text member.item.value)
    (hvisible : Visible member.item.text) (hnamed : member.Named (lenient doubles) decode)
    (h : At buffer position (member.body ++ '}' :: rest)) {fuel : ℕ}
    (hfuel : 2 * member.body.length < fuel) :
    parseMembers buffer doubles (fuel + 1) acc position =
      some (.ok (.object (add acc member.key member.item.value)),
        position + (member.body.length + 1)) := by
  rw [member.body_append] at h
  rw [member.body_length] at hfuel ⊢
  have hvalue := h.tail.append.tail.append.tail.append
  have hdelimited : Delimited (member.item.after ++ '}' :: rest) :=
    delimited_of_whitespace hnamed.item.after (by rintro c ⟨⟩; simp)
  rw [parseMembers_name hsize acc hnamed (fun c hc ↦ (hvisible.head _ hc).1) h (by omega)]
  have heq : position + (member.name.length + 2) + member.behindName.length + 1 +
      member.item.before.length = position + 1 + member.name.length + 1 +
        member.behindName.length + 1 + member.item.before.length := by omega
  rw [heq, bind_of_ok (hparsed fuel hvalue hdelimited (by omega)),
    parseNext_close hsize _ _ hnamed.item.after (by decide) hvalue.append (by omega)]
  congr 2
  omega

theorem parseMembers_eq (members : List (Member F)) {first : Member F}
    (acc : List (List Char × Value F))
    (hnamed : ∀ member ∈ first :: members, member.Named (lenient doubles) decode)
    (hvisible : ∀ member ∈ first :: members, Visible member.item.text)
    (hparsed : ∀ member ∈ first :: members,
      Parsed buffer doubles member.item.text member.item.value)
    (h : At buffer position (first.body ++
      ((members.flatMap fun member ↦ ',' :: member.element) ++ '}' :: rest))) {fuel : ℕ}
    (hfuel : 2 * (first.body.length +
      (members.flatMap fun member ↦ ',' :: member.element).length) + 1 < fuel) :
    parseMembers buffer doubles fuel acc position =
      some (.ok (.object ((first :: members).foldl
          (fun object member ↦ add object member.key member.item.value) acc)),
        position + (first.body.length +
          ((members.flatMap fun member ↦ ',' :: member.element).length + 1))) := by
  induction members generalizing first acc position fuel with
  | nil =>
    obtain _ | fuel := fuel
    · omega
    rw [parseMembers_last hsize acc (hparsed first mem_cons_self)
      (hvisible first mem_cons_self) (hnamed first mem_cons_self) h (by simp at hfuel; omega)]
    simp
  | cons second members ih =>
    obtain _ | fuel := fuel
    · omega
    have hsecond := hnamed second (by simp)
    simp only [flatMap_cons, Member.element, cons_append, append_assoc,
      length_cons, length_append] at h hfuel ⊢
    rw [parseMembers_step hsize acc (hparsed first mem_cons_self)
      (hvisible first mem_cons_self) (hnamed first mem_cons_self) hsecond.before
      (fun c hc ↦ hsecond.visible _ hc) h (by omega),
      ih _ (fun member hmem ↦ hnamed member (mem_cons_of_mem _ hmem))
        (fun member hmem ↦ hvisible member (mem_cons_of_mem _ hmem))
        (fun member hmem ↦ hparsed member (mem_cons_of_mem _ hmem))
        h.append.tail.append (by simp only [Member.element]; omega)]
    simp only [Member.element, foldl_cons]
    congr 2
    omega

/-! ## Values -/

omit hsize in
theorem parseValue_number (hc : c = '-' ∨ c.isDigit = true) (h : At buffer position (c :: rest))
    (fuel : ℕ) :
    parseValue buffer doubles (fuel + 1) position = parseNumber buffer doubles fuel position := by
  have hne : ∀ letter, letter ≠ '-' → letter.isDigit = false → c ≠ letter := by
    rintro letter hminus hdigit rfl
    obtain rfl | hc := hc
    · exact hminus rfl
    · rw [hdigit] at hc
      cases hc
  rw [parseValue, get_bind, h.getElem?, head?_cons]
  dsimp only
  rw [if_neg (hne 'n' (by decide) (by decide)), if_neg (hne 'f' (by decide) (by decide)),
    if_neg (hne 't' (by decide) (by decide)), if_pos hc]

omit hsize in
/-- The first character of a number. -/
theorem exists_number_head {sign digits : List Char} (hsign : sign = [] ∨ sign = ['-'])
    (hdigits : Digits digits) (rest : List Char) :
    ∃ c text, sign ++ digits ++ rest = c :: text ∧ (c = '-' ∨ c.isDigit = true) := by
  obtain ⟨c, digits, rfl⟩ := exists_cons_of_ne_nil hdigits.1
  obtain rfl | rfl := hsign
  · exact ⟨c, _, rfl, Or.inr (hdigits.2 c mem_cons_self)⟩
  · exact ⟨'-', _, rfl, Or.inl rfl⟩

variable {value : Value F}

theorem parsed_of_reads
    (h : Reads doubles decode (lenient doubles) text value) : Parsed buffer doubles text value := by
  induction h with
  | null =>
    intro position rest fuel hat _ hfuel
    obtain _ | fuel := fuel
    · omega
    rw [parseValue, get_bind, hat.getElem?]
    exact parseKeyword_eq hsize .null hat
  | boolFalse =>
    intro position rest fuel hat _ hfuel
    obtain _ | fuel := fuel
    · omega
    rw [parseValue, get_bind, hat.getElem?]
    exact parseKeyword_eq hsize (.bool false) hat
  | boolTrue =>
    intro position rest fuel hat _ hfuel
    obtain _ | fuel := fuel
    · omega
    rw [parseValue, get_bind, hat.getElem?]
    exact parseKeyword_eq hsize (.bool true) hat
  | @number sign digits fraction exponent hnumber =>
    intro position rest fuel hat hrest hfuel
    obtain _ | fuel := fuel
    · omega
    obtain rfl : exponent = [] := hnumber.exponential.resolve_right fun hexponent ↦ hexponent.1
    have hconvertible : Convertible doubles (sign ++ digits ++ fraction) := by
      have := hnumber.allowed
      rwa [append_nil] at this
    rw [append_nil] at hat hfuel ⊢
    obtain ⟨c, text, hhead, hc⟩ :=
      exists_number_head hnumber.signed hnumber.integer.1 (fraction ++ rest)
    rw [← append_assoc] at hhead
    have hlength := length_pos_iff.mpr hnumber.integer.1.1
    rw [parseValue_number hc (hhead ▸ hat), parseNumber_eq hsize hnumber.signed hnumber.integer.1
      hnumber.fractional (hrest.stops fraction) hat (by simp at hfuel; omega),
      convert_eq_ok hnumber.signed hnumber.integer.1 hnumber.fractional hconvertible]
  | @string body value hchars =>
    intro position rest fuel hat _ hfuel
    obtain _ | fuel := fuel
    · omega
    rw [cons_append, append_assoc] at hat
    rw [parseValue, get_bind, hat.getElem?]
    simp only [length_cons, length_append] at hfuel ⊢
    exact bind_of_ok (parseStringRaw_eq hsize hchars hat (by omega)) _
  | @emptyArray space hspace =>
    intro position rest fuel hat _ hfuel
    obtain _ | fuel := fuel
    · omega
    rw [cons_append, append_assoc] at hat
    rw [parseValue, get_bind, hat.getElem?]
    simp only [length_cons, length_append] at hfuel ⊢
    exact parseOpen_empty hsize _ _ hspace (by decide) hat (by omega)
  | @array first items hspaced hreads ih =>
    intro position rest fuel hat _ hfuel
    obtain _ | fuel := fuel
    · omega
    simp only [cons_append, append_assoc, Item.element, nil_append] at hat
    rw [parseValue, get_bind, hat.getElem?]
    simp only [length_cons, length_append, Item.element, length_nil] at hfuel ⊢
    have hvisible := fun item hmem ↦ (hreads item hmem).exists_head
    have hfirst := hspaced first mem_cons_self
    refine (parseOpen_loop hsize _ _ hfirst.before (fun c hc ↦
      Visible.head (hvisible first mem_cons_self) _ hc) hat (by omega)).trans ?_
    rw [parseItems_eq hsize items [] hspaced hvisible ih hat.tail.append
      (by simp only [Item.element]; omega)]
    simp only [Item.element, nil_append]
    congr 2
    omega
  | @emptyObject space hspace =>
    intro position rest fuel hat _ hfuel
    obtain _ | fuel := fuel
    · omega
    rw [cons_append, append_assoc] at hat
    rw [parseValue, get_bind, hat.getElem?]
    simp only [length_cons, length_append] at hfuel ⊢
    exact parseOpen_empty hsize _ _ hspace (by decide) hat (by omega)
  | @object first members hquote hnamed hreads ih =>
    intro position rest fuel hat _ hfuel
    obtain _ | fuel := fuel
    · omega
    simp only [cons_append, append_assoc, Member.element, nil_append] at hat
    rw [parseValue, get_bind, hat.getElem?]
    simp only [length_cons, length_append, Member.element, length_nil] at hfuel ⊢
    have hvisible := fun member hmem ↦ (hreads member hmem).exists_head
    have hfirst := hnamed first mem_cons_self
    refine (parseOpen_loop hsize _ _ hfirst.before (fun c hc ↦ ⟨hfirst.visible _ hc, ?_⟩) hat
      (by omega)).trans ?_
    · obtain rfl : first.quote = c := by simpa [Member.body] using hc
      exact hquote
    · rw [parseMembers_eq hsize members [] hnamed hvisible ih hat.tail.append
        (by simp only [Member.element]; omega)]
      simp only [Member.element, entries]
      congr 2
      omega

/-! ## Whole texts -/

omit hsize in
theorem Parses.unique {result result' : Except Failure (Value F)} (h : Parses buffer doubles result)
    (h' : Parses buffer doubles result') : result = result' := by
  obtain ⟨turns, h⟩ := h
  obtain ⟨turns', h'⟩ := h'
  have hrun := h (max turns turns') (le_max_left _ _)
  rw [h' _ (le_max_right _ _)] at hrun
  exact (some.inj hrun).symm

theorem parses_of_text (h : Text doubles decode (lenient doubles) buffer value) :
    Parses buffer doubles (.ok value) := by
  obtain ⟨item, hspaced, hreads, htext, rfl⟩ := h
  refine ⟨2 * buffer.length + 1, fun fuel hfuel ↦ ?_⟩
  have hlength := congrArg List.length htext
  have hat : At buffer 0 (item.before ++ (item.text ++ item.after)) := ⟨Nat.zero_le _, htext⟩
  simp only [Item.element, length_append] at hlength
  have hbefore := skipWhitespace_eq hsize hspaced.before
    (fun c hc ↦ (Visible.head hreads.exists_head _ hc).1) hat (show _ < fuel by omega)
  have hvalue := parsed_of_reads hsize hreads fuel hat.append
    (by simpa using delimited_of_whitespace hspaced.after (show Delimited [] by rintro c ⟨⟩))
    (by omega)
  have hafter := hat.append.append
  rw [← append_nil item.after] at hafter
  have hend := skipWhitespace_eq hsize hspaced.after (by rintro c ⟨⟩) hafter
    (show _ < fuel by omega)
  rw [parse, hbefore]
  dsimp only [bind_eq_bind, bind_some]
  rw [hvalue]
  dsimp only [bind_some]
  rw [hend]
  dsimp only [bind_some]
  rw [if_pos (by omega)]
  rfl

end Banjo.JSON
