import Banjo.Utils.JSON.Outcomes

/-!
# The JSON serializer

`length` of an array or an object is an `unsigned`, as are the depth and the counters of the loops.
-/

open List

namespace Banjo.JSON

variable {F : Type}

/-- `operator<<` of a `long long` -/
def serializeInt (value : ℤ) : List Char := (toString value).toList

def escape : Char → List Char
  | '"' => ['\\', '"']
  | '\\' => ['\\', '\\']
  | '\x08' => ['\\', 'b']
  | '\x0c' => ['\\', 'f']
  | '\n' => ['\\', 'n']
  | '\r' => ['\\', 'r']
  | '\t' => ['\\', 't']
  | c => [c]

def serializeString (value : List Char) : List Char := '"' :: (value.flatMap escape ++ ['"'])

def emitIndent (indent : ℕ) : List Char := replicate (2 * indent % 2 ^ 32) ' '

mutual

/-- `serializeFloat` is what the library writes for a double. -/
def serialize (serializeFloat : F → List Char) (indent : ℕ) : Value F → List Char
  | .null => ['n', 'u', 'l', 'l']
  | .bool value => if value then ['t', 'r', 'u', 'e'] else ['f', 'a', 'l', 's', 'e']
  | .int value => serializeInt value
  | .float value => serializeFloat value
  | .string value => serializeString value
  | .array values =>
    '[' :: if values.length % 2 ^ 32 = 0 then [']'] else
      '\n' :: (serializeItems serializeFloat (indent + 1) (values.length % 2 ^ 32) 0 values ++
        emitIndent indent ++ [']'])
  | .object entries =>
    '{' :: if entries.length % 2 ^ 32 = 0 then ['}'] else
      '\n' :: (serializeEntries serializeFloat (indent + 1) (entries.length % 2 ^ 32) 0 entries ++
        emitIndent indent ++ ['}'])

/-- The loop of `serialize_array` -/
def serializeItems (serializeFloat : F → List Char) (indent length : ℕ) :
    ℕ → List (Value F) → List Char
  | _, [] => []
  | i, value :: values =>
    if i < length then
      emitIndent indent ++ serialize serializeFloat indent value ++
        (if i ≠ length - 1 then [','] else []) ++
        '\n' :: serializeItems serializeFloat indent length (i + 1) values
    else []

/-- The loop of `serialize_object` -/
def serializeEntries (serializeFloat : F → List Char) (indent length : ℕ) :
    ℕ → List (List Char × Value F) → List Char
  | _, [] => []
  | index, (key, value) :: entries =>
    emitIndent indent ++ serializeString key ++ [':', ' '] ++
      serialize serializeFloat indent value ++
      (if index ≠ length - 1 then [','] else []) ++
      '\n' :: serializeEntries serializeFloat indent length ((index + 1) % 2 ^ 32) entries

end

/-!
## What the serializer writes stands for the value

The serializer writes the text of a value, as long as no array or object in it has `2 ^ 32`
elements. Of those it leaves elements out.
-/

variable {F : Type}

/-! ## Parts of values -/

theorem Value.induction {motive : Value F → Prop} (string : ∀ value, motive (.string value))
    (int : ∀ value, motive (.int value)) (float : ∀ value, motive (.float value))
    (bool : ∀ value, motive (.bool value))
    (object : ∀ entries, (∀ entry ∈ entries, motive entry.2) → motive (.object entries))
    (array : ∀ values, (∀ value ∈ values, motive value) → motive (.array values))
    (null : motive .null) (value : Value F) : motive value :=
  @Value.rec F motive (fun entries ↦ ∀ entry ∈ entries, motive entry.2)
    (fun values ↦ ∀ value ∈ values, motive value) (fun entry ↦ motive entry.2)
    string int float bool object array null
    (by simp) (fun _ _ hhead htail ↦ forall_mem_cons.mpr ⟨hhead, htail⟩)
    (by simp) (fun _ _ hhead htail ↦ forall_mem_cons.mpr ⟨hhead, htail⟩)
    (fun _ _ h ↦ h) value

/-- A value in another one. -/
inductive Part : Value F → Value F → Prop
  | refl {value} : Part value value
  | item {part value values} (h : Part part value) (hmem : value ∈ values) :
      Part part (.array values)
  | entry {part entry entries} (h : Part part entry.2) (hmem : entry ∈ entries) :
      Part part (.object entries)

/-- Of a value and all its parts. -/
def Everywhere (p : Value F → Prop) (value : Value F) : Prop := ∀ part, Part part value → p part

section Everywhere

variable {p : Value F → Prop}

theorem Everywhere.self {value : Value F} (h : Everywhere p value) : p value := h value .refl

theorem Everywhere.item {values : List (Value F)} (h : Everywhere p (.array values))
    {value : Value F} (hmem : value ∈ values) : Everywhere p value :=
  fun part hpart ↦ h part (.item hpart hmem)

theorem Everywhere.entry {entries : List (List Char × Value F)} (h : Everywhere p (.object entries))
    {entry : List Char × Value F} (hmem : entry ∈ entries) : Everywhere p entry.2 :=
  fun part hpart ↦ h part (.entry hpart hmem)

/-- A value without parts. -/
theorem everywhere_of_leaf {value : Value F} (h : p value)
    (harray : ∀ values, value ≠ .array values) (hobject : ∀ entries, value ≠ .object entries) :
    Everywhere p value := by
  intro part hpart
  cases hpart with
  | refl => exact h
  | item => exact absurd rfl (harray _)
  | entry => exact absurd rfl (hobject _)

theorem everywhere_array {values : List (Value F)} :
    Everywhere p (.array values) ↔ p (.array values) ∧ ∀ value ∈ values, Everywhere p value := by
  constructor
  · exact fun h ↦ ⟨h.self, fun value hmem ↦ h.item hmem⟩
  · rintro ⟨hself, hitems⟩ part hpart
    cases hpart with
    | refl => exact hself
    | item hpart hmem => exact hitems _ hmem _ hpart

theorem everywhere_object {entries : List (List Char × Value F)} :
    Everywhere p (.object entries) ↔
      p (.object entries) ∧ ∀ entry ∈ entries, Everywhere p entry.2 := by
  constructor
  · exact fun h ↦ ⟨h.self, fun value hmem ↦ h.entry hmem⟩
  · rintro ⟨hself, hentries⟩ part hpart
    cases hpart with
    | refl => exact hself
    | entry hpart hmem => exact hentries _ hmem _ hpart

end Everywhere

/-- What the types of the program hold: a `long long`, and one entry for a key. Doubles are left
out. -/
def Held : Value F → Prop
  | .int value => -2 ^ 63 ≤ value ∧ value < 2 ^ 63
  | .float _ => False
  | .object entries => (entries.map Prod.fst).Nodup
  | _ => True

/-- The number of elements. -/
def count : Value F → ℕ
  | .array values => values.length
  | .object entries => entries.length
  | _ => 0

/-- Every array and object has less than `2 ^ 32` elements. -/
def Small (value : Value F) : Prop := Everywhere (fun part ↦ count part < 2 ^ 32) value

/-! ## What is left out -/

mutual

/-- What the serializer writes of a value. -/
def truncate : Value F → Value F
  | .array values => .array ((truncateItems values).take (values.length % 2 ^ 32))
  | .object entries =>
    .object (if entries.length < 2 ^ 32 then truncateEntries entries else [])
  | .string value => .string value
  | .int value => .int value
  | .float value => .float value
  | .bool value => .bool value
  | .null => .null

def truncateItems : List (Value F) → List (Value F)
  | [] => []
  | value :: values => truncate value :: truncateItems values

def truncateEntries : List (List Char × Value F) → List (List Char × Value F)
  | [] => []
  | (key, value) :: entries => (key, truncate value) :: truncateEntries entries

end

theorem truncateItems_eq (values : List (Value F)) :
    truncateItems values = values.map truncate := by
  induction values with
  | nil => rfl
  | cons value values ih => rw [truncateItems, ih, map_cons]

theorem truncateEntries_eq (entries : List (List Char × Value F)) :
    truncateEntries entries = entries.map fun entry ↦ (entry.1, truncate entry.2) := by
  induction entries with
  | nil => rfl
  | cons entry entries ih => rw [truncateEntries, ih, map_cons]

theorem map_eq_self_iff {α : Type} {f : α → α} {list : List α} :
    list.map f = list ↔ ∀ a ∈ list, f a = a := by
  conv_lhs => rw [← map_id list, map_map]
  exact map_inj_left

/-- Only values of less than `2 ^ 32` elements each are written in full. -/
theorem truncate_eq_self_iff (value : Value F) : truncate value = value ↔ Small value := by
  induction value using Value.induction with
  | array values ih =>
    rw [Small, everywhere_array, truncate, truncateItems_eq, Value.array.injEq]
    constructor
    · intro h
      have hlength := congrArg List.length h
      rw [length_take, length_map] at hlength
      have hlt : values.length < 2 ^ 32 := by
        have := Nat.mod_lt values.length (show 0 < 2 ^ 32 by decide)
        omega
      rw [Nat.mod_eq_of_lt hlt, take_of_length_le (by simp)] at h
      refine ⟨hlt, fun value hmem ↦ (ih value hmem).mp ?_⟩
      exact map_eq_self_iff.mp h value hmem
    · rintro ⟨hlt, hitems⟩
      replace hlt : values.length < 2 ^ 32 := hlt
      rw [Nat.mod_eq_of_lt hlt, take_of_length_le (by simp)]
      exact map_eq_self_iff.mpr fun value hmem ↦ (ih value hmem).mpr (hitems value hmem)
  | object entries ih =>
    rw [Small, everywhere_object, truncate, truncateEntries_eq, Value.object.injEq]
    have hmap : (entries.map fun entry ↦ (entry.1, truncate entry.2)) = entries ↔
        ∀ entry ∈ entries, Small entry.2 := by
      rw [map_eq_self_iff]
      refine forall₂_congr fun entry hmem ↦ ?_
      rw [← ih entry hmem, Prod.ext_iff]
      simp
    constructor
    · intro h
      by_cases hlt : entries.length < 2 ^ 32
      · rw [if_pos hlt, hmap] at h
        exact ⟨hlt, h⟩
      · rw [if_neg hlt] at h
        rw [← h] at hlt
        exact absurd (by simp) hlt
    · rintro ⟨hlt, hentries⟩
      replace hlt : entries.length < 2 ^ 32 := hlt
      rw [if_pos hlt, hmap]
      exact hentries
  | string | int | float | bool | null =>
    exact iff_of_true rfl (everywhere_of_leaf (by decide : 0 < 2 ^ 32) (by simp) (by simp))

/-!
## The serializer writes the parser's dialect

By induction on the value. The items of an array are those the loop has still to write.
-/

variable {F : Type} {doubles : Doubles F} {decode : List Char → List Char}

/-! ## Strings and integers -/

theorem chars_escape (value : List Char) :
    Chars (lenient doubles) decode (value.flatMap escape) value := by
  induction value with
  | nil => exact .nil
  | cons c value ih =>
    rw [flatMap_cons]
    have hplain : ∀ c, c ≠ '"' → c ≠ '\\' →
        Chars (lenient doubles) decode ([c] ++ value.flatMap escape) (c :: value) :=
      fun c hquote hbackslash ↦ .plain hquote hbackslash (Or.inl trivial) ih
    unfold escape
    split
    all_goals first
      | exact .escape rfl ih
      | exact hplain c ‹_› ‹_›

theorem digits_toDigits (n : ℕ) : Digits (Nat.toDigits 10 n) :=
  ⟨Nat.toDigits_ne_nil, fun _ hmem ↦ Nat.isDigit_of_mem_toDigits (by decide) (by decide) hmem⟩

theorem ofDigits_toDigits (n : ℕ) : ofDigits (Nat.toDigits 10 n) = n := by
  rw [ofDigits, Nat.ofDigitChars_ten_toDigits]

/-- The sign and the digits of a number. -/
theorem serializeInt_eq (value : ℤ) : ∃ sign n, (sign = [] ∨ sign = ['-']) ∧
    serializeInt value = sign ++ Nat.toDigits 10 n ∧
      value = if sign = [] then (n : ℤ) else -(n : ℤ) := by
  cases value with
  | ofNat n =>
    refine ⟨[], n, Or.inl rfl, ?_, rfl⟩
    change (toString n).toList = _
    rw [Nat.toString_eq_repr, Nat.toList_repr]
    rfl
  | negSucc n =>
    refine ⟨['-'], n + 1, Or.inr rfl, ?_, rfl⟩
    change ("-" ++ Nat.repr (n + 1)).toList = _
    rw [String.toList_append, Nat.toList_repr]
    rfl

theorem stoll_serializeInt {value : ℤ} (h : -2 ^ 63 ≤ value ∧ value < 2 ^ 63) :
    (stoll (serializeInt value)).isSome := by
  obtain ⟨sign, n, hsign, htext, hvalue⟩ := serializeInt_eq value
  have hdigits := digits_toDigits n
  have htake : (Nat.toDigits 10 n).takeWhile Char.isDigit = Nat.toDigits 10 n :=
    takeWhile_eq_self_iff.mpr hdigits.2
  rw [htext]
  obtain rfl | rfl := hsign
  · have hhead : (Nat.toDigits 10 n).head? ≠ some '-' := fun hhead ↦
      absurd (hdigits.2 _ (mem_of_mem_head? hhead)) (by decide)
    rw [if_pos rfl] at hvalue
    subst hvalue
    simp only [stoll, nil_append, decide_eq_false hhead, Bool.false_eq_true, if_false, htake,
      ofDigits_toDigits]
    rw [if_pos ⟨hdigits.1, h⟩]
    rfl
  · rw [if_neg (cons_ne_nil _ _)] at hvalue
    subst hvalue
    simp only [stoll, cons_append, nil_append, head?_cons, tail_cons,
      decide_true, if_true, htake, ofDigits_toDigits]
    rw [if_pos ⟨hdigits.1, h⟩]
    rfl

theorem reads_serializeInt {value : ℤ} (h : -2 ^ 63 ≤ value ∧ value < 2 ^ 63) :
    Reads doubles decode (lenient doubles) (serializeInt value) (.int value) := by
  obtain ⟨sign, n, hsign, htext, hvalue⟩ := serializeInt_eq value
  have hpoint : '.' ∉ serializeInt value := by
    have := point_mem_iff hsign (digits_toDigits n) (Or.inl rfl : Fraction strict [])
    rw [append_nil] at this
    rw [htext]
    exact fun hmem ↦ this.mp hmem rfl
  have hnumber : Number (lenient doubles) sign (Nat.toDigits 10 n) [] [] := by
    refine ⟨hsign, ⟨digits_toDigits n, Or.inl trivial⟩, Or.inl rfl, Or.inl rfl, ?_⟩
    rw [append_nil, append_nil, ← htext]
    change Convertible doubles _
    rw [Convertible, if_neg hpoint]
    exact stoll_serializeInt h
  have hreads : Reads doubles decode (lenient doubles) _ _ := .number hnumber
  rw [numberValue, if_pos ⟨rfl, rfl⟩, ofDigits_toDigits, ← hvalue, append_nil, append_nil,
    ← htext] at hreads
  exact hreads

/-! ## Arrays and objects -/

theorem whitespace_newline (indent : ℕ) : Whitespace ('\n' :: emitIndent indent) := by
  intro c hmem
  obtain rfl | hmem := mem_cons.mp hmem
  · decide
  · rw [eq_of_mem_replicate hmem]
    decide

variable {serializeFloat : F → List Char}

/-- What a value is read as: all that the serializer keeps of it. -/
def Written (doubles : Doubles F) (decode : List Char → List Char) (serializeFloat : F → List Char)
    (indent : ℕ) (value : Value F) : Prop :=
  Reads doubles decode (lenient doubles) (serialize serializeFloat indent value) (truncate value)

/-- The items from `i` on, and the white space in front of the end. -/
theorem items_serializeItems (indent : ℕ) {length i : ℕ} {values : List (Value F)}
    {space : List Char} (hspace : Whitespace space) (hi : i < length)
    (hlength : length ≤ i + values.length)
    (hwritten : ∀ value ∈ values.take (length - i),
      Written doubles decode serializeFloat indent value) :
    ∃ (first : Item F) (items : List (Item F)),
      '\n' :: (serializeItems serializeFloat indent length i values ++ space) =
        first.element ++ items.flatMap (fun item ↦ ',' :: item.element) ∧
      (first :: items).map Item.value = (values.map truncate).take (length - i) ∧
      (∀ item ∈ first :: items, item.Spaced) ∧
      ∀ item ∈ first :: items, Reads doubles decode (lenient doubles) item.text item.value := by
  induction values generalizing i with
  | nil => simp at hlength; omega
  | cons value values ih =>
    have htake : length - i = length - (i + 1) + 1 := by omega
    rw [htake, take_succ_cons] at hwritten
    have hfirst := hwritten value mem_cons_self
    rw [serializeItems, if_pos hi, htake]
    by_cases hlast : i = length - 1
    · -- The last item: the loop ends behind it.
      have hrest : serializeItems serializeFloat indent length (i + 1) values = [] := by
        cases values with
        | nil => rfl
        | cons value values => rw [serializeItems, if_neg (by omega)]
      refine ⟨⟨'\n' :: emitIndent indent, serialize serializeFloat indent value, truncate value,
        '\n' :: space⟩, [], ?_, ?_, ?_, ?_⟩
      · rw [hrest]
        simp [hlast, Item.element]
      · simp [show length - (i + 1) = 0 by omega]
      · rintro item hmem
        obtain rfl := mem_singleton.mp hmem
        refine ⟨whitespace_newline indent, fun c hmem ↦ ?_⟩
        obtain rfl | hmem := mem_cons.mp hmem
        · decide
        · exact hspace c hmem
      · rintro item hmem
        obtain rfl := mem_singleton.mp hmem
        exact hfirst
    · obtain ⟨second, items, htext, hvalues, hspaced, hreads⟩ := ih (by omega)
        (by simp only [length_cons] at hlength; omega)
        fun value hmem ↦ hwritten value (mem_cons_of_mem _ hmem)
      refine ⟨⟨'\n' :: emitIndent indent, serialize serializeFloat indent value, truncate value,
        []⟩, second :: items, ?_, ?_, ?_, ?_⟩
      · rw [flatMap_cons, cons_append, ← htext]
        simp [hlast, Item.element]
      · rw [map_cons, hvalues, map_cons, take_succ_cons]
      · refine forall_mem_cons.mpr ⟨⟨whitespace_newline indent, fun c hmem ↦ ?_⟩, hspaced⟩
        cases hmem
      · exact forall_mem_cons.mpr ⟨hfirst, hreads⟩

/-- The entries from `index` on, and the white space in front of the end. -/
theorem members_serializeEntries (indent : ℕ) {length index : ℕ}
    {entries : List (List Char × Value F)} {space : List Char} (hspace : Whitespace space)
    (hne : entries ≠ []) (hsize : length < 2 ^ 32)
    (hlength : length = index + entries.length)
    (hwritten : ∀ entry ∈ entries, Written doubles decode serializeFloat indent entry.2) :
    ∃ (first : Member F) (members : List (Member F)),
      '\n' :: (serializeEntries serializeFloat indent length index entries ++ space) =
        first.element ++ members.flatMap (fun member ↦ ',' :: member.element) ∧
      (first :: members).map (fun member ↦ (member.key, member.item.value)) =
        truncateEntries entries ∧
      first.quote ≠ '}' ∧ (∀ member ∈ first :: members, member.Named (lenient doubles) decode) ∧
      ∀ member ∈ first :: members,
        Reads doubles decode (lenient doubles) member.item.text member.item.value := by
  induction entries generalizing index with
  | nil => exact absurd rfl hne
  | cons entry entries ih =>
    obtain ⟨key, value⟩ := entry
    have hfirst := hwritten (key, value) mem_cons_self
    rw [serializeEntries, truncateEntries]
    cases entries with
    | nil =>
      have hlast : index = length - 1 := by
        simp at hlength
        omega
      refine ⟨⟨'\n' :: emitIndent indent, '"', key.flatMap escape, key, [], ⟨[' '],
        serialize serializeFloat indent value, truncate value, '\n' :: space⟩⟩, [], ?_, rfl,
        by simp, ?_, ?_⟩
      · simp [hlast, Member.element, Member.body, Item.element, serializeString, serializeEntries]
      · rintro member hmem
        obtain rfl := mem_singleton.mp hmem
        refine ⟨whitespace_newline indent, Or.inl rfl, chars_escape key,
          by simp [Whitespace], ?_, ?_⟩
        · simp [Whitespace]
          decide
        · intro c hmem
          obtain rfl | hmem := mem_cons.mp hmem
          · decide
          · exact hspace c hmem
      · rintro member hmem
        obtain rfl := mem_singleton.mp hmem
        exact hfirst
    | cons entry' entries =>
      have hlast : index ≠ length - 1 := by
        simp only [length_cons] at hlength
        omega
      have hindex : (index + 1) % 2 ^ 32 = index + 1 := by
        simp only [length_cons] at hlength
        exact Nat.mod_eq_of_lt (by omega)
      obtain ⟨second, members, htext, hvalues, -, hnamed, hreads⟩ := ih (cons_ne_nil _ _)
        (show length = index + 1 + (entry' :: entries).length by
          simp only [length_cons] at hlength ⊢; omega)
        fun entry hmem ↦ hwritten entry (mem_cons_of_mem _ hmem)
      refine ⟨⟨'\n' :: emitIndent indent, '"', key.flatMap escape, key, [], ⟨[' '],
        serialize serializeFloat indent value, truncate value, []⟩⟩, second :: members, ?_, ?_,
        by simp, ?_, ?_⟩
      · rw [flatMap_cons, cons_append, ← htext, hindex]
        simp [hlast, Member.element, Member.body, Item.element, serializeString]
      · rw [map_cons, hvalues]
      · refine forall_mem_cons.mpr ⟨⟨whitespace_newline indent, Or.inl rfl, chars_escape key,
          by simp [Whitespace], ?_, ?_⟩, hnamed⟩
        · simp [Whitespace]
          decide
        · simp [Whitespace]
      · exact forall_mem_cons.mpr ⟨hfirst, hreads⟩

/-! ## Lengths -/

variable (serializeFloat) in
theorem length_le_serializeItems (indent : ℕ) {length i : ℕ} {values : List (Value F)}
    {value : Value F} (hmem : value ∈ values.take (length - i)) :
    (serialize serializeFloat indent value).length ≤
      (serializeItems serializeFloat indent length i values).length := by
  induction values generalizing i with
  | nil => simp at hmem
  | cons first values ih =>
    by_cases hi : i < length
    · rw [show length - i = length - (i + 1) + 1 by omega, take_succ_cons] at hmem
      rw [serializeItems, if_pos hi]
      simp only [length_append, length_cons]
      obtain rfl | hmem := mem_cons.mp hmem
      · omega
      · have := ih hmem
        omega
    · rw [show length - i = 0 by omega] at hmem
      cases hmem

variable (serializeFloat) in
theorem length_le_serializeEntries (indent length index : ℕ)
    (entries : List (List Char × Value F)) :
    entries.length ≤ (serializeEntries serializeFloat indent length index entries).length ∧
      ∀ entry ∈ entries, (serialize serializeFloat indent entry.2).length ≤
        (serializeEntries serializeFloat indent length index entries).length := by
  induction entries generalizing index with
  | nil => simp [serializeEntries]
  | cons entry entries ih =>
    obtain ⟨hlength, hentries⟩ := ih ((index + 1) % 2 ^ 32)
    rw [serializeEntries]
    simp only [length_append, length_cons]
    refine ⟨by omega, forall_mem_cons.mpr ⟨by omega, fun entry hmem ↦ ?_⟩⟩
    have := hentries entry hmem
    omega

/-! ## Values -/

/-- The members of an object with different keys are its entries. -/
theorem entries_eq {members : List (Member F)} (h : (members.map Member.key).Nodup) :
    entries members = members.map fun member ↦ (member.key, member.item.value) := by
  have hfold : ∀ (members : List (Member F)) (acc : List (List Char × Value F)),
      (acc.map Prod.fst ++ members.map Member.key).Nodup →
      members.foldl (fun object member ↦ add object member.key member.item.value) acc =
        acc ++ members.map fun member ↦ (member.key, member.item.value) := by
    intro members
    induction members with
    | nil => simp
    | cons member members ih =>
      intro acc hnodup
      have hnew : member.key ∉ acc.map Prod.fst := by
        rw [map_cons, nodup_append] at hnodup
        exact fun hmem ↦ hnodup.2.2 _ hmem _ mem_cons_self rfl
      rw [foldl_cons, add, if_neg hnew, ih, append_assoc]
      · rfl
      · simpa [append_assoc] using hnodup
  exact (hfold members [] (by simpa using h)).trans (nil_append _)

/-- A text that is short enough for the parser stands for what the serializer has kept. -/
theorem reads_serialize {value : Value F} (hheld : Everywhere Held value) {indent : ℕ}
    (hlength : (serialize serializeFloat indent value).length < 2 ^ 32) :
    Written doubles decode serializeFloat indent value := by
  induction value using Value.induction generalizing indent with
  | string value => exact .string (chars_escape value)
  | int value => exact reads_serializeInt hheld.self
  | float value => exact hheld.self.elim
  | bool value =>
    cases value
    · exact .boolFalse
    · exact .boolTrue
  | null => exact .null
  | array values ih =>
    rw [Written, truncate, truncateItems_eq]
    rw [serialize] at hlength ⊢
    by_cases hzero : values.length % 2 ^ 32 = 0
    · rw [if_pos hzero, hzero]
      exact .emptyArray (show Whitespace [] by simp [Whitespace])
    · rw [if_neg hzero] at hlength ⊢
      simp only [length_cons, length_append] at hlength
      obtain ⟨first, items, htext, hvalues, hspaced, hreads⟩ :=
        items_serializeItems (indent + 1)
          (fun c hmem ↦ whitespace_newline indent c (mem_cons_of_mem _ hmem))
          (Nat.pos_of_ne_zero hzero) (by simpa using Nat.mod_le _ _) fun value hmem ↦
            ih value (mem_of_mem_take hmem) (hheld.item (mem_of_mem_take hmem))
              (by have := length_le_serializeItems serializeFloat (indent + 1) hmem; omega)
      rw [Nat.sub_zero] at hvalues
      rw [← hvalues, ← cons_append, htext, append_assoc]
      exact .array hspaced hreads
  | object entries ih =>
    rw [Written, truncate]
    rw [serialize] at hlength ⊢
    by_cases hzero : entries.length % 2 ^ 32 = 0
    · have hnil : (if entries.length < 2 ^ 32 then truncateEntries entries else []) = [] := by
        split_ifs with hlt
        · rw [Nat.mod_eq_of_lt hlt, length_eq_zero_iff] at hzero
          rw [hzero]
          rfl
        · rfl
      rw [if_pos hzero, hnil]
      exact .emptyObject (show Whitespace [] by simp [Whitespace])
    · rw [if_neg hzero] at hlength ⊢
      simp only [length_cons, length_append] at hlength
      obtain ⟨hentries, hvalues⟩ := length_le_serializeEntries serializeFloat (indent + 1)
        (entries.length % 2 ^ 32) 0 entries
      have hlt : entries.length < 2 ^ 32 := by omega
      obtain ⟨first, members, htext, hkept, hquote, hnamed, hreads⟩ :=
        members_serializeEntries (indent + 1)
          (fun c hmem ↦ whitespace_newline indent c (mem_cons_of_mem _ hmem))
          (by rintro rfl; exact hzero rfl) (Nat.mod_lt _ (by decide))
          (by rw [Nat.mod_eq_of_lt hlt, Nat.zero_add]) fun entry hmem ↦
            ih entry hmem (hheld.entry hmem) (by have := hvalues entry hmem; omega)
      have hkeys : ((first :: members).map Member.key).Nodup := by
        have hheld' : (entries.map Prod.fst).Nodup := hheld.self
        have := congrArg (List.map Prod.fst) hkept
        rw [truncateEntries_eq, map_map, map_map] at this
        rw [show (first :: members).map Member.key = entries.map Prod.fst from this]
        exact hheld'
      rw [if_pos hlt, ← hkept, ← entries_eq hkeys, ← cons_append, htext, append_assoc]
      exact .object hquote hnamed hreads

/-!
## Serializing and parsing a value

A value comes back from its text, unless the text is too long for the position of the parser or an
array or object has too many elements for their count in the serializer.
-/

open Parsing

variable {F : Type}

/-! ### The round trip -/

/-- The value comes back from its text. -/
def RoundTrips (doubles : Doubles F) (serializeFloat : F → List Char) (value : Value F) : Prop :=
  Parses (serialize serializeFloat 0 value) doubles (.ok value)

/-- For every value without doubles, whatever the order of the entries of its objects. -/
theorem roundTrips_iff (doubles : Doubles F) (serializeFloat : F → List Char) {value : Value F}
    (hheld : Everywhere Held value) : RoundTrips doubles serializeFloat value ↔
      Small value ∧ (serialize serializeFloat 0 value).length < 2 ^ 32 := by
  by_cases hsize : (serialize serializeFloat 0 value).length < 2 ^ 32
  · have hreads : Written doubles id serializeFloat 0 value := reads_serialize hheld hsize
    have htext : Text doubles id (lenient doubles) (serialize serializeFloat 0 value)
        (truncate value) :=
      ⟨⟨[], _, truncate value, []⟩, ⟨by simp [Whitespace], by simp [Whitespace]⟩, hreads,
        by simp [Item.element], rfl⟩
    have hparses := parses_of_text hsize htext
    rw [← truncate_eq_self_iff]
    constructor
    · intro h
      exact ⟨Except.ok.inj (hparses.unique h), hsize⟩
    · rintro ⟨htruncate, -⟩
      rwa [htruncate] at hparses
  · refine iff_of_false ?_ fun h ↦ hsize h.2
    exact not_parses_of_le (not_lt.mp hsize) value

section

private def noDoubles : Doubles Unit := ⟨fun _ ↦ (), fun _ ↦ true⟩

theorem roundTrips_sample : RoundTrips noDoubles (fun _ ↦ [])
    (.object [(['a'], .int (-12)), (['\n'], .array [.string ['"', 'b']])]) := by
  refine (roundTrips_iff noDoubles _ ?_).mpr ⟨?_, by decide⟩
  · rw [everywhere_object]
    refine ⟨by simp [Held], forall_mem_cons.mpr ⟨?_, forall_mem_singleton.mpr ?_⟩⟩
    · exact everywhere_of_leaf (by simp [Held]) (by simp) (by simp)
    · exact everywhere_array.mpr ⟨trivial, forall_mem_singleton.mpr
        (everywhere_of_leaf trivial (by simp) (by simp))⟩
  · refine everywhere_object.mpr ⟨by simp [count], forall_mem_cons.mpr ⟨?_,
      forall_mem_singleton.mpr (everywhere_array.mpr ⟨by simp [count], ?_⟩)⟩⟩
    · exact everywhere_of_leaf (by simp [count]) (by simp) (by simp)
    · exact forall_mem_singleton.mpr (everywhere_of_leaf (by simp [count]) (by simp) (by simp))

/-- The text of a string of `2 ^ 32` characters is not parsed. -/
theorem not_roundTrips_string : ∃ value : Value Unit, Everywhere Held value ∧
    ¬RoundTrips noDoubles (fun _ ↦ []) value := by
  have hescape : ∀ n, ((replicate n 'a').flatMap escape).length = n := by
    intro n
    induction n with
    | zero => rfl
    | succ n ih =>
      rw [replicate_succ, flatMap_cons, length_append, ih, Nat.add_comm]
      rfl
  -- The number is kept from being computed with.
  obtain ⟨n, hn⟩ : ∃ n, 2 ^ 32 ≤ n := ⟨2 ^ 32, le_rfl⟩
  refine ⟨.string (replicate n 'a'), everywhere_of_leaf trivial (by simp) (by simp),
    not_parses_of_le ?_ _⟩
  rw [serialize, serializeString, length_cons, length_append, hescape]
  omega

end

end Banjo.JSON
