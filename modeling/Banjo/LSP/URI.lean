import Mathlib.Data.BitVec

/-!
# URIs of the language server

`encode` prints a byte that it escapes as a number. A `char` is signed, so a byte above 127 is a
negative number of eight digits. `decode` hands the two characters behind a percent sign to
`std::stoi`, which throws where they are no number, and does not look for the end of the text. The
character at the size of a `std::string` is the terminator, the one behind it is outside.
-/

open List Option

namespace Banjo.LSP.URI

/-! ## Code -/

abbrev Byte := BitVec 8

inductive Fault where
  | outside
  | invalidArgument
  deriving DecidableEq, Repr

/-- `std::isspace` in the C locale. -/
def isSpace (c : Byte) : Bool := c = 32 ∨ 9 ≤ c ∧ c ≤ 13

def isSign (c : Byte) : Bool := c = 43 ∨ c = 45

def hexValue (c : Byte) : Option ℕ :=
  if 48 ≤ c ∧ c ≤ 57 then some (c.toNat - 48)
  else if 65 ≤ c ∧ c ≤ 70 then some (c.toNat - 55)
  else if 97 ≤ c ∧ c ≤ 102 then some (c.toNat - 87)
  else none

/-- The number a text begins with, if it begins with one. -/
def digits (s : List Byte) : Option ℕ :=
  match (s.map hexValue).takeWhile Option.isSome with
  | [] => none
  | values => some (values.foldl (fun n value ↦ 16 * n + value.getD 0) 0)

/-- The number behind the spaces. -/
def signed : List Byte → Option ℤ
  | c :: rest =>
    if c = 45 then (digits rest).map fun n ↦ -Int.ofNat n
    else if c = 43 then (digits rest).map Int.ofNat
    else (digits (c :: rest)).map Int.ofNat
  | [] => none

/-- `std::stoi` to base 16, for two characters: a prefix `0x` would need a third, and no number of
two digits is out of range. The text ends at a zero. -/
def stoi (hex : List Byte) : Option ℤ := signed ((hex.takeWhile (· ≠ 0)).dropWhile isSpace)

/-- `(char)std::stoi(hex, nullptr, 16)`. -/
def readEscape (a b : Byte) : Except Fault Byte :=
  match stoi [a, b] with
  | some value => .ok (BitVec.ofInt 8 value)
  | none => .error .invalidArgument

def decode : List Byte → Except Fault (List Byte)
  | [] => .ok []
  | c :: rest =>
    if c ≠ 37 then (decode rest).map (c :: ·)
    else
      match rest with
      | a :: b :: rest => do
        let c ← readEscape a b
        (decode rest).map (c :: ·)
      | [a] => (readEscape a 0).map fun c ↦ [c]
      | [] => .error .outside

/-- `std::isalnum` in the C locale, and the characters next to it. -/
def isUnreserved (c : Byte) : Bool :=
  48 ≤ c ∧ c ≤ 57 ∨ 65 ≤ c ∧ c ≤ 90 ∨ 97 ≤ c ∧ c ≤ 122 ∨ c = 45 ∨ c = 95 ∨ c = 46 ∨ c = 126 ∨ c = 47

def hexDigit (n : ℕ) : Byte := BitVec.ofNat 8 (if n < 10 then n + 48 else n + 55)

/-- The digits of a number below `16 ^ count`. -/
def hexDigits : ℕ → ℕ → List Byte
  | 0, _ => []
  | count + 1, n => if n = 0 then [] else hexDigits count (n / 16) ++ [hexDigit (n % 16)]

/-- `(int)c` with `std::setfill('0')`, `std::setw(2)`, `std::hex` and `std::uppercase`. -/
def printChar (c : Byte) : List Byte :=
  let text := hexDigits 8 (c.signExtend 32).toNat
  replicate (2 - text.length) 48 ++ text

def encodeChar (c : Byte) : List Byte := if isUnreserved c then [c] else 37 :: printChar c

def encode (uri : List Byte) : List Byte := uri.flatMap encodeChar

/-- `file://`. -/
def scheme : List Byte := [102, 105, 108, 101, 58, 47, 47]

def decodeToPath (uri : List Byte) : Except Fault (List Byte) :=
  (decode uri).map fun decoded ↦
    if decoded.length ≥ scheme.length ∧ decoded.take scheme.length = scheme then
      decoded.drop scheme.length
    else []

/-- `encode_from_path` with the separator of POSIX. -/
def encodeFromPath (path : List Byte) : List Byte :=
  let lspPath := path.map fun c ↦ if c = 47 then 47 else c
  scheme ++ encode (if lspPath.head? ≠ some 47 then 47 :: lspPath else lspPath)

/-! ## What can be decoded -/

/-- Two characters `std::stoi` finds a number in. -/
def Readable (a b : Byte) : Prop :=
  (hexValue a).isSome ∨ (isSpace a ∨ isSign a) ∧ (hexValue b).isSome

/-- A text whose percent signs are in front of readable characters. -/
inductive WellEscaped : List Byte → Prop where
  | nil : WellEscaped []
  | char {c : Byte} {rest : List Byte} : c ≠ 37 → WellEscaped rest → WellEscaped (c :: rest)
  | escape {a b : Byte} {rest : List Byte} : Readable a b → WellEscaped rest →
      WellEscaped (37 :: a :: b :: rest)
  | last {a : Byte} : Readable a 0 → WellEscaped [37, a]

theorem isSome_stoi_iff (a b : Byte) : (stoi [a, b]).isSome = true ↔ Readable a b := by
  have hspaces : ∀ b : Byte, (signed (([b].takeWhile (· ≠ 0)).dropWhile isSpace)).isSome
      = (hexValue b).isSome := by decide +kernel
  have hdigits : ∀ b : Byte, (digits ([b].takeWhile (· ≠ 0))).isSome = (hexValue b).isSome := by
    decide +kernel
  have hspace : ∀ a : Byte, isSpace a = true ∨ isSign a = true → (hexValue a).isSome = false := by
    decide +kernel
  have hfirst : ∀ rest, (digits (a :: rest)).isSome = (hexValue a).isSome := by
    intro rest
    rw [digits, map_cons, takeWhile_cons]
    cases h : (hexValue a).isSome <;> simp
  by_cases ha : a = 0
  · subst ha
    exact iff_of_false Bool.false_ne_true (by rintro (h | ⟨h | h, -⟩) <;> cases h)
  rw [stoi, takeWhile_cons, if_pos (decide_eq_true ha), dropWhile_cons, Readable]
  by_cases hskip : isSpace a = true
  · rw [if_pos hskip, hspaces, hspace a (.inl hskip)]
    simp [hskip]
  · rw [if_neg hskip, signed]
    by_cases hsign : isSign a = true
    · rw [hspace a (.inr hsign), ← hdigits b]
      simp only [Bool.false_eq_true, false_or, hsign, or_true, true_and]
      rcases of_decide_eq_true hsign with rfl | rfl
      · rw [if_neg (by decide), if_pos rfl, isSome_map]
      · rw [if_pos rfl, isSome_map]
    · obtain ⟨hplus, hminus⟩ := not_or.mp fun h ↦ hsign (decide_eq_true h)
      rw [if_neg hminus, if_neg hplus, isSome_map, hfirst]
      simp [hskip, hsign]

theorem readEscape_ok_iff (a b : Byte) : (∃ c, readEscape a b = .ok c) ↔ Readable a b := by
  rw [← isSome_stoi_iff, readEscape]
  cases stoi [a, b] <;> simp

theorem map_ok_iff {f : List Byte → List Byte} {e : Except Fault (List Byte)} :
    (∃ result, e.map f = .ok result) ↔ ∃ result, e = .ok result := by
  cases e <;> simp [Except.map]

theorem decode_char {c : Byte} (hc : c ≠ 37) (rest : List Byte) :
    decode (c :: rest) = (decode rest).map (c :: ·) := by
  rw [decode.eq_def]
  exact if_pos hc

/-- `decode` neither reads outside nor throws exactly if its text is well escaped. -/
theorem decode_ok_iff : ∀ text, (∃ result, decode text = .ok result) ↔ WellEscaped text
  | [] => iff_of_true ⟨[], rfl⟩ .nil
  | c :: rest => by
    by_cases hc : c = 37
    · subst hc
      match rest with
      | [] => exact iff_of_false (by rintro ⟨result, ⟨⟩⟩) (by rintro (_ | ⟨h, -⟩); exact h rfl)
      | [a] =>
        have hlast : (∃ result, decode [37, a] = .ok result) ↔ Readable a 0 := by
          rw [← readEscape_ok_iff, decode, if_neg (not_not.mpr rfl)]
          cases readEscape a 0 <;> simp [Except.map]
        rw [hlast]
        refine ⟨.last, fun h ↦ ?_⟩
        cases h with
        | char h => exact absurd rfl h
        | last h => exact h
      | a :: b :: rest =>
        have hescape : (∃ result, decode (37 :: a :: b :: rest) = .ok result) ↔
            Readable a b ∧ ∃ result, decode rest = .ok result := by
          rw [← readEscape_ok_iff, decode, if_neg (not_not.mpr rfl)]
          cases hread : readEscape a b with
          | error e => exact iff_of_false (by rintro ⟨result, ⟨⟩⟩) (by rintro ⟨⟨c, ⟨⟩⟩, -⟩)
          | ok c => exact map_ok_iff.trans (and_iff_right ⟨c, rfl⟩).symm
        rw [hescape, decode_ok_iff rest]
        refine ⟨fun h ↦ .escape h.1 h.2, fun h ↦ ?_⟩
        cases h with
        | char h => exact absurd rfl h
        | escape h hrest => exact ⟨h, hrest⟩
    · rw [decode_char hc, map_ok_iff, decode_ok_iff rest]
      refine ⟨.char hc, fun h ↦ ?_⟩
      cases h with
      | char _ h => exact h
      | escape => exact absurd rfl hc
      | last => exact absurd rfl hc

/-! ## What is encoded -/

/-- What `decode` makes of a byte that was encoded. -/
def decodedChar (c : Byte) : List Byte :=
  if c < 128 then [c] else 255 :: (printChar c).drop 2

/-- What is printed begins with two digits that are read; only a negative number has more. -/
theorem printChar_spec (c : Byte) (hc : isUnreserved c = false) :
    (∃ a b, (printChar c).take 2 = [a, b] ∧ readEscape a b = .ok (if c < 128 then c else 255)) ∧
    (c < 128 → (printChar c).drop 2 = []) := by
  have hhead : ∀ c : Byte, isUnreserved c = false →
      (printChar c).take 2 = [(printChar c).headD 0, (printChar c).tail.headD 0] ∧
      readEscape ((printChar c).headD 0) ((printChar c).tail.headD 0)
        = .ok (if c < 128 then c else 255) ∧
      (c < 128 → (printChar c).drop 2 = []) := by decide +kernel
  obtain ⟨htake, hread, hdrop⟩ := hhead c hc
  exact ⟨⟨_, _, htake, hread⟩, hdrop⟩

theorem ne_percent_of_mem_hexDigits {count n : ℕ} {c : Byte} (hc : c ∈ hexDigits count n) :
    c ≠ 37 := by
  have hdigit : ∀ d < 16, hexDigit d ≠ 37 := by decide
  induction count generalizing n with
  | zero => cases hc
  | succ count ih =>
    rw [hexDigits] at hc
    split_ifs at hc
    · cases hc
    · rcases mem_append.mp hc with hc | hc
      · exact ih hc
      · exact mem_singleton.mp hc ▸ hdigit _ (Nat.mod_lt n (by decide))

theorem ne_percent_of_mem_printChar {c c' : Byte} (hc : c' ∈ printChar c) : c' ≠ 37 := by
  rcases mem_append.mp hc with hc | hc
  · rw [eq_of_mem_replicate hc]
    decide
  · exact ne_percent_of_mem_hexDigits hc

theorem lt_of_isUnreserved : ∀ c : Byte, isUnreserved c = true → c < 128 ∧ c ≠ 37 := by
  decide +kernel

theorem decode_plain {text : List Byte} (htext : ∀ c ∈ text, c ≠ 37) (rest : List Byte) :
    decode (text ++ rest) = (decode rest).map (text ++ ·) := by
  induction text with
  | nil => cases h : decode rest <;> simp [h, Except.map]
  | cons c text ih =>
    rw [cons_append, decode_char (htext c mem_cons_self),
      ih fun c hc ↦ htext c (mem_cons_of_mem _ hc)]
    cases decode rest <;> rfl

theorem decode_encodeChar (c : Byte) (rest : List Byte) :
    decode (encodeChar c ++ rest) = (decode rest).map (decodedChar c ++ ·) := by
  rw [encodeChar]
  cases hc : isUnreserved c with
  | true =>
    obtain ⟨hlow, hplain⟩ := lt_of_isUnreserved c hc
    rw [if_pos rfl, decodedChar, if_pos hlow]
    exact decode_plain (fun c' hc' ↦ mem_singleton.mp hc' ▸ hplain) rest
  | false =>
    obtain ⟨⟨a, b, htake, hread⟩, hdrop⟩ := printChar_spec c hc
    have hdecoded : decodedChar c = (if c < 128 then c else 255) :: (printChar c).drop 2 := by
      rw [decodedChar]
      by_cases hlt : c < 128
      · rw [if_pos hlt, if_pos hlt, hdrop hlt]
      · rw [if_neg hlt, if_neg hlt]
    have hescape : ∀ text, decode (37 :: a :: b :: text)
        = (decode text).map ((if c < 128 then c else 255) :: ·) := by
      intro text
      rw [decode, if_neg (not_not.mpr rfl), hread]
      rfl
    rw [if_neg Bool.false_ne_true, ← take_append_drop 2 (printChar c), htake, hdecoded,
      cons_append, append_assoc, cons_append, cons_append, nil_append, hescape,
      decode_plain fun c' hc' ↦ ne_percent_of_mem_printChar (mem_of_mem_drop hc')]
    cases decode rest with
    | error fault => rfl
    | ok result => simp only [Except.map, cons_append]

theorem decode_encode (text : List Byte) :
    decode (encode text) = .ok (text.flatMap decodedChar) := by
  induction text with
  | nil => rfl
  | cons c text ih =>
    have hcons : encode (c :: text) = encodeChar c ++ encode text := flatMap_cons
    rw [hcons, decode_encodeChar, ih, flatMap_cons]
    rfl

/-- A byte above 127 becomes more bytes than one. -/
theorem flatMap_decodedChar_eq_iff (text : List Byte) :
    text.flatMap decodedChar = text ↔ ∀ c ∈ text, c < 128 := by
  have hlong : ∀ c : Byte, ¬c < 128 → 1 < (decodedChar c).length := by decide +kernel
  have hlow : ∀ c : Byte, c < 128 → decodedChar c = [c] := fun c hc ↦ if_pos hc
  have hlength : ∀ text : List Byte, text.length ≤ (text.flatMap decodedChar).length ∧
      ((text.flatMap decodedChar).length = text.length → ∀ c ∈ text, c < 128) := by
    intro text
    induction text with
    | nil => simp
    | cons c text ih =>
      rw [flatMap_cons, length_append, length_cons, forall_mem_cons]
      by_cases hc : c < 128
      · rw [hlow c hc, length_singleton]
        exact ⟨by omega, fun heq ↦ ⟨hc, ih.2 (by omega)⟩⟩
      · have := hlong c hc
        exact ⟨by omega, fun heq ↦ by omega⟩
  refine ⟨fun heq ↦ (hlength text).2 (congrArg length heq), fun hall ↦ ?_⟩
  induction text with
  | nil => rfl
  | cons c text ih =>
    rw [flatMap_cons, hlow c (hall c mem_cons_self), ih fun c hc ↦ hall c (mem_cons_of_mem _ hc)]
    rfl

/-! ## Paths -/

theorem decodeToPath_encodeFromPath {path : List Byte} (hpath : path.head? = some 47) :
    decodeToPath (encodeFromPath path) = .ok (path.flatMap decodedChar) := by
  have hsame : (path.map fun c ↦ if c = 47 then 47 else c) = path := by
    conv_rhs => rw [← map_id path]
    exact map_congr_left fun c _ ↦ by split_ifs with h <;> simp [h]
  have hscheme : decode (scheme ++ encode path) = .ok (scheme ++ path.flatMap decodedChar) := by
    simp only [scheme, cons_append, nil_append]
    iterate 7 rw [decode_char (by decide)]
    rw [decode_encode]
    rfl
  rw [encodeFromPath, hsame, if_neg (not_not.mpr hpath), decodeToPath, hscheme]
  simp [Except.map]

end Banjo.LSP.URI
