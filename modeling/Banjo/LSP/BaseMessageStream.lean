import Banjo.Lib.Loops
import Mathlib.Data.BitVec
import Mathlib.Data.List.TakeWhile
import Mathlib.Data.Nat.Digits.Lemmas

/-!
# Messages of the language server

A message is a header of lines and a content of the length the header says. The loop over the
characters of a line is left at its end only: at the end of the input `std::cin.get()` returns `EOF`
for ever, and `EOF` ends no line. A content that is cut off is filled up with zeros and handed on.
-/

open List

namespace Banjo.LSP

open Loops

/-! ## Code -/

abbrev Bytes := List (BitVec 8)

def ascii (text : String) : Bytes := text.toList.map fun c ↦ BitVec.ofNat 8 c.toNat

structure BaseMessage where
  contentLength : ℕ
  contentType : Bytes
  content : Bytes

/-- `(char)std::cin.get()`. -/
def getChar : Bytes → BitVec 8 × Bytes
  | [] => (255, [])
  | c :: input => (c, input)

/-- A turn of the loop in `read_line`, from the line so far and the input. -/
def lineTurn (st : Bytes × Bytes) : (Bytes × Bytes) ⊕ (Bytes × Bytes) :=
  if st.1.length < 2 ∨ ¬ascii "\r\n" <:+ st.1 then
    .inl (st.1 ++ [(getChar st.2).1], (getChar st.2).2)
  else
    .inr (st.1.take (st.1.length - 2), st.2)

def ReadLine (input line rest : Bytes) : Prop := Ends lineTurn ([], input) (line, rest)

/-- The name and the value of a field. -/
def parseHeaderField : Bytes → Bytes × Bytes
  | [] => ([], [])
  | c :: line =>
    if ascii ": " <+: c :: line then ([], line.drop 1)
    else (c :: (parseHeaderField line).1, (parseHeaderField line).2)

def isDigit (c : BitVec 8) : Bool := 48 ≤ c ∧ c ≤ 57

/-- `std::stoi`; `none` where it throws. -/
def stoi (text : Bytes) : Option ℤ :=
  let text := text.dropWhile fun c ↦ decide (c = 32 ∨ 9 ≤ c ∧ c ≤ 13)
  let magnitude := if text.head? = some 43 ∨ text.head? = some 45 then text.drop 1 else text
  let digits := magnitude.takeWhile isDigit
  let value := digits.foldl (fun (n : ℤ) c ↦ 10 * n + (c.toNat - 48 : ℕ)) 0
  let value := if text.head? = some 45 then -value else value
  if digits = [] ∨ value < -2 ^ 31 ∨ 2 ^ 31 ≤ value then none else some value

def processHeaderField (field : Bytes × Bytes) (message : BaseMessage) : Option BaseMessage :=
  if field.1 = ascii "Content-Length" then
    (stoi field.2).map fun value ↦ { message with contentLength := (value % 2 ^ 64).toNat }
  else if field.1 = ascii "Content-Type" then some { message with contentType := field.2 }
  else some message

/-- What `read_header` ends with: the message and the rest of the input, or an exception. -/
inductive ReadHeader : Bytes → BaseMessage → Option (BaseMessage × Bytes) → Prop where
  | done {input rest : Bytes} {message : BaseMessage} : ReadLine input [] rest →
      ReadHeader input message (some (message, rest))
  | field {input line rest : Bytes} {message next : BaseMessage}
      {outcome : Option (BaseMessage × Bytes)} : ReadLine input line rest → line ≠ [] →
      processHeaderField (parseHeaderField line) message = some next →
      ReadHeader rest next outcome → ReadHeader input message outcome
  | throws {input line rest : Bytes} {message : BaseMessage} : ReadLine input line rest →
      line ≠ [] → processHeaderField (parseHeaderField line) message = none →
      ReadHeader input message none

/-- `std::cin.read` into a content of the right size. -/
def readContent (message : BaseMessage) (input : Bytes) : BaseMessage × Bytes :=
  let read := input.take message.contentLength
  ({ message with content := read ++ replicate (message.contentLength - read.length) 0 },
    input.drop message.contentLength)

/-- A round of `start_reading`: a message for the handler and the rest, or an exception. The length
in a new message is not initialised. -/
def ReadMessage (garbage : ℕ) (input : Bytes) (outcome : Option (BaseMessage × Bytes)) : Prop :=
  ∃ header, ReadHeader input ⟨garbage, [], []⟩ header ∧
    outcome = header.map fun (message, rest) ↦ readContent message rest

/-- The messages that are handed to the handler. -/
inductive Hands (garbage : ℕ) : Bytes → List BaseMessage → Bytes → Prop where
  | nil (input : Bytes) : Hands garbage input [] input
  | cons {input rest rest' : Bytes} {message : BaseMessage} {messages : List BaseMessage} :
      ReadMessage garbage input (some (message, rest)) → Hands garbage rest messages rest' →
      Hands garbage input (message :: messages) rest'

/-- `<<` of a number. -/
def decimal (n : ℕ) : Bytes :=
  if n = 0 then [48] else ((Nat.digits 10 n).map fun d ↦ BitVec.ofNat 8 (d + 48)).reverse

def writeMessage (message : BaseMessage) : Bytes :=
  ascii "Content-Type: application/vscode-jsonrpc; charset=utf-8" ++ ascii "\r\n" ++
    (ascii "Content-Length: " ++ decimal message.contentLength) ++ ascii "\r\n" ++ ascii "\r\n" ++
    message.content

/-- A message as it is written: its length is right, and an `int`. -/
structure BaseMessage.Sized (message : BaseMessage) : Prop where
  length_eq : message.contentLength = message.content.length
  length_lt : message.contentLength < 2 ^ 31

/-- The reader ends before this input, and hands no message on. -/
def Stops (garbage : ℕ) (input : Bytes) : Prop :=
  (∃ outcome, ReadMessage garbage input outcome) ∧
    ∀ message rest, ¬ReadMessage garbage input (some (message, rest))

/-! ## Lines -/

/-- No line ends in these bytes. -/
abbrev NoEnd (text : Bytes) : Prop := (10#8) ∉ text

theorem lineTurn_of_noEnd {line : Bytes} (h : NoEnd line) (input : Bytes) :
    lineTurn (line, input) = .inl (line ++ [(getChar input).1], (getChar input).2) := by
  refine if_pos (.inr fun hsuffix ↦ h (hsuffix.subset ?_))
  decide

theorem ends_append {line text rest : Bytes} {r : Bytes × Bytes} (h : NoEnd (line ++ text)) :
    Ends lineTurn (line, text ++ rest) r ↔ Ends lineTurn (line ++ text, rest) r := by
  induction text generalizing line with
  | nil => rw [append_nil, nil_append]
  | cons c text ih =>
    have hline : NoEnd line := fun hmem ↦ h (mem_append_left _ hmem)
    rw [append_cons] at h ⊢
    rw [← ih h, cons_append]
    exact ends_iff_of_inl (lineTurn_of_noEnd hline _)

/-- A line of the input is read. -/
theorem readLine_append {text : Bytes} (h : NoEnd text) (rest : Bytes) :
    ReadLine (text ++ ascii "\r\n" ++ rest) text rest := by
  have hnoEnd : NoEnd ([] ++ (text ++ [13])) := by simpa [NoEnd] using h
  have hinput : text ++ ascii "\r\n" ++ rest = text ++ [13] ++ 10 :: rest := by
    rw [append_assoc, append_assoc]
    rfl
  rw [ReadLine, hinput, ends_append hnoEnd, ends_iff_of_inl (lineTurn_of_noEnd hnoEnd _)]
  have hcrlf : [13, 10] = ascii "\r\n" := rfl
  have hline : [] ++ (text ++ [13]) ++ [10] = text ++ ascii "\r\n" := by simp [← hcrlf]
  refine ends_of_inr ?_
  rw [lineTurn, getChar, hline, if_neg (by simp [← hcrlf])]
  simp [← hcrlf]

/-- A line that is cut off is never left. -/
theorem not_readLine {input line rest : Bytes} (h : NoEnd input) : ¬ReadLine input line rest := by
  refine not_ends_of_closed (I := fun st : Bytes × Bytes ↦ NoEnd st.1 ∧ NoEnd st.2)
    (fun st hst ↦ ⟨_, lineTurn_of_noEnd hst.1 st.2, ?_⟩) ⟨not_mem_nil, h⟩
  obtain ⟨line, _ | ⟨c, input⟩⟩ := st
  · exact ⟨by simpa [NoEnd, getChar] using hst.1, not_mem_nil⟩
  · obtain ⟨hc, hinput⟩ := not_or.mp (mt mem_cons.mpr hst.2)
    exact ⟨by simpa [NoEnd, getChar] using ⟨hst.1, hc⟩, hinput⟩

/-! ## Fields -/

theorem parseHeaderField_append {name : Bytes} (h : (58#8) ∉ name) (value : Bytes) :
    parseHeaderField (name ++ ascii ": " ++ value) = (name, value) := by
  induction name with
  | nil => exact if_pos (prefix_append (ascii ": ") value)
  | cons c name ih =>
    obtain ⟨hc, hname⟩ := not_or.mp (mt mem_cons.mpr h)
    have hno : ¬ascii ": " <+: c :: (name ++ ascii ": " ++ value) := fun hprefix ↦
      hc (cons_prefix_cons.mp hprefix).1
    rw [cons_append, cons_append, parseHeaderField, if_neg hno, ih hname]

theorem stoi_of_digits {text : Bytes} {n : ℕ} (hne : text ≠ [])
    (hall : ∀ c ∈ text, isDigit c = true)
    (hvalue : text.foldl (fun (n : ℤ) c ↦ 10 * n + (c.toNat - 48 : ℕ)) 0 = n) (hn : n < 2 ^ 31) :
    stoi text = some (n : ℤ) := by
  have hdigit : ∀ c : BitVec 8, isDigit c = true →
      ¬(c = 32 ∨ 9 ≤ c ∧ c ≤ 13) ∧ c ≠ 43 ∧ c ≠ 45 := by decide +kernel
  obtain ⟨c, rest, rfl⟩ := exists_cons_of_ne_nil hne
  obtain ⟨hspace, hplus, hminus⟩ := hdigit c (hall c mem_cons_self)
  have htake : (c :: rest).takeWhile isDigit = c :: rest := takeWhile_eq_self_iff.mpr hall
  simp only [stoi, dropWhile_cons, decide_eq_true_eq, if_neg hspace, head?_cons, Option.some.injEq,
    hplus, hminus, or_self, if_false, htake, hvalue, reduceCtorEq, false_or]
  rw [if_neg (by omega)]

theorem isDigit_of_mem_decimal {n : ℕ} {c : BitVec 8} (hc : c ∈ decimal n) : isDigit c = true := by
  have hbyte : ∀ d : ℕ, d < 10 → isDigit (BitVec.ofNat 8 (d + 48)) = true := by decide
  rw [decimal] at hc
  split_ifs at hc with hzero
  · rw [mem_singleton.mp hc]
    rfl
  · obtain ⟨d, hd, rfl⟩ := mem_map.mp (mem_reverse.mp hc)
    exact hbyte d (Nat.digits_lt_base (by decide) hd)

theorem stoi_decimal {n : ℕ} (hn : n < 2 ^ 31) : stoi (decimal n) = some (n : ℤ) := by
  by_cases hzero : n = 0
  · subst hzero
    decide
  refine stoi_of_digits ?_ (fun c hc ↦ isDigit_of_mem_decimal hc) ?_ hn
  · simpa [decimal, hzero] using Nat.digits_ne_nil_iff_ne_zero.mpr hzero
  · have hbyte : ∀ d : ℕ, d < 10 → (BitVec.ofNat 8 (d + 48)).toNat - 48 = d := by decide
    have hfold : ∀ digits : List ℕ, (∀ d ∈ digits, d < 10) →
        (digits.map fun d ↦ BitVec.ofNat 8 (d + 48)).foldr
          (fun c (n : ℤ) ↦ 10 * n + (c.toNat - 48 : ℕ)) 0 = (Nat.ofDigits 10 digits : ℕ) := by
      intro digits hdigits
      induction digits with
      | nil => rfl
      | cons d digits ih =>
        rw [forall_mem_cons] at hdigits
        rw [map_cons, foldr_cons, ih hdigits.2, hbyte d hdigits.1, Nat.ofDigits_cons]
        push_cast
        ring
    rw [decimal, if_neg hzero, foldl_reverse,
      hfold _ fun d hd ↦ Nat.digits_lt_base (by decide) hd, Nat.ofDigits_digits]

/-! ## Messages -/

variable {garbage : ℕ} {message : BaseMessage}

def typeLine : Bytes := ascii "Content-Type: application/vscode-jsonrpc; charset=utf-8"

def lengthLine (message : BaseMessage) : Bytes :=
  ascii "Content-Length: " ++ decimal message.contentLength

theorem writeMessage_eq (message : BaseMessage) : writeMessage message = typeLine ++ ascii "\r\n" ++
    (lengthLine message ++ ascii "\r\n" ++ ([] ++ ascii "\r\n" ++ message.content)) := by
  simp [writeMessage, typeLine, lengthLine]

theorem noEnd_lengthLine (message : BaseMessage) : NoEnd (lengthLine message) := by
  intro hmem
  rcases mem_append.mp hmem with hmem | hmem
  · revert hmem
    decide
  · exact absurd (isDigit_of_mem_decimal hmem) (by decide)

/-- The header up to the empty line. -/
theorem readHeader_field {line : Bytes} (hnoEnd : NoEnd line) (hne : line ≠ []) {next : BaseMessage}
    (hnext : processHeaderField (parseHeaderField line) message = some next) (rest : Bytes)
    (outcome : Option (BaseMessage × Bytes)) :
    ReadHeader (line ++ ascii "\r\n" ++ rest) message outcome ↔ ReadHeader rest next outcome := by
  have hline := readLine_append hnoEnd rest
  constructor
  · intro h
    cases h with
    | done h => exact absurd (congrArg Prod.fst (hline.unique h)) hne
    | field h hne hprocess hrest =>
      obtain ⟨rfl, rfl⟩ := Prod.mk.inj (hline.unique h)
      obtain rfl := Option.some.inj (hnext.symm.trans hprocess)
      exact hrest
    | throws h hne hprocess =>
      obtain ⟨rfl, rfl⟩ := Prod.mk.inj (hline.unique h)
      exact absurd (hnext.symm.trans hprocess) (by simp)
  · exact .field hline hne hnext

theorem readHeader_typeLine (start : BaseMessage) : ∃ next, ∀ rest outcome,
    ReadHeader (typeLine ++ ascii "\r\n" ++ rest) start outcome ↔ ReadHeader rest next outcome :=
  ⟨_, readHeader_field (by decide) (by decide) rfl⟩

theorem readHeader_lengthLine (h : message.Sized) (start : BaseMessage) (rest : Bytes)
    (outcome : Option (BaseMessage × Bytes)) :
    ReadHeader (lengthLine message ++ ascii "\r\n" ++ rest) start outcome ↔
      ReadHeader rest { start with contentLength := message.contentLength } outcome := by
  refine readHeader_field (noEnd_lengthLine message) (by simp [lengthLine, ascii]) ?_ rest outcome
  have hparse : parseHeaderField (lengthLine message)
      = (ascii "Content-Length", decimal message.contentLength) :=
    @parseHeaderField_append (ascii "Content-Length") (by decide) _
  rw [hparse, processHeaderField, if_pos rfl, stoi_decimal h.length_lt, Option.map_some,
    Int.emod_eq_of_lt (Int.natCast_nonneg _) (by have := h.length_lt; omega), Int.toNat_natCast]

/-- Bytes in which no line ends are no header. -/
theorem not_readHeader {input : Bytes} (h : NoEnd input) (outcome : Option (BaseMessage × Bytes)) :
    ¬ReadHeader input message outcome := by
  intro hread
  cases hread with
  | done hline => exact not_readLine h hline
  | field hline => exact not_readLine h hline
  | throws hline => exact not_readLine h hline

theorem readMessage_append (h : message.Sized) (rest : Bytes) : ∃ handed,
    ReadMessage garbage (writeMessage message ++ rest) (some (handed, rest)) ∧
      handed.content = message.content := by
  obtain ⟨next, htype⟩ := readHeader_typeLine ⟨garbage, [], []⟩
  have hempty : ReadLine ([] ++ ascii "\r\n" ++ (message.content ++ rest)) []
      (message.content ++ rest) := readLine_append not_mem_nil _
  have hheader : ReadHeader (writeMessage message ++ rest) ⟨garbage, [], []⟩
      (some ({ next with contentLength := message.contentLength }, message.content ++ rest)) := by
    rw [writeMessage_eq, append_assoc, htype, append_assoc, readHeader_lengthLine h, append_assoc]
    exact .done hempty
  have hcontent : readContent { next with contentLength := message.contentLength }
      (message.content ++ rest)
        = ({ next with
            contentLength := message.contentLength, content := message.content }, rest) := by
    simp [readContent, h.length_eq]
  exact ⟨_, ⟨_, hheader, congrArg some hcontent.symm⟩, rfl⟩

/-- The messages that were written are handed on, each with its content. -/
theorem hands_append {messages : List BaseMessage} (h : ∀ message ∈ messages, message.Sized)
    (rest : Bytes) : ∃ handed, Hands garbage (messages.flatMap writeMessage ++ rest) handed rest ∧
      handed.map BaseMessage.content = messages.map BaseMessage.content := by
  induction messages with
  | nil => exact ⟨[], .nil rest, rfl⟩
  | cons message messages ih =>
    obtain ⟨hmessage, hmessages⟩ := forall_mem_cons.mp h
    obtain ⟨handed, hhands, hcontents⟩ := ih hmessages
    obtain ⟨first, hfirst, hcontent⟩ := readMessage_append hmessage
      (messages.flatMap writeMessage ++ rest)
    refine ⟨first :: handed, .cons ?_ hhands, by rw [map_cons, map_cons, hcontent, hcontents]⟩
    rwa [flatMap_cons, append_assoc]

/-- A part of a line and what follows is a part in which no line ends, or has the line in it. -/
theorem prefix_line_cases {line part rest : Bytes} (hline : NoEnd line)
    (h : part <+: line ++ ascii "\r\n" ++ rest) :
    NoEnd part ∨ ∃ more, more <+: rest ∧ part = line ++ ascii "\r\n" ++ more := by
  by_cases hle : (line ++ ascii "\r\n").length ≤ part.length
  · obtain ⟨more, rfl⟩ := prefix_of_prefix_length_le (prefix_append _ rest) h hle
    exact .inr ⟨more, (prefix_append_right_inj _).mp h, rfl⟩
  · left
    have hprefix : part <+: line ++ [13] ++ [10] := by
      rw [append_assoc]
      exact prefix_of_prefix_length_le h (prefix_append _ rest) (not_le.mp hle).le
    rcases prefix_concat_iff.mp hprefix with rfl | hprefix
    · simp [ascii] at hle
    · exact fun hmem ↦ by simpa [hline] using hprefix.subset hmem

/-- The reader does not stop where a message is cut off. -/
theorem not_stops (h : message.Sized) {part : Bytes} (hpart : part <+: writeMessage message) :
    ¬Stops garbage part := by
  rintro ⟨⟨outcome, header, hheader, -⟩, hnone⟩
  obtain ⟨next, htype⟩ := readHeader_typeLine ⟨garbage, [], []⟩
  rw [writeMessage_eq] at hpart
  rcases prefix_line_cases (by decide) hpart with hcut | ⟨fields, hfields, rfl⟩
  · exact not_readHeader hcut header hheader
  rw [htype] at hheader
  rcases prefix_line_cases (noEnd_lengthLine message) hfields with hcut | ⟨last, hlast, rfl⟩
  · exact not_readHeader hcut header hheader
  rw [readHeader_lengthLine h] at hheader
  rcases prefix_line_cases not_mem_nil hlast with hcut | ⟨content, -, rfl⟩
  · exact not_readHeader hcut header hheader
  -- the header is there, so that the handler gets what there is of the content
  refine hnone _ _ ⟨some ({ next with contentLength := message.contentLength }, content),
    (htype _ _).mpr ?_, rfl⟩
  rw [readHeader_lengthLine h]
  exact .done (readLine_append not_mem_nil content)

end Banjo.LSP
