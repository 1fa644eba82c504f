import Banjo.Lexer.Token

/-!
# The lexer

The buffer of a source file is its text and characters `EOF_CHAR` after it. The lexer reads one
token after the other: every reader moves the position on and finishes a token, or attaches
whitespace or a comment, that goes from the start position to the new one. Positions are kept as the
number of characters in front of them, and what is left of the text is read as a list.
-/

namespace Banjo.Lexer

open TokenList

def EOF_CHAR : Char := '\x00'

def KEYWORDS : List (String × TokenType) :=
  [("var", .TKN_VAR), ("const", .TKN_CONST), ("func", .TKN_FUNC), ("i8", .TKN_I8),
   ("i16", .TKN_I16), ("i32", .TKN_I32), ("i64", .TKN_I64), ("u8", .TKN_U8), ("u16", .TKN_U16),
   ("u32", .TKN_U32), ("u64", .TKN_U64), ("f32", .TKN_F32), ("f64", .TKN_F64),
   ("usize", .TKN_USIZE), ("bool", .TKN_BOOL), ("addr", .TKN_ADDR), ("void", .TKN_VOID),
   ("except", .TKN_EXCEPT), ("ref", .TKN_REF), ("mut", .TKN_MUT), ("share", .TKN_SHARE),
   ("as", .TKN_AS), ("is", .TKN_IS), ("if", .TKN_IF), ("else", .TKN_ELSE),
   ("switch", .TKN_SWITCH), ("try", .TKN_TRY), ("while", .TKN_WHILE), ("for", .TKN_FOR),
   ("in", .TKN_IN), ("break", .TKN_BREAK), ("continue", .TKN_CONTINUE), ("return", .TKN_RETURN),
   ("struct", .TKN_STRUCT), ("self", .TKN_SELF), ("enum", .TKN_ENUM), ("union", .TKN_UNION),
   ("case", .TKN_CASE), ("proto", .TKN_PROTO), ("false", .TKN_FALSE), ("true", .TKN_TRUE),
   ("null", .TKN_NULL), ("none", .TKN_NONE), ("undefined", .TKN_UNDEFINED), ("use", .TKN_USE),
   ("pub", .TKN_PUB), ("native", .TKN_NATIVE), ("meta", .TKN_META), ("type", .TKN_TYPE)]

inductive Mode where
  | COMPILATION | KEEP_WHITESPACE
  deriving DecidableEq, Repr

/-- How a file is lexed, with the option `optional_semicolons` of the configuration. -/
structure Options where
  mode : Mode
  optionalSemicolons : Bool
  completionPoint : Option ℕ := none
  deriving DecidableEq, Repr

structure State where
  position : ℕ := 0
  tokens : List Token := []
  attachedTokens : List Token := []
  attachments : List Span := []
  completionTokenInserted : Bool := false
  deriving DecidableEq, Repr

/-- `reader.get`, at a position. -/
def charAt (text : List Char) (position : ℕ) : Char := text.getD position EOF_CHAR

/-- `reader.value`: the characters of the buffer from one position to another. -/
def value (text : List Char) (start stop : ℕ) : List Char :=
  (List.range' start (stop - start)).map (charAt text)

def isWhitespaceChar (c : Char) : Bool := c = ' ' || c = '\n' || c = '\r' || c = '\t'

def isIdentifierStartChar (c : Char) : Bool :=
  ('a' ≤ c && c ≤ 'z') || ('A' ≤ c && c ≤ 'Z') || c = '_'

def isIdentifierChar (c : Char) : Bool :=
  ('a' ≤ c && c ≤ 'z') || ('A' ≤ c && c ≤ 'Z') || ('0' ≤ c && c ≤ '9') || c = '_'

def isNumberChar (c : Char) : Bool :=
  ('0' ≤ c && c ≤ '9') || ('a' ≤ c && c ≤ 'f') || ('A' ≤ c && c ≤ 'F') || c = 'x' || c = 'b' ||
    c = 'o' || c = '.'

def isNumberStartChar (c : Char) : Bool := '0' ≤ c && c ≤ '9'

section Read

variable (options : Options) (text : List Char)

/-! ## Finishing tokens -/

def finishToken (start : ℕ) (type : TokenType) (st : State) : State :=
  { st with
    tokens := st.tokens ++ [⟨type, value text start st.position, start, false⟩]
    attachments :=
      if options.mode = .KEEP_WHITESPACE then st.attachments ++ [⟨0, 0⟩] else st.attachments }

/-- Change the last element, as `back` of a vector lets one do. -/
def modifyBack {α : Type} (f : α → α) (xs : List α) : List α :=
  match xs.getLast? with
  | some x => xs.dropLast ++ [f x]
  | none => xs

def finishLine (st : State) : State :=
  if options.optionalSemicolons then
    { st with tokens := modifyBack (fun token ↦ { token with endOfLine := true }) st.tokens }
  else st

def attachToken (start : ℕ) (type : TokenType) (st : State) : State :=
  if options.mode ≠ .KEEP_WHITESPACE then st
  else
    { st with
      attachedTokens := st.attachedTokens ++ [⟨type, value text start st.position, start, false⟩]
      attachments := modifyBack
        (fun span ↦ if span.count = 0 then ⟨st.attachedTokens.length, 1⟩
          else { span with count := span.count + 1 }) st.attachments }

/-! ## The readers -/

def readWhitespace (st : State) : State :=
  let blank := (text.drop st.position).takeWhile isWhitespaceChar
  let next := { st with position := st.position + blank.length }
  attachToken options text st.position .TKN_WHITESPACE
    (if '\n' ∈ blank then finishLine options next else next)

def readIdentifier (st : State) : State :=
  let name := (text.drop st.position).takeWhile isIdentifierChar
  finishToken options text st.position ((KEYWORDS.lookup (String.ofList name)).getD .TKN_IDENTIFIER)
    { st with position := st.position + name.length }

/-- How many characters a number has; two dots are not part of it. -/
def numberLength : List Char → ℕ
  | [] => 0
  | c :: rest =>
    if !isNumberChar c || (c = '.' && rest.head? = some '.') then 0 else numberLength rest + 1

def readNumber (st : State) : State :=
  finishToken options text st.position .TKN_LITERAL
    { st with position := st.position + numberLength (text.drop st.position) }

/-- How many characters are consumed after the quote that opens a literal; the `EOF_CHAR` an open
literal ends at is one of them. -/
def literalLength (terminator : Char) : List Char → ℕ
  | [] => 1
  | c :: rest =>
    if c = EOF_CHAR then 1
    else if c = '\\' then
      match rest with
      | [] => 2
      | escaped :: rest => if escaped = EOF_CHAR then 2 else literalLength terminator rest + 2
    else if c = terminator then 1
    else literalLength terminator rest + 1

def readCharOrString (type : TokenType) (terminator : Char) (st : State) : State :=
  finishToken options text st.position type
    { st with
      position := st.position + 1 + literalLength terminator (text.drop (st.position + 1)) }

def readComment (st : State) : State :=
  attachToken options text st.position .TKN_COMMENT
    { st with
      position := st.position +
        ((text.drop st.position).takeWhile fun c ↦ c ≠ '\n' && c ≠ EOF_CHAR).length }

/-- The token a punctuation character starts and its length, given the characters that follow. -/
def punctuation (c next second : Char) : Option (TokenType × ℕ) :=
  match c with
  | '+' => some (if next = '=' then (.TKN_PLUS_EQ, 2) else (.TKN_PLUS, 1))
  | '-' => some (if next = '>' then (.TKN_ARROW, 2) else if next = '=' then (.TKN_MINUS_EQ, 2)
      else (.TKN_MINUS, 1))
  | '*' => some (if next = '=' then (.TKN_STAR_EQ, 2) else (.TKN_STAR, 1))
  | '/' => some (if next = '=' then (.TKN_SLASH_EQ, 2) else (.TKN_SLASH, 1))
  | '%' => some (if next = '=' then (.TKN_PERCENT_EQ, 2) else (.TKN_PERCENT, 1))
  | '&' => some (if next = '&' then (.TKN_AND_AND, 2) else if next = '=' then (.TKN_AND_EQ, 2)
      else (.TKN_AND, 1))
  | '|' => some (if next = '|' then (.TKN_OR_OR, 2) else if next = '=' then (.TKN_OR_EQ, 2)
      else (.TKN_OR, 1))
  | '!' => some (if next = '=' then (.TKN_NE, 2) else (.TKN_NOT, 1))
  | '^' => some (if next = '=' then (.TKN_CARET_EQ, 2) else (.TKN_CARET, 1))
  | '~' => some (.TKN_TILDE, 1)
  | '>' => some (if next = '>' then if second = '=' then (.TKN_SHR_EQ, 3) else (.TKN_SHR, 2)
      else if next = '=' then (.TKN_GE, 2) else (.TKN_GT, 1))
  | '<' => some (if next = '<' then if second = '=' then (.TKN_SHL_EQ, 3) else (.TKN_SHL, 2)
      else if next = '=' then (.TKN_LE, 2) else (.TKN_LT, 1))
  | '=' => some (if next = '=' then (.TKN_EQ_EQ, 2) else (.TKN_EQ, 1))
  | '(' => some (.TKN_LPAREN, 1)
  | ')' => some (.TKN_RPAREN, 1)
  | '{' => some (.TKN_LBRACE, 1)
  | '}' => some (.TKN_RBRACE, 1)
  | '[' => some (.TKN_LBRACKET, 1)
  | ']' => some (.TKN_RBRACKET, 1)
  | ';' => some (.TKN_SEMI, 1)
  | ':' => some (.TKN_COLON, 1)
  | ',' => some (.TKN_COMMA, 1)
  | '.' => some (if next = '.' then if second = '.' then
    (.TKN_DOT_DOT_DOT, 3) else (.TKN_DOT_DOT, 2)
      else (.TKN_DOT, 1))
  | '?' => some (.TKN_QUESTION, 1)
  | '@' => some (.TKN_AT, 1)
  | _ => none

/-- A character that starts nothing is consumed without a token. -/
def readPunctuation (st : State) : State :=
  match punctuation (charAt text st.position) (charAt text (st.position + 1))
      (charAt text (st.position + 2)) with
  | some (type, length) =>
    finishToken options text st.position type { st with position := st.position + length }
  | none => { st with position := st.position + 1 }

def readToken (st : State) : State :=
  let c := charAt text st.position
  if isWhitespaceChar c then readWhitespace options text st
  else if isIdentifierStartChar c then readIdentifier options text st
  else if isNumberStartChar c then readNumber options text st
  else if c = '\'' then readCharOrString options text .TKN_CHARACTER '\'' st
  else if c = '"' then readCharOrString options text .TKN_STRING '"' st
  else if c = '#' then readComment options text st
  else readPunctuation options text st

/-- The completion token takes the place of an identifier that ends at the completion point. -/
def tryInsertCompletionToken (st : State) : State :=
  match options.completionPoint with
  | some point =>
    if !st.completionTokenInserted && point ≤ st.position then
      { st with
        tokens := (if st.tokens.getLast?.any fun back ↦ back.type = .TKN_IDENTIFIER &&
            point = back.position + back.value.length then st.tokens.dropLast else st.tokens) ++
          [⟨.TKN_COMPLETION, [], st.position, false⟩]
        completionTokenInserted := true }
    else st
  | none => st

/-! ## Tokenizing -/

def start : State :=
  { attachments := if options.mode = .KEEP_WHITESPACE then [⟨0, 0⟩] else [] }

/-- One turn of the loop of `tokenize`. -/
def step (st : State) : State := tryInsertCompletionToken options (readToken options text st)

/-- The loop of `tokenize`. Every turn consumes a character, so as many turns as there are
characters are enough. -/
def loop : ℕ → State → State
  | 0, st => st
  | fuel + 1, st =>
    if charAt text st.position = EOF_CHAR then st else loop fuel (step options text st)

def eofToken (position : ℕ) : Token := ⟨.TKN_EOF, [], position, false⟩

def tokenize : TokenList :=
  let st := finishLine options (loop options text text.length (start options))
  { tokens := st.tokens ++ [eofToken st.position, eofToken st.position]
    attachedTokens := st.attachedTokens
    attachments := st.attachments }

end Read

end Banjo.Lexer
