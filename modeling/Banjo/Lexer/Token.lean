import Mathlib.Data.List.GetD
import Mathlib.Data.List.Nodup

/-!
# Ranges of a source text

From a position up to another, the latter not part of it.
-/

namespace Banjo

structure TextRange where
  start : ℕ
  stop : ℕ
  deriving DecidableEq, Repr

/-!
## Tokens

A token has a type, the characters it stands for and the position of the first of them. A token list
also has the whitespace and comments of the source: the attachments say, for each token, which of
them come before it.
-/

inductive TokenType where
  | TKN_IDENTIFIER | TKN_LITERAL | TKN_CHARACTER | TKN_STRING | TKN_COMPLETION | TKN_EOF
  | TKN_VAR | TKN_CONST | TKN_FUNC | TKN_I8 | TKN_I16 | TKN_I32 | TKN_I64 | TKN_U8 | TKN_U16
  | TKN_U32 | TKN_U64 | TKN_F32 | TKN_F64 | TKN_USIZE | TKN_BOOL | TKN_ADDR | TKN_VOID
  | TKN_EXCEPT | TKN_REF | TKN_MUT | TKN_SHARE | TKN_AS | TKN_IS | TKN_IF | TKN_ELSE
  | TKN_SWITCH | TKN_TRY | TKN_WHILE | TKN_FOR | TKN_IN | TKN_BREAK | TKN_CONTINUE | TKN_RETURN
  | TKN_STRUCT | TKN_SELF | TKN_ENUM | TKN_UNION | TKN_CASE | TKN_PROTO | TKN_FALSE | TKN_TRUE
  | TKN_NULL | TKN_NONE | TKN_UNDEFINED | TKN_USE | TKN_PUB | TKN_NATIVE | TKN_META | TKN_TYPE
  | TKN_PLUS | TKN_MINUS | TKN_STAR | TKN_SLASH | TKN_PERCENT | TKN_AND | TKN_OR | TKN_NOT
  | TKN_SHL | TKN_SHR | TKN_CARET | TKN_TILDE | TKN_EQ | TKN_EQ_EQ | TKN_NE | TKN_GT | TKN_LT
  | TKN_GE | TKN_LE | TKN_AND_AND | TKN_OR_OR | TKN_DOT | TKN_DOT_DOT | TKN_DOT_DOT_DOT
  | TKN_PLUS_EQ | TKN_MINUS_EQ | TKN_STAR_EQ | TKN_SLASH_EQ | TKN_PERCENT_EQ | TKN_AND_EQ
  | TKN_OR_EQ | TKN_CARET_EQ | TKN_SHL_EQ | TKN_SHR_EQ | TKN_SEMI | TKN_LPAREN | TKN_RPAREN
  | TKN_LBRACE | TKN_RBRACE | TKN_LBRACKET | TKN_RBRACKET | TKN_COLON | TKN_ARROW | TKN_COMMA
  | TKN_QUESTION | TKN_AT | TKN_WHITESPACE | TKN_COMMENT
  deriving DecidableEq, Repr

structure Token where
  type : TokenType
  value : List Char
  position : ℕ
  endOfLine : Bool := false
  deriving DecidableEq, Repr

namespace TokenList

structure Span where
  first : ℕ
  count : ℕ
  deriving DecidableEq, Repr

end TokenList

structure TokenList where
  tokens : List Token
  attachedTokens : List Token
  attachments : List TokenList.Span
  deriving DecidableEq, Repr

namespace TokenList

/-- The attached tokens of a span. -/
def span (attachedTokens : List Token) (span : Span) : List Token :=
  (attachedTokens.drop span.first).take span.count

/-- All tokens in the order of the source, each after what is attached to it. -/
def pieces (list : TokenList) : List Token :=
  (List.zipWith (fun attachment token ↦ span list.attachedTokens attachment ++ [token])
    list.attachments list.tokens).flatten

end TokenList

end Banjo
