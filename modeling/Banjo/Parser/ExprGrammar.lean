import Banjo.Lexer.Lexemes
import Banjo.Parser.Parser

/-!
# The grammar of expressions

Trees of binary and unary operators over operands of one token, and how they are written: an operand
of an operator that binds less tightly than its place asks for is put in parentheses. Operators are
ordered by rank, from the operators of one operand to ranges; binary operators associate to the
left.
-/

namespace Banjo.ExprParser

open Banjo.Parser TokenStream TokenType ASTNodeType
open Lexer (Lexeme IsToken written)

/-! ## Operators -/

inductive BinaryOp where
  | RANGE | OR | AND | EQ | NE | GT | LT | GE | LE | BIT_OR | BIT_XOR | BIT_AND | SHL | SHR
  | ADD | SUB | MUL | DIV | MOD | CAST | TYPE_CHECK
  deriving DecidableEq, Repr

namespace BinaryOp

def lexeme : BinaryOp → Lexeme
  | RANGE => ⟨TKN_DOT_DOT, ['.', '.']⟩
  | OR => ⟨TKN_OR_OR, ['|', '|']⟩
  | AND => ⟨TKN_AND_AND, ['&', '&']⟩
  | EQ => ⟨TKN_EQ_EQ, ['=', '=']⟩
  | NE => ⟨TKN_NE, ['!', '=']⟩
  | GT => ⟨TKN_GT, ['>']⟩
  | LT => ⟨TKN_LT, ['<']⟩
  | GE => ⟨TKN_GE, ['>', '=']⟩
  | LE => ⟨TKN_LE, ['<', '=']⟩
  | BIT_OR => ⟨TKN_OR, ['|']⟩
  | BIT_XOR => ⟨TKN_CARET, ['^']⟩
  | BIT_AND => ⟨TKN_AND, ['&']⟩
  | SHL => ⟨TKN_SHL, ['<', '<']⟩
  | SHR => ⟨TKN_SHR, ['>', '>']⟩
  | ADD => ⟨TKN_PLUS, ['+']⟩
  | SUB => ⟨TKN_MINUS, ['-']⟩
  | MUL => ⟨TKN_STAR, ['*']⟩
  | DIV => ⟨TKN_SLASH, ['/']⟩
  | MOD => ⟨TKN_PERCENT, ['%']⟩
  | CAST => ⟨TKN_AS, ['a', 's']⟩
  | TYPE_CHECK => ⟨TKN_IS, ['i', 's']⟩

def node : BinaryOp → ASTNodeType
  | RANGE => AST_RANGE_EXPR
  | OR => AST_OR_EXPR
  | AND => AST_AND_EXPR
  | EQ => AST_EQ_EXPR
  | NE => AST_NE_EXPR
  | GT => AST_GT_EXPR
  | LT => AST_LT_EXPR
  | GE => AST_GE_EXPR
  | LE => AST_LE_EXPR
  | BIT_OR => AST_BIT_OR_EXPR
  | BIT_XOR => AST_BIT_XOR_EXPR
  | BIT_AND => AST_BIT_AND_EXPR
  | SHL => AST_SHL_EXPR
  | SHR => AST_SHR_EXPR
  | ADD => AST_ADD_EXPR
  | SUB => AST_SUB_EXPR
  | MUL => AST_MUL_EXPR
  | DIV => AST_DIV_EXPR
  | MOD => AST_MOD_EXPR
  | CAST => AST_CAST_EXPR
  | TYPE_CHECK => AST_TYPE_CHECK_EXPR

/-- The place in the order of precedence; the tightest is one. -/
def rank : BinaryOp → ℕ
  | CAST | TYPE_CHECK => 1
  | MUL | DIV | MOD => 2
  | ADD | SUB => 3
  | SHL | SHR => 4
  | BIT_AND => 5
  | BIT_XOR => 6
  | BIT_OR => 7
  | EQ | NE | GT | LT | GE | LE => 8
  | AND => 9
  | OR => 10
  | RANGE => 11

end BinaryOp

inductive UnaryOp where
  | NEG | BIT_NOT | ADDR | STAR | NOT | OPTIONAL | IMPLICIT_DOT | REF | REF_MUT | SHARE | TRY
  deriving DecidableEq, Repr

namespace UnaryOp

/-- The token the operator starts with. -/
def lexeme : UnaryOp → Lexeme
  | NEG => ⟨TKN_MINUS, ['-']⟩
  | BIT_NOT => ⟨TKN_TILDE, ['~']⟩
  | ADDR => ⟨TKN_AND, ['&']⟩
  | STAR => ⟨TKN_STAR, ['*']⟩
  | NOT => ⟨TKN_NOT, ['!']⟩
  | OPTIONAL => ⟨TKN_QUESTION, ['?']⟩
  | IMPLICIT_DOT => ⟨TKN_DOT, ['.']⟩
  | REF | REF_MUT => ⟨TKN_REF, ['r', 'e', 'f']⟩
  | SHARE => ⟨TKN_SHARE, ['s', 'h', 'a', 'r', 'e']⟩
  | TRY => ⟨TKN_TRY, ['t', 'r', 'y']⟩

def lexemes : UnaryOp → List Lexeme
  | REF_MUT => [REF_MUT.lexeme, ⟨TKN_MUT, ['m', 'u', 't']⟩]
  | op => [op.lexeme]

def node : UnaryOp → ASTNodeType
  | NEG => AST_NEG_EXPR
  | BIT_NOT => AST_BIT_NOT_EXPR
  | ADDR => AST_ADDR_EXPR
  | STAR => AST_STAR_EXPR
  | NOT => AST_NOT_EXPR
  | OPTIONAL => AST_OPTIONAL_TYPE
  | IMPLICIT_DOT => AST_IMPLICIT_DOT_EXPR
  | REF => AST_REF_EXPR
  | REF_MUT => AST_REF_MUT_EXPR
  | SHARE => AST_SHARE_EXPR
  | TRY => AST_TRY_EXPR

end UnaryOp

/-! ## Operands -/

/-- The token is an operand, with a node of this type and this value. -/
inductive IsOperand : Lexeme → ASTNodeType → List Char → Prop
  | token {lexeme : Lexeme} {node : ASTNodeType} :
      tokenOperand lexeme.type = some node → IsOperand lexeme node lexeme.text
  | int {text : List Char} : '.' ∉ text →
      (∀ token : Token, token.value = text → intLiteralErrors token = []) →
      IsOperand ⟨TKN_LITERAL, text⟩ AST_INT_LITERAL text
  | fp {text : List Char} : '.' ∈ text → isFpLiteral text = true →
      IsOperand ⟨TKN_LITERAL, text⟩ AST_FP_LITERAL text
  | character {text : List Char} :
      (∀ token : Token, token.value = text → charLiteralErrors token = []) →
      IsOperand ⟨TKN_CHARACTER, text⟩ AST_CHAR_LITERAL ((text.drop 1).take (text.length - 2))
  | string {text : List Char} :
      (∀ token : Token, token.value = text → stringLiteralErrors token = []) →
      IsOperand ⟨TKN_STRING, text⟩ AST_STRING_LITERAL ((text.drop 1).take (text.length - 2))
  | self {text : List Char} : IsOperand ⟨TKN_SELF, text⟩ AST_SELF []

/-- An operand of one token. -/
structure Operand where
  lexeme : Lexeme
  node : ASTNodeType
  value : List Char
  isToken : IsToken lexeme
  isOperand : IsOperand lexeme node value

/-! ## Expressions -/

inductive Expr where
  | operand (a : Operand)
  | unary (op : UnaryOp) (e : Expr)
  | binary (op : BinaryOp) (l r : Expr)

def lparen : Lexeme := ⟨TKN_LPAREN, ['(']⟩

def rparen : Lexeme := ⟨TKN_RPAREN, [')']⟩

namespace Expr

def rank : Expr → ℕ
  | .binary op _ _ => op.rank
  | _ => 0

/-- In parentheses, if the place of an expression does not admit its rank. -/
def enclose (place rank : ℕ) (body : List Lexeme) : List Lexeme :=
  if place < rank then lparen :: body ++ [rparen] else body

/-- An expression without parentheses around it. The operand on the right of a binary operator binds
more tightly than the operator. -/
def body : Expr → List Lexeme
  | .operand a => [a.lexeme]
  | .unary op e => op.lexemes ++ enclose 0 e.rank e.body
  | .binary op l r =>
    enclose op.rank l.rank l.body ++ op.lexeme :: enclose (op.rank - 1) r.rank r.body

/-- An expression at a place that admits expressions of a rank. -/
def lexemes (place : ℕ) (e : Expr) : List Lexeme := enclose place e.rank e.body

def print (e : Expr) : List Char := written e.body

end Expr

/-! ## Trees -/

/-- What a syntax tree says, without parentheses, ranges and token indices. -/
inductive Tree where
  | leaf (type : ASTNodeType) (value : List Char)
  | unary (type : ASTNodeType) (operand : Tree)
  | binary (type : ASTNodeType) (lhs rhs : Tree)
  | other
  deriving DecidableEq, Repr

def tree : ASTNode → Tree
  | .mk type value _ _ [] => .leaf type value
  | .mk type _ _ _ [child] => if type = AST_PAREN_EXPR then tree child else .unary type (tree child)
  | .mk type _ _ _ [lhs, rhs] => .binary type (tree lhs) (tree rhs)
  | _ => .other

theorem tree_of_ne {type : ASTNodeType} (h : type ≠ AST_PAREN_EXPR) (value : List Char)
    (range : TextRange) (tokens : List ℕ) (child : ASTNode) :
    tree (.mk type value range tokens [child]) = .unary type (tree child) := by
  rw [tree, if_neg h]

def Expr.tree : Expr → Tree
  | .operand a => .leaf a.node a.value
  | .unary op e => .unary op.node e.tree
  | .binary op l r => .binary op.node l.tree r.tree

end Banjo.ExprParser
