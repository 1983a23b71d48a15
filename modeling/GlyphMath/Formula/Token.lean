import GlyphMath.Decimal.Plain

/-!
# Tokens of infix text

* `Operator` -- the binary operators with their precedence and associativity.
* `functionNames` -- the words that stand for functions.
* `Token`, `Lexeme` -- a token, and a token with the place where it starts.

Places count the characters before a token.
-/

set_option autoImplicit false

namespace GlyphMath.Formula

/-- A binary operator. -/
inductive Operator where
  | add
  | sub
  | mul
  | div
  | pow
deriving DecidableEq, Repr

namespace Operator

def symbol : Operator → Char
  | add => '+'
  | sub => '-'
  | mul => '*'
  | div => '/'
  | pow => '^'

def ofChar? : Char → Option Operator
  | '+' => some add
  | '-' => some sub
  | '*' => some mul
  | '/' => some div
  | '^' => some pow
  | _ => none

/-- A greater number binds tighter. -/
def precedence : Operator → Nat
  | pow => 4
  | mul => 3
  | div => 3
  | add => 2
  | sub => 2

/-- Whether the right one of two equal operators is applied first. -/
def isRightAssoc (op : Operator) : Bool := op == pow

/-- Whether an operator waiting on the left is applied before one on its right is. -/
def yieldsTo (waiting next : Operator) : Bool :=
  next.precedence < waiting.precedence ||
    (waiting.precedence == next.precedence && !next.isRightAssoc)

theorem ofChar?_symbol (op : Operator) : ofChar? op.symbol = some op := by cases op <;> rfl

end Operator

/-- The words that stand for functions. -/
def functionNames : List String :=
  ["sqrt", "sin", "cos", "tan", "sec", "csc", "cot", "ln", "log", "exp", "abs", "neg", "diff",
    "limit"]

/-- A token of infix text. -/
inductive Token where
  | number (value : Float)
  | name (text : String)
  | function (text : String)
  | operator (op : Operator)
  | openParen
  | closeParen
  | comma
deriving DecidableEq, Repr

def Token.toText : Token → String
  | .number v => Decimal.plainText v
  | .name text => text
  | .function text => text
  | .operator op => op.symbol.toString
  | .openParen => "("
  | .closeParen => ")"
  | .comma => ","

/-- A token and the place where it starts. -/
structure Lexeme where
  token : Token
  offset : Nat
deriving DecidableEq, Repr

end GlyphMath.Formula
