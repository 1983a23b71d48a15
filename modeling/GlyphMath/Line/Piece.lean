import GlyphMath.Decimal.Reader
import GlyphMath.Layout.Symbol
import GlyphMath.Text.Blank

/-!
# Pieces of a line

A line of mathematics is a row of pieces, left to right.

* `Kind` -- what a piece is: a value, a function, an operator or a sign.
* `Kind.of` -- the kind of a text.
* `normalize` -- the spellings of detectors, folded into one sign each.
* `Piece` -- a text with its kind and, for a piece that has been seen, its box.
* `sortByCenter` -- pieces from left to right.

A piece without a box has been added, and is never taken for a misread one.
-/

set_option autoImplicit false

namespace GlyphMath.Line

open Layout (Box Symbol)

inductive Kind where
  | number
  | variable
  | function
  | operator
  | opening
  | closing
  | bar
  | comma
  | root
  | other
deriving DecidableEq, Repr

/-- The function names that letters are joined into, in the order in which they are tried. -/
def spelledNames : List String :=
  ["sqrt", "sin", "sec", "cos", "csc", "cot", "tan", "log", "ln", "exp", "abs", "lim"]

/-- Whether a text is a single lower-case ASCII letter. -/
def isLowerCase (text : List Char) : Bool :=
  match text with
  | [c] => 'a' ≤ c && c ≤ 'z'
  | _ => false

/-- Whether a text consists of digits and points. -/
def isNumeric (text : List Char) : Bool :=
  !text.isEmpty && text.all fun c => Decimal.isDigit c || c == '.'

namespace Kind

def of (text : String) : Kind :=
  match text with
  | "+" => .operator
  | "-" => .operator
  | "*" => .operator
  | "/" => .operator
  | "^" => .operator
  | "(" => .opening
  | ")" => .closing
  | "|" => .bar
  | "," => .comma
  | "√" => .root
  | "π" => .variable
  | "ℯ" => .variable
  | text =>
    if isNumeric text.toList then .number
    else if text ∈ spelledNames then .function
    else if isLowerCase text.toList then .variable
    else .other

/-- Whether a value may end with a piece. -/
def endsValue : Kind → Bool
  | .number => true
  | .variable => true
  | .closing => true
  | .bar => true
  | _ => false

/-- Whether a value may start with a piece. -/
def startsValue : Kind → Bool
  | .number => true
  | .variable => true
  | .opening => true
  | .function => true
  | .root => true
  | _ => false

end Kind

/-- The sign that a token is a spelling of. -/
def normalize (token : String) : String :=
  match token with
  | "×" => "*"
  | "·" => "*"
  | "÷" => "/"
  | "−" => "-"
  | "–" => "-"
  | "[" => "("
  | "\x7b" => "("
  | "]" => ")"
  | "\x7d" => ")"
  | token => token

/-- A piece of a line. -/
structure Piece where
  text : String
  kind : Kind
  box : Option Box
deriving DecidableEq, Repr

namespace Piece

/-- The piece of a symbol, its token without blanks around it. -/
def detected (s : Symbol) : Piece :=
  let text := normalize (Text.trim s.token)
  ⟨text, Kind.of text, some s.box⟩

/-- A piece that nobody has seen. -/
def added (text : String) (kind : Kind) : Piece := ⟨text, kind, none⟩

def openParen : Piece := added "(" .opening

def closeParen : Piece := added ")" .closing

/-- The middle of a piece between left and right. -/
def centerX (p : Piece) : Float :=
  match p.box with
  | some b => b.centerX
  | none => 0.0 / 0.0

end Piece

/-- The order from left to right: the total order of the middles. -/
def centerKey (p : Piece) : Int := Decimal.totalKey p.centerX

/-- Puts a piece into a row that is ordered from left to right, before the pieces at its own
place. -/
def insertByCenter (p : Piece) : List Piece → List Piece
  | [] => [p]
  | q :: rest => if centerKey p ≤ centerKey q then p :: q :: rest else q :: insertByCenter p rest

/-- Pieces from left to right, those at one place in the order they had. -/
def sortByCenter (pieces : List Piece) : List Piece := pieces.foldr insertByCenter []

def lineText (pieces : List Piece) : String := String.join (pieces.map (·.text))

end GlyphMath.Line
