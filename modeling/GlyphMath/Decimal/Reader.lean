/-!
# Reading decimal text

* `digitsValue` -- the natural number that digits denote.
* `nearest` -- the double nearest `significand * 10^exponent`, an infinity beyond the range.
* `read?` -- the double that a decimal text denotes: a sign, then digits with an optional point
  and an optional exponent, or `inf`, `infinity` or `nan` in letters of any case.
-/

set_option autoImplicit false

namespace GlyphMath.Decimal

/-- The ten ASCII digits. -/
def isDigit (c : Char) : Bool := '0' ≤ c && c ≤ '9'

/-- The number that a digit stands for. -/
def digitValue (c : Char) : Nat := c.toNat - '0'.toNat

/-- The number that a row of digits stands for, most significant digit first. -/
def digitsValue (digits : List Char) : Nat :=
  digits.foldl (fun n c => 10 * n + digitValue c) 0

def infinity : Float := 1.0 / 0.0

/-- The double nearest `significand * 10^exponent`.  A significand of `n` digits lies below
`10^(n + exponent)`, so exponents far outside the range of doubles are settled without computing
the power. -/
def nearest (significand : Nat) (exponent : Int) : Float :=
  if significand = 0 then 0.0
  else
    let top := ((Nat.toDigits 10 significand).length : Int) + exponent
    if 400 < top then infinity
    else if top < -400 then 0.0
    else if 0 ≤ exponent then Float.ofScientific significand false exponent.toNat
    else Float.ofScientific significand true (-exponent).toNat

/-- An exponent after its letter: a sign and at least one digit, nothing after them. -/
def exponent? (text : List Char) : Option Int :=
  match text with
  | '-' :: ds => if !ds.isEmpty && ds.all isDigit then some (-(digitsValue ds : Int)) else none
  | '+' :: ds => if !ds.isEmpty && ds.all isDigit then some (digitsValue ds : Int) else none
  | ds => if !ds.isEmpty && ds.all isDigit then some (digitsValue ds : Int) else none

/-- What follows the digits: nothing, or an exponent. -/
def exponentPart? (text : List Char) : Option Int :=
  match text with
  | [] => some 0
  | c :: r => if c == 'e' || c == 'E' then exponent? r else none

/-- Splits the digits at the front off. -/
def spanDigits (text : List Char) : List Char × List Char :=
  (text.takeWhile isDigit, text.dropWhile isDigit)

/-- Digits with an optional point, at least one digit in all, and an optional exponent. -/
def readUnsigned? (text : List Char) : Option Float :=
  let (whole, rest) := spanDigits text
  let (fraction, rest) := match rest with
    | '.' :: r => spanDigits r
    | r => ([], r)
  if whole.isEmpty && fraction.isEmpty then none
  else match exponentPart? rest with
    | none => none
    | some e => some (nearest (digitsValue (whole ++ fraction)) (e - fraction.length))

/-- The words for the values that have no digits. -/
def readWord? (text : List Char) : Option Float :=
  let word := text.map Char.toLower
  if word == ['i', 'n', 'f'] || word == ['i', 'n', 'f', 'i', 'n', 'i', 't', 'y'] then some infinity
  else if word == ['n', 'a', 'n'] then some (0.0 / 0.0)
  else none

/-- A text without its sign. -/
def readMagnitude? (text : List Char) : Option Float :=
  match readWord? text with
  | some x => some x
  | none => readUnsigned? text

/-- The double that a decimal text denotes.  Blanks and separators belong to no such text. -/
def read? (text : List Char) : Option Float :=
  match text with
  | '-' :: r => (readMagnitude? r).map fun x => -x
  | '+' :: r => readMagnitude? r
  | r => readMagnitude? r

end GlyphMath.Decimal
