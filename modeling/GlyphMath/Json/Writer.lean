import GlyphMath.Decimal.Plain
import GlyphMath.Json.Tree

/-!
# Writing documents

* `quoted` -- a string in quotes, its quotes, backslashes and control characters escaped.
* `floatText` -- a double in its shortest digits, in positional notation from `10^-5` up to
  `10^16` and with an exponent beyond.
* `compact` -- a document without blanks.
* `pretty` -- a document with a line for every item and member, indented by two blanks a level.
* `sorted` -- a document with the keys of its objects in order, the last of equal keys kept.
-/

set_option autoImplicit false

namespace GlyphMath.Json

open GlyphMath.Decimal

/-! ## Scalars -/

/-- A hexadecimal digit in lower case. -/
def hexDigit (n : Nat) : Char := if n < 10 then Char.ofNat (n + 48) else Char.ofNat (n + 87)

/-- A character of a string as it is written. -/
def escapeChar (c : Char) : List Char :=
  match c with
  | '"' => ['\\', '"']
  | '\\' => ['\\', '\\']
  | '\x08' => ['\\', 'b']
  | '\x0c' => ['\\', 'f']
  | '\n' => ['\\', 'n']
  | '\r' => ['\\', 'r']
  | '\t' => ['\\', 't']
  | c =>
    if c.toNat < 0x20 then ['\\', 'u', '0', '0', hexDigit (c.toNat / 16), hexDigit (c.toNat % 16)]
    else [c]

def quoted (s : String) : List Char := '"' :: (s.toList.flatMap escapeChar ++ ['"'])

def integerText (n : Int) : List Char :=
  if n < 0 then '-' :: natDigits n.natAbs else natDigits n.natAbs

/-- Digits with one of them before the point and a signed exponent. -/
def scientificText (d : Digits) : List Char :=
  let power := d.point - 1
  let mantissa := match d.digits with
    | c :: c' :: cs => c :: '.' :: c' :: cs
    | cs => cs
  mantissa ++ 'e' :: (if power < 0 then '-' else '+') :: natDigits power.natAbs

/-- Digits in positional notation, always with a point. -/
def positionalText (d : Digits) : List Char :=
  if (d.digits.length : Int) ≤ d.point then d.positional ++ ['.', '0'] else d.positional

/-- The digits of a double that is not zero, laid out. -/
def digitsText (d : Digits) : List Char :=
  if -5 < d.point && d.point ≤ 16 then positionalText d else scientificText d

/-- A double.  JSON has no text for the values that are no numbers. -/
def floatText (x : Float) : List Char :=
  match Binary.ofFloat x with
  | .nan => ['n', 'u', 'l', 'l']
  | .infinite _ => ['n', 'u', 'l', 'l']
  | .finite negative significand scale =>
    signText negative ++
      (if significand == 0 then ['0', '.', '0'] else digitsText (shortest .even significand scale))

def numberText : Number → List Char
  | .integer n => integerText n
  | .float x => floatText x

def boolText (b : Bool) : List Char :=
  if b then ['t', 'r', 'u', 'e'] else ['f', 'a', 'l', 's', 'e']

/-! ## Without blanks -/

mutual

/-- A document without blanks. -/
def compact : Value → List Char
  | .null => ['n', 'u', 'l', 'l']
  | .bool b => boolText b
  | .number n => numberText n
  | .string s => quoted s
  | .list [] => ['[', ']']
  | .list (v :: vs) => '[' :: (compact v ++ compactItems vs)
  | .object [] => ['\x7b', '\x7d']
  | .object ((k, v) :: ms) => '\x7b' :: (quoted k ++ ':' :: (compact v ++ compactMembers ms))

/-- The items after the first, and the closing bracket. -/
def compactItems : List Value → List Char
  | [] => [']']
  | v :: vs => ',' :: (compact v ++ compactItems vs)

/-- The members after the first, and the closing bracket. -/
def compactMembers : List (String × Value) → List Char
  | [] => ['\x7d']
  | (k, v) :: ms => ',' :: (quoted k ++ ':' :: (compact v ++ compactMembers ms))

end

/-! ## With lines and indentation -/

/-- A line end and the indentation of a level. -/
def newLine (level : Nat) : List Char := '\n' :: List.replicate (2 * level) ' '

mutual

/-- A document with a line for every item and member.  `level` is that of its first line. -/
def pretty (level : Nat) : Value → List Char
  | .null => ['n', 'u', 'l', 'l']
  | .bool b => boolText b
  | .number n => numberText n
  | .string s => quoted s
  | .list [] => ['[', ']']
  | .list (v :: vs) =>
    '[' :: (newLine (level + 1) ++ (pretty (level + 1) v ++ prettyItems level vs))
  | .object [] => ['\x7b', '\x7d']
  | .object ((k, v) :: ms) =>
    '\x7b' :: (newLine (level + 1) ++
      (quoted k ++ ':' :: ' ' :: (pretty (level + 1) v ++ prettyMembers level ms)))

/-- The items after the first, and the closing bracket on a line of its own. -/
def prettyItems (level : Nat) : List Value → List Char
  | [] => newLine level ++ [']']
  | v :: vs => ',' :: (newLine (level + 1) ++ (pretty (level + 1) v ++ prettyItems level vs))

/-- The members after the first, and the closing bracket on a line of its own. -/
def prettyMembers (level : Nat) : List (String × Value) → List Char
  | [] => newLine level ++ ['\x7d']
  | (k, v) :: ms =>
    ',' :: (newLine (level + 1) ++
      (quoted k ++ ':' :: ' ' :: (pretty (level + 1) v ++ prettyMembers level ms)))

end

/-! ## Sorted keys -/

/-- Puts a member into members with ascending keys, unless its key is there already. -/
def insertKey (key : String) (value : Value) : List (String × Value) → List (String × Value)
  | [] => [(key, value)]
  | (k, v) :: ms =>
    if key < k then (key, value) :: (k, v) :: ms
    else if key = k then (k, v) :: ms
    else (k, v) :: insertKey key value ms

mutual

/-- A document with ascending keys in its objects. -/
def sorted : Value → Value
  | .null => .null
  | .bool b => .bool b
  | .number n => .number n
  | .string s => .string s
  | .list items => .list (sortedItems items)
  | .object members => .object (sortedMembers members)

def sortedItems : List Value → List Value
  | [] => []
  | v :: vs => sorted v :: sortedItems vs

/-- The members of an object, sorted.  Later members go in first, so the last of equal keys
stays. -/
def sortedMembers : List (String × Value) → List (String × Value)
  | [] => []
  | (k, v) :: ms => insertKey k (sorted v) (sortedMembers ms)

end

end GlyphMath.Json
