/-!
# JSON documents

* `Tree` -- a JSON document over a type of strings and a type of numbers.
* `Numeral`, `Item` -- a number and a piece of a string as they are written.
* `Number` -- a number as it is used: an integer of 64 bits or a double.
* `Source` -- a document as written, nothing but its grammar looked at.
* `Value` -- a document with all of its strings and numbers decoded.

A document is read in two steps: first its grammar, then the strings and numbers of those parts
that are used.  A part that nobody uses may hold a number out of range or half a surrogate pair.
-/

set_option autoImplicit false

namespace GlyphMath.Json

/-- A JSON document.  Members stand in the order of the text, repeated keys included. -/
inductive Tree (Str Num : Type) where
  | null
  | bool (value : Bool)
  | number (value : Num)
  | string (value : Str)
  | list (items : List (Tree Str Num))
  | object (members : List (Str × Tree Str Num))
deriving Repr

/-- The exponent of a number as written. -/
structure ExponentText where
  negative : Bool
  digits : List Char
deriving DecidableEq, Repr

/-- A number as written: its digits before and after the point, and its exponent. -/
structure Numeral where
  negative : Bool
  whole : List Char
  fraction : Option (List Char)
  exponent : Option ExponentText
deriving DecidableEq, Repr

/-- One item of a string as written: a character, also one escaped by a letter, or the 16-bit unit
of an escape by number. -/
inductive Item where
  | char (c : Char)
  | unit (n : Nat)
deriving DecidableEq, Repr

/-- A number as used: an integer that fits 64 bits, with or without sign, or a double. -/
inductive Number where
  | integer (value : Int)
  | float (value : Float)
deriving DecidableEq, Repr

/-- A document as written. -/
abbrev Source := Tree (List Item) Numeral

/-- A decoded document. -/
abbrev Value := Tree String Number

end GlyphMath.Json
