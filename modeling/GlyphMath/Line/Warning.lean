import GlyphMath.Decimal.Plain

/-!
# What looks wrong on a line

* `DropCount` -- how many symbols of each sort were dropped.
* `Warning` -- what looked wrong while a line was put together.
* `Warning.message` -- its wording.

Positions count the pieces before one.
-/

set_option autoImplicit false

namespace GlyphMath.Line

/-- How many symbols of each sort were dropped. -/
structure DropCount where
  digits : Nat
  operators : Nat
  functions : Nat
  others : Nat
deriving DecidableEq, Repr

/-- What looked wrong while a line was put together. -/
inductive Warning where
  | noSymbols
  | dropped (count : DropCount) (threshold : Float)
  | nothingLeft (detected : Nat) (lowest highest mean threshold : Float)
  | crowdedExponent (base : String) (count : Nat)
  | unpairedBar (position : Nat)
  | noArgumentList (position : Nat)
  | noOperand (text : String) (position : Nat)
  | closedBracket (position : Nat)
  | openedBracket (position : Nat)
  | gaveUp (unmatched : Nat)
  | wideGap (left right : String) (gap : Float)
  | unbalanced
deriving DecidableEq, Repr

/-- A number of things of one sort, in words, and nothing for none. -/
def countText (count : Nat) (what : String) : Option String :=
  if count = 0 then none
  else if count = 1 then some ("1 " ++ what)
  else some (toString count ++ " " ++ what ++ "s")

/-- The sorts of dropped symbols with their numbers. -/
def DropCount.toText (c : DropCount) : String :=
  ", ".intercalate
    ([countText c.digits "digit", countText c.operators "operator",
      countText c.functions "function", countText c.others "other"].filterMap id)

def Warning.message : Warning → String
  | .noSymbols => "no symbols detected"
  | .dropped count threshold =>
    "dropped low-confidence symbols: " ++ count.toText ++ " (threshold=" ++
      Decimal.fixedText 2 threshold ++ ")"
  | .nothingLeft detected lowest highest mean threshold =>
    "no symbols left after filtering (detected=" ++ toString detected ++ ", score range=" ++
      Decimal.fixedText 3 lowest ++ "-" ++ Decimal.fixedText 3 highest ++ ", mean=" ++
      Decimal.fixedText 3 mean ++ ", threshold=" ++ Decimal.fixedText 2 threshold ++ ")"
  | .crowdedExponent base count =>
    "multiple exponent candidates above '" ++ base ++ "' (" ++ toString count ++
      " symbols), using all"
  | .unpairedBar position => "unpaired absolute-value bar at position " ++ toString position
  | .noArgumentList position =>
    "'lim' at position " ++ toString position ++ " has no parenthesized argument list"
  | .noOperand text position =>
    "'" ++ text ++ "' at position " ++ toString position ++ " has no operand"
  | .closedBracket position =>
    "bracket repair: changed '(' at position " ++ toString position ++ " to ')'"
  | .openedBracket position =>
    "bracket repair: changed ')' at position " ++ toString position ++ " to '('"
  | .gaveUp unmatched =>
    "bracket repair gave up with " ++ toString unmatched ++ " unmatched bracket(s)"
  | .wideGap left right gap =>
    "digits '" ++ left ++ "' and '" ++ right ++ "' are " ++ Decimal.fixedText 1 gap ++
      "px apart, read as one number"
  | .unbalanced => "unbalanced brackets in reconstructed expression (possible detection error)"

end GlyphMath.Line
