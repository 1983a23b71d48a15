import GlyphMath.Decimal.Shortest

/-!
# Doubles as text

* `Digits.positional` -- digits laid out without an exponent.
* `plain` -- a double in its shortest digits, never with an exponent and without a point for a
  whole number.  The form that expression text and messages use.
* `fixed` -- a double with a given number of places, its exact value rounded half to even.
-/

set_option autoImplicit false

namespace GlyphMath.Decimal

/-- A minus sign for a set sign bit. -/
def signText (negative : Bool) : List Char := if negative then ['-'] else []

def infinityText (negative : Bool) : List Char := signText negative ++ ['i', 'n', 'f']

/-- The text of a value that is no number carries no sign. -/
def nanText : List Char := ['N', 'a', 'N']

/-- The digits without an exponent: zeros fill the places up to the point. -/
def Digits.positional (d : Digits) : List Char :=
  if d.point ≤ 0 then
    '0' :: '.' :: (List.replicate (-d.point).toNat '0' ++ d.digits)
  else
    let whole := d.point.toNat
    if d.digits.length ≤ whole then
      d.digits ++ List.replicate (whole - d.digits.length) '0'
    else
      d.digits.take whole ++ '.' :: d.digits.drop whole

/-- The plain text of a double. -/
def plain (x : Float) : List Char :=
  match Binary.ofFloat x with
  | .nan => nanText
  | .infinite negative => infinityText negative
  | .finite negative significand scale =>
    signText negative ++
      (if significand == 0 then ['0'] else (shortest .upward significand scale).positional)

/-- The quotient rounded to the nearest natural number, a half to the even one. -/
def roundHalfEven (numerator denominator : Nat) : Nat :=
  let below := numerator / denominator
  let rest := 2 * (numerator % denominator)
  if rest < denominator then below
  else if denominator < rest then below + 1
  else if below % 2 == 0 then below else below + 1

/-- A count of units of `10^-places`, written with that many places. -/
def placed (places count : Nat) : List Char :=
  let ds := natDigits count
  let padded := List.replicate (places + 1 - ds.length) '0' ++ ds
  let whole := padded.length - places
  if places == 0 then padded else padded.take whole ++ '.' :: padded.drop whole

/-- A double with `places` digits after the point. -/
def fixed (places : Nat) (x : Float) : List Char :=
  match Binary.ofFloat x with
  | .nan => nanText
  | .infinite negative => infinityText negative
  | .finite negative significand scale =>
    signText negative ++
      placed places (roundHalfEven (significand * twoTo scale * tenTo places) ticksPerOne)

def plainText (x : Float) : String := String.ofList (plain x)

def fixedText (places : Nat) (x : Float) : String := String.ofList (fixed places x)

end GlyphMath.Decimal
