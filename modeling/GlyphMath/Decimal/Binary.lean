import GlyphMath.Decimal.Power

/-!
# Doubles as whole numbers of ticks

A finite double is a whole number of *ticks* of `2^-1074`, the distance between the two smallest
non-negative doubles.  Every exact question about the text of a double becomes a question about
natural numbers this way.

* `Binary` -- what a double denotes: not a number, an infinity, or a sign with a significand and a
  scale.
* `Binary.ofFloat` -- reads it off the bits.
* `Binary.rounding` -- the reals that round to a finite double, as an interval of quarter ticks.
* `isSignSet` -- whether a double counts as negative, zero included.
* `totalKey` -- the integer whose order is the total order of doubles by bits.
-/

set_option autoImplicit false

namespace GlyphMath.Decimal

/-- What a double denotes.  `finite negative significand scale` has the absolute value
`significand * 2^scale` ticks. -/
inductive Binary where
  | nan
  | infinite (negative : Bool)
  | finite (negative : Bool) (significand scale : Nat)
deriving DecidableEq, Repr

/-- Ticks in one: `2^1074`. -/
def ticksPerOne : Nat := twoTo 1074

/-- The reals that round to one finite double, its ends and the double itself counted in quarter
ticks.  The ends belong to it when the significand is even. -/
structure Rounding where
  value : Nat
  low : Nat
  high : Nat
  closed : Bool
deriving DecidableEq, Repr

def isSignSet (x : Float) : Bool := twoTo 63 ≤ x.toBits.toNat

namespace Binary

/-- The double's sign, exponent field and fraction field, put together.  A zero exponent field
marks the doubles below `2^-1022`, which have no leading one. -/
def ofFloat (x : Float) : Binary :=
  let bits := x.toBits.toNat
  let negative := isSignSet x
  let field := bits / twoTo 52 % twoTo 11
  let fraction := bits % twoTo 52
  if field == 2047 then
    if fraction == 0 then .infinite negative else .nan
  else if field == 0 then .finite negative fraction 0
  else .finite negative (twoTo 52 + fraction) (field - 1)

/-- The interval that a finite double stands for.  It reaches half a gap to both sides; below a
power of two the gap is half as wide as above, except where the gaps stop shrinking. -/
def rounding (significand scale : Nat) : Rounding :=
  let gap := twoTo scale
  { value := 4 * significand * gap
    low := 4 * significand * gap -
      (if significand == twoTo 52 && scale != 0 then gap else 2 * gap)
    high := 4 * significand * gap + 2 * gap
    closed := significand % 2 == 0 }

end Binary

/-- Whether the real `numerator / denominator`, in quarter ticks, rounds to the double. -/
def Rounding.contains (r : Rounding) (numerator denominator : Nat) : Bool :=
  if r.closed then
    r.low * denominator ≤ numerator && numerator ≤ r.high * denominator
  else
    r.low * denominator < numerator && numerator < r.high * denominator

/-- The total order of doubles: negative before positive, `-0` before `0`, and a number with the
sign bit set counts downwards from `-1`. -/
def totalKey (x : Float) : Int :=
  let bits := x.toBits.toNat
  if isSignSet x then -((bits - twoTo 63 : Nat) : Int) - 1 else (bits : Int)

end GlyphMath.Decimal
