import GlyphMath.Decimal.Power
import GlyphMath.Decimal.Reader
import GlyphMath.Json.Tree

/-!
# The numbers of a document

* `accumulate` -- digits gathered into a significand of 64 bits, until the next digit would not
  fit.
* `scaled?` -- a significand times a power of ten, in double arithmetic.
* `Numeral.number?` -- the number that a numeral denotes: an integer where it has neither a point
  nor an exponent and fits, else a double.
* `Number.toFloat` -- the double nearest a number.

The double of a numeral is its significand, rounded, multiplied or divided by the double nearest
the power of ten.  That is not always the double nearest the numeral.
-/

set_option autoImplicit false

namespace GlyphMath.Json

open GlyphMath.Decimal

/-- Significands are below `2^64`. -/
def significandBound : Nat := twoTo 64

/-- Adds digits to a significand as long as they fit.  The second part counts the digits from the
first one that does not fit. -/
def accumulate (significand : Nat) : List Char → Nat × Nat
  | [] => (significand, 0)
  | d :: ds =>
    let next := 10 * significand + digitValue d
    if next < significandBound then accumulate next ds else (significand, ds.length + 1)

/-- The double nearest a power of ten. -/
def powerOfTen (n : Nat) : Float := Float.ofScientific 1 false n

/-- The greatest power of ten that is a double. -/
def greatestPower : Nat := 308

/-- Divides by a power of ten, the greatest one first while the power is beyond it. -/
def scaleDown (x : Float) (power : Nat) : Float :=
  if _h : power ≤ greatestPower then x / powerOfTen power
  else if x == 0.0 then x
  else scaleDown (x / powerOfTen greatestPower) (power - greatestPower)
termination_by power
decreasing_by
  unfold greatestPower at _h ⊢
  omega

/-- The significand times the power of ten.  There is none beyond the range of doubles. -/
def scaled? (significand : Nat) (exponent : Int) : Option Float :=
  let x := Float.ofNat significand
  if exponent < 0 then some (scaleDown x (-exponent).toNat)
  else if exponent.toNat ≤ greatestPower then
    let y := x * powerOfTen exponent.toNat
    if y.isInf then none else some y
  else if x == 0.0 then some x
  else none

/-- Explicit exponents up to here take part in arithmetic; a greater one settles the number. -/
def greatestExponent : Nat := twoTo 31 - 1

namespace Numeral

/-- The value of the significand and its power of ten, before the explicit exponent. -/
def significand (n : Numeral) : Nat × Int :=
  let (whole, excess) := accumulate 0 n.whole
  let fraction := n.fraction.getD []
  let (all, dropped) := accumulate whole fraction
  (all, (excess : Int) - ((fraction.length - dropped : Nat) : Int))

/-- The absolute value of a numeral as a double. -/
def magnitude? (n : Numeral) : Option Float :=
  let (significand, power) := n.significand
  match n.exponent with
  | none => scaled? significand power
  | some e =>
    let explicit := digitsValue e.digits
    if greatestExponent < explicit then
      if significand != 0 && !e.negative then none else some 0.0
    else scaled? significand (if e.negative then power - explicit else power + explicit)

/-- A numeral as a double with its sign. -/
def float? (n : Numeral) : Option Float :=
  match n.magnitude? with
  | none => none
  | some x => some (if n.negative then -x else x)

/-- Whether a numeral has neither a point nor an exponent. -/
def isPlain (n : Numeral) : Bool := n.fraction.isNone && n.exponent.isNone

/-- The number that a numeral denotes.  There is none beyond the range of doubles.  A negative
zero and a negative number beyond 64 bits are doubles. -/
def number? (n : Numeral) : Option Number :=
  let (significand, excess) := accumulate 0 n.whole
  if n.isPlain && excess == 0 then
    if !n.negative then some (.integer significand)
    else if significand != 0 && significand ≤ twoTo 63 then some (.integer (-(significand : Int)))
    else some (.float (-(Float.ofNat significand)))
  else n.float?.map .float

end Numeral

namespace Number

/-- The double nearest a number. -/
def toFloat : Number → Float
  | .integer n => Float.ofInt n
  | .float x => x

/-- The integer that fits 64 bits with a sign, if a number is one. -/
def toSigned? : Number → Option Int
  | .integer n => if n < twoTo 63 then some n else none
  | .float _ => none

end Number

end GlyphMath.Json
