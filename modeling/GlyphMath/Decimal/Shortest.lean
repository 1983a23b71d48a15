import GlyphMath.Decimal.Binary

/-!
# The shortest digits that read back

* `Digits` -- decimal digits with a point: `0.d₁d₂… × 10^point`.
* `candidate` -- the neighbour of a double on one decimal grid that rounds to it.
* `shortest` -- the fewest digits that round to a double, of two equally short ones the nearer,
  and of two equally near ones the one that `Tie` names.

The neighbours of a value on a grid are its quotient by the grid's unit, rounded down, and that
plus one.  If any point of the grid rounds to the double, one of these two does, so the first grid
with a hit has the fewest digits.
-/

set_option autoImplicit false

namespace GlyphMath.Decimal

/-- The digits and the place of the point: the value is `0.d₁d₂… × 10^point`. -/
structure Digits where
  digits : List Char
  point : Int
deriving DecidableEq, Repr

/-- Which of two equally near candidates is taken. -/
inductive Tie where
  | upward
  | even
deriving DecidableEq, Repr

def natDigits (n : Nat) : List Char := Nat.toDigits 10 n

def dropTrailingZeros (digits : List Char) : List Char :=
  (digits.reverse.dropWhile (· == '0')).reverse

/-- The multiple of `10^grid` next to the value that rounds to it: the nearer one where both
neighbours do.  The result counts units of `10^grid`. -/
def candidate (tie : Tie) (r : Rounding) (grid : Int) : Option Nat :=
  let factor := tenTo (-grid).toNat
  let unit := tenTo grid.toNat * (4 * ticksPerOne)
  let scaled := r.value * factor
  let below := scaled / unit
  let above := below + 1
  match r.contains (below * unit) factor, r.contains (above * unit) factor with
  | false, false => none
  | true, false => some below
  | false, true => some above
  | true, true =>
    let rest := 2 * (scaled % unit)
    if rest < unit then some below
    else if unit < rest then some above
    else match tie with
      | .upward => some above
      | .even => if below % 2 == 0 then some below else some above

/-- The power of ten of the leading digit of `numerator / denominator`, both positive. -/
def leadingPower (numerator denominator : Nat) : Int :=
  if denominator ≤ numerator then
    ((natDigits (numerator / denominator)).length : Int) - 1
  else
    let d := (natDigits (denominator / numerator)).length
    if numerator * tenTo (d - 1) == denominator then 1 - (d : Int) else -(d : Int)

/-- The grid's multiple as digits with a point. -/
def Digits.ofMultiple (count : Nat) (grid : Int) : Digits :=
  let ds := natDigits count
  { digits := dropTrailingZeros ds, point := ds.length + grid }

/-- Seventeen digits identify every double; the grids run from one digit to seventeen. -/
def mostDigits : Nat := 17

/-- The fewest digits that round to the double `significand * 2^scale` ticks, which is not zero.
The last line is not reached: seventeen digits always suffice. -/
def shortest (tie : Tie) (significand scale : Nat) : Digits :=
  let r := Binary.rounding significand scale
  let top := leadingPower r.value (4 * ticksPerOne)
  let grids := (List.range mostDigits).map fun (n : Nat) => top - (n : Int)
  match grids.findSome? (fun grid => (candidate tie r grid).map (·, grid)) with
  | some (count, grid) => Digits.ofMultiple count grid
  | none => Digits.ofMultiple (r.value * tenTo 1076 / (4 * ticksPerOne)) (-1076)

end GlyphMath.Decimal
