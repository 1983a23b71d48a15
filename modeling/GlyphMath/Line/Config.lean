/-!
# Settings of the line reader

* `Config` -- the thresholds; a fresh value has the usual ones.
-/

set_option autoImplicit false

namespace GlyphMath.Line

/-- The thresholds of the line reader. -/
structure Config where
  /-- Symbols with a lower confidence are dropped. -/
  scoreThreshold : Float := 0.10
  /-- An exponent's middle lies above its base's by more than this part of the base's height. -/
  superscriptRise : Float := 0.15
  /-- An exponent is lower than this part of its base's height. -/
  superscriptShrink : Float := 0.85
  /-- An exponent starts before the base's right edge plus this many base widths. -/
  superscriptReach : Float := 1.5
  /-- Digits that are further apart than this part of their mean width are noted. -/
  digitContinuity : Float := 0.5
  /-- How many brackets may be changed. -/
  maxRepairPasses : Nat := 10
deriving DecidableEq, Repr

end GlyphMath.Line
