import GlyphMath.Layout.Box

/-!
# Detected symbols

* `Symbol` -- one symbol that a detector has found in an image.
* `SymbolSet` -- the symbols of an image.
-/

set_option autoImplicit false

namespace GlyphMath.Layout

/-- One detected symbol: the detector's label, the token it stands for, the confidence, and the
place. -/
structure Symbol where
  label : String
  token : String
  score : Float
  box : Box
deriving DecidableEq, Repr

/-- The symbols of an image of the given size. -/
structure SymbolSet where
  width : Nat
  height : Nat
  symbols : List Symbol
deriving DecidableEq, Repr

end GlyphMath.Layout
