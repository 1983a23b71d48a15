import GlyphMath.Decimal.Plain

/-!
# Boxes in an image

* `Box` -- an upright rectangle; `y` grows downward.
* `Box.ofCorners` -- the rectangle of two corners, refused unless the second corner lies to the
  right of the first and below it.
* `Box.union` -- the smallest rectangle around two.
-/

set_option autoImplicit false

namespace GlyphMath.Layout

/-- An upright rectangle with its left, upper, right and lower edge. -/
structure Box where
  x1 : Float
  y1 : Float
  x2 : Float
  y2 : Float
deriving DecidableEq, Repr

/-- Why two corners have no rectangle. -/
inductive BoxError where
  | inverted (x1 y1 x2 y2 : Float)
deriving DecidableEq, Repr

def BoxError.message : BoxError → String
  | .inverted x1 y1 x2 y2 =>
    "invalid bounding box [" ++ Decimal.plainText x1 ++ ", " ++ Decimal.plainText y1 ++ ", " ++
      Decimal.plainText x2 ++ ", " ++ Decimal.plainText y2 ++ "]: expected x2 >= x1 and y2 >= y1"

/-- The lesser of two doubles, the first of two equal ones. -/
def lesser (a b : Float) : Float := if b < a then b else a

/-- The greater of two doubles, the first of two equal ones. -/
def greater (a b : Float) : Float := if a < b then b else a

namespace Box

/-- The rectangle of two corners.  A corner that is no number has none. -/
def ofCorners (x1 y1 x2 y2 : Float) : Except BoxError Box :=
  if x1 ≤ x2 ∧ y1 ≤ y2 then .ok ⟨x1, y1, x2, y2⟩ else .error (.inverted x1 y1 x2 y2)

def width (b : Box) : Float := b.x2 - b.x1

def height (b : Box) : Float := b.y2 - b.y1

/-- The middle between left and right. -/
def centerX (b : Box) : Float := (b.x1 + b.x2) * 0.5

/-- The middle between top and bottom. -/
def centerY (b : Box) : Float := (b.y1 + b.y2) * 0.5

/-- The smallest rectangle around two. -/
def union (a b : Box) : Box :=
  ⟨lesser a.x1 b.x1, lesser a.y1 b.y1, greater a.x2 b.x2, greater a.y2 b.y2⟩

end Box

end GlyphMath.Layout
