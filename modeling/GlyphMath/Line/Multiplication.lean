import GlyphMath.Line.Config
import GlyphMath.Line.Piece
import GlyphMath.Line.Warning

/-!
# Multiplication signs that are left out

* `gapNotes` -- digits that stand far apart.
* `insertMultiplication` -- the row with a multiplication sign between a piece that ends a value
  and one that starts a value.  Adjacent digits are one number.
-/

set_option autoImplicit false

namespace GlyphMath.Line

/-- Two digits that stand far apart are noted. -/
def gapNotes (config : Config) (a b : Piece) : List Warning :=
  match a.box, b.box with
  | some left, some right =>
    let gap := right.x1 - left.x2
    let meanWidth := (left.width + right.width) / 2.0
    if meanWidth * config.digitContinuity < gap then [.wideGap a.text b.text gap] else []
  | _, _ => []

/-- The row with the multiplication signs that were left out. -/
def insertMultiplication (config : Config) : List Piece → List Piece × List Warning
  | [] => ([], [])
  | [a] => ([a], [])
  | a :: b :: rest =>
    let (out, notes) := insertMultiplication config (b :: rest)
    if a.kind = .number ∧ b.kind = .number then (a :: out, gapNotes config a b ++ notes)
    else if a.kind.endsValue && b.kind.startsValue then
      (a :: Piece.added "*" .operator :: out, notes)
    else (a :: out, notes)

end GlyphMath.Line
