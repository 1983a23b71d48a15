import GlyphMath.Line.Config
import GlyphMath.Line.Piece
import GlyphMath.Line.Warning

/-!
# Raised symbols

* `isSuperscript` -- whether a piece stands as an exponent at another one: to its right and near,
  with its middle above, and smaller.
* `groupExponents` -- the row with every run of raised pieces as a bracketed exponent of the piece
  before the run.
-/

set_option autoImplicit false

namespace GlyphMath.Line

/-- Whether a piece stands as an exponent at a base. -/
def isSuperscript (config : Config) (base candidate : Piece) : Bool :=
  match base.kind.endsValue, base.box, candidate.box with
  | true, some a, some b =>
    let right := a.centerX < b.centerX
    let above := b.centerY < a.centerY - config.superscriptRise * a.height
    let smaller := b.height < config.superscriptShrink * a.height
    let near := a.centerX < b.x1 && b.x1 < a.x2 + config.superscriptReach * a.width
    right && above && smaller && near
  | _, _, _ => false

def exponent (run : List Piece) : List Piece :=
  if run.isEmpty then []
  else Piece.added "^" .operator :: Piece.openParen :: (sortByCenter run ++ [Piece.closeParen])

/-- More than one raised piece at a base is noted. -/
def crowding (base : Piece) (run : List Piece) : List Warning :=
  if 1 < run.length then [.crowdedExponent base.text run.length] else []

/-- The row with its raised runs as exponents.  The piece after a run starts anew. -/
def groupExponents (config : Config) (pieces : List Piece) : List Piece × List Warning :=
  match pieces with
  | [] => ([], [])
  | base :: rest =>
    let run := rest.takeWhile (isSuperscript config base)
    let (out, notes) := groupExponents config (rest.dropWhile (isSuperscript config base))
    (base :: (exponent run ++ out), crowding base run ++ notes)
termination_by pieces.length
decreasing_by
  exact Nat.lt_succ_of_le (List.Sublist.length_le (List.dropWhile_sublist _))

end GlyphMath.Line
