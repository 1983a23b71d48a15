import GlyphMath.Line.Piece
import GlyphMath.Line.Warning

/-!
# Absolute-value bars

* `barPairs` -- the positions of the bars that belong together.  A bar right after a value closes
  the innermost bar that waits, and any other bar waits.
* `pairBars` -- the row with every pair of bars as a call of the absolute value.
-/

set_option autoImplicit false

namespace GlyphMath.Line

/-- The pairs of bars from a position on.  `afterValue` says whether the piece before ends a value,
where a bar does so only if it closes a pair. -/
def barPairs (position : Nat) (afterValue : Bool) (waiting : List Nat) :
    List Piece → List (Nat × Nat)
  | [] => []
  | p :: rest =>
    if p.kind = .bar then
      match afterValue, waiting with
      | true, first :: others => (first, position) :: barPairs (position + 1) true others rest
      | _, _ => barPairs (position + 1) false (position :: waiting) rest
    else barPairs (position + 1) p.kind.endsValue waiting rest

/-- Writes the bars of a row from a position on. -/
def writeBars (pairs : List (Nat × Nat)) (position : Nat) :
    List Piece → List Piece × List Warning
  | [] => ([], [])
  | p :: rest =>
    let (out, notes) := writeBars pairs (position + 1) rest
    if pairs.any (·.1 == position) then
      (⟨"abs", .function, p.box⟩ :: Piece.openParen :: out, notes)
    else if pairs.any (·.2 == position) then (Piece.closeParen :: out, notes)
    else (p :: out, if p.kind = .bar then .unpairedBar position :: notes else notes)

/-- The row with every pair of bars as a call. -/
def pairBars (pieces : List Piece) : List Piece × List Warning :=
  writeBars (barPairs 0 false [] pieces) 0 pieces

end GlyphMath.Line
