import GlyphMath.Line.Bar
import GlyphMath.Line.Bracket
import GlyphMath.Line.Call
import GlyphMath.Line.Exponent
import GlyphMath.Line.Multiplication
import GlyphMath.Line.Selection
import GlyphMath.Line.Spelling

/-!
# Reading a line of symbols

* `Reading` -- the text of a line, and what looked wrong.
* `piecesOf` -- the pieces of symbols from left to right, spelled names joined.
* `beforeRepair` -- the pieces with exponents, bars and calls written out.
* `assemble` -- the pieces of the finished line.
* `linearize` -- the line of a set of symbols.

Reading never fails: whatever looks wrong is noted beside the best line that was found.
-/

set_option autoImplicit false

namespace GlyphMath.Line

open Layout (Symbol)

/-- The text of a line, and what looked wrong. -/
structure Reading where
  text : String
  warnings : List Warning
deriving DecidableEq, Repr

/-- The pieces of symbols from left to right, spelled names joined. -/
def piecesOf (symbols : List Symbol) : List Piece :=
  joinNames (sortByCenter (symbols.map Piece.detected))

/-- The pieces with exponents and bars written out. -/
def beforeCalls (config : Config) (pieces : List Piece) : List Piece × List Warning :=
  let (raised, crowded) := groupExponents config pieces
  let (paired, unpaired) := pairBars raised
  (paired, crowded ++ unpaired)

/-- The pieces with exponents, bars and calls written out. -/
def beforeRepair (config : Config) (pieces : List Piece) : List Piece × List Warning :=
  let (paired, notes) := beforeCalls config pieces
  let (called, bare) := writeCalls 0 paired
  (called, notes ++ bare)

/-- The pieces of the finished line. -/
def assemble (config : Config) (symbols : List Symbol) : List Piece × List Warning :=
  let (called, notes) := beforeRepair config (piecesOf symbols)
  let (repaired, changes) := repairBrackets config.maxRepairPasses called
  let (multiplied, gaps) := insertMultiplication config repaired
  (multiplied, notes ++ changes ++ gaps)

/-- Brackets that do not pair up are noted. -/
def balanceNotes (text : String) : List Warning :=
  if isBalanced text then [] else [.unbalanced]

/-- The line of a set of symbols. -/
def linearize (config : Config) (symbols : List Symbol) : Reading :=
  match select config symbols with
  | (none, notes) => ⟨"", notes⟩
  | (some kept, notes) =>
    let (pieces, more) := assemble config kept
    let text := lineText pieces
    ⟨text, notes ++ more ++ balanceNotes text⟩

end GlyphMath.Line
