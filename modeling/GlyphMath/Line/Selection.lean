import GlyphMath.Line.Config
import GlyphMath.Line.Piece
import GlyphMath.Line.Warning

/-!
# Symbols that are confident enough

* `isKept` -- whether a symbol reaches the threshold; a score that is no number does not.
* `countDropped` -- the dropped symbols, sorted by what they stand for.
* `select` -- the symbols that are kept, if there are any, and what is to be noted.
-/

set_option autoImplicit false

namespace GlyphMath.Line

open Layout (Symbol lesser greater)

/-- Whether a symbol reaches the threshold. -/
def isKept (config : Config) (s : Symbol) : Bool := config.scoreThreshold ≤ s.score

/-- Adds one thing of a kind to the numbers of dropped symbols. -/
def DropCount.add (c : DropCount) (kind : Kind) : DropCount :=
  match kind with
  | .number => { c with digits := c.digits + 1 }
  | .operator => { c with operators := c.operators + 1 }
  | .function => { c with functions := c.functions + 1 }
  | .root => { c with functions := c.functions + 1 }
  | _ => { c with others := c.others + 1 }

/-- How many symbols of each sort there are. -/
def countDropped (symbols : List Symbol) : DropCount :=
  symbols.foldl (fun c s => c.add (Kind.of (normalize s.token))) ⟨0, 0, 0, 0⟩

/-- The lowest score, the highest score and the mean. -/
def scoreSpread (symbols : List Symbol) : Float × Float × Float :=
  let scores := symbols.map (·.score)
  let lowest := scores.foldl lesser Decimal.infinity
  let highest := scores.foldl greater (-Decimal.infinity)
  let total := scores.foldl (· + ·) (-0.0)
  (lowest, highest, total / Float.ofNat symbols.length)

/-- The symbols that are kept, nothing where none is, and what is to be noted. -/
def select (config : Config) (symbols : List Symbol) : Option (List Symbol) × List Warning :=
  if symbols.isEmpty then (none, [.noSymbols])
  else
    let kept := symbols.filter (isKept config)
    let dropped := symbols.filter fun s => !isKept config s
    let dropNotes :=
      if dropped.isEmpty then []
      else [Warning.dropped (countDropped dropped) config.scoreThreshold]
    if kept.isEmpty then
      let (lowest, highest, mean) := scoreSpread symbols
      (none, dropNotes ++
        [.nothingLeft symbols.length lowest highest mean config.scoreThreshold])
    else (some kept, dropNotes)

end GlyphMath.Line
