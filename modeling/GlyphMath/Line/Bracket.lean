import GlyphMath.Line.Piece
import GlyphMath.Line.Warning

/-!
# Misread brackets

* `Nesting` -- the brackets of a row: how many there are and which have no partner.
* `repairTarget?` -- the bracket to change next.
* `repairBrackets` -- changes one bracket a pass until every bracket has its partner, nothing can
  be changed, or the passes are used up.
* `isBalanced` -- whether the brackets of a text pair up.

Only a bracket that has been seen is changed.  With two or more opening brackets too many the
second of the first two unmatched ones that stand side by side is changed, else the last unmatched
one; with two or more closing brackets too many, in the same way, else the first unmatched one.
With as many of each, the first unmatched closing bracket is changed.  One bracket too many cannot
be mended, since a change moves the balance by two.
-/

set_option autoImplicit false

namespace GlyphMath.Line

/-- The brackets of a row, the positions in ascending order. -/
structure Nesting where
  openings : Nat
  closings : Nat
  unmatchedOpenings : List Nat
  unmatchedClosings : List Nat
deriving DecidableEq, Repr

namespace Nesting

/-- Goes on with the brackets of a row from a position on.  The unmatched positions so far stand in
descending order. -/
def scan (position openings closings : Nat) (waiting lone : List Nat) : List Piece → Nesting
  | [] => ⟨openings, closings, waiting.reverse, lone.reverse⟩
  | p :: rest =>
    match p.kind with
    | .opening => scan (position + 1) (openings + 1) closings (position :: waiting) lone rest
    | .closing =>
      match waiting with
      | _ :: waiting => scan (position + 1) openings (closings + 1) waiting lone rest
      | [] => scan (position + 1) openings (closings + 1) [] (position :: lone) rest
    | _ => scan (position + 1) openings closings waiting lone rest

def of (pieces : List Piece) : Nesting := scan 0 0 0 [] [] pieces

/-- Whether every bracket has its partner. -/
def isValid (n : Nesting) : Bool := n.unmatchedOpenings.isEmpty && n.unmatchedClosings.isEmpty

/-- How many brackets have no partner. -/
def unmatched (n : Nesting) : Nat := n.unmatchedOpenings.length + n.unmatchedClosings.length

end Nesting

/-! ## Repair -/

def isSeen (pieces : List Piece) (position : Nat) : Bool :=
  match pieces[position]? with
  | some p => p.box.isSome
  | none => false

def hasKind (pieces : List Piece) (kind : Kind) (position : Nat) : Bool :=
  match pieces[position]? with
  | some p => p.kind == kind
  | none => false

/-- The second of the first two brackets of a kind that stand side by side, where it is seen and
unmatched. -/
def adjacentPair? (pieces : List Piece) (kind : Kind) (unmatched : List Nat) : Option Nat :=
  unmatched.find? fun position =>
    position != 0 && hasKind pieces kind (position - 1) && hasKind pieces kind position &&
      isSeen pieces position

/-- The bracket to change next. -/
def repairTarget? (pieces : List Piece) (n : Nesting) : Option Nat :=
  if n.closings + 2 ≤ n.openings then
    match adjacentPair? pieces .opening n.unmatchedOpenings with
    | some position => some position
    | none => n.unmatchedOpenings.reverse.find? (isSeen pieces)
  else if n.openings + 2 ≤ n.closings then
    match adjacentPair? pieces .closing n.unmatchedClosings with
    | some position => some position
    | none => n.unmatchedClosings.find? (isSeen pieces)
  else if n.openings = n.closings then n.unmatchedClosings.find? (isSeen pieces)
  else none

/-- The bracket with the other direction. -/
def Piece.flip (p : Piece) : Piece :=
  if p.kind = .opening then ⟨")", .closing, p.box⟩ else ⟨"(", .opening, p.box⟩

/-- The row with the bracket at a position changed. -/
def flipAt (pieces : List Piece) (position : Nat) : List Piece :=
  pieces.modify position Piece.flip

def flipNote (pieces : List Piece) (position : Nat) : Warning :=
  if hasKind pieces .opening position then .closedBracket position else .openedBracket position

/-- Changes brackets, one a pass, for at most the given number of passes. -/
def repairBrackets (passes : Nat) (pieces : List Piece) : List Piece × List Warning :=
  let n := Nesting.of pieces
  if n.isValid then (pieces, [])
  else
    match passes with
    | 0 => (pieces, [.gaveUp n.unmatched])
    | passes + 1 =>
      match repairTarget? pieces n with
      | none => (pieces, [.gaveUp n.unmatched])
      | some position =>
        let (out, notes) := repairBrackets passes (flipAt pieces position)
        (out, flipNote pieces position :: notes)

/-! ## Balance of a text -/

/-- Whether brackets pair up after `depth` open ones.  A bar counts as a closing bracket. -/
def balancedFrom (depth : Nat) : List Char → Bool
  | [] => depth == 0
  | c :: rest =>
    if c == '(' then balancedFrom (depth + 1) rest
    else if c == ')' || c == '|' then depth != 0 && balancedFrom (depth - 1) rest
    else balancedFrom depth rest

/-- Whether the brackets of a text pair up. -/
def isBalanced (text : String) : Bool := balancedFrom 0 text.toList

end GlyphMath.Line
