import GlyphMath.Line.Piece
import GlyphMath.Line.Warning

/-!
# Functions and their operands

* `derivative?` -- the variable of a derivative sign, `d / d x`.
* `operandLength` -- how many pieces the operand of a function has.
* `writeCalls` -- the row with the operand of every root and bare function in brackets, and every
  derivative sign as a call.
-/

set_option autoImplicit false

namespace GlyphMath.Line

/-- The variable of a derivative sign at the front, and what follows the sign. -/
def derivative? (pieces : List Piece) : Option (Piece × List Piece) :=
  match pieces with
  | d₁ :: slash :: d₂ :: v :: rest =>
    if d₁.text = "d" ∧ slash.text = "/" ∧ d₂.text = "d" ∧ v.kind = .variable then
      some (v, rest)
    else none
  | _ => none

theorem derivative?_length {pieces rest : List Piece} {v : Piece}
    (h : derivative? pieces = some (v, rest)) : rest.length < pieces.length := by
  unfold derivative? at h
  split at h
  · split at h
    · cases h
      simp only [List.length_cons]
      omega
    · contradiction
  · contradiction

/-- How many pieces an operand has.  It ends before an operator or a comma outside of brackets, and
before a closing bracket that has no opening one in it; a minus sign may lead it. -/
def operandLength (depth : Nat) (leading : Bool) : List Piece → Nat
  | [] => 0
  | p :: rest =>
    match p.kind with
    | .opening => operandLength (depth + 1) false rest + 1
    | .closing => if depth = 0 then 0 else operandLength (depth - 1) false rest + 1
    | .operator =>
      if depth = 0 ∧ ¬(leading = true ∧ p.text = "-") then 0
      else operandLength depth false rest + 1
    | .comma => if depth = 0 then 0 else operandLength depth false rest + 1
    | _ => operandLength depth false rest + 1

/-- The name under which a function is called. -/
def callName (text : String) : String :=
  match text with
  | "√" => "sqrt"
  | "lim" => "limit"
  | text => text

def startsOpen : List Piece → Bool
  | [] => false
  | p :: _ => p.kind == .opening

/-- What is to be noted of a function without brackets. -/
def callNotes (position : Nat) (p : Piece) (operand : List Piece) : List Warning :=
  (if p.text = "lim" then [Warning.noArgumentList position] else []) ++
    (if operand.isEmpty then [Warning.noOperand p.text position] else [])

/-- Whether a piece is a function that is to be called. -/
def isCallable (p : Piece) : Bool := p.kind == .root || p.kind == .function

/-- The row with its functions called, from a position on.  Positions inside an operand count from
the start of the operand. -/
def writeCalls (position : Nat) (pieces : List Piece) : List Piece × List Warning :=
  match pieces with
  | [] => ([], [])
  | p :: rest =>
    match _h : derivative? (p :: rest) with
    | some (v, rest) =>
      let (out, notes) := writeCalls (position + 4) rest
      (Piece.added "diff" .function :: Piece.openParen :: v :: Piece.closeParen :: out, notes)
    | none =>
      if isCallable p then
        let head : Piece := ⟨callName p.text, .function, p.box⟩
        if p.kind == .function && startsOpen rest then
          let (out, notes) := writeCalls (position + 1) rest
          (head :: out, notes)
        else
          let length := operandLength 0 true rest
          let (inner, innerNotes) := writeCalls 0 (rest.take length)
          let (out, notes) := writeCalls (position + 1 + length) (rest.drop length)
          (head :: Piece.openParen :: (inner ++ Piece.closeParen :: out),
            callNotes position p (rest.take length) ++ innerNotes ++ notes)
      else
        let (out, notes) := writeCalls (position + 1) rest
        (p :: out, notes)
termination_by pieces.length
decreasing_by
  · exact derivative?_length _h
  · exact Nat.lt_succ_self _
  · exact Nat.lt_succ_of_le (by simp only [List.length_take]; omega)
  · exact Nat.lt_succ_of_le (by simp only [List.length_drop]; omega)
  · exact Nat.lt_succ_self _

end GlyphMath.Line
