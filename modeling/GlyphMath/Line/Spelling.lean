import GlyphMath.Line.Piece

/-!
# Letters that spell a function name

* `spells` -- whether pieces start with the letters of a word, one letter each.
* `spelledName?` -- the name that pieces start with.
* `joinNames` -- the row with every spelled name as one piece.
-/

set_option autoImplicit false

namespace GlyphMath.Line

open Layout (Box)

/-- Whether pieces start with the letters of a word, one letter each. -/
def spells : List Char → List Piece → Bool
  | [], _ => true
  | _ :: _, [] => false
  | c :: word, p :: pieces => p.text.toList == [c] && spells word pieces

/-- The first name that pieces start with. -/
def spelledName? (pieces : List Piece) : Option String :=
  spelledNames.find? fun name => spells name.toList pieces

/-- The smallest box around the boxes of pieces. -/
def boxAround (pieces : List Piece) : Option Box :=
  match pieces.filterMap (·.box) with
  | [] => none
  | b :: bs => some (bs.foldl Box.union b)

/-- The row with every spelled name as one piece, from the left. -/
def joinNames (pieces : List Piece) : List Piece :=
  match pieces with
  | [] => []
  | p :: rest =>
    match spelledName? (p :: rest) with
    | some name =>
      ⟨name, .function, boxAround ((p :: rest).take name.length)⟩ ::
        joinNames (rest.drop (name.length - 1))
    | none => p :: joinNames rest
termination_by pieces.length
decreasing_by
  · simp only [List.length_drop, List.length_cons]
    omega
  · exact Nat.lt_succ_self _

end GlyphMath.Line
