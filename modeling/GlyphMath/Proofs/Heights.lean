import GlyphMath.Line.Piece
import Mathlib.Combinatorics.Enumerative.DyckWord

/-!
# Heights of a row

* `Piece.step?` -- the step up or down that a bracket is.
* `WellNested` -- the brackets of a row make up a Dyck word.
* `Climbs` -- the brackets of a row lead from one height to another and never below the ground.

Principal result:

* `wellNested_iff` -- well-nested brackets are those that lead from the ground to the ground.
-/

set_option autoImplicit false

namespace GlyphMath.Line

/-! ## Brackets as steps -/

/-- An opening bracket is a step up, a closing one a step down. -/
def Piece.step? (p : Piece) : Option DyckStep :=
  match p.kind with
  | .opening => some .U
  | .closing => some .D
  | _ => none

/-- The brackets of a row. -/
def brackets (pieces : List Piece) : List DyckStep := pieces.filterMap Piece.step?

/-- The brackets of a row are well nested: they make up a Dyck word. -/
def WellNested (pieces : List Piece) : Prop := ∃ w : DyckWord, w.toList = brackets pieces

/-- The height that steps lead to from a height.  There is none if they go below the ground. -/
def height? (start : Nat) : List DyckStep → Option Nat
  | [] => some start
  | .U :: steps => height? (start + 1) steps
  | .D :: steps =>
    match start with
    | 0 => none
    | start + 1 => height? start steps

theorem filterMap_cons_toList {α β : Type} (f : α → Option β) (a : α) (as : List α) :
    (a :: as).filterMap f = (f a).toList ++ as.filterMap f := by
  rw [List.filterMap_cons]
  cases f a <;> rfl

theorem height?_append (start : Nat) (steps steps' : List DyckStep) :
    height? start (steps ++ steps') = (height? start steps).bind (height? · steps') := by
  induction steps generalizing start with
  | nil => rfl
  | cons s steps ih =>
    cases s with
    | U => exact ih (start + 1)
    | D =>
      cases start with
      | zero => rfl
      | succ start => exact ih start

/-- A higher start leads to a height that is as much higher. -/
theorem height?_add {start stop : Nat} {steps : List DyckStep} (more : Nat)
    (h : height? start steps = some stop) : height? (start + more) steps = some (stop + more) := by
  induction steps generalizing start with
  | nil =>
    cases h
    rfl
  | cons s steps ih =>
    cases s with
    | U =>
      rw [height?, Nat.add_right_comm]
      exact ih h
    | D =>
      cases start with
      | zero => cases h
      | succ start =>
        rw [Nat.add_right_comm]
        exact ih h

theorem height?_eq_some_iff {start stop : Nat} {steps : List DyckStep} :
    height? start steps = some stop ↔
      start + steps.count .U = stop + steps.count .D ∧
        ∀ i, (steps.take i).count .D ≤ start + (steps.take i).count .U := by
  induction steps generalizing start with
  | nil => simp [height?]
  | cons s steps ih =>
    cases s with
    | U =>
      rw [height?, ih]
      constructor
      · rintro ⟨hcount, htake⟩
        refine ⟨by simp; omega, fun i => ?_⟩
        cases i with
        | zero => simp
        | succ i =>
          have := htake i
          simp
          omega
      · rintro ⟨hcount, htake⟩
        refine ⟨by simp at hcount; omega, fun i => ?_⟩
        have := htake (i + 1)
        simp at this
        omega
    | D =>
      cases start with
      | zero =>
        simp only [height?, reduceCtorEq, false_iff, not_and, not_forall]
        intro _
        exact ⟨1, by simp⟩
      | succ start =>
        rw [height?, ih]
        constructor
        · rintro ⟨hcount, htake⟩
          refine ⟨by simp; omega, fun i => ?_⟩
          cases i with
          | zero => simp
          | succ i =>
            have := htake i
            simp
            omega
        · rintro ⟨hcount, htake⟩
          refine ⟨by simp at hcount; omega, fun i => ?_⟩
          have := htake (i + 1)
          simp at this
          omega

/-- `Climbs start stop pieces`: with so many brackets open before a row, no bracket of it closes
one too many, and so many are open after it. -/
def Climbs (start stop : Nat) (pieces : List Piece) : Prop :=
  height? start (brackets pieces) = some stop

instance (start stop : Nat) (pieces : List Piece) : Decidable (Climbs start stop pieces) :=
  inferInstanceAs (Decidable (height? start (brackets pieces) = some stop))

/-- **The brackets of a row are well nested** when they lead from the ground to the ground. -/
theorem wellNested_iff {pieces : List Piece} : WellNested pieces ↔ Climbs 0 0 pieces := by
  rw [Climbs, height?_eq_some_iff]
  constructor
  · rintro ⟨w, hw⟩
    have hcount := w.count_U_eq_count_D
    have htake := w.count_D_le_count_U
    rw [hw] at hcount htake
    simpa using ⟨hcount, htake⟩
  · rintro ⟨hcount, htake⟩
    exact ⟨⟨brackets pieces, by simpa using hcount, by simpa using htake⟩, rfl⟩

instance (pieces : List Piece) : Decidable (WellNested pieces) :=
  decidable_of_iff _ wellNested_iff.symm

section

variable {start stop : Nat} {p : Piece} {pieces rest : List Piece}

theorem climbs_nil : Climbs start stop [] ↔ start = stop := by
  simp [Climbs, brackets, height?]

theorem climbs_opening (hp : p.kind = .opening) :
    Climbs start stop (p :: rest) ↔ Climbs (start + 1) stop rest := by
  simp [Climbs, brackets, Piece.step?, hp, height?]

theorem climbs_closing (hp : p.kind = .closing) :
    Climbs (start + 1) stop (p :: rest) ↔ Climbs start stop rest := by
  simp [Climbs, brackets, Piece.step?, hp, height?]

theorem climbs_plain (hp : p.step? = none) :
    Climbs start stop (p :: rest) ↔ Climbs start stop rest := by
  simp [Climbs, brackets, hp]

theorem climbs_append {as bs : List Piece} :
    Climbs start stop (as ++ bs) ↔ ∃ middle, Climbs start middle as ∧ Climbs middle stop bs := by
  simp [Climbs, brackets, height?_append, Option.bind_eq_some_iff]

theorem climbs_cons : Climbs start stop (p :: rest) ↔
    ∃ middle, Climbs start middle [p] ∧ Climbs middle stop rest := by
  rw [← climbs_append, List.singleton_append]

theorem Climbs.add (h : Climbs start stop pieces) (more : Nat) :
    Climbs (start + more) (stop + more) pieces :=
  height?_add more h

/-- **A pair of brackets around a part of a row** keeps the heights outside of it. -/
theorem Climbs.bracketed (h : Climbs start stop pieces) :
    Climbs start stop (Piece.openParen :: (pieces ++ [Piece.closeParen])) := by
  rw [climbs_opening rfl, climbs_append]
  refine ⟨stop + 1, h.add 1, ?_⟩
  rw [climbs_closing rfl, climbs_nil]

end

/-! ## Brackets among other pieces -/

def Piece.isBracket (p : Piece) : Bool := p.step?.isSome

theorem brackets_filter (pieces : List Piece) :
    brackets (pieces.filter Piece.isBracket) = brackets pieces := by
  induction pieces with
  | nil => rfl
  | cons p pieces ih =>
    unfold brackets at ih ⊢
    cases hp : p.step? with
    | none => simp [Piece.isBracket, hp, ih]
    | some s => simp [Piece.isBracket, hp, ih]

theorem step?_eq_none {p : Piece} (h : p.kind ≠ .opening) (h' : p.kind ≠ .closing) :
    p.step? = none := by
  unfold Piece.step?
  split <;> first | contradiction | rfl

theorem isBracket_of_kind {p : Piece} (h : p.kind ≠ .opening) (h' : p.kind ≠ .closing) :
    p.isBracket = false := by
  rw [Piece.isBracket, step?_eq_none h h']
  rfl

end GlyphMath.Line
