import GlyphMath.Expr.Basic

/-!
# Values of variables

* `Bindings` -- values of letters, kept in ascending order of the letters, one value a letter.
* `Bindings.set`, `Bindings.remove`, `Bindings.get` -- a letter without a value counts as one.

Any character may be bound.  Only the letters of `Expr.alphabet` are ever read.
-/

set_option autoImplicit false

namespace GlyphMath

/-- The entries stand in ascending order of their letters. -/
def Ascending (entries : List (Char × Float)) : Prop := entries.Pairwise (·.1 < ·.1)

/-- Values of letters, no letter twice. -/
structure Bindings where
  entries : List (Char × Float)
  ascending : Ascending entries

namespace Bindings

/-- The value of a letter that is not bound. -/
def unboundValue : Float := 1.0

/-- Puts a value in the place of its letter. -/
def place (c : Char) (v : Float) : List (Char × Float) → List (Char × Float)
  | [] => [(c, v)]
  | (d, w) :: rest =>
    if c < d then (c, v) :: (d, w) :: rest
    else if c = d then (c, v) :: rest
    else (d, w) :: place c v rest

theorem mem_place {c : Char} {v : Float} {entries : List (Char × Float)} {p : Char × Float}
    (h : p ∈ place c v entries) : p = (c, v) ∨ p ∈ entries := by
  fun_induction place c v entries with
  | case1 => exact Or.inl (List.mem_singleton.1 h)
  | case2 => exact List.mem_cons.1 h
  | case3 => exact (List.mem_cons.1 h).imp_right (List.mem_cons_of_mem _)
  | case4 _ _ _ _ _ ih =>
    rcases List.mem_cons.1 h with rfl | h
    · exact Or.inr List.mem_cons_self
    · exact (ih h).imp_right (List.mem_cons_of_mem _)

theorem ascending_place {c : Char} {v : Float} {entries : List (Char × Float)}
    (h : Ascending entries) : Ascending (place c v entries) := by
  fun_induction place c v entries with
  | case1 => exact List.pairwise_singleton _ _
  | case2 d w rest hlt =>
    refine List.pairwise_cons.2 ⟨fun p hp => ?_, h⟩
    rcases List.mem_cons.1 hp with rfl | hp
    · exact hlt
    · exact Char.lt_trans hlt ((List.pairwise_cons.1 h).1 p hp)
  | case3 w rest _ =>
    have hcons := List.pairwise_cons.1 h
    exact List.pairwise_cons.2 ⟨hcons.1, hcons.2⟩
  | case4 d w rest hlt hne ih =>
    have hcons := List.pairwise_cons.1 h
    refine List.pairwise_cons.2 ⟨fun p hp => ?_, ih hcons.2⟩
    rcases mem_place hp with rfl | hp
    · exact Char.not_le.1 fun hle => hne (Char.le_antisymm hle (Char.not_lt.1 hlt))
    · exact hcons.1 p hp

def empty : Bindings := ⟨[], List.Pairwise.nil⟩

/-- Binds a letter, in place of any value it had. -/
def set (b : Bindings) (c : Char) (v : Float) : Bindings :=
  ⟨place c v b.entries, ascending_place b.ascending⟩

/-- The value a letter is bound to. -/
def get? (b : Bindings) (c : Char) : Option Float :=
  (b.entries.find? fun p => p.1 == c).map (·.2)

/-- The value of a letter, bound or not. -/
def get (b : Bindings) (c : Char) : Float := (b.get? c).getD unboundValue

def contains (b : Bindings) (c : Char) : Bool := (b.get? c).isSome

def remove (b : Bindings) (c : Char) : Bindings :=
  ⟨b.entries.filter fun p => p.1 != c, b.ascending.filter _⟩

/-- The bound letters in ascending order. -/
def names (b : Bindings) : List Char := b.entries.map (·.1)

/-- Binds letters one after another. -/
def ofList (entries : List (Char × Float)) : Bindings :=
  entries.foldl (fun b p => b.set p.1 p.2) empty

end Bindings

end GlyphMath
