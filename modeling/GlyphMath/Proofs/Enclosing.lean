import GlyphMath.Layout.Box
import GlyphMath.Proofs.Order
import Mathlib.Data.Prod.Lex

/-!
# The smallest box around boxes

* `place` -- the place of an unpacked double among the numbers, the same for both noughts.
* `Box.IsUpright` -- a box with its corners in order, so that none of its edges is no number.
* `Box.Within` -- a box inside another one.
* `Box.IsAround` -- the smallest box around boxes.

Doubles are ordered through their places: one that is no number has none, and a comparison with it
fails either way, so that it is left out from the start.

Principal results:

* `le_iff_place` -- numbers are compared as their places are.
* `isAround_foldl` -- uniting boxes one after the other leads to the smallest box around them all.
-/

set_option autoImplicit false

namespace GlyphMath.Decimal

open Float.Model Float.Model.UnpackedFloat

/-! ## Places of numbers -/

/-- The place of an unpacked double among the numbers: the sign with what is infinite outermost,
then the exponent, then the mantissa. -/
def place : UnpackedFloat → Int ×ₗ Int ×ₗ Int
  | .notANumber => toLex (0, toLex (0, 0))
  | .infinity .negative => toLex (-2, toLex (0, 0))
  | .finite .negative m e _ => toLex (-1, toLex (-e, -m))
  | .zero _ => toLex (0, toLex (0, 0))
  | .finite .positive m e _ => toLex (1, toLex (e, m))
  | .infinity .positive => toLex (2, toLex (0, 0))

theorem compare_eq_lt_iff {u v : UnpackedFloat} (hu : u ≠ .notANumber) (hv : v ≠ .notANumber) :
    u.compare v = some .lt ↔ place u < place v := by
  have hsign : compare Sign.negative Sign.positive = .lt := rfl
  cases u with
  | notANumber => exact absurd rfl hu
  | infinity s | zero s | finite s =>
    cases v with
    | notANumber => exact absurd rfl hv
    | infinity s' | zero s' | finite s' =>
      cases s <;> cases s'
      all_goals
        show some _ = some Ordering.lt ↔ toLex (_, toLex (_, _)) < toLex (_, toLex (_, _))
        simp [Prod.Lex.toLex_lt_toLex, Ordering.then_eq_lt, Ordering.then_eq_gt,
          Int.compare_eq_lt, Int.compare_eq_gt, Nat.compare_eq_lt, Nat.compare_eq_gt,
          hsign]

section

variable {x y z : Float}

theorem lt_iff_place (hx : x.isNaN = false) (hy : y.isNaN = false) :
    x < y ↔ place x.toModel.unpack < place y.toModel.unpack := by
  have hnumber {w : Float} (hw : w.isNaN = false) : w.toModel.unpack ≠ .notANumber := by
    intro hnan
    have hw' : w.toModel.unpack.isNaN = false := hw
    rw [isNaN_iff.2 hnan] at hw'
    cases hw'
  rw [lt_iff_compare, compare_eq_lt_iff (hnumber hx) (hnumber hy)]

/-- **Numbers are compared as their places are.** -/
theorem le_iff_place (hx : x.isNaN = false) (hy : y.isNaN = false) :
    x ≤ y ↔ place x.toModel.unpack ≤ place y.toModel.unpack := by
  have hnot : ¬ x ≤ y ↔ y < x := by
    rw [not_le_iff, hx, hy]
    simp
  rw [← not_lt, ← lt_iff_place hy hx, ← hnot, not_not]

theorem isNaN_of_le (h : x ≤ y) : x.isNaN = false ∧ y.isNaN = false := by
  have hnot := mt not_le_iff.2 (not_not.2 h)
  simpa using (not_or.1 hnot).2

theorem float_le_trans (h : x ≤ y) (h' : y ≤ z) : x ≤ z := by
  obtain ⟨hx, hy⟩ := isNaN_of_le h
  have hz := (isNaN_of_le h').2
  rw [le_iff_place hx hy] at h
  rw [le_iff_place hy hz] at h'
  exact (le_iff_place hx hz).2 (h.trans h')

end

end GlyphMath.Decimal

namespace GlyphMath.Layout

open Decimal

/-! ## The lesser and the greater -/

section

variable {a b c : Float}

theorem lesser_le (ha : a.isNaN = false) (hb : b.isNaN = false) :
    lesser a b ≤ a ∧ lesser a b ≤ b := by
  unfold lesser
  split
  · rename_i hlt
    rw [lt_iff_place hb ha] at hlt
    exact ⟨(le_iff_place hb ha).2 hlt.le, (le_iff_place hb hb).2 le_rfl⟩
  · rename_i hlt
    rw [lt_iff_place hb ha, not_lt] at hlt
    exact ⟨(le_iff_place ha ha).2 le_rfl, (le_iff_place ha hb).2 hlt⟩

theorem le_greater (ha : a.isNaN = false) (hb : b.isNaN = false) :
    a ≤ greater a b ∧ b ≤ greater a b := by
  unfold greater
  split
  · rename_i hlt
    rw [lt_iff_place ha hb] at hlt
    exact ⟨(le_iff_place ha hb).2 hlt.le, (le_iff_place hb hb).2 le_rfl⟩
  · rename_i hlt
    rw [lt_iff_place ha hb, not_lt] at hlt
    exact ⟨(le_iff_place ha ha).2 le_rfl, (le_iff_place hb ha).2 hlt⟩

theorem le_lesser (ha : c ≤ a) (hb : c ≤ b) : c ≤ lesser a b := by
  unfold lesser
  split
  · exact hb
  · exact ha

theorem greater_le (ha : a ≤ c) (hb : b ≤ c) : greater a b ≤ c := by
  unfold greater
  split
  · exact hb
  · exact ha

end

namespace Box

/-! ## Boxes inside boxes -/

/-- A box whose corners are in order, as those of every box that is built from two corners. -/
def IsUpright (b : Box) : Prop := b.x1 ≤ b.x2 ∧ b.y1 ≤ b.y2

/-- A box that lies inside another one, edges included. -/
structure Within (inner outer : Box) : Prop where
  left : outer.x1 ≤ inner.x1
  upper : outer.y1 ≤ inner.y1
  right : inner.x2 ≤ outer.x2
  lower : inner.y2 ≤ outer.y2

/-- The smallest box around boxes. -/
structure IsAround (outer : Box) (boxes : List Box) : Prop where
  upright : outer.IsUpright
  covers : ∀ b ∈ boxes, b.Within outer
  least : ∀ other : Box, (∀ b ∈ boxes, b.Within other) → outer.Within other

section

variable {a b c : Box}

theorem Within.trans (h : a.Within b) (h' : b.Within c) : a.Within c where
  left := float_le_trans h'.left h.left
  upper := float_le_trans h'.upper h.upper
  right := float_le_trans h.right h'.right
  lower := float_le_trans h.lower h'.lower

theorem IsUpright.within_self (h : a.IsUpright) : a.Within a := by
  obtain ⟨hx1, hx2⟩ := isNaN_of_le h.1
  obtain ⟨hy1, hy2⟩ := isNaN_of_le h.2
  exact ⟨(le_iff_place hx1 hx1).2 le_rfl, (le_iff_place hy1 hy1).2 le_rfl,
    (le_iff_place hx2 hx2).2 le_rfl, (le_iff_place hy2 hy2).2 le_rfl⟩

/-- Two boxes lie inside their union. -/
theorem within_union (ha : a.IsUpright) (hb : b.IsUpright) :
    a.Within (a.union b) ∧ b.Within (a.union b) := by
  obtain ⟨hax1, hax2⟩ := isNaN_of_le ha.1
  obtain ⟨hay1, hay2⟩ := isNaN_of_le ha.2
  obtain ⟨hbx1, hbx2⟩ := isNaN_of_le hb.1
  obtain ⟨hby1, hby2⟩ := isNaN_of_le hb.2
  obtain ⟨hleft, hleft'⟩ := lesser_le hax1 hbx1
  obtain ⟨hupper, hupper'⟩ := lesser_le hay1 hby1
  obtain ⟨hright, hright'⟩ := le_greater hax2 hbx2
  obtain ⟨hlower, hlower'⟩ := le_greater hay2 hby2
  exact ⟨⟨hleft, hupper, hright, hlower⟩, ⟨hleft', hupper', hright', hlower'⟩⟩

/-- Their union lies inside every box around them. -/
theorem union_within (ha : a.Within c) (hb : b.Within c) : (a.union b).Within c where
  left := le_lesser ha.left hb.left
  upper := le_lesser ha.upper hb.upper
  right := greater_le ha.right hb.right
  lower := greater_le ha.lower hb.lower

theorem isUpright_union (ha : a.IsUpright) (hb : b.IsUpright) : (a.union b).IsUpright := by
  obtain ⟨hinside, -⟩ := within_union ha hb
  exact ⟨float_le_trans hinside.left (float_le_trans ha.1 hinside.right),
    float_le_trans hinside.upper (float_le_trans ha.2 hinside.lower)⟩

/-- **Uniting boxes one after the other** leads to the smallest box around them all. -/
theorem isAround_foldl {boxes : List Box} (ha : a.IsUpright) (h : ∀ b ∈ boxes, b.IsUpright) :
    (boxes.foldl union a).IsAround (a :: boxes) := by
  induction boxes generalizing a with
  | nil =>
    refine ⟨ha, ?_, fun other hother => hother a List.mem_cons_self⟩
    simp [ha.within_self]
  | cons b boxes ih =>
    obtain ⟨hb, hboxes⟩ := List.forall_mem_cons.1 h
    obtain ⟨hupright, hcovers, hleast⟩ := ih (isUpright_union ha hb) hboxes
    obtain ⟨hunion, hcovers⟩ := List.forall_mem_cons.1 hcovers
    obtain ⟨hinside, hinside'⟩ := within_union ha hb
    refine ⟨hupright, ?_, fun other hother => hleast other ?_⟩
    · exact List.forall_mem_cons.2
        ⟨hinside.trans hunion, List.forall_mem_cons.2 ⟨hinside'.trans hunion, hcovers⟩⟩
    · obtain ⟨ha', hother⟩ := List.forall_mem_cons.1 hother
      obtain ⟨hb', hother⟩ := List.forall_mem_cons.1 hother
      exact List.forall_mem_cons.2 ⟨union_within ha' hb', hother⟩

end

end Box

end GlyphMath.Layout
