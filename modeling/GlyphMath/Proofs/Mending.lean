import GlyphMath.Proofs.Unmatched
import Mathlib.Algebra.Ring.Parity

/-!
# The repair of brackets ends

* `Surplus.passes` -- how many passes mend the brackets that are left of a row, when all of them may
  be changed.
* `repairTarget?_openings`, `repairTarget?_closings`, `repairTarget?_level` -- which bracket is
  changed.
* `passes_lt` -- every pass needs fewer passes after it.
* `repairBrackets_outcome` -- the repair gives up exactly where brackets are left without a partner.

Principal result:

* `repairBrackets_converges` -- an even number of brackets is mended in one pass more than there are
  brackets, and an odd number never.

A change may leave as many brackets without a partner as before, or undo an earlier change: of two
closing brackets the second is opened, then the first, and then the second is closed again.  What
becomes less is the number of closing brackets that are left, as long as there are too many of
them, and then, with every other pass, the number of those without a partner.
-/

set_option autoImplicit false

namespace GlyphMath.Line

/-- How many passes mend the brackets that are left of a row. -/
def Surplus.passes (s : Surplus) : Nat :=
  if s.openings < s.closings then s.closings + 1
  else (s.openings - s.closings) / 2 + s.closings + s.closings % 2

/-! ## The bracket to change -/

/-- Every bracket of a row has been seen. -/
def BracketsSeen (row : List Piece) : Prop :=
  ∀ p ∈ row, p.isBracket = true → p.box.isSome = true

section

variable {row : List Piece} {i j : Nat}

theorem isSeen_of_unmatchedOpenings (hseen : BracketsSeen row)
    (h : (Nesting.of row).unmatchedOpenings[j]? = some i) : isSeen row i = true := by
  obtain ⟨before, p, after, ⟨hrow, hi⟩, hp, -⟩ := Nesting.getElem?_unmatchedOpenings h
  have hbox := hseen p (by simp [hrow]) (by simp [Piece.isBracket, Piece.step?, hp])
  simpa [isSeen, hrow, ← hi] using hbox

theorem isSeen_of_unmatchedClosings (hseen : BracketsSeen row)
    (h : (Nesting.of row).unmatchedClosings[j]? = some i) : isSeen row i = true := by
  obtain ⟨before, p, after, ⟨hrow, hi⟩, hp, -⟩ := Nesting.getElem?_unmatchedClosings h
  have hbox := hseen p (by simp [hrow]) (by simp [Piece.isBracket, Piece.step?, hp])
  simpa [isSeen, hrow, ← hi] using hbox

/-- An opening bracket beside another one is not the first without a partner. -/
theorem pos_of_adjacent (h : (Nesting.of row).unmatchedOpenings[j]? = some i) (hi : i ≠ 0)
    (hkind : hasKind row .opening (i - 1) = true) : 0 < j := by
  obtain ⟨before, p, after, ⟨rfl, rfl⟩, -, hbefore, -⟩ := Nesting.getElem?_unmatchedOpenings h
  rcases List.eq_nil_or_concat before with rfl | ⟨before, q, rfl⟩
  · exact absurd rfl hi
  · have hq : q.kind = .opening := by
      simpa [hasKind] using hkind
    rw [List.concat_eq_append, brackets_append, brackets_opening hq, surplus_append] at hbefore
    rw [← hbefore]
    simp [surplus, brackets, Surplus.append, Surplus.ofStep]

variable (hseen : BracketsSeen row)

include hseen

/-- Of too many opening brackets one is closed that is not the first without a partner. -/
theorem repairTarget?_openings
    (h : (surplus (brackets row)).closings + 2 ≤ (surplus (brackets row)).openings) :
    ∃ i j, repairTarget? row (Nesting.of row) = some i ∧
      (Nesting.of row).unmatchedOpenings[j]? = some i ∧ 0 < j := by
  have hcount := count_surplus (brackets row)
  have hlength := Nesting.length_unmatchedOpenings row
  unfold repairTarget?
  rw [Nesting.openings_of, Nesting.closings_of, if_pos (by omega)]
  split
  · rename_i i hpair
    obtain ⟨j, hj⟩ := List.mem_iff_getElem?.1 (List.mem_of_find?_eq_some hpair)
    have hholds := List.find?_some hpair
    simp only [Bool.and_eq_true, bne_iff_ne] at hholds
    exact ⟨i, j, rfl, hj, pos_of_adjacent hj hholds.1.1.1 hholds.1.1.2⟩
  · rcases List.eq_nil_or_concat (Nesting.of row).unmatchedOpenings with hnil | ⟨others, i, hlast⟩
    · rw [hnil] at hlength
      simp at hlength
      omega
    · rw [List.concat_eq_append] at hlast
      have hi : (Nesting.of row).unmatchedOpenings[others.length]? = some i := by
        rw [hlast, List.getElem?_concat_length]
      refine ⟨i, others.length, ?_, hi, ?_⟩
      · rw [hlast, List.reverse_concat,
          List.find?_cons_of_pos (isSeen_of_unmatchedOpenings hseen hi)]
      · rw [hlast, List.length_append, List.length_singleton] at hlength
        omega

theorem find?_unmatchedClosings (h : 0 < (surplus (brackets row)).closings) :
    ∃ i, (Nesting.of row).unmatchedClosings.find? (isSeen row) = some i ∧
      (Nesting.of row).unmatchedClosings[0]? = some i := by
  rw [← Nesting.length_unmatchedClosings row] at h
  cases hclosings : (Nesting.of row).unmatchedClosings with
  | nil =>
    rw [hclosings] at h
    exact absurd h (Nat.lt_irrefl 0)
  | cons first others =>
    have hfirst : (Nesting.of row).unmatchedClosings[0]? = some first := by
      rw [hclosings]
      rfl
    exact ⟨first, List.find?_cons_of_pos (isSeen_of_unmatchedClosings hseen hfirst), rfl⟩

/-- Of too many closing brackets one without a partner is opened. -/
theorem repairTarget?_closings
    (h : (surplus (brackets row)).openings + 2 ≤ (surplus (brackets row)).closings) :
    ∃ i j : Nat, repairTarget? row (Nesting.of row) = some i ∧
      (Nesting.of row).unmatchedClosings[j]? = some i := by
  have hcount := count_surplus (brackets row)
  unfold repairTarget?
  rw [Nesting.openings_of, Nesting.closings_of, if_neg (by omega), if_pos (by omega)]
  split
  · rename_i i hpair
    obtain ⟨j, hj⟩ := List.mem_iff_getElem?.1 (List.mem_of_find?_eq_some hpair)
    exact ⟨i, j, rfl, hj⟩
  · obtain ⟨i, hfind, hi⟩ := find?_unmatchedClosings hseen (by omega)
    exact ⟨i, 0, hfind, hi⟩

/-- Of as many of each the first closing bracket without a partner is opened. -/
theorem repairTarget?_level
    (h : (surplus (brackets row)).openings = (surplus (brackets row)).closings)
    (hpos : 0 < (surplus (brackets row)).closings) :
    ∃ i, repairTarget? row (Nesting.of row) = some i ∧
      (Nesting.of row).unmatchedClosings[0]? = some i := by
  have hcount := count_surplus (brackets row)
  unfold repairTarget?
  rw [Nesting.openings_of, Nesting.closings_of, if_neg (by omega), if_neg (by omega),
    if_pos (by omega)]
  exact find?_unmatchedClosings hseen hpos

/-! ## A pass -/

/-- **A pass** changes a bracket, as long as an even number of brackets is not well nested, and
fewer passes are needed after it. -/
theorem passes_lt (heven : Even (row.countP Piece.isBracket)) (hinvalid : ¬ WellNested row) :
    ∃ i, repairTarget? row (Nesting.of row) = some i ∧
      (surplus (brackets (flipAt row i))).passes < (surplus (brackets row)).passes := by
  have hcount := count_surplus (brackets row)
  rw [countP_isBracket, Nat.even_iff] at heven
  rw [wellNested_iff_surplus, Surplus.ext_iff] at hinvalid
  dsimp only at hinvalid
  rcases Nat.lt_trichotomy (surplus (brackets row)).openings (surplus (brackets row)).closings
    with hlt | heq | hgt
  · obtain ⟨i, j, htarget, hj⟩ := repairTarget?_closings hseen (by omega)
    refine ⟨i, htarget, ?_⟩
    rw [surplus_flip_closing hj]
    split
    · simp only [Surplus.passes]
      split_ifs <;> omega
    · simp only [Surplus.passes]
      split_ifs <;> omega
  · obtain ⟨i, htarget, hi⟩ := repairTarget?_level hseen heq (by omega)
    refine ⟨i, htarget, ?_⟩
    rw [surplus_flip_closing hi]
    split
    · simp only [Surplus.passes]
      split_ifs <;> omega
    · simp only [Surplus.passes]
      split_ifs <;> omega
  · obtain ⟨i, j, htarget, hj, hpos⟩ := repairTarget?_openings hseen (by omega)
    refine ⟨i, htarget, ?_⟩
    rw [surplus_flip_opening hpos hj]
    simp only [Surplus.passes]
    split_ifs <;> omega

end

/-! ## All passes -/

/-- The repair gives up exactly where it leaves brackets without a partner, and says how many. -/
theorem repairBrackets_outcome (passes : Nat) (row : List Piece) :
    WellNested (repairBrackets passes row).1 ∧
        (∀ k, Warning.gaveUp k ∉ (repairBrackets passes row).2) ∨
      ¬ WellNested (repairBrackets passes row).1 ∧
        0 < (Nesting.of (repairBrackets passes row).1).unmatched ∧
        Warning.gaveUp (Nesting.of (repairBrackets passes row).1).unmatched ∈
          (repairBrackets passes row).2 := by
  have hunmatched {row : List Piece} (h : ¬ (Nesting.of row).isValid = true) :
      ¬ WellNested row ∧ 0 < (Nesting.of row).unmatched := by
    rw [Nesting.isValid_iff] at h
    refine ⟨h, ?_⟩
    rw [wellNested_iff_surplus, Surplus.ext_iff] at h
    dsimp only at h
    rw [Nesting.unmatched, Nesting.length_unmatchedOpenings, Nesting.length_unmatchedClosings]
    omega
  fun_induction repairBrackets passes row with
  | case1 passes row n hvalid =>
    exact Or.inl ⟨Nesting.isValid_iff.1 hvalid, fun k => List.not_mem_nil⟩
  | case2 row n hvalid =>
    exact Or.inr ⟨(hunmatched hvalid).1, (hunmatched hvalid).2, List.mem_singleton_self _⟩
  | case3 row n hvalid passes hnone =>
    exact Or.inr ⟨(hunmatched hvalid).1, (hunmatched hvalid).2, List.mem_singleton_self _⟩
  | case4 row n hvalid passes i htarget out notes hout ih =>
    rw [hout] at ih
    have hnote (k : Nat) : Warning.gaveUp k ≠ flipNote row i := by
      unfold flipNote
      split <;> simp
    rcases ih with ⟨hnested, hnotes⟩ | ⟨hnested, hpos, hmem⟩
    · refine Or.inl ⟨hnested, fun k hmem => ?_⟩
      rcases List.mem_cons.1 hmem with heq | hmem
      · exact hnote k heq
      · exact hnotes k hmem
    · exact Or.inr ⟨hnested, hpos, List.mem_cons_of_mem _ hmem⟩

theorem countP_repairBrackets (passes : Nat) (row : List Piece) :
    (repairBrackets passes row).1.countP Piece.isBracket = row.countP Piece.isBracket :=
  repairBrackets_keeps (fun out => out.countP Piece.isBracket = row.countP Piece.isBracket)
    (fun _ _ htarget hcount => (countP_flipAt htarget).trans hcount) passes rfl

theorem even_of_wellNested {row : List Piece} (h : WellNested row) :
    Even (row.countP Piece.isBracket) := by
  have hcount := count_surplus (brackets row)
  rw [wellNested_iff_surplus.1 h] at hcount
  rw [countP_isBracket, show (brackets row).count .U = (brackets row).count .D from hcount]
  exact Even.add_self _

theorem bracketsSeen_flipAt {row : List Piece} {i : Nat} (hseen : BracketsSeen row)
    (h : repairTarget? row (Nesting.of row) = some i) : BracketsSeen (flipAt row i) := by
  obtain ⟨before, p, after, hparts, -, hbox⟩ := parts_of_repairTarget? h
  rw [flipAt_parts hparts]
  intro q hq hbracket
  rcases List.mem_append.1 hq with hq | hq
  · exact hseen q (by simp [hparts.row_eq, hq]) hbracket
  · rcases List.mem_cons.1 hq with rfl | hq
    · rwa [box_flip]
    · exact hseen q (by simp [hparts.row_eq, hq]) hbracket

/-- With as many passes as are needed the brackets are mended. -/
theorem wellNested_repairBrackets {passes : Nat} {row : List Piece} (hseen : BracketsSeen row)
    (heven : Even (row.countP Piece.isBracket))
    (hpasses : (surplus (brackets row)).passes ≤ passes) :
    WellNested (repairBrackets passes row).1 := by
  fun_induction repairBrackets passes row with
  | case1 passes row n hvalid => exact Nesting.isValid_iff.1 hvalid
  | case2 row n hinvalid =>
    rw [Nesting.isValid_iff] at hinvalid
    obtain ⟨i, -, hlt⟩ := passes_lt hseen heven hinvalid
    omega
  | case3 row n hinvalid passes hnone =>
    rw [Nesting.isValid_iff] at hinvalid
    obtain ⟨i, htarget, -⟩ := passes_lt hseen heven hinvalid
    rw [hnone] at htarget
    cases htarget
  | case4 row n hinvalid passes i htarget out notes hout ih =>
    rw [hout] at ih
    rw [Nesting.isValid_iff] at hinvalid
    obtain ⟨j, hj, hlt⟩ := passes_lt hseen heven hinvalid
    obtain rfl : i = j := Option.some.inj (htarget.symm.trans hj)
    apply ih (bracketsSeen_flipAt hseen htarget)
    · rwa [countP_flipAt htarget]
    · omega

/-- The brackets that are left need no more passes than one more than there are brackets. -/
theorem passes_le (row : List Piece) :
    (surplus (brackets row)).passes ≤ row.countP Piece.isBracket + 1 := by
  have hclosings := closings_le_count (brackets row)
  have hcount := count_surplus (brackets row)
  rw [countP_isBracket]
  unfold Surplus.passes
  split <;> omega

/-- **The repair of brackets ends.**  Where every bracket of a row has been seen, an even number of
brackets is well nested after one pass more than there are brackets, and the repair does not give
up.  An odd number is not well nested after any number of passes, and the repair gives up with a
bracket without a partner. -/
theorem repairBrackets_converges {row : List Piece}
    (hseen : ∀ p ∈ row, p.isBracket = true → p.box.isSome = true) :
    (Even (row.countP Piece.isBracket) → ∀ passes, row.countP Piece.isBracket + 1 ≤ passes →
      WellNested (repairBrackets passes row).1 ∧
        ∀ k, Warning.gaveUp k ∉ (repairBrackets passes row).2) ∧
    (Odd (row.countP Piece.isBracket) → ∀ passes,
      ¬ WellNested (repairBrackets passes row).1 ∧
        0 < (Nesting.of (repairBrackets passes row).1).unmatched ∧
        Warning.gaveUp (Nesting.of (repairBrackets passes row).1).unmatched ∈
          (repairBrackets passes row).2) := by
  constructor
  · intro heven passes hpasses
    have hnested := wellNested_repairBrackets hseen heven
      (Nat.le_trans (passes_le row) hpasses)
    rcases repairBrackets_outcome passes row with houtcome | ⟨hinvalid, -⟩
    · exact houtcome
    · exact absurd hnested hinvalid
  · intro hodd passes
    rcases repairBrackets_outcome passes row with ⟨hnested, -⟩ | houtcome
    · have heven := even_of_wellNested hnested
      rw [countP_repairBrackets] at heven
      exact absurd heven (Nat.not_even_iff_odd.2 hodd)
    · exact houtcome

/-- An expression in brackets, with a closing bracket before it and one after it. -/
def tangled : List Piece :=
  [⟨")", .closing, some ⟨0, 0, 3, 20⟩⟩, ⟨"(", .opening, some ⟨4, 0, 7, 20⟩⟩,
    ⟨"x", .variable, some ⟨8, 0, 18, 20⟩⟩, ⟨")", .closing, some ⟨19, 0, 22, 20⟩⟩,
    ⟨")", .closing, some ⟨23, 0, 26, 20⟩⟩]

theorem repairBrackets_converges_tangled :
    (∀ p ∈ tangled, p.isBracket = true → p.box.isSome = true) ∧
      WellNested (repairBrackets 5 tangled).1 ∧
      (∀ k, Warning.gaveUp k ∉ (repairBrackets 5 tangled).2) ∧
      ¬ WellNested (repairBrackets 9 tangled.tail).1 :=
  have hseen : ∀ p ∈ tangled, p.isBracket = true → p.box.isSome = true := by decide
  have hmended := (repairBrackets_converges hseen).1 (by decide) 5 (by decide)
  have htail : ∀ p ∈ tangled.tail, p.isBracket = true → p.box.isSome = true := by decide
  ⟨hseen, hmended.1, hmended.2, ((repairBrackets_converges htail).2 (by decide) 9).1⟩

end GlyphMath.Line
