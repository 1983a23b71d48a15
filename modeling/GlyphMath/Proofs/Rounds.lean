import GlyphMath.Proofs.Reports

/-!
# Rounds of the repair of brackets

* `rounds` -- the rows before the passes of the repair.
* `TrappedAt`, `Trapped` -- only one of the brackets without a partner has been seen, and it stands
  in the middle of them.
* `AtRest` -- there is no bracket to change.
* `Surplus.weight` -- what no pass makes greater.

Principal results:

* `weight_flipAt` -- a pass makes the weight less, or it changes the bracket in the middle.
* `trapped_of_weight` -- where two passes keep the weight, the row is trapped.
* `TrappedAt.flip` -- in a trapped row a bracket is changed, and the row stays trapped.
* `notes_repairBrackets` -- every change is made in a round and noted.
* `rounds_nodup_iff` -- the brackets before the passes differ, unless the repair is trapped, and the
  notes are those of the passes.

A bracket that nobody has seen is never changed, so it may be that the only bracket to change is the
one that has just been changed.  It is opened and closed then until the passes are used up.
-/

set_option autoImplicit false

namespace GlyphMath.Line

/-- The rows before the passes of the repair, in order. -/
def rounds (passes : Nat) (row : List Piece) : List (List Piece) :=
  if (Nesting.of row).isValid then []
  else
    match passes with
    | 0 => []
    | passes + 1 =>
      match repairTarget? row (Nesting.of row) with
      | none => [row]
      | some position => row :: rounds passes (flipAt row position)

/-- A bracket that has been seen, with the brackets without a partner on its left and on its right:
none of these has been seen, and there is one more of them on the right. -/
structure TrappedAt (row : List Piece) (i : Nat) (left right : List Nat) : Prop where
  length_eq : right.length = left.length + 1
  seen : isSeen row i = true
  unseen : ∀ j ∈ left ++ right, isSeen row j = false
  /-- The brackets on the left close and those on the right open. -/
  sides : (Nesting.of row).unmatchedClosings = left ++ [i] ∧
      (Nesting.of row).unmatchedOpenings = right ∨
    (Nesting.of row).unmatchedClosings = left ∧
      (Nesting.of row).unmatchedOpenings = i :: right

/-- Only one of the brackets without a partner has been seen, and it stands in their middle. -/
def Trapped (row : List Piece) : Prop := ∃ i left right, TrappedAt row i left right

/-- The repair stops: every bracket has its partner, or there is nothing to change. -/
def AtRest (row : List Piece) : Prop :=
  WellNested row ∨ repairTarget? row (Nesting.of row) = none

namespace Nesting

/-! ## The brackets beside a bracket in the middle -/

section

variable {position openings closings : Nat} {waiting lone : List Nat}

theorem scan_opening {p : Piece} (hp : p.kind = .opening) (row : List Piece) :
    scan position openings closings waiting lone (p :: row) =
      scan (position + 1) (openings + 1) closings (position :: waiting) lone row := by
  rw [scan.eq_def]
  simp only [hp]

theorem scan_closing {p : Piece} (hp : p.kind = .closing) (w : Nat) (row : List Piece) :
    scan position openings closings (w :: waiting) lone (p :: row) =
      scan (position + 1) openings (closings + 1) waiting lone row := by
  rw [scan.eq_def]
  simp only [hp]

theorem scan_lone {p : Piece} (hp : p.kind = .closing) (row : List Piece) :
    scan position openings closings [] lone (p :: row) =
      scan (position + 1) openings (closings + 1) [] (position :: lone) row := by
  rw [scan.eq_def]
  simp only [hp]

theorem scan_plain {p : Piece} (hp : p.step? = none) (row : List Piece) :
    scan position openings closings waiting lone (p :: row) =
      scan (position + 1) openings closings waiting lone row := by
  rw [scan.eq_def]
  dsimp only
  split
  · rename_i hkind
    rw [Piece.step?, hkind] at hp
    cases hp
  · rename_i hkind
    rw [Piece.step?, hkind] at hp
    cases hp
  · rfl

theorem scan_append (row rest : List Piece) :
    scan position openings closings waiting lone (row ++ rest) =
      scan (position + row.length)
        (scan position openings closings waiting lone row).openings
        (scan position openings closings waiting lone row).closings
        (scan position openings closings waiting lone row).unmatchedOpenings.reverse
        (scan position openings closings waiting lone row).unmatchedClosings.reverse rest := by
  have hlength (p : Piece) (row : List Piece) (position : Nat) :
      position + (p :: row).length = position + 1 + row.length := by
    rw [List.length_cons]
    omega
  fun_induction scan position openings closings waiting lone row with
  | case1 => simp
  | case2 position openings closings waiting lone p row hp ih =>
    rw [List.cons_append, scan_opening hp, ih, hlength]
  | case3 position openings closings lone p row hp w waiting ih =>
    rw [List.cons_append, scan_closing hp, ih, hlength]
  | case4 position openings closings lone p row hp ih =>
    rw [List.cons_append, scan_lone hp, ih, hlength]
  | case5 position openings closings waiting lone p row hopen hclose ih =>
    rw [List.cons_append, scan_plain (step?_eq_none hopen hclose), ih, hlength]

/-- Brackets that find enough open ones at hand leave those that wait behind them alone. -/
theorem scan_frame {row : List Piece} {waiting' : List Nat}
    (h : (surplus (brackets row)).closings ≤ waiting.length) (openings' closings' : Nat)
    (lone' : List Nat) :
    (scan position openings closings (waiting ++ waiting') lone row).unmatchedOpenings =
        waiting'.reverse ++
          (scan position openings' closings' waiting lone' row).unmatchedOpenings ∧
      (scan position openings closings (waiting ++ waiting') lone row).unmatchedClosings =
        lone.reverse := by
  induction row generalizing position openings closings openings' closings' waiting with
  | nil => simp [scan]
  | cons p row ih =>
    cases hstep : p.step? with
    | none =>
      rw [brackets_plain hstep] at h
      rw [scan_plain hstep, scan_plain hstep]
      exact ih h openings' closings'
    | some s =>
      unfold Piece.step? at hstep
      split at hstep
      · rename_i hp
        rw [brackets_opening hp] at h
        simp only [surplus, Surplus.append, Surplus.ofStep] at h
        rw [scan_opening hp, scan_opening hp, ← List.cons_append]
        exact ih (by rw [List.length_cons]; omega) (openings' + 1) closings'
      · rename_i hp
        rw [brackets_closing hp] at h
        simp only [surplus, Surplus.append, Surplus.ofStep] at h
        cases waiting with
        | nil =>
          rw [List.length_nil] at h
          omega
        | cons w waiting =>
          rw [List.length_cons] at h
          rw [List.cons_append, scan_closing hp, scan_closing hp]
          exact ih (by omega) openings' (closings' + 1)
      · cases hstep

/-- Brackets of which none closes one that waits. -/
theorem scan_after {row : List Piece} (h : (surplus (brackets row)).closings = 0) :
    (scan position openings closings waiting lone row).unmatchedOpenings =
        waiting.reverse ++ (scan position 0 0 [] [] row).unmatchedOpenings ∧
      (scan position openings closings waiting lone row).unmatchedClosings = lone.reverse :=
  @scan_frame position openings closings [] lone row waiting (Nat.le_of_eq h) 0 0 []

/-- **A bracket in the middle**, with no opening bracket left before it and no closing one after it,
has no partner, whichever way it is turned. -/
theorem exists_sides {before after : List Piece}
    (hbefore : (surplus (brackets before)).openings = 0)
    (hafter : (surplus (brackets after)).closings = 0) :
    ∃ left right : List Nat, ∀ p : Piece,
      (p.kind = .opening → (of (before ++ p :: after)).unmatchedClosings = left ∧
        (of (before ++ p :: after)).unmatchedOpenings = before.length :: right) ∧
      (p.kind = .closing → (of (before ++ p :: after)).unmatchedClosings = left ++ [before.length] ∧
        (of (before ++ p :: after)).unmatchedOpenings = right) := by
  have hnone : (scan 0 0 0 [] [] before).unmatchedOpenings = [] :=
    List.length_eq_zero_iff.1 ((length_unmatchedOpenings before).trans hbefore)
  refine ⟨(scan 0 0 0 [] [] before).unmatchedClosings,
    (scan (before.length + 1) 0 0 [] [] after).unmatchedOpenings,
    fun p => ⟨fun hp => ?_, fun hp => ?_⟩⟩
  · rw [of, scan_append, hnone, List.reverse_nil, scan_opening hp, Nat.zero_add,
      (scan_after hafter).1, (scan_after hafter).2, List.reverse_reverse]
    exact ⟨rfl, rfl⟩
  · rw [of, scan_append, hnone, List.reverse_nil, scan_lone hp, Nat.zero_add,
      (scan_after hafter).1, (scan_after hafter).2, List.reverse_cons, List.reverse_reverse]
    exact ⟨rfl, rfl⟩

end

section

variable {row : List Piece} {left right : List Nat} {i : Nat}

theorem parts_of_last_closing (h : (of row).unmatchedClosings = left ++ [i]) :
    ∃ before p after, Parts 0 row i before p after ∧ p.kind = .closing ∧
      (surplus (brackets before)).openings = 0 ∧ (surplus (brackets after)).closings = 0 := by
  obtain ⟨before, p, after, hparts, hp, hbefore⟩ :=
    getElem?_unmatchedClosings (j := left.length) (by rw [h, List.getElem?_concat_length])
  have hlength := length_unmatchedClosings row
  rw [h, hparts.row_eq, surplus_parts (s := .D) (by rw [Piece.step?, hp]), hbefore,
    List.length_append, List.length_singleton] at hlength
  simp only [Surplus.append, Surplus.ofStep] at hlength
  exact ⟨before, p, after, hparts, hp, by rw [hbefore], by omega⟩

theorem parts_of_first_opening (h : (of row).unmatchedOpenings = i :: right) :
    ∃ before p after, Parts 0 row i before p after ∧ p.kind = .opening ∧
      (surplus (brackets before)).openings = 0 ∧ (surplus (brackets after)).closings = 0 :=
  getElem?_unmatchedOpenings (j := 0) (by rw [h, List.getElem?_cons_zero])

/-- The last closing bracket without a partner is opened: it is the first of the opening ones. -/
theorem turn_closing (h : (of row).unmatchedClosings = left ++ [i]) :
    (of (flipAt row i)).unmatchedClosings = left ∧
      (of (flipAt row i)).unmatchedOpenings = i :: (of row).unmatchedOpenings := by
  obtain ⟨before, p, after, hparts, hp, hbefore, hafter⟩ := parts_of_last_closing h
  obtain ⟨left', right', hsides⟩ := exists_sides hbefore hafter
  have hflip : p.flip.kind = .opening := by
    rw [Piece.flip, hp]
    rfl
  have hi : before.length = i := by rw [← hparts.position_eq, Nat.zero_add]
  obtain ⟨hclosings, hopenings⟩ := (hsides p).2 hp
  rw [← hparts.row_eq] at hclosings hopenings
  rw [hi, h] at hclosings
  rw [flipAt_parts hparts, hopenings, List.append_cancel_right hclosings, ← hi]
  exact (hsides p.flip).1 hflip

/-- The first opening bracket without a partner is closed: it is the last of the closing ones. -/
theorem turn_opening (h : (of row).unmatchedOpenings = i :: right) :
    (of (flipAt row i)).unmatchedClosings = (of row).unmatchedClosings ++ [i] ∧
      (of (flipAt row i)).unmatchedOpenings = right := by
  obtain ⟨before, p, after, hparts, hp, hbefore, hafter⟩ := parts_of_first_opening h
  obtain ⟨left', right', hsides⟩ := exists_sides hbefore hafter
  have hflip : p.flip.kind = .closing := by
    rw [Piece.flip, hp]
    rfl
  have hi : before.length = i := by rw [← hparts.position_eq, Nat.zero_add]
  obtain ⟨hclosings, hopenings⟩ := (hsides p).1 hp
  rw [← hparts.row_eq] at hclosings hopenings
  rw [h] at hopenings
  rw [flipAt_parts hparts, hclosings, (List.cons.inj hopenings).2, ← hi]
  exact (hsides p.flip).2 hflip

end

end Nesting

/-! ## A pass -/

/-- What no pass makes greater. -/
def Surplus.weight (s : Surplus) : Nat := max s.openings (s.closings + 1)

theorem step?_flip_ne {p : Piece} (hp : p.isBracket = true) :
    p.flip.step?.toList ≠ p.step?.toList := by
  unfold Piece.isBracket at hp
  cases hkind : p.kind <;> simp [Piece.step?, Piece.flip, hkind] at hp ⊢

theorem step?_flip_flip {p : Piece} (hp : p.isBracket = true) : p.flip.flip.step? = p.step? := by
  unfold Piece.isBracket at hp
  cases hkind : p.kind <;> simp [Piece.step?, Piece.flip, hkind] at hp ⊢

theorem isSeen_flipAt (row : List Piece) (i j : Nat) :
    isSeen (flipAt row i) j = isSeen row j := by
  unfold isSeen
  rw [getElem?_flipAt]
  by_cases hij : i = j
  · rw [if_pos hij]
    cases row[j]? with
    | none => rfl
    | some p => exact congrArg Option.isSome (box_flip p)
  · rw [if_neg hij]

section

variable {row : List Piece} {i : Nat}

/-- **Which bracket is changed.**  Of too many opening brackets it is one that is not the first
without a partner, or the first if no other has been seen.  Of as many of each it is the first
closing one that has been seen. -/
theorem repairTarget?_cases (h : repairTarget? row (Nesting.of row) = some i) :
    ((surplus (brackets row)).closings + 2 ≤ (surplus (brackets row)).openings ∧
      ((∃ j, 0 < j ∧ (Nesting.of row).unmatchedOpenings[j]? = some i) ∨
        ∃ right, (Nesting.of row).unmatchedOpenings = i :: right ∧ isSeen row i = true ∧
          ∀ j ∈ right, isSeen row j = false)) ∨
    ((surplus (brackets row)).openings + 2 ≤ (surplus (brackets row)).closings ∧
      ∃ j : Nat, (Nesting.of row).unmatchedClosings[j]? = some i) ∨
    ((surplus (brackets row)).openings = (surplus (brackets row)).closings ∧
      ∃ left right, (Nesting.of row).unmatchedClosings = left ++ i :: right ∧
        isSeen row i = true ∧ ∀ j ∈ left, isSeen row j = false) := by
  have hcount := count_surplus (brackets row)
  unfold repairTarget? at h
  rw [Nesting.openings_of, Nesting.closings_of] at h
  split at h
  · refine Or.inl ⟨by omega, ?_⟩
    split at h
    · rename_i hpair
      cases h
      obtain ⟨j, hj⟩ := List.mem_iff_getElem?.1 (List.mem_of_find?_eq_some hpair)
      have hholds := List.find?_some hpair
      simp only [Bool.and_eq_true, bne_iff_ne] at hholds
      exact Or.inl ⟨j, pos_of_adjacent hj hholds.1.1.1 hholds.1.1.2, hj⟩
    · obtain ⟨hseen, right, left, hsplit, hright⟩ := List.find?_eq_some_iff_append.1 h
      rw [List.reverse_eq_iff, List.reverse_append, List.reverse_cons, List.append_assoc,
        List.singleton_append] at hsplit
      cases hleft : left.reverse with
      | nil =>
        rw [hleft, List.nil_append] at hsplit
        exact Or.inr ⟨right.reverse, hsplit, hseen, by simpa using hright⟩
      | cons first others =>
        rw [hleft] at hsplit
        refine Or.inl ⟨(first :: others).length, Nat.succ_pos _, ?_⟩
        rw [hsplit, List.getElem?_append_right (Nat.le_refl _), Nat.sub_self]
        rfl
  · split at h
    · refine Or.inr (Or.inl ⟨by omega, ?_⟩)
      split at h
      · rename_i hpair
        cases h
        exact List.mem_iff_getElem?.1 (List.mem_of_find?_eq_some hpair)
      · exact List.mem_iff_getElem?.1 (List.mem_of_find?_eq_some h)
    · split at h
      · refine Or.inr (Or.inr ⟨by omega, ?_⟩)
        obtain ⟨hseen, left, right, hsplit, hleft⟩ := List.find?_eq_some_iff_append.1 h
        exact ⟨left, right, hsplit, hseen, by simpa using hleft⟩
      · cases h

/-- **Step lemma.**  A pass makes the weight less, or it changes the last closing bracket, where no
other closing one has been seen, or the first opening bracket, where no other opening one has. -/
theorem weight_flipAt (h : repairTarget? row (Nesting.of row) = some i) :
    (surplus (brackets (flipAt row i))).weight < (surplus (brackets row)).weight ∨
    (surplus (brackets (flipAt row i))).weight = (surplus (brackets row)).weight ∧
      isSeen row i = true ∧
      ((∃ left, (Nesting.of row).unmatchedClosings = left ++ [i] ∧
          (Nesting.of row).unmatchedOpenings.length = left.length + 1 ∧
          ∀ j ∈ left, isSeen row j = false) ∨
        ∃ right, (Nesting.of row).unmatchedOpenings = i :: right ∧
          right.length = (Nesting.of row).unmatchedClosings.length + 1 ∧
          ∀ j ∈ right, isSeen row j = false) := by
  have hclosings := Nesting.length_unmatchedClosings row
  have hopenings := Nesting.length_unmatchedOpenings row
  unfold Surplus.weight
  rcases repairTarget?_cases h with ⟨hmore, ⟨j, hj, hi⟩ | ⟨right, hi, hseen, hright⟩⟩ |
    ⟨hmore, j, hi⟩ | ⟨hlevel, left, right, hi, hseen, hleft⟩
  · rw [surplus_flip_opening hj hi]
    dsimp only
    omega
  · obtain ⟨hclosings', hopenings'⟩ := Nesting.turn_opening hi
    rw [← Nesting.length_unmatchedClosings (flipAt row i),
      ← Nesting.length_unmatchedOpenings (flipAt row i), hclosings', hopenings',
      List.length_append, List.length_singleton]
    rw [hi, List.length_cons] at hopenings
    rcases Nat.lt_or_ge ((surplus (brackets row)).closings + 2) (surplus (brackets row)).openings
      with hlt | hge
    · left
      omega
    · exact Or.inr ⟨by omega, hseen, Or.inr ⟨right, hi, by omega, hright⟩⟩
  · rw [surplus_flip_closing hi]
    split <;> dsimp only <;> omega
  · have hindex : (Nesting.of row).unmatchedClosings[left.length]? = some i := by
      rw [hi, List.getElem?_append_right (Nat.le_refl _), Nat.sub_self]
      rfl
    rw [hi, List.length_append, List.length_cons] at hclosings
    rw [surplus_flip_closing hindex]
    split
    · left
      dsimp only
      omega
    · obtain rfl : right = [] := List.length_eq_zero_iff.1 (by omega)
      rw [List.length_nil] at hclosings
      exact Or.inr ⟨by dsimp only; omega, hseen, Or.inl ⟨left, hi, by omega, hleft⟩⟩

theorem weight_flipAt_le (h : repairTarget? row (Nesting.of row) = some i) :
    (surplus (brackets (flipAt row i))).weight ≤ (surplus (brackets row)).weight := by
  rcases weight_flipAt h with hlt | ⟨heq, -⟩
  · exact Nat.le_of_lt hlt
  · exact Nat.le_of_eq heq

/-- **Two passes make the weight less**, unless the row is trapped. -/
theorem trapped_of_weight {i' : Nat} (h : repairTarget? row (Nesting.of row) = some i)
    (h' : repairTarget? (flipAt row i) (Nesting.of (flipAt row i)) = some i')
    (hle : (surplus (brackets row)).weight ≤
      (surplus (brackets (flipAt (flipAt row i) i'))).weight) : Trapped row := by
  have hfirst := weight_flipAt_le h
  have hsecond := weight_flipAt_le h'
  rcases weight_flipAt h with hlt | ⟨-, hseen, hsides⟩
  · omega
  rcases weight_flipAt h' with hlt | ⟨-, -, hsides'⟩
  · omega
  simp only [isSeen_flipAt] at hsides'
  rcases hsides with ⟨left, hi, hlength, hleft⟩ | ⟨right, hi, hlength, hright⟩
  · obtain ⟨hclosings, hopenings⟩ := Nesting.turn_closing hi
    rw [hclosings, hopenings] at hsides'
    rcases hsides' with ⟨left', rfl, hlength', -⟩ | ⟨right, hi', -, hright⟩
    · rw [List.length_append, List.length_singleton] at hlength
      rw [List.length_cons] at hlength'
      omega
    · obtain ⟨rfl, rfl⟩ := List.cons.inj hi'
      refine ⟨i, left, _, hlength, hseen, fun j hj => ?_, Or.inl ⟨hi, rfl⟩⟩
      exact (List.mem_append.1 hj).elim (hleft j) (hright j)
  · obtain ⟨hclosings, hopenings⟩ := Nesting.turn_opening hi
    rw [hclosings, hopenings] at hsides'
    rcases hsides' with ⟨left, hi', -, hleft⟩ | ⟨right', rfl, hlength', -⟩
    · obtain ⟨rfl, -⟩ := List.append_inj' hi' rfl
      refine ⟨i, _, right, hlength, hseen, fun j hj => ?_, Or.inr ⟨rfl, hi⟩⟩
      exact (List.mem_append.1 hj).elim (hleft j) (hright j)
    · rw [List.length_cons] at hlength
      rw [List.length_append, List.length_singleton] at hlength'
      omega

theorem weight_pos (row : List Piece) : 0 < (surplus (brackets row)).weight := by
  unfold Surplus.weight
  omega

theorem weight_le (row : List Piece) :
    (surplus (brackets row)).weight ≤ row.countP Piece.isBracket + 1 := by
  have hclosings := closings_le_count (brackets row)
  have hcount := count_surplus (brackets row)
  rw [countP_isBracket]
  unfold Surplus.weight
  omega

theorem brackets_flipAt_ne (h : repairTarget? row (Nesting.of row) = some i) :
    brackets (flipAt row i) ≠ brackets row := by
  obtain ⟨before, p, after, hparts, hp, -⟩ := parts_of_repairTarget? h
  rw [flipAt_parts hparts, hparts.row_eq, brackets_append, brackets_append, brackets_cons,
    brackets_cons]
  intro heq
  exact step?_flip_ne hp (List.append_cancel_right (List.append_cancel_left heq))

end

/-! ## A row that is trapped -/

namespace TrappedAt

variable {row : List Piece} {i : Nat} {left right : List Nat}

theorem target (h : TrappedAt row i left right) :
    repairTarget? row (Nesting.of row) = some i := by
  have hcount := count_surplus (brackets row)
  have hclosings := Nesting.length_unmatchedClosings row
  have hopenings := Nesting.length_unmatchedOpenings row
  have hlength := h.length_eq
  have hleft : left.find? (isSeen row) = none :=
    List.find?_eq_none.2 fun j hj => by simp [h.unseen j (List.mem_append_left _ hj)]
  have hright : ∀ j ∈ right, isSeen row j = false := fun j hj =>
    h.unseen j (List.mem_append_right _ hj)
  unfold repairTarget?
  rw [Nesting.openings_of, Nesting.closings_of]
  rcases h.sides with ⟨hlast, hrest⟩ | ⟨hrest, hfirst⟩
  · rw [hlast, List.length_append, List.length_singleton] at hclosings
    rw [hrest] at hopenings
    rw [if_neg (by omega), if_neg (by omega), if_pos (by omega), hlast, List.find?_append, hleft,
      List.find?_singleton, if_pos h.seen, Option.none_or]
  · rw [hrest] at hclosings
    rw [hfirst, List.length_cons] at hopenings
    have hnone : adjacentPair? row .opening (Nesting.of row).unmatchedOpenings = none := by
      refine List.find?_eq_none.2 fun j hj hholds => ?_
      simp only [Bool.and_eq_true, bne_iff_ne] at hholds
      rw [hfirst] at hj
      rcases List.mem_cons.1 hj with rfl | hj
      · -- nothing that opens stands right before the first opening bracket without a partner
        have hzero : (Nesting.of row).unmatchedOpenings[0]? = some j := by
          rw [hfirst, List.getElem?_cons_zero]
        exact Nat.lt_irrefl 0 (pos_of_adjacent hzero hholds.1.1.1 hholds.1.1.2)
      · rw [hright j hj] at hholds
        cases hholds.2
    rw [if_pos (by omega), hnone, hfirst, List.reverse_cons, List.find?_append,
      List.find?_eq_none.2 fun j hj => by simp [hright j (List.mem_reverse.1 hj)],
      List.find?_singleton, if_pos h.seen, Option.none_or]

/-- **Step lemma.**  The bracket in the middle is turned, and the row is still trapped. -/
theorem flip (h : TrappedAt row i left right) : TrappedAt (flipAt row i) i left right where
  length_eq := h.length_eq
  seen := (isSeen_flipAt row i i).trans h.seen
  unseen j hj := (isSeen_flipAt row i j).trans (h.unseen j hj)
  sides := by
    rcases h.sides with ⟨hlast, hrest⟩ | ⟨hrest, hfirst⟩
    · obtain ⟨hclosings, hopenings⟩ := Nesting.turn_closing hlast
      exact Or.inr ⟨hclosings, by rw [hopenings, hrest]⟩
    · obtain ⟨hclosings, hopenings⟩ := Nesting.turn_opening hfirst
      exact Or.inl ⟨by rw [hclosings, hrest], hopenings⟩

theorem not_wellNested (h : TrappedAt row i left right) : ¬ WellNested row := by
  rw [← Nesting.isValid_iff, Nesting.isValid]
  rcases h.sides with ⟨hlast, -⟩ | ⟨-, hfirst⟩
  · simp [hlast]
  · simp [hfirst]

end TrappedAt

theorem Trapped.not_atRest {row : List Piece} (h : Trapped row) : ¬ AtRest row := by
  obtain ⟨i, left, right, h⟩ := h
  rintro (hvalid | hnone)
  · exact h.not_wellNested hvalid
  · rw [h.target] at hnone
    cases hnone

theorem brackets_flipAt_flipAt {row : List Piece} {i : Nat}
    (h : repairTarget? row (Nesting.of row) = some i) :
    brackets (flipAt (flipAt row i) i) = brackets row := by
  obtain ⟨before, p, after, hparts, hp, -⟩ := parts_of_repairTarget? h
  have hparts' : Nesting.Parts 0 (before ++ p.flip :: after) i before p.flip after :=
    ⟨rfl, hparts.position_eq⟩
  rw [flipAt_parts hparts, flipAt_parts hparts', hparts.row_eq, brackets_append, brackets_append,
    brackets_cons, brackets_cons, step?_flip_flip hp]

theorem BracketsSeen.not_trapped {row : List Piece} (hseen : BracketsSeen row) :
    ¬ Trapped row := by
  rintro ⟨i, left, right, h⟩
  have hpositive : 0 < right.length := by
    rw [h.length_eq]
    exact Nat.succ_pos _
  obtain ⟨j, others, rfl⟩ := List.exists_cons_of_length_pos hpositive
  have hunseen := h.unseen j (List.mem_append_right _ List.mem_cons_self)
  rcases h.sides with ⟨-, hrest⟩ | ⟨-, hfirst⟩
  · have hj : (Nesting.of row).unmatchedOpenings[0]? = some j := by
      rw [hrest, List.getElem?_cons_zero]
    rw [isSeen_of_unmatchedOpenings hseen hj] at hunseen
    cases hunseen
  · have hj : (Nesting.of row).unmatchedOpenings[1]? = some j := by
      rw [hfirst, List.getElem?_cons_succ, List.getElem?_cons_zero]
    rw [isSeen_of_unmatchedOpenings hseen hj] at hunseen
    cases hunseen

/-! ## All passes -/

section

variable {passes : Nat} {row : List Piece} {i : Nat}

theorem rounds_of_wellNested (h : WellNested row) : rounds passes row = [] := by
  rw [rounds.eq_def, if_pos (Nesting.isValid_iff.2 h)]

theorem rounds_zero : rounds 0 row = [] := by
  rw [rounds]
  split <;> rfl

theorem rounds_of_none (hinvalid : ¬ WellNested row)
    (h : repairTarget? row (Nesting.of row) = none) : rounds (passes + 1) row = [row] := by
  rw [rounds, if_neg (mt Nesting.isValid_iff.1 hinvalid)]
  simp only [h]

theorem rounds_of_some (hinvalid : ¬ WellNested row)
    (h : repairTarget? row (Nesting.of row) = some i) :
    rounds (passes + 1) row = row :: rounds passes (flipAt row i) := by
  rw [rounds, if_neg (mt Nesting.isValid_iff.1 hinvalid)]
  simp only [h]

theorem exists_target (h : ¬ AtRest row) :
    ¬ WellNested row ∧ ∃ i, repairTarget? row (Nesting.of row) = some i := by
  obtain ⟨hinvalid, hsome⟩ := not_or.1 h
  exact ⟨hinvalid, Option.ne_none_iff_exists'.1 hsome⟩

theorem AtRest.repairBrackets (h : AtRest row) : (repairBrackets passes row).1 = row := by
  fun_cases Line.repairBrackets passes row with
  | case1 | case2 | case3 => rfl
  | case4 n hinvalid passes i htarget =>
    rcases h with hvalid | hnone
    · exact absurd (Nesting.isValid_iff.2 hvalid) hinvalid
    · rw [hnone] at htarget
      cases htarget

theorem repairBrackets_of_some (hinvalid : ¬ WellNested row)
    (h : repairTarget? row (Nesting.of row) = some i) :
    (repairBrackets (passes + 1) row).1 = (repairBrackets passes (flipAt row i)).1 := by
  rw [repairBrackets, if_neg (mt Nesting.isValid_iff.1 hinvalid)]
  simp only [h]

/-- **Every change is made in a round.**  The notes are about the brackets that are changed in the
rows before the passes, and about what is left without a partner. -/
theorem notes_repairBrackets (passes : Nat) (row : List Piece) :
    (repairBrackets passes row).2 =
      ((rounds passes row).filterMap fun r =>
        (repairTarget? r (Nesting.of r)).map (flipNote r)) ++
      leftNote (repairBrackets passes row).1 := by
  fun_induction repairBrackets passes row with
  | case1 passes row n hvalid =>
    rw [rounds_of_wellNested (Nesting.isValid_iff.1 hvalid), leftNote,
      if_pos (Nesting.isValid_iff.1 hvalid)]
    rfl
  | case2 row n hinvalid =>
    rw [rounds_zero, leftNote_of_not_isValid hinvalid]
    rfl
  | case3 row n hinvalid passes hnone =>
    rw [rounds_of_none (mt Nesting.isValid_iff.2 hinvalid) hnone, leftNote_of_not_isValid hinvalid,
      List.filterMap_cons_none (by rw [hnone, Option.map_none])]
    rfl
  | case4 row n hinvalid passes i htarget out notes hout ih =>
    rw [hout] at ih
    rw [rounds_of_some (mt Nesting.isValid_iff.2 hinvalid) htarget,
      List.filterMap_cons_some (by rw [htarget, Option.map_some])]
    exact congrArg (flipNote row i :: ·) ih

theorem bracketsSeen_of_mem_rounds (hseen : BracketsSeen row) {r : List Piece}
    (h : r ∈ rounds passes row) : BracketsSeen r := by
  fun_induction rounds passes row with
  | case1 => cases h
  | case2 => cases h
  | case3 row hinvalid passes hnone => rwa [List.mem_singleton.1 h]
  | case4 row hinvalid passes i htarget ih =>
    rcases List.mem_cons.1 h with rfl | h
    · exact hseen
    · exact ih (bracketsSeen_flipAt hseen htarget) h

theorem weight_le_of_mem_rounds {r : List Piece} (h : r ∈ rounds passes row) :
    (surplus (brackets r)).weight ≤ (surplus (brackets row)).weight := by
  fun_induction rounds passes row with
  | case1 => cases h
  | case2 => cases h
  | case3 row hinvalid passes hnone => rw [List.mem_singleton.1 h]
  | case4 row hinvalid passes i htarget ih =>
    rcases List.mem_cons.1 h with rfl | h
    · exact Nat.le_refl _
    · exact Nat.le_trans (ih h) (weight_flipAt_le htarget)

/-- The repair goes on from every row that it comes to. -/
theorem repairBrackets_of_mem_rounds {r : List Piece} (h : r ∈ rounds passes row) :
    ∃ passes', (repairBrackets passes row).1 = (repairBrackets passes' r).1 := by
  fun_induction rounds passes row with
  | case1 => cases h
  | case2 => cases h
  | case3 row hinvalid passes hnone => exact ⟨passes + 1, by rw [List.mem_singleton.1 h]⟩
  | case4 row hinvalid passes i htarget ih =>
    rcases List.mem_cons.1 h with rfl | h
    · exact ⟨passes + 1, rfl⟩
    · obtain ⟨passes', hout⟩ := ih h
      have hinvalid' := mt Nesting.isValid_iff.2 hinvalid
      exact ⟨passes', (repairBrackets_of_some hinvalid' htarget).trans hout⟩

theorem trapped_repairBrackets (h : Trapped row) : Trapped (repairBrackets passes row).1 := by
  refine repairBrackets_keeps Trapped ?_ passes h
  rintro row j hj ⟨i, left, right, h⟩
  obtain rfl : i = j := Option.some.inj (h.target.symm.trans hj)
  exact ⟨i, left, right, h.flip⟩

/-- Where a trapped row is two passes before the last, its brackets come back. -/
theorem not_nodup_of_trapped {r : List Piece} (h : r ∈ rounds passes row) (htrapped : Trapped r) :
    ¬ ((rounds (passes + 2) row).map brackets).Nodup := by
  fun_induction rounds passes row with
  | case1 => cases h
  | case2 => cases h
  | case3 row hinvalid passes hnone =>
    obtain ⟨i, left, right, htrapped⟩ := htrapped
    rw [List.mem_singleton.1 h] at htrapped
    rw [htrapped.target] at hnone
    cases hnone
  | case4 row hinvalid passes i htarget ih =>
    have hinvalid' := mt Nesting.isValid_iff.2 hinvalid
    rw [show passes.succ + 2 = passes + 2 + 1 from rfl, rounds_of_some hinvalid' htarget,
      List.map_cons, List.nodup_cons]
    rcases List.mem_cons.1 h with rfl | h
    · obtain ⟨j, left, right, htrapped⟩ := htrapped
      obtain rfl : i = j := Option.some.inj (htarget.symm.trans htrapped.target)
      have hback := htrapped.flip.flip
      rintro ⟨hnot, -⟩
      rw [rounds_of_some htrapped.flip.not_wellNested htrapped.flip.target,
        rounds_of_some hback.not_wellNested hback.target] at hnot
      exact hnot (by simp [brackets_flipAt_flipAt htarget])
    · exact fun hnodup => ih h hnodup.2

/-- The brackets of a row do not come back, unless the row is trapped. -/
theorem brackets_ne_of_mem_rounds (htarget : repairTarget? row (Nesting.of row) = some i)
    (h : 2 ≤ passes → ¬ Trapped row) {r : List Piece} (hr : r ∈ rounds passes (flipAt row i)) :
    brackets r ≠ brackets row := by
  cases passes with
  | zero =>
    rw [rounds_zero] at hr
    cases hr
  | succ passes =>
    by_cases hvalid : WellNested (flipAt row i)
    · rw [rounds_of_wellNested hvalid] at hr
      cases hr
    cases htarget' : repairTarget? (flipAt row i) (Nesting.of (flipAt row i)) with
    | none =>
      rw [rounds_of_none hvalid htarget', List.mem_singleton] at hr
      rw [hr]
      exact brackets_flipAt_ne htarget
    | some i' =>
      rw [rounds_of_some hvalid htarget'] at hr
      rcases List.mem_cons.1 hr with rfl | hr
      · exact brackets_flipAt_ne htarget
      · have hpasses : 0 < passes := by
          refine Nat.pos_of_ne_zero fun hzero => ?_
          rw [hzero, rounds_zero] at hr
          cases hr
        intro heq
        refine h (by omega) (trapped_of_weight htarget htarget' ?_)
        rw [← heq]
        exact weight_le_of_mem_rounds hr

/-- **The brackets differ**, where no row but the last two is trapped. -/
theorem nodup_rounds (h : ∀ r ∈ rounds (passes - 2) row, ¬ Trapped r) :
    ((rounds passes row).map brackets).Nodup := by
  induction passes generalizing row with
  | zero => simp [rounds_zero]
  | succ passes ih =>
    by_cases hvalid : WellNested row
    · simp [rounds_of_wellNested hvalid]
    cases htarget : repairTarget? row (Nesting.of row) with
    | none => simp [rounds_of_none hvalid htarget]
    | some i =>
      -- the rows before the last two passes start with this one, if there are so many passes
      have hfirst : 2 ≤ passes → ∀ r ∈ row :: rounds (passes - 2) (flipAt row i), ¬ Trapped r := by
        intro hpasses
        rwa [show passes + 1 - 2 = passes - 2 + 1 by omega, rounds_of_some hvalid htarget] at h
      rw [rounds_of_some hvalid htarget, List.map_cons, List.nodup_cons]
      constructor
      · intro hmem
        obtain ⟨r, hr, heq⟩ := List.mem_map.1 hmem
        exact brackets_ne_of_mem_rounds htarget
          (fun hpasses => hfirst hpasses row List.mem_cons_self) hr heq
      · refine ih fun r hr => ?_
        have hpasses : 2 ≤ passes := by
          by_contra hlt
          rw [Nat.sub_eq_zero_of_le (by omega), rounds_zero] at hr
          cases hr
        exact hfirst hpasses r (List.mem_cons_of_mem row hr)

/-- **The repair comes to rest** when it has passes enough and no row is trapped. -/
theorem atRest_repairBrackets (h : ∀ r ∈ rounds passes row, ¬ Trapped r)
    (hpasses : 2 * (surplus (brackets row)).weight ≤ passes) :
    AtRest (repairBrackets passes row).1 := by
  induction passes using Nat.strong_induction_on generalizing row with
  | h passes ih =>
    by_cases hrest : AtRest row
    · rwa [hrest.repairBrackets]
    obtain ⟨hinvalid, i, htarget⟩ := exists_target hrest
    have hpositive := weight_pos row
    obtain ⟨passes, rfl⟩ : ∃ passes', passes = passes' + 2 := ⟨passes - 2, by omega⟩
    rw [rounds_of_some hinvalid htarget] at h
    rw [repairBrackets_of_some hinvalid htarget]
    by_cases hrest' : AtRest (flipAt row i)
    · rwa [hrest'.repairBrackets]
    obtain ⟨hinvalid', i', htarget'⟩ := exists_target hrest'
    rw [rounds_of_some hinvalid' htarget'] at h
    rw [repairBrackets_of_some hinvalid' htarget']
    have hlt : (surplus (brackets (flipAt (flipAt row i) i'))).weight <
        (surplus (brackets row)).weight :=
      Nat.lt_of_not_le fun hle => h row List.mem_cons_self (trapped_of_weight htarget htarget' hle)
    exact ih passes (by omega)
      (fun r hr => h r (List.mem_cons_of_mem _ (List.mem_cons_of_mem _ hr))) (by omega)

end

/-- **The repair goes in circles where it is trapped**, and only there.  The brackets before the
passes differ unless a row before the last two is trapped.  Where no row is trapped the repair comes
to rest, when it has passes enough; where one is, it stops only because the passes are used up.  The
changes that are noted are those made in the rows before the passes. -/
theorem rounds_nodup_iff (passes : Nat) (row : List Piece) :
    (((rounds passes row).map brackets).Nodup ↔ ∀ r ∈ rounds (passes - 2) row, ¬ Trapped r) ∧
      ((∀ r ∈ rounds passes row, ¬ Trapped r) → 2 * (row.countP Piece.isBracket + 1) ≤ passes →
        AtRest (repairBrackets passes row).1) ∧
      ((∃ r ∈ rounds passes row, Trapped r) → ¬ AtRest (repairBrackets passes row).1) ∧
      (repairBrackets passes row).2 =
        ((rounds passes row).filterMap fun r =>
          (repairTarget? r (Nesting.of r)).map (flipNote r)) ++
        leftNote (repairBrackets passes row).1 := by
  refine ⟨⟨fun hnodup r hr htrapped => ?_, nodup_rounds⟩, fun h hpasses => ?_, ?_,
    notes_repairBrackets passes row⟩
  · have hpasses : 2 ≤ passes := by
      by_contra hlt
      rw [Nat.sub_eq_zero_of_le (by omega), rounds_zero] at hr
      cases hr
    have hback := not_nodup_of_trapped hr htrapped
    rw [Nat.sub_add_cancel hpasses] at hback
    exact hback hnodup
  · have hweight := weight_le row
    exact atRest_repairBrackets h (by omega)
  · rintro ⟨r, hr, htrapped⟩
    obtain ⟨passes', hout⟩ := repairBrackets_of_mem_rounds hr
    rw [hout]
    exact (trapped_repairBrackets htrapped).not_atRest

theorem rounds_nodup_iff_tangled :
    (∀ r ∈ rounds 10 tangled, ¬ Trapped r) ∧ 2 * (tangled.countP Piece.isBracket + 1) ≤ 10 ∧
      ((rounds 10 tangled).map brackets).Nodup ∧ (rounds 10 tangled).length = 3 ∧
      AtRest (repairBrackets 10 tangled).1 := by
  have hseen : ∀ p ∈ tangled, p.isBracket = true → p.box.isSome = true := by decide
  have hfree (passes : Nat) : ∀ r ∈ rounds passes tangled, ¬ Trapped r := fun r hr =>
    (bracketsSeen_of_mem_rounds hseen hr).not_trapped
  obtain ⟨hnodup, hrest, -⟩ := rounds_nodup_iff 10 tangled
  exact ⟨hfree 10, by decide, hnodup.2 (hfree 8), by decide, hrest (hfree 10) (by decide)⟩

/-- The symbols `) sin x (`. -/
def circled : List Layout.Symbol :=
  [symbolAt ")" 0.0 0.0 4.0 20.0, symbolAt "sin" 6.0 0.0 24.0 20.0, symbolAt "x" 26.0 0.0 36.0 20.0,
    symbolAt "(" 38.0 0.0 42.0 20.0]

/-- The brackets of the call have not been seen, and so the bracket in front is opened and closed
until the passes are used up. -/
theorem linearize_circles :
    let row := (beforeRepair {} (piecesOf (circled.filter (isKept {})))).1
    ¬ ((rounds 10 row).map brackets).Nodup ∧
      (repairBrackets 10 row).1 = row ∧
      (Nesting.of row).isValid = false ∧ repairTarget? row (Nesting.of row) = some 0 ∧
      (linearize {} circled).text = ")*sin(x*()" ∧
      (linearize {} circled).warnings = [.openedBracket 0, .closedBracket 0, .openedBracket 0,
        .closedBracket 0, .openedBracket 0, .closedBracket 0, .openedBracket 0, .closedBracket 0,
        .openedBracket 0, .closedBracket 0, .gaveUp 2, .unbalanced] := by
  decide +kernel

end GlyphMath.Line
