import GlyphMath.Line.Bracket
import GlyphMath.Proofs.Heights

/-!
# Brackets without a partner

* `Surplus` -- the brackets of a row that have no partner in it: closing ones, and then opening
  ones.
* `surplus_append` -- in two rows side by side the opening brackets that are left of the first row
  meet the closing ones that are left of the second row.
* `wellNested_iff_surplus` -- well-nested brackets leave none.
* `openings_of`, `closings_of`, `length_unmatchedOpenings`, `length_unmatchedClosings` -- how many
  brackets a row has, and how many of them have no partner.
* `getElem?_unmatchedOpenings`, `getElem?_unmatchedClosings` -- what stands before and after a
  bracket without a partner.

Principal results:

* `surplus_flip_opening` -- an opening bracket without a partner, but for the first one, is a
  partner of another one when it is changed.
* `surplus_flip_closing` -- so is a closing bracket, but for the last one.
-/

set_option autoImplicit false

namespace GlyphMath.Line

/-! ## Rows side by side -/

/-- Brackets without a partner: so many closing ones, and after them so many opening ones. -/
@[ext]
structure Surplus where
  closings : Nat
  openings : Nat
deriving DecidableEq, Repr

namespace Surplus

/-- What is left of two rows side by side: the opening brackets of the first row that are left meet
the closing ones of the second row. -/
def append (s t : Surplus) : Surplus :=
  ⟨s.closings + (t.closings - s.openings), t.openings + (s.openings - t.closings)⟩

theorem append_assoc (s t u : Surplus) : (s.append t).append u = s.append (t.append u) := by
  ext
  · simp only [append]
    omega
  · simp only [append]
    omega

/-- A bracket on its own. -/
def ofStep : DyckStep → Surplus
  | .U => ⟨0, 1⟩
  | .D => ⟨1, 0⟩

end Surplus

/-- The brackets that are left of steps. -/
def surplus : List DyckStep → Surplus
  | [] => ⟨0, 0⟩
  | s :: steps => (Surplus.ofStep s).append (surplus steps)

theorem surplus_append (steps steps' : List DyckStep) :
    surplus (steps ++ steps') = (surplus steps).append (surplus steps') := by
  induction steps with
  | nil => simp [surplus, Surplus.append]
  | cons s steps ih => rw [List.cons_append, surplus, surplus, ih, Surplus.append_assoc]

/-- As many opening and closing brackets are left as there are too many. -/
theorem count_surplus (steps : List DyckStep) :
    steps.count .U + (surplus steps).closings = steps.count .D + (surplus steps).openings := by
  induction steps with
  | nil => rfl
  | cons s steps ih =>
    cases s with
    | U =>
      simp [surplus, Surplus.append, Surplus.ofStep]
      omega
    | D =>
      simp [surplus, Surplus.append, Surplus.ofStep]
      omega

theorem closings_le_count (steps : List DyckStep) :
    (surplus steps).closings ≤ steps.count .D := by
  induction steps with
  | nil => exact Nat.le_refl 0
  | cons s steps ih =>
    cases s with
    | U =>
      simp [surplus, Surplus.append, Surplus.ofStep]
      omega
    | D =>
      simp [surplus, Surplus.append, Surplus.ofStep]
      omega

/-- There is a height after steps where the closing brackets that are left find open ones. -/
theorem height?_eq_surplus (start : Nat) (steps : List DyckStep) :
    height? start steps =
      if (surplus steps).closings ≤ start then
        some ((surplus steps).openings + (start - (surplus steps).closings))
      else none := by
  induction steps generalizing start with
  | nil => simp [height?, surplus]
  | cons s steps ih =>
    cases s with
    | U =>
      rw [height?, ih]
      simp only [surplus, Surplus.append, Surplus.ofStep]
      congr 1
      · rw [eq_iff_iff]
        omega
      · congr 1
        omega
    | D =>
      cases start with
      | zero =>
        rw [height?, if_neg]
        simp [surplus, Surplus.append, Surplus.ofStep]
      | succ start =>
        rw [height?, ih]
        simp only [surplus, Surplus.append, Surplus.ofStep]
        congr 1
        · rw [eq_iff_iff]
          omega
        · congr 1
          omega

/-! ## Rows of pieces -/

theorem brackets_append (row row' : List Piece) :
    brackets (row ++ row') = brackets row ++ brackets row' :=
  List.filterMap_append

theorem brackets_cons (p : Piece) (row : List Piece) :
    brackets (p :: row) = p.step?.toList ++ brackets row := by
  rw [brackets, List.filterMap_cons]
  cases p.step? <;> rfl

theorem brackets_opening {p : Piece} (hp : p.kind = .opening) (row : List Piece) :
    brackets (p :: row) = .U :: brackets row := by
  simp [brackets, Piece.step?, hp]

theorem brackets_closing {p : Piece} (hp : p.kind = .closing) (row : List Piece) :
    brackets (p :: row) = .D :: brackets row := by
  simp [brackets, Piece.step?, hp]

theorem brackets_plain {p : Piece} (hp : p.step? = none) (row : List Piece) :
    brackets (p :: row) = brackets row := by
  simp [brackets, hp]

/-- **The brackets of a row are well nested** when none is left. -/
theorem wellNested_iff_surplus {row : List Piece} :
    WellNested row ↔ surplus (brackets row) = ⟨0, 0⟩ := by
  rw [wellNested_iff, Climbs, height?_eq_surplus, Surplus.ext_iff]
  split <;> simp <;> omega

theorem countP_isBracket (row : List Piece) :
    row.countP Piece.isBracket = (brackets row).count .U + (brackets row).count .D := by
  induction row with
  | nil => rfl
  | cons p row ih =>
    unfold brackets at ih ⊢
    unfold Piece.isBracket at ih ⊢
    cases hp : p.step? with
    | none => simp [hp, ih]
    | some s =>
      cases s with
      | U =>
        simp [hp, ih]
        omega
      | D =>
        simp [hp, ih]
        omega

namespace Nesting

/-! ## What a scan finds -/

section

variable {position openings closings : Nat} {waiting lone : List Nat} {row : List Piece}

theorem scan_counts :
    (scan position openings closings waiting lone row).openings =
        openings + (brackets row).count .U ∧
      (scan position openings closings waiting lone row).closings =
        closings + (brackets row).count .D := by
  fun_induction scan position openings closings waiting lone row with
  | case1 => exact ⟨rfl, rfl⟩
  | case2 position openings closings waiting lone p rest hp ih =>
    rw [brackets_opening hp, ih.1, ih.2]
    simp
    omega
  | case3 position openings closings lone p rest hp w waiting ih =>
    rw [brackets_closing hp, ih.1, ih.2]
    simp
    omega
  | case4 position openings closings lone p rest hp ih =>
    rw [brackets_closing hp, ih.1, ih.2]
    simp
    omega
  | case5 position openings closings waiting lone p rest hopen hclose ih =>
    rw [brackets_plain (step?_eq_none hopen hclose)]
    exact ih

/-- The opening brackets that wait are partners of the closing ones that are left of the row. -/
theorem scan_lengths :
    (scan position openings closings waiting lone row).unmatchedOpenings.length =
        (surplus (brackets row)).openings +
          (waiting.length - (surplus (brackets row)).closings) ∧
      (scan position openings closings waiting lone row).unmatchedClosings.length =
        lone.length + ((surplus (brackets row)).closings - waiting.length) := by
  fun_induction scan position openings closings waiting lone row with
  | case1 => simp [brackets, surplus]
  | case2 position openings closings waiting lone p rest hp ih =>
    rw [brackets_opening hp, ih.1, ih.2]
    simp only [surplus, Surplus.append, Surplus.ofStep, List.length_cons]
    omega
  | case3 position openings closings lone p rest hp w waiting ih =>
    rw [brackets_closing hp, ih.1, ih.2]
    simp only [surplus, Surplus.append, Surplus.ofStep, List.length_cons]
    omega
  | case4 position openings closings lone p rest hp ih =>
    rw [brackets_closing hp, ih.1, ih.2]
    simp only [surplus, Surplus.append, Surplus.ofStep, List.length_cons, List.length_nil]
    omega
  | case5 position openings closings waiting lone p rest hopen hclose ih =>
    rw [brackets_plain (step?_eq_none hopen hclose)]
    exact ih

/-- A piece of a row whose positions start at `position`, with what stands before and after it. -/
structure Parts (position : Nat) (row : List Piece) (i : Nat) (before : List Piece) (p : Piece)
    (after : List Piece) : Prop where
  row_eq : row = before ++ p :: after
  position_eq : position + before.length = i

theorem Parts.cons {i : Nat} {before after : List Piece} {p : Piece} (q : Piece)
    (h : Parts (position + 1) row i before p after) :
    Parts position (q :: row) i (q :: before) p after := by
  refine ⟨by rw [h.row_eq, List.cons_append], ?_⟩
  rw [List.length_cons, ← h.position_eq]
  omega

/-- An opening bracket that is left has waited, or it stands in the row with no closing bracket left
after it.  It comes after those that wait still and those that are left before it. -/
theorem getElem?_scan_openings {i j : Nat}
    (h : (scan position openings closings waiting lone row).unmatchedOpenings[j]? = some i) :
    (waiting.drop (surplus (brackets row)).closings).reverse[j]? = some i ∨
      ∃ before p after, Parts position row i before p after ∧ p.kind = .opening ∧
        (surplus (brackets after)).closings = 0 ∧
        (surplus (brackets before)).openings +
          (waiting.length - (surplus (brackets before)).closings) = j := by
  fun_induction scan position openings closings waiting lone row with
  | case1 => exact Or.inl (by simpa [brackets, surplus] using h)
  | case2 position openings closings waiting lone p rest hp ih =>
    rw [brackets_opening hp, surplus, Surplus.append, Surplus.ofStep]
    rcases ih h with hwaits | ⟨before, q, after, hparts, hq, hafter, hj⟩
    · cases hleft : (surplus (brackets rest)).closings with
      | zero =>
        -- The bracket itself is the last of those that wait.
        rw [hleft, List.drop_zero, List.reverse_cons, List.getElem?_append,
          List.getElem?_singleton] at hwaits
        split at hwaits
        · exact Or.inl hwaits
        · rename_i hlength
          obtain ⟨hj, hi⟩ : j - waiting.reverse.length = 0 ∧ position = i := by
            simpa using hwaits
          rw [List.length_reverse] at hlength hj
          refine Or.inr ⟨[], p, rest, ⟨rfl, hi⟩, hp, hleft, ?_⟩
          simp [brackets, surplus]
          omega
      | succ left =>
        rw [hleft, List.drop_succ_cons] at hwaits
        exact Or.inl (by simpa using hwaits)
    · refine Or.inr ⟨p :: before, q, after, hparts.cons p, hq, hafter, ?_⟩
      rw [brackets_opening hp]
      simp only [surplus, Surplus.append, Surplus.ofStep, List.length_cons] at hj ⊢
      omega
  | case3 position openings closings lone p rest hp w waiting ih =>
    rw [brackets_closing hp, surplus, Surplus.append, Surplus.ofStep]
    rcases ih h with hwaits | ⟨before, q, after, hparts, hq, hafter, hj⟩
    · exact Or.inl (by simpa [Nat.add_comm 1] using hwaits)
    · refine Or.inr ⟨p :: before, q, after, hparts.cons p, hq, hafter, ?_⟩
      rw [brackets_closing hp]
      simp only [surplus, Surplus.append, Surplus.ofStep, List.length_cons] at hj ⊢
      omega
  | case4 position openings closings lone p rest hp ih =>
    rcases ih h with hwaits | ⟨before, q, after, hparts, hq, hafter, hj⟩
    · simp at hwaits
    · refine Or.inr ⟨p :: before, q, after, hparts.cons p, hq, hafter, ?_⟩
      rw [brackets_closing hp]
      simp only [surplus, Surplus.append, Surplus.ofStep, List.length_nil] at hj ⊢
      omega
  | case5 position openings closings waiting lone p rest hopen hclose ih =>
    have hp := step?_eq_none hopen hclose
    rw [brackets_plain hp]
    rcases ih h with hwaits | ⟨before, q, after, hparts, hq, hafter, hj⟩
    · exact Or.inl hwaits
    · refine Or.inr ⟨p :: before, q, after, hparts.cons p, hq, hafter, ?_⟩
      rwa [brackets_plain hp]

/-- A closing bracket that is left was left before, or it stands in the row where no opening bracket
waits.  It comes after those that are left before it. -/
theorem getElem?_scan_closings {i j : Nat}
    (h : (scan position openings closings waiting lone row).unmatchedClosings[j]? = some i) :
    lone.reverse[j]? = some i ∨
      ∃ before p after, Parts position row i before p after ∧ p.kind = .closing ∧
        (surplus (brackets before)).openings = 0 ∧
        waiting.length ≤ (surplus (brackets before)).closings ∧
        lone.length + ((surplus (brackets before)).closings - waiting.length) = j := by
  fun_induction scan position openings closings waiting lone row with
  | case1 => exact Or.inl h
  | case2 position openings closings waiting lone p rest hp ih =>
    rcases ih h with hlone | ⟨before, q, after, hparts, hq, hnone, hwaits, hj⟩
    · exact Or.inl hlone
    · refine Or.inr ⟨p :: before, q, after, hparts.cons p, hq, ?_⟩
      rw [brackets_opening hp]
      simp only [surplus, Surplus.append, Surplus.ofStep, List.length_cons] at hwaits hj ⊢
      omega
  | case3 position openings closings lone p rest hp w waiting ih =>
    rcases ih h with hlone | ⟨before, q, after, hparts, hq, hnone, hwaits, hj⟩
    · exact Or.inl hlone
    · refine Or.inr ⟨p :: before, q, after, hparts.cons p, hq, ?_⟩
      rw [brackets_closing hp]
      simp only [surplus, Surplus.append, Surplus.ofStep, List.length_cons]
      omega
  | case4 position openings closings lone p rest hp ih =>
    rcases ih h with hlone | ⟨before, q, after, hparts, hq, hnone, hwaits, hj⟩
    · -- The bracket itself is the last of those that are left.
      rw [List.reverse_cons, List.getElem?_append, List.getElem?_singleton] at hlone
      split at hlone
      · exact Or.inl hlone
      · rename_i hlength
        obtain ⟨hj, hi⟩ : j - lone.reverse.length = 0 ∧ position = i := by
          simpa using hlone
        rw [List.length_reverse] at hlength hj
        refine Or.inr ⟨[], p, rest, ⟨rfl, hi⟩, hp, rfl, Nat.le_refl _, ?_⟩
        simp [brackets, surplus]
        omega
    · refine Or.inr ⟨p :: before, q, after, hparts.cons p, hq, ?_⟩
      rw [brackets_closing hp]
      simp only [surplus, Surplus.append, Surplus.ofStep, List.length_cons, List.length_nil] at hj ⊢
      omega
  | case5 position openings closings waiting lone p rest hopen hclose ih =>
    rcases ih h with hlone | ⟨before, q, after, hparts, hq, hrest⟩
    · exact Or.inl hlone
    · refine Or.inr ⟨p :: before, q, after, hparts.cons p, hq, ?_⟩
      rwa [brackets_plain (step?_eq_none hopen hclose)]

end

/-! ## The brackets of a whole row -/

section

variable {row : List Piece} {i j : Nat}

theorem openings_of (row : List Piece) : (of row).openings = (brackets row).count .U := by
  rw [of, scan_counts.1, Nat.zero_add]

theorem closings_of (row : List Piece) : (of row).closings = (brackets row).count .D := by
  rw [of, scan_counts.2, Nat.zero_add]

theorem length_unmatchedOpenings (row : List Piece) :
    (of row).unmatchedOpenings.length = (surplus (brackets row)).openings := by
  rw [of, scan_lengths.1, List.length_nil, Nat.zero_sub, Nat.add_zero]

theorem length_unmatchedClosings (row : List Piece) :
    (of row).unmatchedClosings.length = (surplus (brackets row)).closings := by
  rw [of, scan_lengths.2, List.length_nil, Nat.zero_add, Nat.sub_zero]

/-- **An opening bracket without a partner** has no closing bracket left after it, and those before
it that are left have no partner either. -/
theorem getElem?_unmatchedOpenings (h : (of row).unmatchedOpenings[j]? = some i) :
    ∃ before p after, Parts 0 row i before p after ∧ p.kind = .opening ∧
      (surplus (brackets before)).openings = j ∧ (surplus (brackets after)).closings = 0 := by
  rcases getElem?_scan_openings h with hwaits | ⟨before, p, after, hparts, hp, hafter, hj⟩
  · simp at hwaits
  · exact ⟨before, p, after, hparts, hp, by simpa using hj, hafter⟩

/-- **A closing bracket without a partner** has no opening bracket left before it, and the closing
ones before it that are left have no partner either. -/
theorem getElem?_unmatchedClosings (h : (of row).unmatchedClosings[j]? = some i) :
    ∃ before p after, Parts 0 row i before p after ∧ p.kind = .closing ∧
      surplus (brackets before) = ⟨j, 0⟩ := by
  rcases getElem?_scan_closings h with hlone | ⟨before, p, after, hparts, hp, hnone, -, hj⟩
  · simp at hlone
  · refine ⟨before, p, after, hparts, hp, Surplus.ext ?_ hnone⟩
    simpa using hj

/-- Every bracket has its partner where the brackets are well nested. -/
theorem isValid_iff : (of row).isValid = true ↔ WellNested row := by
  rw [wellNested_iff_surplus, isValid, Bool.and_eq_true, List.isEmpty_iff, List.isEmpty_iff,
    ← List.length_eq_zero_iff, ← List.length_eq_zero_iff, length_unmatchedOpenings,
    length_unmatchedClosings, Surplus.ext_iff, and_comm]

end

end Nesting

/-! ## Changing a bracket -/

theorem getElem?_flipAt (row : List Piece) (i j : Nat) :
    (flipAt row i)[j]? = if i = j then row[j]?.map Piece.flip else row[j]? := by
  rw [flipAt, List.getElem?_modify]
  split <;> simp

theorem flipAt_parts {row before after : List Piece} {p : Piece} {i : Nat}
    (h : Nesting.Parts 0 row i before p after) : flipAt row i = before ++ p.flip :: after := by
  obtain ⟨rfl, rfl⟩ := h
  rw [flipAt, Nat.zero_add, List.modify_eq_take_drop, List.take_left, List.drop_left]
  rfl

/-- What is left of a row around a bracket. -/
theorem surplus_parts {before after : List Piece} {p : Piece} {s : DyckStep}
    (hp : p.step? = some s) :
    surplus (brackets (before ++ p :: after)) =
      (surplus (brackets before)).append
        ((Surplus.ofStep s).append (surplus (brackets after))) := by
  have hbrackets : brackets (p :: after) = s :: brackets after := by
    simp [brackets, hp]
  rw [brackets_append, surplus_append, hbrackets, surplus]

theorem step?_flip (p : Piece) : p.flip.step? = if p.kind = .opening then some .D else some .U := by
  unfold Piece.flip
  split <;> rfl

theorem box_flip (p : Piece) : p.flip.box = p.box := by
  unfold Piece.flip
  split <;> rfl

theorem isBracket_flip (p : Piece) : p.flip.isBracket = true := by
  rw [Piece.isBracket, step?_flip]
  split <;> rfl

/-- **An opening bracket without a partner**, but for the first one, becomes the partner of the one
before it. -/
theorem surplus_flip_opening {row : List Piece} {i j : Nat} (hj : 0 < j)
    (h : (Nesting.of row).unmatchedOpenings[j]? = some i) :
    surplus (brackets (flipAt row i)) =
      ⟨(surplus (brackets row)).closings, (surplus (brackets row)).openings - 2⟩ := by
  obtain ⟨before, p, after, hparts, hp, hbefore, hafter⟩ := Nesting.getElem?_unmatchedOpenings h
  have hstep : p.step? = some .U := by rw [Piece.step?, hp]
  have hflip : p.flip.step? = some .D := by rw [step?_flip, if_pos hp]
  rw [flipAt_parts hparts, hparts.row_eq, surplus_parts hstep, surplus_parts hflip]
  ext
  · simp only [Surplus.append, Surplus.ofStep]
    omega
  · simp only [Surplus.append, Surplus.ofStep]
    omega

/-- **A closing bracket without a partner** becomes the partner of the next one, and the last one an
opening bracket without a partner. -/
theorem surplus_flip_closing {row : List Piece} {i j : Nat}
    (h : (Nesting.of row).unmatchedClosings[j]? = some i) :
    surplus (brackets (flipAt row i)) =
      if j + 1 < (surplus (brackets row)).closings then
        ⟨(surplus (brackets row)).closings - 2, (surplus (brackets row)).openings⟩
      else ⟨(surplus (brackets row)).closings - 1, (surplus (brackets row)).openings + 1⟩ := by
  obtain ⟨before, p, after, hparts, hp, hbefore⟩ := Nesting.getElem?_unmatchedClosings h
  have hstep : p.step? = some .D := by rw [Piece.step?, hp]
  have hflip : p.flip.step? = some .U := by rw [step?_flip, if_neg (by simp [hp])]
  rw [flipAt_parts hparts, hparts.row_eq, surplus_parts hstep, surplus_parts hflip, hbefore]
  cases hafter : (surplus (brackets after)).closings with
  | zero =>
    rw [if_neg (by simp [Surplus.append, Surplus.ofStep, hafter])]
    ext <;> simp [Surplus.append, Surplus.ofStep, hafter]
  | succ left =>
    rw [if_pos (by simp [Surplus.append, Surplus.ofStep, hafter])]
    ext <;> simp [Surplus.append, Surplus.ofStep, hafter]
    omega

/-! ## The bracket to change -/

/-- **The bracket to change** has been seen and has no partner. -/
theorem mem_of_repairTarget? {row : List Piece} {i : Nat}
    (h : repairTarget? row (Nesting.of row) = some i) :
    (i ∈ (Nesting.of row).unmatchedOpenings ∨ i ∈ (Nesting.of row).unmatchedClosings) ∧
      isSeen row i = true := by
  have hadjacent {kind : Kind} {unmatched : List Nat}
      (hpair : adjacentPair? row kind unmatched = some i) :
      i ∈ unmatched ∧ isSeen row i = true := by
    refine ⟨List.mem_of_find?_eq_some hpair, ?_⟩
    have hholds := List.find?_some hpair
    simp only [Bool.and_eq_true] at hholds
    exact hholds.2
  unfold repairTarget? at h
  split at h
  · split at h
    · rename_i hpair
      cases h
      exact ⟨Or.inl (hadjacent hpair).1, (hadjacent hpair).2⟩
    · exact ⟨Or.inl (List.mem_reverse.1 (List.mem_of_find?_eq_some h)), List.find?_some h⟩
  · split at h
    · split at h
      · rename_i hpair
        cases h
        exact ⟨Or.inr (hadjacent hpair).1, (hadjacent hpair).2⟩
      · exact ⟨Or.inr (List.mem_of_find?_eq_some h), List.find?_some h⟩
    · split at h
      · exact ⟨Or.inr (List.mem_of_find?_eq_some h), List.find?_some h⟩
      · cases h

/-- A changed bracket stands in its row as a bracket that has been seen. -/
theorem parts_of_repairTarget? {row : List Piece} {i : Nat}
    (h : repairTarget? row (Nesting.of row) = some i) :
    ∃ before p after, Nesting.Parts 0 row i before p after ∧ p.isBracket = true ∧
      p.box.isSome = true := by
  obtain ⟨hmem, hseen⟩ := mem_of_repairTarget? h
  have hbox {before p after} (hparts : Nesting.Parts 0 row i before p after) :
      p.box.isSome = true := by
    obtain ⟨rfl, rfl⟩ := hparts
    simpa [isSeen] using hseen
  rcases hmem with hmem | hmem
  · obtain ⟨j, hj⟩ := List.mem_iff_getElem?.1 hmem
    obtain ⟨before, p, after, hparts, hp, -⟩ := Nesting.getElem?_unmatchedOpenings hj
    exact ⟨before, p, after, hparts, by simp [Piece.isBracket, Piece.step?, hp], hbox hparts⟩
  · obtain ⟨j, hj⟩ := List.mem_iff_getElem?.1 hmem
    obtain ⟨before, p, after, hparts, hp, -⟩ := Nesting.getElem?_unmatchedClosings hj
    exact ⟨before, p, after, hparts, by simp [Piece.isBracket, Piece.step?, hp], hbox hparts⟩

/-- **Run lemma.** What every change keeps holds after the repair. -/
theorem repairBrackets_keeps (holds : List Piece → Prop)
    (hflip : ∀ row i, repairTarget? row (Nesting.of row) = some i → holds row →
      holds (flipAt row i))
    (passes : Nat) {row : List Piece} (h : holds row) : holds (repairBrackets passes row).1 := by
  fun_induction repairBrackets passes row with
  | case1 passes row n hvalid => exact h
  | case2 row n hvalid => exact h
  | case3 row n hvalid passes hnone => exact h
  | case4 row n hvalid passes i htarget out notes hout ih =>
    rw [hout] at ih
    exact ih (hflip row i htarget h)

theorem countP_flipAt {row : List Piece} {i : Nat}
    (h : repairTarget? row (Nesting.of row) = some i) :
    (flipAt row i).countP Piece.isBracket = row.countP Piece.isBracket := by
  obtain ⟨before, p, after, hparts, hp, -⟩ := parts_of_repairTarget? h
  rw [flipAt_parts hparts, hparts.row_eq]
  simp [hp, isBracket_flip p]

end GlyphMath.Line
