import GlyphMath.Proofs.Mending
import GlyphMath.Proofs.Origins

/-!
# What the repair of brackets reports

* `Warning.change?` -- the position of the change that a note is about.
* `changesAt` -- the notes about the changes at a position.
* `Piece.turned` -- a bracket that has been changed so many times.
* `Piece.turnNote` -- the note about a change of a bracket.
* `Reports` -- a row with its changes carried out and noted.

Principal result:

* `repairBrackets_reports` -- the repair changes what it reports and nothing else, and gives up
  exactly where it leaves brackets without a partner.
-/

set_option autoImplicit false

namespace GlyphMath.Line

/-- The position of the change that a note is about. -/
def Warning.change? : Warning → Option Nat
  | .closedBracket position => some position
  | .openedBracket position => some position
  | _ => none

/-- The notes about the changes at a position, in the order in which they were made. -/
def changesAt (position : Nat) (notes : List Warning) : List Warning :=
  notes.filter fun w => w.change? == some position

/-- A bracket that has been changed so many times. -/
def Piece.turned (p : Piece) (times : Nat) : Piece := if times % 2 = 0 then p else p.flip

/-- The note about a change of a bracket that stands at a position. -/
def Piece.turnNote (p : Piece) (position : Nat) : Warning :=
  if p.kind = .opening then .closedBracket position else .openedBracket position

/-- `Reports row out changes`: the row `out` is `row` with the changes that are noted. -/
structure Reports (row out : List Piece) (changes : List Warning) : Prop where
  length_eq : out.length = row.length
  /-- Only a bracket that has been seen is changed. -/
  seen : ∀ w ∈ changes, ∃ (i : Nat) (p : Piece), w.change? = some i ∧ row[i]? = some p ∧
    p.isBracket = true ∧ p.box.isSome = true
  /-- A piece is changed once for every note that names its position. -/
  turned : ∀ (i : Nat) (p : Piece), row[i]? = some p →
    out[i]? = some (p.turned (changesAt i changes).length)
  /-- Every note says which way the bracket was turned. -/
  noted : ∀ (i : Nat) (p : Piece), row[i]? = some p → changesAt i changes =
    (List.range (changesAt i changes).length).map fun times => (p.turned times).turnNote i

/-! ## One change -/

section

variable {row out : List Piece} {changes : List Warning} {p : Piece} {i : Nat}

theorem change?_flipNote (row : List Piece) (i : Nat) : (flipNote row i).change? = some i := by
  unfold flipNote
  split <;> rfl

theorem flipNote_eq (h : row[i]? = some p) : flipNote row i = p.turnNote i := by
  simp [flipNote, hasKind, h, Piece.turnNote]

theorem isRead_flip (p : Piece) : p.flip.IsRead := by
  unfold Piece.flip
  split
  · exact show Kind.closing = Kind.of ")" by decide
  · exact show Kind.opening = Kind.of "(" by decide

theorem turned_flip (hread : p.IsRead) (hp : p.isBracket = true) (times : Nat) :
    p.flip.turned times = p.turned (times + 1) := by
  unfold Piece.turned
  rcases Nat.mod_two_eq_zero_or_one times with heven | hodd
  · rw [if_pos heven, if_neg (by omega)]
  · rw [if_neg (by omega), if_pos (by omega), Piece.flip_flip hread hp]

theorem Reports.refl (row : List Piece) : Reports row row [] where
  length_eq := rfl
  seen := nofun
  turned _ _ h := h
  noted _ _ _ := rfl

/-- **Step lemma.**  A change before changes that are noted is noted, too. -/
theorem Reports.flip (h : Reports (flipAt row i) out changes) (hi : row[i]? = some p)
    (hread : p.IsRead) (hp : p.isBracket = true) (hseen : p.box.isSome = true) :
    Reports row out (flipNote row i :: changes) := by
  have hnote : flipNote row i = p.turnNote i := flipNote_eq hi
  have hchanged : (flipAt row i)[i]? = some p.flip := by
    rw [getElem?_flipAt, if_pos rfl, hi, Option.map_some]
  have hhere : changesAt i (flipNote row i :: changes) =
      flipNote row i :: changesAt i changes :=
    List.filter_cons_of_pos (by rw [change?_flipNote]; exact beq_self_eq_true _)
  have helsewhere : ∀ j, i ≠ j → (flipAt row i)[j]? = row[j]? ∧
      changesAt j (flipNote row i :: changes) = changesAt j changes := by
    intro j hj
    refine ⟨by rw [getElem?_flipAt, if_neg hj], List.filter_cons_of_neg ?_⟩
    rw [change?_flipNote]
    simpa using hj
  refine ⟨?_, ?_, ?_, ?_⟩
  · rw [h.length_eq, flipAt, List.length_modify]
  · rintro w (_ | ⟨_, hw⟩)
    · exact ⟨i, p, change?_flipNote row i, hi, hp, hseen⟩
    · obtain ⟨j, q, hj, hq, hbracket, hbox⟩ := h.seen w hw
      by_cases hij : i = j
      · subst hij
        exact ⟨i, p, hj, hi, hp, hseen⟩
      · rw [(helsewhere j hij).1] at hq
        exact ⟨j, q, hj, hq, hbracket, hbox⟩
  · intro j q hq
    by_cases hij : i = j
    · subst hij
      obtain rfl : p = q := Option.some.inj (hi.symm.trans hq)
      rw [h.turned i _ hchanged, hhere, List.length_cons, turned_flip hread hp]
    · rw [← (helsewhere j hij).1] at hq
      rw [h.turned j q hq, (helsewhere j hij).2]
  · intro j q hq
    by_cases hij : i = j
    · subst hij
      obtain rfl : p = q := Option.some.inj (hi.symm.trans hq)
      have hrest := h.noted i _ hchanged
      rw [hhere, List.length_cons, List.range_succ_eq_map, List.map_cons, List.map_map, hnote]
      refine congrArg (p.turnNote i :: ·) (hrest.trans (List.map_congr_left fun times _ => ?_))
      exact congrArg (·.turnNote i) (turned_flip hread hp times)
    · rw [← (helsewhere j hij).1] at hq
      rw [(helsewhere j hij).2]
      exact h.noted j q hq

theorem Reports.kept (h : Reports row out changes) (hi : row[i]? = some p)
    (hkept : p.isBracket = false ∨ p.box = none) : out[i]? = some p := by
  have hnone : changesAt i changes = [] := by
    refine List.filter_eq_nil_iff.2 fun w hw hchange => ?_
    obtain ⟨j, q, hj, hq, hbracket, hbox⟩ := h.seen w hw
    obtain rfl : i = j := Option.some.inj ((eq_of_beq hchange).symm.trans hj)
    obtain rfl : p = q := Option.some.inj (hi.symm.trans hq)
    rcases hkept with hplain | hunseen
    · rw [hplain] at hbracket
      cases hbracket
    · rw [hunseen] at hbox
      cases hbox
  have hout := h.turned i p hi
  rwa [hnone] at hout

end

/-! ## All changes -/

/-- The note that brackets are left without a partner. -/
def leftNote (row : List Piece) : List Warning :=
  if WellNested row then []
  else [.gaveUp ((surplus (brackets row)).closings + (surplus (brackets row)).openings)]

theorem leftNote_of_not_isValid {row : List Piece} (h : ¬ (Nesting.of row).isValid = true) :
    leftNote row = [.gaveUp (Nesting.of row).unmatched] := by
  rw [Nesting.isValid_iff] at h
  rw [leftNote, if_neg h, Nesting.unmatched, Nesting.length_unmatchedOpenings,
    Nesting.length_unmatchedClosings, Nat.add_comm]

/-- The brackets of a row have the kinds of their texts. -/
def BracketsRead (row : List Piece) : Prop := ∀ p ∈ row, p.isBracket = true → p.IsRead

theorem bracketsRead_flipAt {row : List Piece} (h : BracketsRead row) (i : Nat) :
    BracketsRead (flipAt row i) := by
  intro p hp hbracket
  obtain ⟨j, hj⟩ := List.mem_iff_getElem?.1 hp
  rw [getElem?_flipAt] at hj
  split at hj
  · obtain ⟨q, -, rfl⟩ := Option.map_eq_some_iff.1 hj
    exact isRead_flip q
  · exact h p (List.mem_of_getElem? hj) hbracket

/-- **The repair changes what it reports.**  In a row whose brackets have the kinds of their texts
it makes no more changes than there are passes and notes each of them, position and direction.  At
the end it notes how many brackets are left without a partner, where any are left. -/
theorem repairBrackets_reports (passes : Nat) {row : List Piece}
    (hread : ∀ p ∈ row, p.isBracket = true → p.IsRead) :
    ∃ changes,
      (repairBrackets passes row).2 = changes ++ leftNote (repairBrackets passes row).1 ∧
        changes.length ≤ passes ∧ Reports row (repairBrackets passes row).1 changes ∧
        ∀ (i : Nat) (p : Piece), row[i]? = some p → p.isBracket = false ∨ p.box = none →
          (repairBrackets passes row).1[i]? = some p := by
  suffices h : ∃ changes,
      (repairBrackets passes row).2 = changes ++ leftNote (repairBrackets passes row).1 ∧
        changes.length ≤ passes ∧ Reports row (repairBrackets passes row).1 changes by
    obtain ⟨changes, hnotes, hlength, hreports⟩ := h
    exact ⟨changes, hnotes, hlength, hreports, fun i p hi hkept => hreports.kept hi hkept⟩
  fun_induction repairBrackets passes row with
  | case1 passes row n hvalid =>
    refine ⟨[], ?_, Nat.zero_le _, .refl row⟩
    rw [leftNote, if_pos (Nesting.isValid_iff.1 hvalid)]
    rfl
  | case2 row n hvalid =>
    exact ⟨[], (leftNote_of_not_isValid hvalid).symm, Nat.zero_le _, .refl row⟩
  | case3 row n hvalid passes hnone =>
    exact ⟨[], (leftNote_of_not_isValid hvalid).symm, Nat.zero_le _, .refl row⟩
  | case4 row n hvalid passes i htarget out notes hout ih =>
    rw [hout] at ih
    obtain ⟨changes, hnotes, hlength, hreports⟩ := ih (bracketsRead_flipAt hread i)
    obtain ⟨before, p, after, hparts, hbracket, hseen⟩ := parts_of_repairTarget? htarget
    have hi : row[i]? = some p := by
      obtain ⟨rfl, rfl⟩ := hparts
      simp
    have hp : p.IsRead := hread p (List.mem_of_getElem? hi) hbracket
    refine ⟨flipNote row i :: changes, ?_, Nat.succ_le_succ hlength,
      hreports.flip hi hp hbracket hseen⟩
    rw [show notes = _ from hnotes]
    rfl

/-- The last bracket is opened and closed again, and so stands as it was; what was left of the row
is mended at the first one. -/
theorem repairBrackets_reports_tangled :
    (∀ p ∈ tangled, p.isBracket = true → p.IsRead) ∧
      (repairBrackets 3 tangled).2 = [.openedBracket 4, .openedBracket 0, .closedBracket 4] ∧
      ∃ changes,
        (repairBrackets 3 tangled).2 = changes ++ leftNote (repairBrackets 3 tangled).1 ∧
          changes.length ≤ 3 ∧ Reports tangled (repairBrackets 3 tangled).1 changes := by
  have hread : ∀ p ∈ tangled, p.isBracket = true → p.kind = Kind.of p.text := by decide
  obtain ⟨changes, hnotes, hlength, hreports, -⟩ := repairBrackets_reports 3 hread
  exact ⟨hread, by decide, changes, hnotes, hlength, hreports⟩

end GlyphMath.Line
