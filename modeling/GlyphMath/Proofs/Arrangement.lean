import GlyphMath.Proofs.Order
import GlyphMath.Proofs.Stages

/-!
# The order of symbols does not matter

* `sortByCenter_eq_of_perm` -- pieces with different middles have one order from left to right.
* `dropNotes` -- the note about the symbols that are dropped.
* `linearize_eq` -- beside it, the line depends on the kept symbols alone.

Principal result:

* `linearize_of_perm` -- the same kept symbols in any order, among any dropped ones, make the same
  line.
-/

set_option autoImplicit false

namespace GlyphMath.Line

open Layout (Symbol)

/-! ## Sorting -/

/-- **Pieces with different middles have one order from left to right.** -/
theorem sortByCenter_eq_of_perm {row row' : List Piece} (hperm : row.Perm row')
    (hdistinct : (row.map centerKey).Nodup) : sortByCenter row = sortByCenter row' := by
  apply List.Perm.eq_of_pairwise ?_ (ordered_sortByCenter row) (ordered_sortByCenter row')
  · exact (sortByCenter_perm row).trans (hperm.trans (sortByCenter_perm row').symm)
  · intro p q hp hq hpq hqp
    apply List.inj_on_of_nodup_map hdistinct
    · exact (sortByCenter_perm row).subset hp
    · exact hperm.symm.subset ((sortByCenter_perm row').subset hq)
    · exact Int.le_antisymm hpq hqp

theorem centerKey_detected (s : Symbol) :
    centerKey (Piece.detected s) = Decimal.totalKey s.box.centerX := rfl

/-- The pieces of symbols with different middles do not depend on the order of the symbols. -/
theorem piecesOf_eq_of_perm {symbols symbols' : List Symbol} (hperm : symbols.Perm symbols')
    (hdistinct : symbols.Pairwise fun s t => s.box.centerX ≠ t.box.centerX) :
    piecesOf symbols = piecesOf symbols' := by
  have hsorted : sortByCenter (symbols.map Piece.detected) =
      sortByCenter (symbols'.map Piece.detected) := by
    apply sortByCenter_eq_of_perm (hperm.map Piece.detected)
    rw [List.Nodup, List.pairwise_map, List.pairwise_map]
    refine hdistinct.imp ?_
    intro s t hne
    rwa [centerKey_detected, centerKey_detected, ne_eq, Decimal.totalKey_inj]
  rw [piecesOf, piecesOf, hsorted]

/-! ## Dropped symbols -/

/-- The note about the symbols that are dropped, if there are any. -/
def dropNotes (config : Config) (symbols : List Symbol) : List Warning :=
  let dropped := symbols.filter fun s => !isKept config s
  if dropped.isEmpty then [] else [.dropped (countDropped dropped) config.scoreThreshold]

/-- Where a symbol is kept, the line depends on the kept symbols, but for the note about the dropped
ones. -/
theorem linearize_eq (config : Config) {symbols : List Symbol}
    (hne : symbols.filter (isKept config) ≠ []) :
    linearize config symbols =
      let row := assemble config (symbols.filter (isKept config))
      ⟨lineText row.1, dropNotes config symbols ++ (row.2 ++ balanceNotes (lineText row.1))⟩ := by
  have hselect : select config symbols =
      (some (symbols.filter (isKept config)), dropNotes config symbols) := by
    have hsymbols : ¬ symbols.isEmpty = true := by
      rintro hempty
      rw [List.isEmpty_iff.1 hempty] at hne
      exact hne rfl
    unfold select
    rw [if_neg hsymbols]
    dsimp only
    rw [if_neg (by rwa [List.isEmpty_iff])]
    rfl
  rw [linearize, hselect]
  dsimp only
  rw [List.append_assoc]

/-- **The order of the symbols and the dropped ones do not matter.**  Two sets of symbols that keep
the same symbols, in whatever order, make the same line with the same notes after the note about
the dropped symbols, where the middles of the kept ones are different. -/
theorem linearize_of_perm (config : Config) {symbols symbols' : List Symbol}
    (hperm : (symbols.filter (isKept config)).Perm (symbols'.filter (isKept config)))
    (hdistinct : (symbols.filter (isKept config)).Pairwise
      fun s t => s.box.centerX ≠ t.box.centerX)
    (hne : symbols.filter (isKept config) ≠ []) :
    ∃ text notes, linearize config symbols = ⟨text, dropNotes config symbols ++ notes⟩ ∧
      linearize config symbols' = ⟨text, dropNotes config symbols' ++ notes⟩ := by
  have hne' : symbols'.filter (isKept config) ≠ [] := by
    intro hnil
    rw [hnil, List.perm_nil] at hperm
    exact hne hperm
  have hrow : assemble config (symbols.filter (isKept config)) =
      assemble config (symbols'.filter (isKept config)) := by
    rw [assemble, assemble, piecesOf_eq_of_perm hperm hdistinct]
  rw [linearize_eq config hne, linearize_eq config hne', hrow]
  exact ⟨_, _, rfl, rfl⟩

/-- A power from left to right, with a blot that is dropped. -/
def blotted : List Symbol :=
  [symbolAt "x" 0.0 20.0 20.0 60.0, symbolAt "2" 22.0 5.0 32.0 25.0,
    ⟨"", "-", 0.05, ⟨40, 0, 50, 9⟩⟩, symbolAt "+" 60.0 20.0 80.0 60.0,
    symbolAt "1" 85.0 20.0 105.0 60.0]

/-- The same symbols in another order, with other blots. -/
def shuffled : List Symbol :=
  [⟨"", "sin", 0.0 / 0.0, ⟨0, 0, 9, 9⟩⟩, symbolAt "1" 85.0 20.0 105.0 60.0,
    symbolAt "2" 22.0 5.0 32.0 25.0, symbolAt "+" 60.0 20.0 80.0 60.0,
    ⟨"", "7", 0.01, ⟨40, 0, 50, 9⟩⟩, symbolAt "x" 0.0 20.0 20.0 60.0]

theorem linearize_of_perm_shuffled :
    (linearize {} blotted).text = "x^(2)+1" ∧
      ∃ text notes, linearize {} blotted = ⟨text, dropNotes {} blotted ++ notes⟩ ∧
        linearize {} shuffled = ⟨text, dropNotes {} shuffled ++ notes⟩ :=
  ⟨by decide +kernel,
    linearize_of_perm {} (by decide +kernel) (by decide +kernel) (by decide +kernel)⟩

end GlyphMath.Line
