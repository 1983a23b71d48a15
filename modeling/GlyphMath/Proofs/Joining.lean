import GlyphMath.Proofs.Enclosing
import GlyphMath.Proofs.Origins
import GlyphMath.Proofs.Raised

/-!
# Joining names once and for all

* `chars_of_joins` -- a joined row has the text of the row.
* `origin_of_joins` -- where a piece of a joined row comes from.
* `isAround_boxAround` -- the box of a joined piece.
* `prefix_of_joins` -- letters in front of a joined row stand in front of the row.

Joining goes from the left and tries the names at every place that it comes to.  What is behind such
a place is joined later, but a joined piece has more than one letter, so that it is no letter of a
name: letters that spell a name in the joined row stood side by side in the row already, and were
tried there.

Principal result:

* `joinNames_exhaustive` -- nothing is lost, and no letters of a name are left.
-/

set_option autoImplicit false

namespace GlyphMath.Line

open Layout (Box)

section

variable {row out letters : List Piece} {word : List Char} {name : String}

/-! ## The text -/

theorem chars_of_letters (h : letters.map (·.text.toList) = word.map fun c => [c]) :
    chars letters = word := by
  rw [chars, List.flatMap_def, h, ← List.flatMap_def, List.flatMap_singleton']

theorem chars_of_joins (h : Joins row out) : chars out = chars row := by
  induction h with
  | nil => rfl
  | piece _ ih => rw [chars_cons, chars_cons, ih]
  | name _ hletters _ ih => rw [chars_cons, chars_append, chars_of_letters hletters, ih]

/-! ## Where pieces come from -/

/-- **A piece of a joined row** is one of the row, or it is made of letters side by side there. -/
theorem origin_of_joins {q : Piece} (h : Joins row out) (hq : q ∈ out) :
    q ∈ row ∨ ∃ name ∈ spelledNames, ∃ letters, letters <:+: row ∧
      letters.map (·.text.toList) = (name.toList.map fun c => [c]) ∧
        q = ⟨name, .function, boxAround letters⟩ := by
  induction h with
  | nil => cases hq
  | @piece p row out _ ih =>
    rcases List.mem_cons.1 hq with rfl | hq
    · exact Or.inl List.mem_cons_self
    · rcases ih hq with hrow | ⟨name, hname, letters, hpart, hletters, rfl⟩
      · exact Or.inl (List.mem_cons_of_mem _ hrow)
      · exact Or.inr ⟨name, hname, letters, hpart.trans (List.suffix_cons p row).isInfix, hletters,
          rfl⟩
  | @name name letters row out hname hletters _ ih =>
    rcases List.mem_cons.1 hq with rfl | hq
    · exact Or.inr ⟨name, hname, letters, (List.prefix_append _ _).isInfix, hletters, rfl⟩
    · rcases ih hq with hrow | ⟨name, hname, part, hpart, hspelled, rfl⟩
      · exact Or.inl (List.mem_append_right _ hrow)
      · exact Or.inr ⟨name, hname, part, hpart.trans (List.suffix_append letters row).isInfix,
          hspelled, rfl⟩

/-- **The box of a joined piece** is the smallest one around the boxes of its letters. -/
theorem isAround_boxAround {outer : Box} (h : ∀ p ∈ letters, ∀ b ∈ p.box, b.IsUpright)
    (hbox : boxAround letters = some outer) : outer.IsAround (letters.filterMap (·.box)) := by
  have hupright : ∀ b ∈ letters.filterMap (·.box), b.IsUpright := by
    intro b hb
    obtain ⟨p, hp, hpb⟩ := List.mem_filterMap.1 hb
    exact h p hp b hpb
  unfold boxAround at hbox
  split at hbox
  · cases hbox
  · rename_i b boxes hboxes
    cases hbox
    rw [hboxes] at hupright ⊢
    obtain ⟨hb, hboxes⟩ := List.forall_mem_cons.1 hupright
    exact Box.isAround_foldl hb hboxes

theorem boxAround_eq_none : boxAround letters = none ↔ ∀ p ∈ letters, p.box = none := by
  rw [← List.filterMap_eq_nil_iff, boxAround]
  cases letters.filterMap (·.box) <;> simp

/-! ## No letters of a name are left -/

/-- A name is no letter, so that no letters stand in front of a row that starts with one. -/
theorem eq_nil_of_front {texts : List String} (hname : name ∈ spelledNames)
    (h : word.map String.singleton <+: name :: texts) : word = [] := by
  have hlengths : ∀ name ∈ spelledNames, name.toList.length ≠ 1 := by decide
  cases word with
  | nil => rfl
  | cons c word =>
    have hlength := hlengths name hname
    rw [List.map_cons, List.cons_prefix_cons] at h
    rw [← h.1, String.toList_singleton] at hlength
    exact absurd rfl hlength

/-- **Letters in front of a joined row** stand in front of the row. -/
theorem prefix_of_joins (h : Joins row out)
    (hword : word.map String.singleton <+: out.map (·.text)) :
    word.map String.singleton <+: row.map (·.text) := by
  induction h generalizing word with
  | nil => exact hword
  | piece _ ih =>
    cases word with
    | nil => exact List.nil_prefix
    | cons c word =>
      rw [List.map_cons, List.map_cons, List.cons_prefix_cons] at hword ⊢
      exact ⟨hword.1, ih hword.2⟩
  | name hname =>
    rw [eq_nil_of_front hname hword]
    exact List.nil_prefix

end

/-- **No letters of a name stand side by side** in a row whose names are joined. -/
theorem not_infix_joinNames (row : List Piece) {name : String} (hname : name ∈ spelledNames) :
    ¬ name.toList.map String.singleton <:+: (joinNames row).map (·.text) := by
  have hletters := (spelledNames_letters name hname).1
  fun_induction joinNames row with
  | case1 =>
    intro h
    rw [List.map_nil, List.infix_nil, List.map_eq_nil_iff] at h
    exact hletters h
  | case2 p rest found hfound ih =>
    intro h
    rw [List.map_cons, List.infix_cons_iff] at h
    rcases h with hfront | hrest
    · exact hletters (eq_nil_of_front (List.mem_of_find?_eq_some hfound) hfront)
    · exact ih hrest
  | case3 p rest hnone ih =>
    intro h
    rw [List.map_cons, List.infix_cons_iff] at h
    rcases h with hfront | hrest
    · -- the names have been tried here, on the pieces as they were
      have hspelled : name.toList.map String.singleton <+: (p :: rest).map (·.text) :=
        prefix_of_joins (.piece (joins_joinNames rest)) hfront
      exact List.find?_eq_none.1 hnone name hname (spells_of_map_singleton hspelled)
    · exact ih hrest

/-- **Joining names loses nothing and leaves nothing to join**: the text stays, every piece is one
of the row or made of letters side by side that spell its name, with the smallest box around
theirs, and in what comes out no letters of a name stand side by side, so that nothing is joined
a second time. -/
theorem joinNames_exhaustive (row : List Piece) :
    lineText (joinNames row) = lineText row ∧
    Joins row (joinNames row) ∧
    (∀ q ∈ joinNames row, q ∈ row ∨ ∃ name ∈ spelledNames, ∃ letters, letters <:+: row ∧
      letters.map (·.text.toList) = (name.toList.map fun c => [c]) ∧
      q = ⟨name, .function, boxAround letters⟩ ∧
      (q.box = none ↔ ∀ p ∈ letters, p.box = none) ∧
      ((∀ p ∈ letters, ∀ b ∈ p.box, b.IsUpright) →
        ∀ outer ∈ q.box, outer.IsAround (letters.filterMap (·.box)))) ∧
    (∀ name ∈ spelledNames,
      ¬ name.toList.map String.singleton <:+: (joinNames row).map (·.text)) ∧
    joinNames (joinNames row) = joinNames row := by
  have hjoins := joins_joinNames row
  refine ⟨?_, hjoins, fun q hq => ?_, fun name => not_infix_joinNames row, ?_⟩
  · rw [lineText_eq, lineText_eq, chars_of_joins hjoins]
  · rcases origin_of_joins hjoins hq with hrow | ⟨name, hname, letters, hpart, hletters, rfl⟩
    · exact Or.inl hrow
    · exact Or.inr ⟨name, hname, letters, hpart, hletters, rfl, boxAround_eq_none,
        fun hupright outer houter => isAround_boxAround hupright houter⟩
  · exact joinNames_eq fun name => not_infix_joinNames row

/-- `s`, `i` and `n` are joined in front of `c`, with the box around the two of them that have
been seen. -/
theorem joinNames_exhaustive_sine :
    let row : List Piece := [⟨"s", .variable, some ⟨1, 2, 3, 4⟩⟩, ⟨"i", .variable, none⟩,
      ⟨"n", .variable, some ⟨2, 1, 5, 3⟩⟩, ⟨"c", .variable, none⟩]
    let out : List Piece := [⟨"sin", .function, some ⟨1, 1, 5, 4⟩⟩, ⟨"c", .variable, none⟩]
    joinNames row = out ∧ lineText out = lineText row ∧ joinNames out = out ∧
      ∃ letters, letters <:+: row ∧ Box.IsAround ⟨1, 1, 5, 4⟩ (letters.filterMap (·.box)) := by
  intro row out
  have hjoined : joinNames row = out := by
    have hname : spelledName? row = some "sin" := by decide
    have hbox : boxAround (row.take 3) = some ⟨1, 1, 5, 4⟩ := by decide
    have hnone : spelledName? [⟨"c", .variable, none⟩] = none := by decide
    rw [joinNames, hname]
    show ⟨"sin", .function, boxAround (row.take 3)⟩ :: joinNames [⟨"c", .variable, none⟩] = out
    rw [hbox, joinNames, hnone, joinNames]
  have hupright : ∀ p ∈ row, ∀ b ∈ p.box, b.IsUpright := by
    simp only [row, Box.IsUpright, List.forall_mem_cons, Option.mem_some_iff, forall_eq']
    decide
  have hall := joinNames_exhaustive row
  rw [hjoined] at hall
  obtain ⟨htext, -, horigin, -, hagain⟩ := hall
  refine ⟨hjoined, htext, hagain, ?_⟩
  rcases horigin _ List.mem_cons_self with hrow | ⟨name, -, letters, hpart, -, -, -, houter⟩
  · exact absurd hrow (by decide)
  · exact ⟨letters, hpart, houter (fun p hp => hupright p (hpart.subset hp)) _ rfl⟩

end GlyphMath.Line
