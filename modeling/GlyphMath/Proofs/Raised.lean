import GlyphMath.Proofs.Drawing
import GlyphMath.Proofs.Origins
import Mathlib.Data.List.TakeWhile

/-!
# A raised run

* `multiplied` -- values side by side with multiplication signs between them.
* `raisedAt` -- a run as the exponent of a base.

Principal results:

* `length_joinNames_lt` -- joining names makes a row shorter where the letters of a name stand side
  by side.
* `linearize_raised` -- symbols that are raised at a value are its exponent, exactly where no
  letters among them are joined.

Names are joined before exponents are looked for, and joining does not look at the boxes.  So a
letter is taken for one of a name although it is raised at the letter before it.
-/

set_option autoImplicit false

namespace GlyphMath.Line

open Layout (Symbol)

/-- Values side by side with multiplication signs between them, but for digits. -/
def multiplied : List Piece → List Piece
  | a :: b :: rest =>
    if a.kind = .number ∧ b.kind = .number then a :: multiplied (b :: rest)
    else a :: leftOut :: multiplied (b :: rest)
  | row => row

/-- A run of pieces as the exponent of a base. -/
def raisedAt (base : Piece) (run : List Piece) : List Piece :=
  base :: Piece.added "^" .operator :: Piece.openParen :: (run ++ [Piece.closeParen])

/-! ## Letters of names -/

theorem spells_of_map_singleton {word : List Char} {row : List Piece}
    (h : word.map String.singleton <+: row.map (·.text)) : spells word row = true := by
  induction word generalizing row with
  | nil => exact spells.eq_1 row
  | cons c word ih =>
    cases row with
    | nil => exact absurd (List.prefix_nil.1 h) (List.cons_ne_nil _ _)
    | cons p row =>
      rw [List.map_cons, List.map_cons, List.cons_prefix_cons] at h
      rw [spells, ih h.2, ← h.1, String.toList_singleton, beq_self_eq_true]
      rfl

theorem length_joinNames_le (row : List Piece) : (joinNames row).length ≤ row.length := by
  fun_induction joinNames row with
  | case1 => exact Nat.le_refl _
  | case2 p rest name hname ih =>
    rw [List.length_drop] at ih
    rw [List.length_cons, List.length_cons]
    omega
  | case3 p rest _ ih =>
    rw [List.length_cons, List.length_cons]
    omega

/-- **Joining names makes a row shorter** where the letters of a name stand side by side. -/
theorem length_joinNames_lt {row : List Piece} {name : String} (hname : name ∈ spelledNames)
    (h : name.toList.map String.singleton <:+: row.map (·.text)) :
    (joinNames row).length < row.length := by
  have hlengths : ∀ name ∈ spelledNames, 2 ≤ name.toList.length := by decide
  fun_induction joinNames row with
  | case1 =>
    have hletters := List.infix_nil.1 h
    have hlength := hlengths name hname
    rw [List.map_eq_nil_iff] at hletters
    rw [hletters] at hlength
    cases hlength
  | case2 p rest found hfound =>
    have hmem := List.mem_of_find?_eq_some hfound
    have hspells : spells found.toList (p :: rest) = true := by simpa using List.find?_some hfound
    have hle := (spells_take hspells).1
    have hlength := hlengths found hmem
    have hjoined := length_joinNames_le (rest.drop (found.length - 1))
    rw [String.length_toList] at hle hlength
    rw [List.length_drop] at hjoined
    rw [List.length_cons] at hle ⊢
    rw [List.length_cons]
    omega
  | case3 p rest hnone ih =>
    rw [List.length_cons, List.length_cons]
    rw [List.map_cons, List.infix_cons_iff] at h
    rcases h with hfront | hrest
    · rw [← List.map_cons] at hfront
      exact absurd (spells_of_map_singleton hfront) (List.find?_eq_none.1 hnone name hname)
    · exact Nat.succ_lt_succ (ih hrest)

/-! ## The stages -/

section

variable {config : Config} {base : Piece} {run : List Piece}

/-- All that is raised at the first piece is its exponent. -/
theorem groupExponents_raised (hrun : run ≠ []) (hordered : Ordered run)
    (hraised : ∀ p ∈ run, isSuperscript config base p = true) :
    (groupExponents config (base :: run)).1 = raisedAt base run := by
  rw [groupExponents]
  dsimp only
  rw [List.takeWhile_eq_self_iff.2 hraised, List.dropWhile_eq_nil_iff.2 hraised, groupExponents,
    exponent, if_neg (by rwa [List.isEmpty_iff]), sortByCenter_of_ordered hordered]
  exact congrArg (base :: ·) (List.append_nil _)

/-- Signs come between the pieces of an exponent and nowhere else. -/
theorem insertMultiplication_raisedAt
    (hvalues : ∀ p ∈ run, p.kind = .number ∨ p.kind = .variable) :
    (insertMultiplication config (raisedAt base run)).1 = raisedAt base (multiplied run) := by
  have hrun : (insertMultiplication config (run ++ [Piece.closeParen])).1 =
      multiplied run ++ [Piece.closeParen] := by
    fun_induction multiplied run with
    | case1 a b rest hnumbers ih =>
      have hrest := ih fun p hp => hvalues p (List.mem_cons_of_mem _ hp)
      rw [List.cons_append] at hrest
      rw [List.cons_append, List.cons_append, insertMultiplication]
      dsimp only
      rw [if_pos hnumbers, hrest, List.cons_append]
    | case2 a b rest hnumbers ih =>
      have hrest := ih fun p hp => hvalues p (List.mem_cons_of_mem _ hp)
      have hends : a.kind.endsValue = true := by
        rcases hvalues a List.mem_cons_self with ha | ha <;> rw [ha] <;> rfl
      have hstarts : b.kind.startsValue = true := by
        rcases hvalues b (by simp) with hb | hb <;> rw [hb] <;> rfl
      rw [List.cons_append] at hrest
      rw [List.cons_append, List.cons_append, insertMultiplication]
      dsimp only
      rw [if_neg hnumbers, hends, hstarts, hrest]
      rfl
    | case3 row hshort =>
      cases row with
      | nil => rfl
      | cons a rest =>
        cases rest with
        | nil => exact insertMultiplication_cons_cons _ (Or.inr rfl) []
        | cons b rest => exact absurd rfl (hshort a b rest)
  have hopen : (insertMultiplication config (Piece.openParen :: (run ++ [Piece.closeParen]))).1 =
      Piece.openParen :: (multiplied run ++ [Piece.closeParen]) := by
    cases run with
    | nil => exact insertMultiplication_cons_cons _ (Or.inl rfl) []
    | cons a rest =>
      rw [← hrun]
      exact insertMultiplication_cons_cons _ (Or.inl rfl) _
  rw [raisedAt, insertMultiplication_cons_cons _ (Or.inr rfl),
    insertMultiplication_cons_cons _ (Or.inl rfl), hopen, raisedAt]

theorem forall_raisedAt {holds : Piece → Prop} (h : ∀ p ∈ base :: run, holds p)
    (hpower : holds (Piece.added "^" .operator)) (hopen : holds Piece.openParen)
    (hclose : holds Piece.closeParen) : ∀ p ∈ raisedAt base run, holds p := by
  intro p hp
  simp only [raisedAt, List.mem_cons, List.mem_append, List.not_mem_nil, or_false] at hp
  rcases hp with rfl | rfl | rfl | hp | rfl
  · exact h p List.mem_cons_self
  · exact hpower
  · exact hopen
  · exact h p (List.mem_cons_of_mem base hp)
  · exact hclose

/-- **An exponent of values** is left alone by the stages between grouping and the signs. -/
theorem stages_raisedAt (hread : ∀ p ∈ base :: run, p.IsRead)
    (hvalues : ∀ p ∈ base :: run, p.kind = .number ∨ p.kind = .variable) (passes : Nat) :
    (repairBrackets passes (writeCalls 0 (pairBars (raisedAt base run)).1).1).1 =
      raisedAt base run := by
  have hkinds : ∀ p ∈ raisedAt base run,
      p.kind ≠ .bar ∧ p.kind ≠ .root ∧ p.kind ≠ .function := by
    refine forall_raisedAt (fun p hp => ?_) (by decide) (by decide) (by decide)
    rcases hvalues p hp with hkind | hkind <;> rw [hkind] <;> decide
  have hslashes : ∀ p ∈ raisedAt base run, p.text ≠ "/" := by
    refine forall_raisedAt (fun p hp htext => ?_) (by decide) (by decide) (by decide)
    have hkind : p.kind = .operator := by
      rw [hread p hp, htext]
      rfl
    rcases hvalues p hp with hvalue | hvalue <;> rw [hvalue] at hkind <;> cases hkind
  have hcalled : Called (fun q => q.kind = .opening) (raisedAt base run ++ []) :=
    called_append (fun p hp => (hkinds p hp).2.2) trivial
  rw [List.append_nil] at hcalled
  have hcalls : writeCalls 0 (raisedAt base run) = (raisedAt base run, []) :=
    writeCalls_eq hcalled (fun p hp => (hkinds p hp).2.1)
      (fun p hp hfunction => absurd hfunction (hkinds p hp).2.2)
      (fun a b c v hpart _ hb => absurd hb (hslashes b (hpart.subset (by simp)))) 0
  have hplain : ∀ p ∈ base :: run, p.step? = none := by
    intro p hp
    rcases hvalues p hp with hkind | hkind <;> rw [Piece.step?, hkind]
  have hclimbs : Climbs 0 0 (raisedAt base run) := by
    have hrun : brackets run = [] := List.filterMap_eq_nil_iff.2 fun p hp =>
      hplain p (List.mem_cons_of_mem base hp)
    rw [Climbs, raisedAt, brackets_plain (hplain base List.mem_cons_self), brackets_plain rfl,
      brackets_opening rfl, brackets_append, hrun]
    rfl
  rw [pairBars_eq fun p hp => (hkinds p hp).1, hcalls, repairBrackets_of_climbs passes hclimbs]

theorem filter_raisedAt (hseen : ∀ p ∈ base :: run, wasSeen p = true) :
    (raisedAt base run).filter wasSeen = base :: run := by
  have hrun : run.filter wasSeen = run :=
    List.filter_eq_self.2 fun p hp => hseen p (List.mem_cons_of_mem base hp)
  rw [raisedAt, List.filter_cons_of_pos (hseen base List.mem_cons_self),
    List.filter_cons_of_neg (by decide), List.filter_cons_of_neg (by decide), List.filter_append,
    hrun]
  exact congrArg (base :: ·) (List.append_nil run)

theorem lineText_raisedAt (base : Piece) (run : List Piece) :
    lineText (raisedAt base run) = base.text ++ "^(" ++ lineText run ++ ")" := by
  rw [← String.toList_inj]
  simp [toList_lineText, raisedAt, chars, Piece.added, Piece.openParen, Piece.closeParen]

end

/-! ## Reading a raised run -/

/-- **A raised run is the exponent of its base, exactly where no letters are joined.**  Of a value
and values that are raised at it the row with exponents is the value with these as its exponent,
unless the letters of a name stand side by side.  Where none do, the line is the value and its
exponent with the multiplication signs that were left out. -/
theorem linearize_raised {config : Config} {symbols : List Symbol} {base : Piece}
    {run : List Piece}
    (hrow : sortByCenter ((symbols.filter (isKept config)).map Piece.detected) = base :: run)
    (hrun : run ≠ []) (hvalues : ∀ p ∈ base :: run, p.kind = .number ∨ p.kind = .variable)
    (hraised : ∀ p ∈ run, isSuperscript config base p = true) :
    ((groupExponents config (piecesOf (symbols.filter (isKept config)))).1 = raisedAt base run ↔
      ∀ name ∈ spelledNames,
        ¬ (name.toList.map String.singleton <:+: (base :: run).map (·.text))) ∧
    ((∀ name ∈ spelledNames,
        ¬ (name.toList.map String.singleton <:+: (base :: run).map (·.text))) →
      (linearize config symbols).text =
        base.text ++ "^(" ++ lineText (multiplied run) ++ ")") := by
  have hgrouped (hletters : ∀ name ∈ spelledNames,
      ¬ (name.toList.map String.singleton <:+: (base :: run).map (·.text))) :
      (groupExponents config (piecesOf (symbols.filter (isKept config)))).1 =
        raisedAt base run := by
    have hordered : Ordered (base :: run) := hrow ▸ ordered_sortByCenter _
    rw [piecesOf, hrow, joinNames_eq hletters]
    exact groupExponents_raised hrun (List.pairwise_cons.1 hordered).2 hraised
  refine ⟨⟨fun heq name hname hspelled => ?_, hgrouped⟩, fun hletters => ?_⟩
  · -- Every piece of the row stays, so a row with a joined name would have fewer of them.
    have hseen : ∀ p ∈ base :: run, wasSeen p = true := by
      intro p hp
      rw [← hrow] at hp
      obtain ⟨s, -, rfl⟩ := List.mem_map.1 ((sortByCenter_perm _).subset hp)
      rfl
    have hkept := filter_groupExponents config (seen_piecesOf (symbols.filter (isKept config)))
    have hlength := (orderRuns_perm config (piecesOf (symbols.filter (isKept config)))).length_eq
    rw [← hkept, heq, filter_raisedAt hseen, piecesOf, hrow] at hlength
    exact absurd (length_joinNames_lt hname hspelled) (by omega)
  · have hread : ∀ p ∈ base :: run, p.IsRead := hrow ▸ isRead_sorted _
    have hassemble : (assemble config (symbols.filter (isKept config))).1 =
        (insertMultiplication config (repairBrackets config.maxRepairPasses (writeCalls 0 (pairBars
          (groupExponents config (piecesOf (symbols.filter (isKept config)))).1).1).1).1).1 := rfl
    rw [text_linearize, hassemble, hgrouped hletters, stages_raisedAt hread hvalues,
      insertMultiplication_raisedAt fun p hp => hvalues p (List.mem_cons_of_mem base hp),
      lineText_raisedAt]

/-- The symbols `x 1 0 y`, all but the first one raised at it, in some order. -/
def perched : List Symbol :=
  [symbolAt "y" 32.0 8.0 38.0 20.0, symbolAt "x" 0.0 20.0 20.0 40.0,
    symbolAt "0" 27.0 8.0 31.0 20.0, symbolAt "1" 22.0 8.0 26.0 20.0]

theorem linearize_raised_perched :
    (∀ p ∈ [perched[3], perched[2], perched[0]].map Piece.detected,
      isSuperscript {} (Piece.detected perched[1]) p = true) ∧
    (linearize {} perched).text = "x^(10*y)" := by
  have hrow : sortByCenter ((perched.filter (isKept {})).map Piece.detected) =
      Piece.detected perched[1] :: [perched[3], perched[2], perched[0]].map Piece.detected := by
    decide +kernel
  have hraised : ∀ p ∈ [perched[3], perched[2], perched[0]].map Piece.detected,
      isSuperscript {} (Piece.detected perched[1]) p = true := by
    decide +kernel
  obtain ⟨-, htext⟩ := linearize_raised hrow (by decide) (by decide) hraised
  exact ⟨hraised, (htext (by decide)).trans (by decide)⟩

/-- The symbols `s i n`, the last two raised at the first one. -/
def spelledOut : List Symbol :=
  [symbolAt "s" 0.0 20.0 20.0 60.0, symbolAt "i" 21.0 10.0 25.0 30.0,
    symbolAt "n" 26.0 10.0 34.0 30.0]

/-- Letters that are raised at a letter are joined with it where they spell a name. -/
theorem linearize_joins_raised :
    sortByCenter ((spelledOut.filter (isKept {})).map Piece.detected) =
        spelledOut.map Piece.detected ∧
      (∀ p ∈ spelledOut.map Piece.detected, p.kind = .variable) ∧
      (∀ p ∈ spelledOut.tail.map Piece.detected,
        isSuperscript {} (Piece.detected spelledOut[0]) p = true) ∧
      (groupExponents {} (piecesOf (spelledOut.filter (isKept {})))).1 ≠
        raisedAt (Piece.detected spelledOut[0]) (spelledOut.tail.map Piece.detected) ∧
      (linearize {} spelledOut).text = "sin()" := by
  decide +kernel

end GlyphMath.Line
