import GlyphMath.Proofs.BracketRepair
import GlyphMath.Proofs.Completeness
import GlyphMath.Proofs.Order
import GlyphMath.Proofs.Phrases

/-!
# Lines that are drawn

* `leftOut` -- a multiplication sign that is left out.
* `Mark`, `Cell` -- the symbols of a drawing, on the line and raised.
* `written`, `drawn` -- the row that a drawing stands for, and the symbols that are drawn.
* `Drawing` -- what is known of the symbols of a drawing.

Principal results:

* `groupExponents_drawn`, `writeCalls_eq`, `insertMultiplication_eq` -- what every stage does to the
  symbols of a drawing.
* `Drawing.assemble_eq` -- the finished row of a drawing is the row that it stands for.
* `linearize_drawing` -- reading a line is the inverse of drawing it.
-/

set_option autoImplicit false

namespace GlyphMath.Line

open Layout (Symbol)
open Formula (Token Derives literalValue maxHeight)

/-! ## Drawings -/

def leftOut : Piece := Piece.added "*" .operator

/-- Whether a piece is not left out. -/
def isPresent (p : Piece) : Bool := p != leftOut

/-- The multiplication sign after a symbol, where it is left out. -/
def signLeftOut (omitted : Bool) : List Piece := if omitted then [leftOut] else []

/-- A raised symbol, and whether a multiplication sign after it is left out. -/
structure Mark where
  piece : Piece
  omitted : Bool
deriving DecidableEq, Repr

/-- A raised symbol with the sign after it. -/
def Mark.written (m : Mark) : List Piece := m.piece :: signLeftOut m.omitted

/-- A symbol on the line, the symbols that are raised at it, and whether a multiplication sign after
them is left out. -/
structure Cell where
  base : Piece
  raised : List Mark
  omitted : Bool
deriving DecidableEq, Repr

namespace Cell

/-- The raised symbols, written as an exponent. -/
def power (c : Cell) : List Piece :=
  if c.raised.isEmpty then []
  else Piece.added "^" .operator :: Piece.openParen ::
    (c.raised.flatMap Mark.written ++ [Piece.closeParen])

/-- The part of the row that a cell stands for. -/
def written (c : Cell) : List Piece := c.base :: (c.power ++ signLeftOut c.omitted)

/-- The symbols of a cell. -/
def drawn (c : Cell) : List Piece := c.base :: c.raised.map (·.piece)

end Cell

/-- The row that cells stand for. -/
def written (cells : List Cell) : List Piece := cells.flatMap Cell.written

/-- The symbols of cells. -/
def drawn (cells : List Cell) : List Piece := cells.flatMap Cell.drawn

/-- A multiplication sign may be left out between the end of a value and the start of another one,
unless both are digits. -/
def MayOmit (a b : Piece) : Prop :=
  a.kind.endsValue = true ∧ b.kind.startsValue = true ∧ ¬(a.kind = .number ∧ b.kind = .number)

/-- Every multiplication sign that is left out stands between two pieces where it may be. -/
def OmitsWell (row : List Piece) : Prop :=
  ∀ before after, row = before ++ leftOut :: after →
    ∃ a ∈ before.getLast?, ∃ b ∈ after.head?, MayOmit a b

theorem omitsWell_iff {row : List Piece} : OmitsWell row ↔
    ∀ i < row.length, row[i]? = some leftOut →
      ∃ a ∈ (row.take i).getLast?, ∃ b ∈ (row.drop (i + 1)).head?, MayOmit a b := by
  constructor
  · intro h i hi hsign
    apply h
    rw [← (List.getElem?_eq_some_iff.1 hsign).2, List.getElem_cons_drop, List.take_append_drop]
  · rintro h before after rfl
    simpa using h before.length (by simp) (by simp)

instance (a b : Piece) : Decidable (MayOmit a b) := inferInstanceAs (Decidable (_ ∧ _ ∧ ¬(_ ∧ _)))

instance (row : List Piece) : Decidable (OmitsWell row) := decidable_of_iff _ omitsWell_iff.symm

/-- No derivative sign with its variable stands in a row. -/
def NoDerivative (row : List Piece) : Prop :=
  ∀ a b c v, [a, b, c, v] <:+: row → a.text = "d" → b.text = "/" → c.text = "d" →
    v.kind ≠ .variable

/-- What is known of symbols that draw a row. -/
structure Drawing (config : Config) (cells : List Cell) (symbols : List Symbol) : Prop where
  /-- No symbol is dropped. -/
  kept : ∀ s ∈ symbols, isKept config s = true
  /-- The symbols are those of the cells. -/
  seen : (symbols.map Piece.detected).Perm (drawn cells)
  /-- They stand from left to right. -/
  ascending : (drawn cells).IsChain fun p q => p.centerX < q.centerX
  /-- Each stands for a token, or is a digit or a point. -/
  words : ∀ p ∈ drawn cells, p.IsWord ∧ p.kind ≠ .bar
  /-- A raised symbol is an exponent at its base. -/
  raised : ∀ c ∈ cells, ∀ m ∈ c.raised, isSuperscript config c.base m.piece = true
  /-- A symbol on the line is no exponent at the symbol on the line before it. -/
  level : cells.IsChain fun c d => isSuperscript config c.base d.base = false
  /-- The letters of no name stand side by side. -/
  letters : ∀ name ∈ spelledNames,
    ¬ (name.toList.map String.singleton <:+: (drawn cells).map (·.text))
  /-- No derivative sign is drawn. -/
  derivatives : NoDerivative (drawn cells)
  /-- Signs are left out only where they may be. -/
  omits : OmitsWell (written cells)

/-! ## Letters -/

theorem map_singleton_of_spells {word : List Char} {row : List Piece} (h : spells word row = true) :
    word.map String.singleton <+: row.map (·.text) := by
  induction word generalizing row with
  | nil => exact List.nil_prefix
  | cons c word ih =>
    cases row with
    | nil => cases h
    | cons p row =>
      rw [spells, Bool.and_eq_true, beq_iff_eq] at h
      have htext : p.text = String.singleton c := by
        rw [← String.toList_inj, h.1, String.toList_singleton]
      rw [List.map_cons, List.map_cons, htext, List.prefix_cons_inj]
      exact ih h.2

/-- **No letters are joined** where those of no name stand side by side. -/
theorem joinNames_eq {row : List Piece} (h : ∀ name ∈ spelledNames,
    ¬ (name.toList.map String.singleton <:+: row.map (·.text))) : joinNames row = row := by
  induction row with
  | nil => rw [joinNames]
  | cons p row ih =>
    have hnone : spelledName? (p :: row) = none := by
      rw [spelledName?, List.find?_eq_none]
      exact fun name hname hspells => h name hname (map_singleton_of_spells hspells).isInfix
    have hrow := ih fun name hname hpart =>
      h name hname (hpart.trans (List.suffix_cons _ _).isInfix)
    rw [joinNames, hnone]
    exact congrArg (p :: ·) hrow

/-! ## Exponents -/

theorem sortByCenter_of_ordered {row : List Piece} (h : Ordered row) : sortByCenter row = row := by
  rw [sortByCenter_eq]
  exact List.Pairwise.insertionSort_eq h

/-- Pieces whose middles ascend stand from left to right, no two at one place. -/
theorem ascending_key {row : List Piece} (h : row.IsChain fun p q => p.centerX < q.centerX) :
    row.Pairwise fun p q => centerKey p < centerKey q := by
  have : IsTrans Piece fun p q => centerKey p < centerKey q := ⟨fun _ _ _ => Int.lt_trans⟩
  exact List.isChain_iff_pairwise.1 (h.imp fun _ _ hlt => Decimal.totalKey_lt hlt)

/-- **Sorting finds the row** whose middles ascend. -/
theorem sortByCenter_of_ascending {pieces row : List Piece} (hperm : pieces.Perm row)
    (h : row.IsChain fun p q => p.centerX < q.centerX) : sortByCenter pieces = row := by
  have hkeys := ascending_key h
  have hsorted := (sortByCenter_perm pieces).trans hperm
  refine hsorted.eq_of_pairwise ?_ (ordered_sortByCenter _) (hkeys.imp Int.le_of_lt)
  intro p q hp hq hle hle'
  have hnodup : (row.map centerKey).Nodup := List.pairwise_map.2 (hkeys.imp Int.ne_of_lt)
  exact List.inj_on_of_nodup_map hnodup (hsorted.mem_iff.1 hp) hq (Int.le_antisymm hle hle')

section

variable {config : Config} {c : Cell} {cells : List Cell}

theorem drawn_cons : drawn (c :: cells) = c.base :: (c.raised.map (·.piece) ++ drawn cells) :=
  List.flatMap_cons

theorem written_cons : written (c :: cells) = c.written ++ written cells := List.flatMap_cons

/-- The run of raised pieces of a row of symbols ends with the raised pieces of its first cell. -/
theorem raised_run (hraised : ∀ m ∈ c.raised, isSuperscript config c.base m.piece = true)
    (hlevel : ∀ d ∈ cells.head?, isSuperscript config c.base d.base = false) :
    (c.raised.map (·.piece) ++ drawn cells).takeWhile (isSuperscript config c.base) =
        c.raised.map (·.piece) ∧
      (c.raised.map (·.piece) ++ drawn cells).dropWhile (isSuperscript config c.base) =
        drawn cells := by
  have hrun : ∀ p ∈ c.raised.map (·.piece), isSuperscript config c.base p = true := by
    intro p hp
    obtain ⟨m, hm, rfl⟩ := List.mem_map.1 hp
    exact hraised m hm
  rw [List.takeWhile_append_of_pos hrun, List.dropWhile_append_of_pos hrun]
  cases cells with
  | nil => simp [drawn]
  | cons d cells =>
    have hd : ¬ isSuperscript config c.base d.base = true := Bool.eq_false_iff.1 (hlevel d rfl)
    rw [drawn_cons, List.takeWhile_cons_of_neg hd, List.dropWhile_cons_of_neg hd, List.append_nil]
    exact ⟨rfl, rfl⟩

theorem filter_signLeftOut {keep : Piece → Bool} (hsign : keep leftOut = false) (omitted : Bool) :
    (signLeftOut omitted).filter keep = [] := by
  cases omitted with
  | false => rfl
  | true => exact List.filter_cons_of_neg (Bool.eq_false_iff.1 hsign)

theorem filter_marks {keep : Piece → Bool} (hsign : keep leftOut = false) {marks : List Mark}
    (h : ∀ m ∈ marks, keep m.piece = true) :
    (marks.flatMap Mark.written).filter keep = marks.map (·.piece) := by
  induction marks with
  | nil => rfl
  | cons m marks ih =>
    have hm := h m List.mem_cons_self
    have hrest := ih fun m' hm' => h m' (List.mem_cons_of_mem _ hm')
    rw [List.flatMap_cons, List.filter_append, hrest, Mark.written, List.filter_cons_of_pos hm,
      filter_signLeftOut hsign]
    rfl

theorem filter_cell (hordered : Ordered (c.raised.map (·.piece)))
    (hseen : ∀ p ∈ c.drawn, isPresent p = true) :
    c.written.filter isPresent = c.base :: exponent (c.raised.map (·.piece)) := by
  have hbase := hseen c.base List.mem_cons_self
  have hmarks : (c.raised.flatMap Mark.written).filter isPresent = c.raised.map (·.piece) :=
    filter_marks rfl fun m hm => hseen _ (List.mem_cons_of_mem _ (List.mem_map_of_mem hm))
  rw [Cell.written, List.filter_cons_of_pos hbase, List.filter_append,
    filter_signLeftOut rfl, List.append_nil, Cell.power, exponent, List.isEmpty_map,
    sortByCenter_of_ordered hordered]
  split
  · rfl
  · rw [List.filter_cons_of_pos (by decide), List.filter_cons_of_pos (by decide),
      List.filter_append, hmarks]
    rfl

/-- **Raised symbols are written as exponents**, and nothing else is. -/
theorem groupExponents_drawn (hordered : Ordered (drawn cells))
    (hseen : ∀ p ∈ drawn cells, isPresent p = true)
    (hraised : ∀ c ∈ cells, ∀ m ∈ c.raised, isSuperscript config c.base m.piece = true)
    (hlevel : cells.IsChain fun c d => isSuperscript config c.base d.base = false) :
    (groupExponents config (drawn cells)).1 = (written cells).filter isPresent := by
  induction cells with
  | nil => simp [drawn, written, groupExponents]
  | cons c cells ih =>
    -- The run at the first base is its raised symbols, and grouping goes on at the next base.
    obtain ⟨hnext, hlevel⟩ := List.isChain_cons.1 hlevel
    obtain ⟨hrun, hrest⟩ := raised_run (hraised c List.mem_cons_self) hnext
    rw [drawn_cons] at hordered hseen ⊢
    obtain ⟨hfirst, hordered, -⟩ := List.pairwise_append.1 (List.pairwise_cons.1 hordered).2
    have hcell : ∀ p ∈ c.drawn, isPresent p = true := by
      intro p hp
      refine hseen p ?_
      rw [← List.cons_append]
      exact List.mem_append_left _ hp
    have hih := ih hordered
      (fun p hp => hseen p (List.mem_cons_of_mem _ (List.mem_append_right _ hp)))
      (fun d hd => hraised d (List.mem_cons_of_mem _ hd)) hlevel
    rw [written_cons, List.filter_append, filter_cell hfirst hcell, ← hih, groupExponents]
    dsimp only
    rw [hrun, hrest, List.cons_append]

end

/-! ## Bars and calls -/

theorem barPairs_eq {row : List Piece} (h : ∀ p ∈ row, p.kind ≠ .bar) (position : Nat)
    (afterValue : Bool) (waiting : List Nat) : barPairs position afterValue waiting row = [] := by
  induction row generalizing position afterValue with
  | nil => rfl
  | cons p row ih =>
    unfold barPairs
    rw [if_neg (h p List.mem_cons_self)]
    exact ih (fun q hq => h q (List.mem_cons_of_mem _ hq)) _ _

theorem writeBars_nil (row : List Piece) (position : Nat) :
    (writeBars [] position row).1 = row := by
  induction row generalizing position with
  | nil => rfl
  | cons p row ih =>
    rw [writeBars]
    dsimp only
    rw [List.any_nil, if_neg Bool.false_ne_true, List.any_nil, if_neg Bool.false_ne_true, ih]

theorem pairBars_eq {row : List Piece} (h : ∀ p ∈ row, p.kind ≠ .bar) : (pairBars row).1 = row := by
  rw [pairBars, barPairs_eq h, writeBars_nil]

theorem derivative?_eq_none {row : List Piece} (h : NoDerivative row) : derivative? row = none := by
  rw [Option.eq_none_iff_forall_ne_some]
  rintro ⟨v, rest⟩ hsign
  obtain ⟨a, b, c, rfl, ha, hb, hc, hv⟩ := derivative?_eq_some.1 hsign
  have hpart : [a, b, c, v] <:+: a :: b :: c :: v :: rest :=
    (List.prefix_append [a, b, c, v] rest).isInfix
  exact h a b c v hpart ha hb hc hv

theorem Piece.IsWord.ne_root {p : Piece} (h : p.IsWord) : p.kind ≠ .root := by
  intro hroot
  unfold Piece.IsWord at h
  rw [hroot] at h
  exact h

/-- A function is called by its own name. -/
theorem Piece.IsWord.callName_eq {p : Piece} (h : p.IsWord) (hp : p.kind = .function) :
    callName p.text = p.text := by
  have hnames : ∀ name ∈ Formula.functionNames, callName name = name := by decide
  unfold Piece.IsWord at h
  rw [hp] at h
  exact hnames _ h

/-- **No call is written** where every function stands before an opening bracket under the name that
it is called by. -/
theorem writeCalls_eq {row : List Piece} (hcalled : Called (fun q => q.kind = .opening) row)
    (hroots : ∀ p ∈ row, p.kind ≠ .root)
    (hnames : ∀ p ∈ row, p.kind = .function → callName p.text = p.text)
    (hderivatives : NoDerivative row) (position : Nat) : writeCalls position row = (row, []) := by
  induction row generalizing position with
  | nil => rw [writeCalls]
  | cons p row ih =>
    have hrow := ih hcalled.2 (fun q hq => hroots q (List.mem_cons_of_mem _ hq))
      (fun q hq => hnames q (List.mem_cons_of_mem _ hq))
      fun a b c v hpart => hderivatives a b c v (hpart.trans (List.suffix_cons p row).isInfix)
    have hnone : derivative? (p :: row) = none := derivative?_eq_none hderivatives
    have hroot : (p.kind == .root) = false := beq_eq_false_iff_ne.2 (hroots p List.mem_cons_self)
    unfold writeCalls
    split
    · rename_i hsome
      rw [hnone] at hsome
      cases hsome
    · by_cases hfunction : p.kind = .function
      · obtain ⟨q, hq, hopen⟩ := hcalled.1 hfunction
        have hstarts : startsOpen row = true := by
          obtain ⟨rest, rfl⟩ := List.head?_eq_some_iff.1 hq
          exact beq_iff_eq.2 hopen
        have hhead : (⟨callName p.text, .function, p.box⟩ : Piece) = p := by
          rw [hnames p List.mem_cons_self hfunction, ← hfunction]
        simp only [isCallable, hfunction, beq_self_eq_true, Bool.or_true, hstarts, Bool.and_self,
          if_true, hhead, hrow]
      · have hplain : isCallable p = false := by
          rw [isCallable, hroot, Bool.false_or, beq_eq_false_iff_ne]
          exact hfunction
        simp only [hplain, Bool.false_eq_true, if_false, hrow]

/-! ## Multiplication signs -/

theorem OmitsWell.of_append (row : List Piece) {p : Piece} {rest : List Piece}
    (h : OmitsWell (row ++ p :: rest)) (hp : isPresent p = true) : OmitsWell (p :: rest) := by
  intro before after hsplit
  obtain ⟨a, ha, hb⟩ := h (row ++ before) after (by rw [hsplit, List.append_assoc])
  cases before with
  | nil =>
    obtain ⟨rfl, -⟩ := List.cons.inj hsplit
    cases hp
  | cons q before => exact ⟨a, by rwa [List.getLast?_append_cons] at ha, hb⟩

theorem OmitsWell.isPresent_head {p : Piece} {row : List Piece} (h : OmitsWell (p :: row)) :
    isPresent p = true := by
  refine bne_iff_ne.2 ?_
  rintro rfl
  obtain ⟨a, ha, -⟩ := h [] row rfl
  cases ha

theorem OmitsWell.around {a : Piece} {row : List Piece} (h : OmitsWell (a :: leftOut :: row)) :
    ∃ b rest, row = b :: rest ∧ MayOmit a b := by
  obtain ⟨a', ha, b, hb, hmay⟩ := h [a] row rfl
  cases ha
  obtain ⟨rest, rfl⟩ := List.head?_eq_some_iff.1 hb
  exact ⟨b, rest, rfl, hmay⟩

theorem MayOmit.isPresent {a b : Piece} (h : MayOmit a b) : isPresent b = true := by
  refine bne_iff_ne.2 ?_
  rintro rfl
  cases h.2.1

/-- **The signs that were left out are put back.** -/
theorem insertMultiplication_eq (config : Config) : ∀ {row : List Piece}, row.IsChain Apart →
    OmitsWell row → (insertMultiplication config (row.filter isPresent)).1 = row
  | [], _, _ => rfl
  | [a], _, homits => by
    rw [List.filter_cons_of_pos homits.isPresent_head]
    rfl
  -- The recursion goes on behind `a`, or behind the sign that is left out after `a`.
  | a :: b :: row, hapart, homits => by
    have ha := homits.isPresent_head
    by_cases hb : isPresent b = true
    · have hrow := insertMultiplication_eq config (List.isChain_cons.1 hapart).2
        (OmitsWell.of_append [a] homits hb)
      rw [List.filter_cons_of_pos hb] at hrow
      rw [List.filter_cons_of_pos ha, List.filter_cons_of_pos hb, insertMultiplication]
      dsimp only
      rw [hrow]
      rcases (List.isChain_cons.1 hapart).1 b rfl with hboth | hvalues
      · rw [if_pos hboth]
      · rw [hvalues]
        split <;> rfl
    · obtain rfl : b = leftOut := by simpa [isPresent] using hb
      obtain ⟨c, rest, rfl, hmay⟩ := homits.around
      have hc := hmay.isPresent
      have hrow := insertMultiplication_eq config
        (List.isChain_cons.1 (List.isChain_cons.1 hapart).2).2
        (OmitsWell.of_append [a, leftOut] homits hc)
      rw [List.filter_cons_of_pos hc] at hrow
      rw [List.filter_cons_of_pos ha, List.filter_cons_of_neg hb, List.filter_cons_of_pos hc,
        insertMultiplication]
      dsimp only
      rw [hrow, if_neg hmay.2.2, hmay.1, hmay.2.1]
      rfl

/-! ## Reading a drawing -/

/-- What holds of the symbols and of the signs that are written besides holds of the row. -/
theorem forall_written {holds : Piece → Prop} {cells : List Cell}
    (h : ∀ p ∈ drawn cells, holds p) (hsign : holds leftOut)
    (hpower : holds (Piece.added "^" .operator)) (hopen : holds Piece.openParen)
    (hclose : holds Piece.closeParen) : ∀ p ∈ written cells, holds p := by
  have hsigns : ∀ omitted, ∀ p ∈ signLeftOut omitted, holds p := by
    rintro (_ | _) p hp
    · cases hp
    · rw [List.mem_singleton.1 hp]
      exact hsign
  intro p hp
  obtain ⟨c, hc, hp⟩ := List.mem_flatMap.1 hp
  have hcell : ∀ q ∈ c.drawn, holds q := fun q hq => h q (List.mem_flatMap.2 ⟨c, hc, hq⟩)
  rcases List.mem_cons.1 hp with rfl | hp
  · exact hcell _ List.mem_cons_self
  · rcases List.mem_append.1 hp with hp | hp
    · unfold Cell.power at hp
      split at hp
      · cases hp
      · simp only [List.mem_cons, List.mem_append, List.not_mem_nil, or_false] at hp
        rcases hp with rfl | rfl | hp | rfl
        · exact hpower
        · exact hopen
        · obtain ⟨m, hm, hp⟩ := List.mem_flatMap.1 hp
          rcases List.mem_cons.1 hp with rfl | hp
          · exact hcell _ (List.mem_cons_of_mem _ (List.mem_map_of_mem hm))
          · exact hsigns _ p hp
        · exact hclose
    · exact hsigns _ p hp

theorem Called.filter {sort : Piece → Prop} {keep : Piece → Bool} {row : List Piece}
    (h : Called sort row) (hkeep : ∀ p, sort p → keep p = true) :
    Called sort (row.filter keep) := by
  induction row with
  | nil => trivial
  | cons p row ih =>
    by_cases hp : keep p = true
    · rw [List.filter_cons_of_pos hp]
      refine ⟨fun hfunction => ?_, ih h.2⟩
      obtain ⟨q, hq, hsort⟩ := h.1 hfunction
      obtain ⟨rest, rfl⟩ := List.head?_eq_some_iff.1 hq
      exact ⟨q, by rw [List.filter_cons_of_pos (hkeep q hsort)]; rfl, hsort⟩
    · rw [List.filter_cons_of_neg hp]
      exact ih h.2

theorem brackets_present (row : List Piece) : brackets (row.filter isPresent) = brackets row := by
  induction row with
  | nil => rfl
  | cons p row ih =>
    unfold brackets at ih ⊢
    by_cases hp : isPresent p = true
    · rw [List.filter_cons_of_pos hp, List.filterMap_cons, List.filterMap_cons, ih]
    · obtain rfl : p = leftOut := by simpa [isPresent] using hp
      rw [List.filter_cons_of_neg hp, ih]
      rfl

theorem isPresent_of_wasSeen {p : Piece} (hp : wasSeen p = true) : isPresent p = true := by
  refine bne_iff_ne.2 ?_
  rintro rfl
  cases hp

theorem filter_present (row : List Piece) :
    (row.filter isPresent).filter wasSeen = row.filter wasSeen := by
  rw [List.filter_filter]
  refine List.filter_congr fun p _ => ?_
  cases hp : wasSeen p with
  | false => rfl
  | true => rw [isPresent_of_wasSeen hp, Bool.and_self]

/-- What is seen of a row are the symbols of its cells. -/
theorem filter_wasSeen {cells : List Cell} (h : ∀ p ∈ drawn cells, wasSeen p = true) :
    (written cells).filter wasSeen = drawn cells := by
  induction cells with
  | nil => rfl
  | cons c cells ih =>
    rw [drawn_cons] at h ⊢
    have hrest := ih fun p hp => h p (List.mem_cons_of_mem _ (List.mem_append_right _ hp))
    have hmarks : (c.raised.flatMap Mark.written).filter wasSeen = c.raised.map (·.piece) :=
      filter_marks rfl fun m hm => h _ (List.mem_cons_of_mem _
        (List.mem_append_left _ (List.mem_map_of_mem hm)))
    have hpower : c.power.filter wasSeen = c.raised.map (·.piece) := by
      unfold Cell.power
      split
      · rename_i hempty
        rw [List.isEmpty_iff.1 hempty]
        rfl
      · rw [List.filter_cons_of_neg (by decide), List.filter_cons_of_neg (by decide),
          List.filter_append, hmarks]
        exact List.append_nil _
    rw [written_cons, List.filter_append, hrest, Cell.written,
      List.filter_cons_of_pos (h _ List.mem_cons_self), List.filter_append,
      filter_signLeftOut rfl, hpower, List.append_nil, List.cons_append]

section

variable {config : Config} {cells : List Cell} {symbols : List Symbol}
  (h : Drawing config cells symbols)

include h

theorem Drawing.exists_symbol {p : Piece} (hp : p ∈ drawn cells) : ∃ s, p = Piece.detected s := by
  obtain ⟨s, -, rfl⟩ := List.mem_map.1 (h.seen.mem_iff.2 hp)
  exact ⟨s, rfl⟩

theorem Drawing.wasSeen_of_mem {p : Piece} (hp : p ∈ drawn cells) : wasSeen p = true := by
  obtain ⟨s, rfl⟩ := h.exists_symbol hp
  rfl

theorem Drawing.ordered : Ordered (drawn cells) :=
  (ascending_key h.ascending).imp Int.le_of_lt

/-- **Sorting finds the row.** -/
theorem Drawing.sorted : sortByCenter (symbols.map Piece.detected) = drawn cells :=
  sortByCenter_of_ascending h.seen h.ascending

theorem Drawing.piecesOf_eq : piecesOf symbols = drawn cells := by
  rw [piecesOf, h.sorted]
  exact joinNames_eq h.letters

theorem Drawing.words_written : ∀ p ∈ written cells, p.IsWord ∧ p.kind ≠ .bar := by
  refine forall_written h.words ?_ ?_ ?_ ?_
  all_goals exact ⟨by decide, nofun⟩

/-- The written signs make up no derivative sign. -/
theorem Drawing.noDerivative : NoDerivative ((written cells).filter isPresent) := by
  intro a b c v hpart ha hb hc hv
  have hseen : ∀ p ∈ written cells,
      p.text = "d" ∨ p.text = "/" ∨ p.kind = .variable → wasSeen p = true := by
    refine forall_written (fun p hp _ => h.wasSeen_of_mem hp) ?_ ?_ ?_ ?_
    all_goals decide
  have hmem : ∀ p ∈ [a, b, c, v], wasSeen p = true := by
    intro p hp
    refine hseen p (List.mem_of_mem_filter (hpart.subset hp)) ?_
    simp only [List.mem_cons, List.not_mem_nil, or_false] at hp
    rcases hp with rfl | rfl | rfl | rfl
    · exact Or.inl ha
    · exact Or.inr (Or.inl hb)
    · exact Or.inl hc
    · exact Or.inr (Or.inr hv)
  -- A written sign has no box: the four pieces stand side by side among the symbols, too.
  have hdrawn := hpart.filter wasSeen
  rw [List.filter_eq_self.2 hmem, filter_present,
    filter_wasSeen fun p => h.wasSeen_of_mem] at hdrawn
  exact h.derivatives a b c v hdrawn ha hb hc hv

/-- **The finished row of a drawing** is the row that it stands for, where that is a phrase. -/
theorem Drawing.assemble_eq {ts : List Token} {t : Expr} (hreads : Reads (written cells) ts)
    (hderives : Derives .sum ts t) : (assemble config symbols).1 = written cells := by
  have hwords := h.words_written
  have hagrees := agrees_of_words hwords
  have hpresent : ∀ p ∈ (written cells).filter isPresent, p.IsWord ∧ p.kind ≠ .bar :=
    fun p hp => hwords p (List.mem_of_mem_filter hp)
  have hraised : (groupExponents config (piecesOf symbols)).1 =
      (written cells).filter isPresent := by
    rw [h.piecesOf_eq]
    exact groupExponents_drawn h.ordered (fun p hp => isPresent_of_wasSeen (h.wasSeen_of_mem hp))
      h.raised h.level
  have hpaired : (pairBars ((written cells).filter isPresent)).1 =
      (written cells).filter isPresent := pairBars_eq fun p hp => (hpresent p hp).2
  have hcalls : (writeCalls 0 ((written cells).filter isPresent)).1 =
      (written cells).filter isPresent := by
    rw [writeCalls_eq]
    · refine (hreads.calledBefore hagrees hderives.called).filter fun p hp => bne_iff_ne.2 ?_
      rintro rfl
      cases hp
    · exact fun p hp => (hpresent p hp).1.ne_root
    · exact fun p hp => (hpresent p hp).1.callName_eq
    · exact h.noDerivative
  have hclimbs : Climbs 0 0 ((written cells).filter isPresent) := by
    rw [Climbs, brackets_present]
    exact hreads.climbs hagrees hderives
  have hassemble : (assemble config symbols).1 = (insertMultiplication config
      (repairBrackets config.maxRepairPasses (writeCalls 0 (pairBars
        (groupExponents config (piecesOf symbols)).1).1).1).1).1 := rfl
  rw [hassemble, hraised, hpaired, hcalls, repairBrackets_of_climbs _ hclimbs]
  exact insertMultiplication_eq config (hreads.apart hagrees hderives.valuesApart) h.omits

end

/-- **Reading a line is the inverse of drawing it.** -/
theorem linearize_drawing {config : Config} {cells : List Cell} {symbols : List Symbol}
    {ts : List Token} {t : Expr} (hdrawing : Drawing config cells symbols)
    (hreads : Reads (written cells) ts) (hderives : Derives .sum ts t) :
    (linearize config symbols).text = lineText (written cells) ∧
      (t.height ≤ maxHeight → Formula.parse (linearize config symbols).text = .ok t) ∧
        (maxHeight < t.height → ∃ offset,
          Formula.parse (linearize config symbols).text = .error (.tooDeep offset maxHeight)) := by
  have htext : (linearize config symbols).text = lineText (written cells) := by
    rw [text_linearize, List.filter_eq_self.2 hdrawing.kept, hdrawing.assemble_eq hreads hderives]
  have hfinished := hreads.finished hdrawing.words_written hderives
  obtain ⟨ls, htokens, rfl⟩ := (hreads.spells hfinished).tokenize
  have hparse : Formula.parse (linearize config symbols).text = Formula.parseTokens ls := by
    rw [htext, lineText_eq, Formula.parse, htokens]
  rw [hparse]
  exact ⟨htext, Formula.parseTokens_of_derives hderives⟩

/-- The symbols `1 0 sin [ x ] 3 y` with `3` and `y` raised at the bracket, in some order. -/
def sketch : List Symbol :=
  [symbolAt "y" 61.0 0.0 65.0 12.0, symbolAt "[" 36.0 0.0 40.0 40.0,
    symbolAt "x" 42.0 10.0 48.0 40.0, symbolAt "1" 0.0 0.0 4.0 40.0,
    symbolAt "0" 6.0 0.0 14.0 40.0, symbolAt "]" 50.0 0.0 56.0 40.0,
    symbolAt "sin" 16.0 0.0 34.0 40.0, symbolAt "3" 57.0 0.0 60.0 12.0]

/-- The sentence `10*sin(x)^(3*y)`, its multiplication signs left out. -/
def sketchCells : List Cell :=
  [⟨⟨"1", .number, some ⟨0.0, 0.0, 4.0, 40.0⟩⟩, [], false⟩,
    ⟨⟨"0", .number, some ⟨6.0, 0.0, 14.0, 40.0⟩⟩, [], true⟩,
    ⟨⟨"sin", .function, some ⟨16.0, 0.0, 34.0, 40.0⟩⟩, [], false⟩,
    ⟨⟨"(", .opening, some ⟨36.0, 0.0, 40.0, 40.0⟩⟩, [], false⟩,
    ⟨⟨"x", .variable, some ⟨42.0, 10.0, 48.0, 40.0⟩⟩, [], false⟩,
    ⟨⟨")", .closing, some ⟨50.0, 0.0, 56.0, 40.0⟩⟩,
      [⟨⟨"3", .number, some ⟨57.0, 0.0, 60.0, 12.0⟩⟩, true⟩,
        ⟨⟨"y", .variable, some ⟨61.0, 0.0, 65.0, 12.0⟩⟩, false⟩], false⟩]

theorem drawing_sketch : Drawing {} sketchCells sketch where
  kept := by decide +kernel
  seen := by decide +kernel
  ascending := by decide +kernel
  words := by decide +kernel
  raised := by decide +kernel
  level := by decide +kernel
  letters := by decide +kernel
  derivatives a b c v hpart _ hb := by
    have hslash : ∀ p ∈ drawn sketchCells, p.text ≠ "/" := by decide +kernel
    exact absurd hb (hslash b (hpart.subset (by simp)))
  omits := by decide +kernel

def sketchTokens : List Token :=
  [.number 10, .operator .mul, .function "sin", .openParen, .name "x", .closeParen,
    .operator .pow, .openParen, .number 3, .operator .mul, .name "y", .closeParen]

theorem reads_sketch : Reads (written sketchCells) sketchTokens := by
  have htokens : sketchTokens = [.number (literalValue ['1', '0']), .operator .mul,
      .function "sin", .openParen, .name "x", .closeParen, .operator .pow, .openParen,
      .number (literalValue ['3']), .operator .mul, .name "y", .closeParen] := by decide +kernel
  rw [htokens]
  refine @Reads.number [_, _] _ _ (by decide) (by decide) (by decide +kernel) (by decide) ?_
  iterate 7 refine .piece (by decide) ?_
  refine @Reads.number [_] _ _ (by decide) (by decide) (by decide +kernel) (by decide) ?_
  iterate 3 refine .piece (by decide) ?_
  exact .nil

def sketchTree : Expr :=
  .product [.number 10, .power (.call "sin" [.variable "x"]) (.product [.number 3, .variable "y"])]

theorem derives_sketch : Derives .sum sketchTokens sketchTree := by
  have hcall : Derives .unary [.function "sin", .openParen, .name "x", .closeParen]
      (.call "sin" [.variable "x"]) :=
    .plain (.call (by decide) ((Derives.name "x").loosen (by decide)))
  have hraised : Derives .power [.openParen, .number 3, .operator .mul, .name "y", .closeParen]
      (.product [.number 3, .variable "y"]) :=
    (Derives.group (.term (.binary .mul ((Derives.number 3).loosen (by decide))
      ((Derives.name "y").loosen (by decide))))).loosen (by decide)
  exact .term (.binary .mul ((Derives.number 10).loosen (by decide)) (.binary .pow hcall hraised))

theorem linearize_drawing_sketch :
    Drawing {} sketchCells sketch ∧ (linearize {} sketch).text = "10*sin(x)^(3*y)" ∧
      Formula.parse (linearize {} sketch).text = .ok sketchTree := by
  obtain ⟨htext, hparse, -⟩ := linearize_drawing drawing_sketch reads_sketch derives_sketch
  exact ⟨drawing_sketch, htext.trans (by decide +kernel), hparse (by decide)⟩

/-- The symbols `x y 2`, each raised at the ones before it. -/
def staircase : List Symbol :=
  [symbolAt "x" 0.0 20.0 20.0 40.0, symbolAt "y" 21.0 14.0 31.0 26.0,
    symbolAt "2" 32.0 8.0 38.0 15.0]

/-- An exponent that is raised within an exponent is lost: the row above a base is one exponent. -/
theorem linearize_misses_staircase :
    ((∀ s ∈ staircase, isKept {} s = true) ∧
      (staircase.map Piece.detected).IsChain (fun p q => p.centerX < q.centerX) ∧
      (staircase.map Piece.detected).Pairwise (fun p q => isSuperscript {} p q = true) ∧
      ∀ name ∈ spelledNames,
        ¬ (name.toList.map String.singleton <:+: (staircase.map Piece.detected).map (·.text))) ∧
    Formula.parse "x^(y^(2))" =
      .ok (.power (.variable "x") (.power (.variable "y") (.number 2))) ∧
    (linearize {} staircase).text = "x^(y*2)" ∧
    Formula.parse (linearize {} staircase).text ≠ Formula.parse "x^(y^(2))" := by
  decide +kernel

end GlyphMath.Line
