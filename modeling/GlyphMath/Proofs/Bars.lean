import GlyphMath.Proofs.Arrangement
import GlyphMath.Proofs.Balance
import GlyphMath.Proofs.Drawing

/-!
# Absolute values that are drawn with bars

* `Piece.IsCapital` -- a capital letter, which the line takes for no value.
* `Bars` -- a row of symbols, and the row with the calls for which its bars stand.
* `Placed` -- every bar stands where it is taken for what it is.
* `BarDrawing` -- what is known of the symbols of such a row.

Principal results:

* `Bars.placed` -- in a phrase the bars are placed: an operand does not end before it starts.
* `Placed.pairBars` -- bars that are placed are paired as they were drawn.
* `linearize_bars` -- reading a line with bars is the inverse of drawing it.
-/

set_option autoImplicit false

namespace GlyphMath.Line

open Layout (Symbol)
open Formula (Token Derives isLetter bracketStep?)

/-! ## Capital letters -/

/-- Whether a text is a single capital ASCII letter. -/
def isUpperCase (text : List Char) : Bool :=
  match text with
  | [c] => 'A' ≤ c && c ≤ 'Z'
  | _ => false

/-- A capital letter is a name to the parser, and of no kind on the line. -/
def Piece.IsCapital (p : Piece) : Prop := p.kind = .other ∧ isUpperCase p.text.toList = true

instance (p : Piece) : Decidable p.IsCapital := inferInstanceAs (Decidable (_ ∧ _))

theorem Piece.IsCapital.letter {p : Piece} (h : p.IsCapital) :
    ∃ c, p.text.toList = [c] ∧ isLetter c = true := by
  have hupper := h.2
  unfold isUpperCase at hupper
  split at hupper
  · rename_i c hc
    exact ⟨c, hc, by rw [isLetter, hupper, Bool.or_true]⟩
  · cases hupper

theorem Piece.IsCapital.agrees {p : Piece} (h : p.IsCapital) : p.Agrees := by
  obtain ⟨c, hc, hletter⟩ := h.letter
  have htoken : p.token = .name p.text := signToken_single hc hletter
  refine ⟨?_, fun hends => ?_, fun _ => Or.inr h.1, fun hstarts => ?_, fun hfunction => ?_⟩
  · rw [htoken, Piece.step?, h.1]
    rfl
  · rw [h.1] at hends
    cases hends
  · rw [h.1] at hstarts
    cases hstarts
  · rw [h.1] at hfunction
    cases hfunction

/-! ## Calls that are drawn with bars -/

/-- `Bars drawn written`: some calls of the absolute value in the row `written` are drawn in the row
`drawn` with two bars around their operands.  Such an operand does not end with a capital letter. -/
inductive Bars : List Piece → List Piece → Prop where
  | nil : Bars [] []
  | piece {p : Piece} {drawn written : List Piece} (hp : p.kind ≠ .bar) :
      Bars drawn written → Bars (p :: drawn) (p :: written)
  | pair {first last : Piece} {inner inner' rest rest' : List Piece} (hfirst : first.kind = .bar)
      (hlast : last.kind = .bar) (hinner : ∀ p ∈ inner'.getLast?, p.kind ≠ .other) :
      Bars inner inner' → Bars rest rest' →
      Bars (first :: (inner ++ last :: rest))
        (⟨"abs", .function, first.box⟩ :: Piece.openParen :: (inner' ++ Piece.closeParen :: rest'))

/-- Whether a value ends right before a place: at the end of a row, if one ended in front of it or
not. -/
def endsAfter (ends : Bool) : List Piece → Bool
  | [] => ends
  | p :: row => endsAfter p.kind.endsValue row

theorem endsAfter_append (ends : Bool) (row rest : List Piece) :
    endsAfter ends (row ++ rest) = endsAfter (endsAfter ends row) rest := by
  induction row generalizing ends with
  | nil => rfl
  | cons p row ih => exact ih p.kind.endsValue

/-- `Placed before drawn written after`: in the row `drawn` every first bar of a pair stands where
no value has just ended, and every second one where a value has.  A value ends right in front of the
row if `before` holds, and at its end if `after` does. -/
inductive Placed : Bool → List Piece → List Piece → Bool → Prop where
  | nil (ends : Bool) : Placed ends [] [] ends
  | piece {before after : Bool} {p : Piece} {drawn written : List Piece} (hp : p.kind ≠ .bar) :
      Placed p.kind.endsValue drawn written after → Placed before (p :: drawn) (p :: written) after
  | pair {after : Bool} {first last : Piece} {inner inner' rest rest' : List Piece}
      (hfirst : first.kind = .bar) (hlast : last.kind = .bar) :
      Placed false inner inner' true → Placed true rest rest' after →
      Placed false (first :: (inner ++ last :: rest))
        (⟨"abs", .function, first.box⟩ :: Piece.openParen :: (inner' ++ Piece.closeParen :: rest'))
        after

namespace Bars

variable {drawn written : List Piece} (h : Bars drawn written)

include h

theorem forall_written {holds : Piece → Prop}
    (hpieces : ∀ p ∈ drawn, p.kind ≠ .bar → holds p)
    (habs : ∀ box, holds ⟨"abs", .function, box⟩) (hopen : holds Piece.openParen)
    (hclose : holds Piece.closeParen) : ∀ p ∈ written, holds p := by
  induction h with
  | nil => exact nofun
  | @piece p drawn written hp _ ih =>
    rw [List.forall_mem_cons]
    exact ⟨hpieces p List.mem_cons_self hp, ih fun q hq => hpieces q (List.mem_cons_of_mem p hq)⟩
  | @pair first last inner inner' rest rest' _ _ _ _ _ ih ih' =>
    have hinside := ih fun q hq => hpieces q (by simp [hq])
    have hafter := ih' fun q hq => hpieces q (by simp [hq])
    simp only [List.mem_cons, List.mem_append]
    rintro p (rfl | rfl | hp | rfl | hp)
    · exact habs _
    · exact hopen
    · exact hinside p hp
    · exact hclose
    · exact hafter p hp

/-- Symbols side by side that are no bars are side by side in the row that is written, too. -/
theorem apart (hapart : written.IsChain Apart) :
    drawn.IsChain fun a b => a.kind = .bar ∨ b.kind = .bar ∨ Apart a b := by
  induction h with
  | nil => exact .nil
  | @piece p drawn written hp hrest ih =>
    rw [List.isChain_cons] at hapart
    refine List.isChain_cons.2 ⟨fun q hq => Or.inr ?_, ih hapart.2⟩
    cases hrest with
    | nil => cases hq
    | piece =>
      cases hq
      exact Or.inr (hapart.1 _ rfl)
    | pair hfirst =>
      cases hq
      exact Or.inl hfirst
  | pair hfirst hlast _ _ _ ih ih' =>
    have hinside := hapart.tail.tail
    refine List.isChain_cons.2 ⟨fun _ _ => Or.inl hfirst, List.isChain_append.2 ⟨?_, ?_, ?_⟩⟩
    · exact ih hinside.left_of_append
    · exact List.isChain_cons.2 ⟨fun _ _ => Or.inl hlast, ih' hinside.right_of_append.tail⟩
    · intro a _ b hb
      cases hb
      exact Or.inr (Or.inl hlast)

/-- **The bars of a phrase are placed**: a call does not start where a value has just ended, and an
operand is a value. -/
theorem placed (hapart : written.IsChain Apart)
    (hcloses : written.IsChain fun a b =>
      b.kind = .closing → a.kind.endsValue = true ∨ a.kind = .other)
    {before : Bool} (hbefore : before = true → ∀ q ∈ written.head?, q.kind ≠ .function) :
    Placed before drawn written (endsAfter before written) := by
  -- After a piece that ends a value no call starts.
  have hnext {p : Piece} {row : List Piece} (hrow : (p :: row).IsChain Apart)
      (hends : p.kind.endsValue = true) : ∀ q ∈ row.head?, q.kind ≠ .function := by
    intro q hq hfunction
    rcases (List.isChain_cons.1 hrow).1 q hq with hnumbers | hvalues
    · rw [hnumbers.2] at hfunction
      cases hfunction
    · rw [hends, hfunction] at hvalues
      cases hvalues
  induction h generalizing before with
  | nil => exact .nil before
  | @piece p drawn written hp _ ih => exact .piece hp (ih hapart.tail hcloses.tail (hnext hapart))
  | @pair first last inner inner' rest rest' hfirst hlast hinner _ _ ih ih' =>
    obtain rfl : before = false := by
      cases before with
      | false => rfl
      | true => exact absurd rfl (hbefore rfl _ rfl)
    have hinside := hapart.tail.tail
    have hinsideCloses := hcloses.tail.tail
    have hoperand : endsAfter false inner' = true := by
      rcases List.eq_nil_or_concat inner' with rfl | ⟨init, p, rfl⟩
      · rcases (List.isChain_cons.1 hcloses.tail).1 _ rfl rfl with hends | hother
        · cases hends
        · cases hother
      · rw [List.concat_eq_append] at hinner hinsideCloses ⊢
        have hp : p ∈ (init ++ [p]).getLast? := by rw [List.getLast?_concat]; rfl
        rw [endsAfter_append]
        rcases (List.isChain_append.1 hinsideCloses).2.2 p hp _ rfl rfl with hends | hother
        · exact hends
        · exact absurd hother (hinner p hp)
    have hout : endsAfter false
        (⟨"abs", .function, first.box⟩ :: Piece.openParen ::
          (inner' ++ Piece.closeParen :: rest')) = endsAfter true rest' := by
      rw [endsAfter, endsAfter, endsAfter_append, endsAfter]
      rfl
    rw [hout]
    refine .pair hfirst hlast ?_ ?_
    · rw [← hoperand]
      exact ih hinside.left_of_append hinsideCloses.left_of_append nofun
    · exact ih' hinside.right_of_append.tail hinsideCloses.right_of_append.tail
        fun _ => hnext hinside.right_of_append rfl

end Bars

/-! ## Pairs of bars -/

section

variable {pairs : List (Nat × Nat)} {position : Nat} {p : Piece}

theorem barPairs_plain (hp : p.kind ≠ .bar) (before : Bool) (waiting : List Nat)
    (rest : List Piece) : barPairs position before waiting (p :: rest) =
      barPairs (position + 1) p.kind.endsValue waiting rest := by
  rw [barPairs.eq_def]
  exact if_neg hp

theorem barPairs_first (hp : p.kind = .bar) (waiting : List Nat) (rest : List Piece) :
    barPairs position false waiting (p :: rest) =
      barPairs (position + 1) false (position :: waiting) rest := by
  rw [barPairs.eq_def]
  exact if_pos hp

theorem barPairs_second (hp : p.kind = .bar) (first : Nat) (waiting : List Nat)
    (rest : List Piece) : barPairs position true (first :: waiting) (p :: rest) =
      (first, position) :: barPairs (position + 1) true waiting rest := by
  rw [barPairs.eq_def]
  exact if_pos hp

theorem writeBars_first (h : pairs.any (·.1 == position) = true) (rest : List Piece) :
    writeBars pairs position (p :: rest) =
      (⟨"abs", .function, p.box⟩ :: Piece.openParen :: (writeBars pairs (position + 1) rest).1,
        (writeBars pairs (position + 1) rest).2) := by
  rw [writeBars]
  exact if_pos h

theorem writeBars_second (h : pairs.any (·.1 == position) = false)
    (h' : pairs.any (·.2 == position) = true) (rest : List Piece) :
    writeBars pairs position (p :: rest) =
      (Piece.closeParen :: (writeBars pairs (position + 1) rest).1,
        (writeBars pairs (position + 1) rest).2) := by
  rw [writeBars]
  exact (if_neg (Bool.eq_false_iff.1 h)).trans (if_pos h')

theorem writeBars_plain (h : pairs.any (·.1 == position) = false)
    (h' : pairs.any (·.2 == position) = false) (hp : p.kind ≠ .bar) (rest : List Piece) :
    writeBars pairs position (p :: rest) =
      (p :: (writeBars pairs (position + 1) rest).1, (writeBars pairs (position + 1) rest).2) := by
  rw [writeBars]
  refine (if_neg (Bool.eq_false_iff.1 h)).trans ((if_neg (Bool.eq_false_iff.1 h')).trans ?_)
  rw [if_neg hp]

end

/-- Between two positions some pairs begin and end where the pairs of a part do. -/
def Within (pairs part : List (Nat × Nat)) (low high : Nat) : Prop :=
  ∀ i, low ≤ i → i < high →
    pairs.any (·.1 == i) = part.any (·.1 == i) ∧ pairs.any (·.2 == i) = part.any (·.2 == i)

/-- What is known of the pairs of a part of a row that starts at a position: they are found whatever
bars wait and whatever follows, stand in the part, and are written as calls. -/
structure Segment (position : Nat) (before : Bool) (drawn written : List Piece) (after : Bool)
    (part : List (Nat × Nat)) : Prop where
  found : ∀ waiting rest, barPairs position before waiting (drawn ++ rest) =
    part ++ barPairs (position + drawn.length) after waiting rest
  inside : ∀ pair ∈ part, position ≤ pair.1 ∧ pair.1 < pair.2 ∧
    pair.2 < position + drawn.length
  replaced : ∀ pairs rest, Within pairs part position (position + drawn.length) →
    writeBars pairs position (drawn ++ rest) =
      (written ++ (writeBars pairs (position + drawn.length) rest).1,
        (writeBars pairs (position + drawn.length) rest).2)

namespace Segment

variable {position : Nat} {before after : Bool} {drawn written : List Piece}
  {part : List (Nat × Nat)}

/-- No pair of a part begins or ends outside of it. -/
theorem any_eq_false (h : Segment position before drawn written after part) {i : Nat}
    (hi : i < position ∨ position + drawn.length ≤ i) :
    part.any (·.1 == i) = false ∧ part.any (·.2 == i) = false := by
  simp only [List.any_eq_false, beq_iff_eq]
  constructor
  · intro pair hpair heq
    have := h.inside pair hpair
    omega
  · intro pair hpair heq
    have := h.inside pair hpair
    omega

theorem nil (position : Nat) (ends : Bool) : Segment position ends [] [] ends [] :=
  ⟨fun _ _ => rfl, nofun, fun _ _ _ => rfl⟩

/-- **Step lemma.** A piece that is no bar in front of a part. -/
theorem piece {p : Piece} (hp : p.kind ≠ .bar)
    (h : Segment (position + 1) p.kind.endsValue drawn written after part) :
    Segment position before (p :: drawn) (p :: written) after part := by
  have hlength : position + (p :: drawn).length = position + 1 + drawn.length := by
    rw [List.length_cons]
    omega
  refine ⟨fun waiting rest => ?_, fun pair hpair => ?_, fun pairs rest hwithin => ?_⟩
  · rw [List.cons_append, barPairs_plain hp, hlength]
    exact h.found waiting rest
  · have := h.inside pair hpair
    omega
  · rw [hlength] at hwithin ⊢
    have hposition := hwithin position (Nat.le_refl _) (by omega)
    have hnone := h.any_eq_false (Or.inl (Nat.lt_succ_self position))
    rw [List.cons_append, writeBars_plain (hposition.1.trans hnone.1)
      (hposition.2.trans hnone.2) hp,
      h.replaced pairs rest fun i hlow hhigh => hwithin i (by omega) hhigh]
    rfl

/-- **Step lemma.** A pair of bars around a part, and a part behind it. -/
theorem pair {first last : Piece} {inner inner' rest rest' : List Piece}
    {inside behind : List (Nat × Nat)} (hfirst : first.kind = .bar) (hlast : last.kind = .bar)
    (h : Segment (position + 1) false inner inner' true inside)
    (h' : Segment (position + 1 + inner.length + 1) true rest rest' after behind) :
    Segment position false (first :: (inner ++ last :: rest))
      (⟨"abs", .function, first.box⟩ :: Piece.openParen :: (inner' ++ Piece.closeParen :: rest'))
      after (inside ++ (position, position + 1 + inner.length) :: behind) := by
  have hlength : position + (first :: (inner ++ last :: rest)).length =
      position + 1 + inner.length + 1 + rest.length := by
    simp only [List.length_cons, List.length_append]
    omega
  refine ⟨fun waiting tail => ?_, fun pair hpair => ?_, fun pairs tail hwithin => ?_⟩
  · rw [hlength, List.cons_append, List.append_assoc, barPairs_first hfirst, h.found,
      List.cons_append, barPairs_second hlast, h'.found, List.append_assoc, List.cons_append]
  · rw [hlength]
    rcases List.mem_append.1 hpair with hpair | hpair
    · have := h.inside pair hpair
      omega
    · rcases List.mem_cons.1 hpair with rfl | hpair
      · dsimp only
        omega
      · have := h'.inside pair hpair
        omega
  · rw [hlength] at hwithin ⊢
    -- Where the pairs begin and end: at the two bars, inside of them, and behind.
    have hat (i : Nat) (hlow : position ≤ i)
        (hhigh : i < position + 1 + inner.length + 1 + rest.length) :
        pairs.any (·.1 == i) =
            (inside.any (·.1 == i) || (position == i || behind.any (·.1 == i))) ∧
          pairs.any (·.2 == i) = (inside.any (·.2 == i) ||
            (position + 1 + inner.length == i || behind.any (·.2 == i))) := by
      have hi := hwithin i hlow hhigh
      rwa [List.any_append, List.any_append, List.any_cons, List.any_cons] at hi
    have hstart : pairs.any (·.1 == position) = true := by
      rw [(hat position (Nat.le_refl _) (by omega)).1, beq_self_eq_true, Bool.true_or, Bool.or_true]
    have hend : pairs.any (·.1 == position + 1 + inner.length) = false ∧
        pairs.any (·.2 == position + 1 + inner.length) = true := by
      have hi := hat (position + 1 + inner.length) (by omega) (by omega)
      have hinside := h.any_eq_false (Or.inr (Nat.le_refl (position + 1 + inner.length)))
      have hbehind := h'.any_eq_false (Or.inl (Nat.lt_succ_self (position + 1 + inner.length)))
      have hne : (position == position + 1 + inner.length) = false :=
        beq_eq_false_iff_ne.2 (by omega)
      rw [hi.1, hi.2, hinside.1, hinside.2, hbehind.1, hne, beq_self_eq_true]
      exact ⟨rfl, rfl⟩
    have hinside : Within pairs inside (position + 1) (position + 1 + inner.length) := by
      intro i hlow hhigh
      have hi := hat i (by omega) (by omega)
      have hbehind := h'.any_eq_false (Or.inl (Nat.lt_succ_of_lt hhigh))
      have hne : (position == i) = false := beq_eq_false_iff_ne.2 (by omega)
      have hne' : (position + 1 + inner.length == i) = false := beq_eq_false_iff_ne.2 (by omega)
      rw [hi.1, hi.2, hbehind.1, hbehind.2, hne, hne', Bool.or_false, Bool.or_false, Bool.or_false]
      exact ⟨rfl, rfl⟩
    have hbehind : Within pairs behind (position + 1 + inner.length + 1)
        (position + 1 + inner.length + 1 + rest.length) := by
      intro i hlow hhigh
      have hi := hat i (by omega) hhigh
      have hinside := h.any_eq_false (Or.inr (Nat.le_of_succ_le hlow))
      have hne : (position == i) = false := beq_eq_false_iff_ne.2 (by omega)
      have hne' : (position + 1 + inner.length == i) = false := beq_eq_false_iff_ne.2 (by omega)
      rw [hi.1, hi.2, hinside.1, hinside.2, hne, hne', Bool.false_or, Bool.false_or, Bool.false_or]
      exact ⟨rfl, rfl⟩
    rw [List.cons_append, List.append_assoc, writeBars_first hstart, h.replaced pairs _ hinside,
      List.cons_append, writeBars_second hend.1 hend.2, h'.replaced pairs _ hbehind]
    simp

end Segment

/-- **Bars that are placed are found in pairs**, wherever a row stands. -/
theorem Placed.segment {before after : Bool} {drawn written : List Piece}
    (h : Placed before drawn written after) (position : Nat) :
    ∃ part, Segment position before drawn written after part := by
  induction h generalizing position with
  | nil ends => exact ⟨[], .nil position ends⟩
  | piece hp _ ih =>
    obtain ⟨part, hpart⟩ := ih (position + 1)
    exact ⟨part, hpart.piece hp⟩
  | @pair after first last inner inner' rest rest' hfirst hlast _ _ ih ih' =>
    obtain ⟨inside, hinside⟩ := ih (position + 1)
    obtain ⟨behind, hbehind⟩ := ih' (position + 1 + inner.length + 1)
    exact ⟨_, .pair hfirst hlast hinside hbehind⟩

/-- **Bars that are placed are paired as they were drawn**, and none is left over. -/
theorem Placed.pairBars {after : Bool} {drawn written : List Piece}
    (h : Placed false drawn written after) : pairBars drawn = (written, []) := by
  obtain ⟨part, hpart⟩ := h.segment 0
  have hfound := hpart.found [] []
  rw [List.append_nil, barPairs, List.append_nil] at hfound
  have hreplaced := hpart.replaced part [] fun _ _ _ => ⟨rfl, rfl⟩
  rw [List.append_nil, writeBars, List.append_nil] at hreplaced
  rw [Line.pairBars, hfound, hreplaced]

/-! ## The other stages -/

/-- Where values stand apart no letters are joined. -/
theorem joinNames_of_apart {row : List Piece} (hread : ∀ p ∈ row, p.IsRead)
    (h : row.IsChain fun a b => a.kind = .bar ∨ b.kind = .bar ∨ Apart a b) :
    joinNames row = row := by
  have hlengths : ∀ name ∈ spelledNames, 2 ≤ name.length := by decide
  induction row with
  | nil => rw [joinNames]
  | cons p row ih =>
    have hnone : spelledName? (p :: row) = none := by
      by_contra hsome
      obtain ⟨name, hname⟩ := Option.ne_none_iff_exists'.1 hsome
      have hvariables := kind_of_spelledName hread hname
      have hspells : spells name.toList (p :: row) = true := by simpa using List.find?_some hname
      have hfits := (spells_take hspells).1
      obtain ⟨n, hn⟩ := Nat.exists_eq_add_of_le' (hlengths name (List.mem_of_find?_eq_some hname))
      rw [String.length_toList, hn, List.length_cons] at hfits
      obtain ⟨q, rest, rfl⟩ := List.exists_cons_of_length_pos (show 0 < row.length by omega)
      rw [hn, List.take_succ_cons, List.take_succ_cons] at hvariables
      have hp := hvariables p (by simp)
      have hq := hvariables q (by simp)
      rcases (List.isChain_cons.1 h).1 q rfl with hbar | hbar | hnumbers | hvalues
      · rw [hp] at hbar
        cases hbar
      · rw [hq] at hbar
        cases hbar
      · rw [hp] at hnumbers
        cases hnumbers.1
      · rw [hp, hq] at hvalues
        cases hvalues
    rw [joinNames, hnone]
    exact congrArg (p :: ·) (ih (fun q hq => hread q (List.mem_cons_of_mem p hq)) h.tail)

/-- Where no piece is raised at the one before it nothing is an exponent. -/
theorem groupExponents_level {config : Config} {row : List Piece}
    (h : row.IsChain fun a b => isSuperscript config a b = false) :
    groupExponents config row = (row, []) := by
  induction row with
  | nil => rw [groupExponents]
  | cons base row ih =>
    have hrun : row.takeWhile (isSuperscript config base) = [] ∧
        row.dropWhile (isSuperscript config base) = row := by
      cases row with
      | nil => exact ⟨rfl, rfl⟩
      | cons p row =>
        have hp : ¬ isSuperscript config base p = true :=
          Bool.eq_false_iff.1 ((List.isChain_cons.1 h).1 p rfl)
        exact ⟨List.takeWhile_cons_of_neg hp, List.dropWhile_cons_of_neg hp⟩
    rw [groupExponents]
    dsimp only
    rw [hrun.1, hrun.2, ih h.tail]
    rfl

/-- Where values stand apart there is no derivative sign. -/
theorem noDerivative_of_apart {row : List Piece} (hread : ∀ p ∈ row, p.IsRead)
    (h : row.IsChain Apart) : NoDerivative row := by
  intro a b c v hpart _ _ hc hv
  have hkind : c.kind = .variable := by
    rw [hread c (hpart.subset (by simp)), hc]
    exact Kind.of_letter rfl (by decide)
  have hsign : [a, b, c, v].IsChain Apart := List.IsChain.infix h hpart
  rcases (List.isChain_cons.1 hsign.tail.tail).1 v rfl with hnumbers | hvalues
  · rw [hkind] at hnumbers
    cases hnumbers.1
  · rw [hkind, hv] at hvalues
    cases hvalues

/-- Where values stand apart no sign is put in, and all that is noted is digits that stand far
apart. -/
theorem insertMultiplication_of_apart (config : Config) {row : List Piece}
    (h : row.IsChain Apart) : ∃ gaps, insertMultiplication config row = (row, gaps) ∧
      ∀ w ∈ gaps, ∃ left right gap, w = .wideGap left right gap := by
  have hgaps (a b : Piece) : ∀ w ∈ gapNotes config a b, ∃ left right gap,
      w = .wideGap left right gap := by
    intro w hw
    unfold gapNotes at hw
    split at hw
    · dsimp only at hw
      split at hw
      · exact ⟨_, _, _, List.mem_singleton.1 hw⟩
      · cases hw
    · cases hw
  induction row with
  | nil => exact ⟨[], rfl, nofun⟩
  | cons a row ih =>
    cases row with
    | nil => exact ⟨[], rfl, nofun⟩
    | cons b row =>
      obtain ⟨gaps, hrow, hnotes⟩ := ih h.tail
      rw [insertMultiplication]
      dsimp only
      rw [hrow]
      rcases (List.isChain_cons.1 h).1 b rfl with hnumbers | hvalues
      · rw [if_pos hnumbers]
        refine ⟨_, rfl, fun w hw => ?_⟩
        exact (List.mem_append.1 hw).elim (hgaps a b w) (hnotes w)
      · rw [hvalues]
        split
        · refine ⟨_, rfl, fun w hw => ?_⟩
          exact (List.mem_append.1 hw).elim (hgaps a b w) (hnotes w)
        · exact ⟨_, rfl, hnotes⟩

/-! ## The balance of the text -/

theorem steps_text {p : Piece} (hglyph : p.IsWord ∨ p.IsCapital) (hbar : p.kind ≠ .bar) :
    p.text.toList.filterMap bracketStep? = p.step?.toList := by
  have hletter : ∀ c, isLetter c = true → bracketStep? c = none := fun c hc =>
    Formula.bracketStep?_eq_none rfl rfl rfl hc
  rcases hglyph with hword | hcapital
  · by_cases hnumber : p.kind = .number
    · have hdigits : isNumeric p.text.toList = true := by
        unfold Piece.IsWord at hword
        rwa [hnumber] at hword
      rw [isNumeric, Bool.and_eq_true, List.all_eq_true] at hdigits
      rw [Piece.step?, hnumber]
      refine List.filterMap_eq_nil_iff.2 fun c hc => ?_
      have hchar := hdigits.2 c hc
      rw [Bool.or_eq_true, beq_iff_eq] at hchar
      rcases hchar with hdigit | rfl
      · exact Formula.bracketStep?_eq_none rfl rfl rfl hdigit
      · rfl
    · rcases hword.spelled hnumber with ⟨c, hc, hsign⟩ | ⟨hkind, -, hletters⟩
      · have htoken : p.token = Formula.signToken [c] := by rw [Piece.token, hc]
        rw [← (hword.agrees hnumber hbar).step, htoken, Formula.step?_signToken hsign, hc]
        cases hstep : bracketStep? c <;> simp [hstep]
      · rw [List.filterMap_eq_nil_iff.2 fun c hc => hletter c (hletters c hc), Piece.step?]
        rcases hkind with hkind | hkind <;> rw [hkind] <;> rfl
  · obtain ⟨c, hc, hupper⟩ := hcapital.letter
    rw [hc, Piece.step?, hcapital.1]
    exact List.filterMap_cons_none (hletter c hupper)

/-- A row whose brackets lead from the ground to the ground has a text that is balanced. -/
theorem isBalanced_of_climbs {row : List Piece} (hglyphs : ∀ p ∈ row, p.IsWord ∨ p.IsCapital)
    (hbars : ∀ p ∈ row, p.kind ≠ .bar) (h : Climbs 0 0 row) : isBalanced (lineText row) = true := by
  have hsteps : (chars row).filterMap bracketStep? = brackets row := by
    clear h
    induction row with
    | nil => rfl
    | cons p row ih =>
      rw [List.forall_mem_cons] at hglyphs hbars
      rw [chars_cons, List.filterMap_append, steps_text hglyphs.1 hbars.1, ih hglyphs.2 hbars.2,
        brackets_cons]
  rw [isBalanced, toList_lineText, Formula.balancedFrom_eq, hsteps, beq_iff_eq]
  exact h

/-! ## Reading a line with bars -/

/-- What is known of symbols that draw a row with bars. -/
structure BarDrawing (config : Config) (drawn : List Piece) (symbols : List Symbol) : Prop where
  /-- No symbol is dropped. -/
  kept : ∀ s ∈ symbols, isKept config s = true
  /-- The symbols are those of the row. -/
  seen : (symbols.map Piece.detected).Perm drawn
  /-- They stand from left to right. -/
  ascending : drawn.IsChain fun p q => p.centerX < q.centerX
  /-- No symbol is an exponent at the one before it. -/
  level : drawn.IsChain fun p q => isSuperscript config p q = false
  /-- Each stands for a token, or is a digit, a point or a bar. -/
  glyphs : ∀ p ∈ drawn, p.IsWord ∨ p.IsCapital

section

variable {config : Config} {drawn written : List Piece} {symbols : List Symbol} {ts : List Token}
  {t : Expr} (h : BarDrawing config drawn symbols) (hbars : Bars drawn written)

include h hbars

theorem BarDrawing.isRead : (∀ p ∈ drawn, p.IsRead) ∧ ∀ p ∈ written, p.IsRead := by
  have hdrawn : ∀ p ∈ drawn, p.IsRead := by
    intro p hp
    obtain ⟨s, -, rfl⟩ := List.mem_map.1 (h.seen.mem_iff.2 hp)
    exact Piece.isRead_detected s
  refine ⟨hdrawn, hbars.forall_written (fun p hp _ => hdrawn p hp) (fun _ => ?_) ?_ ?_⟩
  · exact show Kind.function = Kind.of "abs" by decide
  · exact show Kind.opening = Kind.of "(" by decide
  · exact show Kind.closing = Kind.of ")" by decide

theorem BarDrawing.glyphs_written : ∀ p ∈ written, (p.IsWord ∨ p.IsCapital) ∧ p.kind ≠ .bar := by
  refine hbars.forall_written (fun p hp hbar => ⟨h.glyphs p hp, hbar⟩) (fun _ => ?_) ?_ ?_
  · exact ⟨Or.inl (show "abs" ∈ Formula.functionNames by decide), nofun⟩
  · exact ⟨Or.inl (by decide), nofun⟩
  · exact ⟨Or.inl (by decide), nofun⟩

theorem BarDrawing.agrees : ∀ p ∈ written, p.kind ≠ .number → p.Agrees := by
  intro p hp hnumber
  obtain ⟨hword | hcapital, hbar⟩ := h.glyphs_written hbars p hp
  · exact hword.agrees hnumber hbar
  · exact hcapital.agrees

variable (hreads : Reads written ts) (hderives : Derives .sum ts t)

include hreads hderives

/-- **The finished row** is the phrase that was drawn, and all that is noted is digits that stand
far apart. -/
theorem BarDrawing.assemble_eq : ∃ gaps, assemble config symbols = (written, gaps) ∧
    ∀ w ∈ gaps, ∃ left right gap, w = .wideGap left right gap := by
  have hagrees := h.agrees hbars
  obtain ⟨hreadDrawn, hreadWritten⟩ := h.isRead hbars
  have hapart := hreads.apart hagrees hderives.valuesApart
  have hpieces : piecesOf symbols = drawn := by
    rw [piecesOf, sortByCenter_of_ascending h.seen h.ascending]
    exact joinNames_of_apart hreadDrawn (hbars.apart hapart)
  have hplaced : Placed false drawn written (endsAfter false written) :=
    hbars.placed hapart (hreads.closes hagrees hderives.closes)
      fun hvalue => absurd hvalue Bool.false_ne_true
  have hcalls : writeCalls 0 written = (written, []) := by
    refine writeCalls_eq (hreads.calledBefore hagrees hderives.called) (fun p hp => ?_)
      (fun p hp hfunction => ?_) (noDerivative_of_apart hreadWritten hapart) 0
    · rcases (h.glyphs_written hbars p hp).1 with hword | hcapital
      · exact hword.ne_root
      · rw [hcapital.1]
        decide
    · rcases (h.glyphs_written hbars p hp).1 with hword | hcapital
      · exact hword.callName_eq hfunction
      · rw [hcapital.1] at hfunction
        cases hfunction
  obtain ⟨gaps, hrow, hgaps⟩ := insertMultiplication_of_apart config hapart
  refine ⟨gaps, ?_, hgaps⟩
  have hrepair := repairBrackets_of_climbs config.maxRepairPasses (hreads.climbs hagrees hderives)
  rw [assemble, beforeRepair, beforeCalls, hpieces, groupExponents_level h.level]
  dsimp only
  rw [hplaced.pairBars]
  dsimp only
  rw [hcalls]
  dsimp only
  rw [hrepair]
  dsimp only
  rw [hrow]
  rfl

theorem BarDrawing.symbols_ne : symbols ≠ [] := by
  rintro rfl
  obtain ⟨x, hx, -⟩ := hderives.getLast?
  have hdrawn : drawn = [] := h.seen.symm.eq_nil
  subst hdrawn
  cases hbars
  generalize hrow : ([] : List Piece) = row at hreads
  cases hreads with
  | nil => cases hx
  | piece => cases hrow
  | number _ hnumeral =>
    obtain ⟨hrun, -⟩ := List.append_eq_nil_iff.1 hrow.symm
    exact hnumeral.ne_nil hrun

end

/-- **Reading a line with bars is the inverse of drawing it.**  The symbols of a phrase, some calls
of the absolute value in it drawn with bars, are read as the phrase, and all that is noted is digits
that stand far apart. -/
theorem linearize_bars {config : Config} {drawn written : List Piece} {symbols : List Symbol}
    {ts : List Token} {t : Expr} (hdrawing : BarDrawing config drawn symbols)
    (hbars : Bars drawn written) (hreads : Reads written ts) (hderives : Derives .sum ts t) :
    (linearize config symbols).text = lineText written ∧
      ∀ w ∈ (linearize config symbols).warnings, ∃ left right gap,
        w = .wideGap left right gap := by
  obtain ⟨gaps, hassemble, hgaps⟩ := hdrawing.assemble_eq hbars hreads hderives
  have hkept : symbols.filter (isKept config) = symbols := List.filter_eq_self.2 hdrawing.kept
  have hglyphs := hdrawing.glyphs_written hbars
  have hbalanced : isBalanced (lineText written) = true :=
    isBalanced_of_climbs (fun p hp => (hglyphs p hp).1) (fun p hp => (hglyphs p hp).2)
      (hreads.climbs (hdrawing.agrees hbars) hderives)
  have hdropped : dropNotes config symbols = [] := by
    have hnone : (symbols.filter fun s => !isKept config s) = [] :=
      List.filter_eq_nil_iff.2 fun s hs => by simp [hdrawing.kept s hs]
    rw [dropNotes, hnone]
    rfl
  have hline := linearize_eq config (hkept.symm ▸ hdrawing.symbols_ne hbars hreads hderives)
  dsimp only at hline
  rw [hkept, hassemble, hdropped, balanceNotes, if_pos hbalanced] at hline
  rw [hline]
  refine ⟨rfl, fun w hw => hgaps w ?_⟩
  simpa using hw

/-- The symbols `2 * | | x | - 1 | + Y`, in some order. -/
def barred : List Symbol :=
  [symbolAt "Y" 84.0 0.0 94.0 20.0, symbolAt "|" 24.0 0.0 26.0 20.0,
    symbolAt "|" 28.0 0.0 30.0 20.0, symbolAt "x" 32.0 0.0 42.0 20.0,
    symbolAt "2" 0.0 0.0 8.0 20.0, symbolAt "·" 12.0 8.0 20.0 12.0,
    symbolAt "|" 44.0 0.0 46.0 20.0, symbolAt "−" 48.0 8.0 58.0 12.0,
    symbolAt "1" 60.0 0.0 66.0 20.0, symbolAt "|" 68.0 0.0 70.0 20.0,
    symbolAt "+" 72.0 4.0 82.0 16.0]

def barAt (x1 x2 : Float) : Piece := ⟨"|", .bar, some ⟨x1, 0.0, x2, 20.0⟩⟩

/-- The name of a call that was drawn with bars. -/
def absAt (x1 x2 : Float) : Piece := ⟨"abs", .function, some ⟨x1, 0.0, x2, 20.0⟩⟩

/-- The symbols before the bars, between them and after them. -/
def barredFront : List Piece :=
  [⟨"2", .number, some ⟨0.0, 0.0, 8.0, 20.0⟩⟩, ⟨"*", .operator, some ⟨12.0, 8.0, 20.0, 12.0⟩⟩]

@[inherit_doc barredFront]
def barredLetter : List Piece := [⟨"x", .variable, some ⟨32.0, 0.0, 42.0, 20.0⟩⟩]

@[inherit_doc barredFront]
def barredRest : List Piece :=
  [⟨"-", .operator, some ⟨48.0, 8.0, 58.0, 12.0⟩⟩, ⟨"1", .number, some ⟨60.0, 0.0, 66.0, 20.0⟩⟩]

@[inherit_doc barredFront]
def barredEnd : List Piece :=
  [⟨"+", .operator, some ⟨72.0, 4.0, 82.0, 16.0⟩⟩, ⟨"Y", .other, some ⟨84.0, 0.0, 94.0, 20.0⟩⟩]

/-- The row of the symbols. -/
def barredRow : List Piece :=
  barredFront ++ barAt 24.0 26.0 ::
    (barAt 28.0 30.0 :: (barredLetter ++ barAt 44.0 46.0 :: barredRest) ++
      barAt 68.0 70.0 :: barredEnd)

/-- The sentence `2*abs(abs(x)-1)+Y`. -/
def barredWritten : List Piece :=
  barredFront ++ absAt 24.0 26.0 :: Piece.openParen ::
    (absAt 28.0 30.0 :: Piece.openParen ::
      (barredLetter ++ Piece.closeParen :: barredRest) ++ Piece.closeParen :: barredEnd)

theorem barDrawing_barred : BarDrawing {} barredRow barred where
  kept := by decide +kernel
  seen := by decide +kernel
  ascending := by decide +kernel
  level := by decide +kernel
  glyphs := by decide +kernel

theorem bars_barred : Bars barredRow barredWritten := by
  have hletter : Bars barredLetter barredLetter := .piece nofun .nil
  have hrest : Bars barredRest barredRest := .piece nofun (.piece nofun .nil)
  have hend : Bars barredEnd barredEnd := .piece nofun (.piece nofun .nil)
  exact .piece nofun (.piece nofun (.pair rfl rfl (by decide)
    (.pair rfl rfl (by decide) hletter hrest) hend))

def barredTokens : List Token :=
  [.number 2, .operator .mul, .function "abs", .openParen, .function "abs", .openParen, .name "x",
    .closeParen, .operator .sub, .number 1, .closeParen, .operator .add, .name "Y"]

theorem reads_barred : Reads barredWritten barredTokens := by
  have htokens : barredTokens = [.number (Formula.literalValue ['2']), .operator .mul,
      .function "abs", .openParen, .function "abs", .openParen, .name "x", .closeParen,
      .operator .sub, .number (Formula.literalValue ['1']), .closeParen, .operator .add,
      .name "Y"] := by decide +kernel
  rw [htokens]
  refine @Reads.number [_] _ _ (by decide) (by decide) (by decide +kernel) (by decide) ?_
  iterate 8 refine .piece (by decide) ?_
  refine @Reads.number [_] _ _ (by decide) (by decide) (by decide +kernel) (by decide) ?_
  iterate 3 refine .piece (by decide) ?_
  exact .nil

def barredTree : Expr :=
  .sum [.product [.number 2,
    .call "abs" [.call "sub" [.call "abs" [.variable "x"], .number 1]]], .variable "Y"]

theorem derives_barred : Derives .sum barredTokens barredTree := by
  have hletter : Derives .atom [.function "abs", .openParen, .name "x", .closeParen]
      (.call "abs" [.variable "x"]) := .call (by decide) ((Derives.name "x").loosen (by decide))
  have hinner : Derives .sum [.function "abs", .openParen, .name "x", .closeParen, .operator .sub,
      .number 1] (.call "sub" [.call "abs" [.variable "x"], .number 1]) :=
    .binary .sub (hletter.loosen (by decide)) ((Derives.number 1).loosen (by decide))
  have hproduct : Derives .product [.number 2, .operator .mul, .function "abs", .openParen,
      .function "abs", .openParen, .name "x", .closeParen, .operator .sub, .number 1, .closeParen]
      (.product [.number 2, .call "abs" [.call "sub" [.call "abs" [.variable "x"], .number 1]]]) :=
    .binary .mul ((Derives.number 2).loosen (by decide))
      ((Derives.call (by decide) hinner).loosen (by decide))
  exact .binary .add hproduct.term ((Derives.name "Y").loosen (by decide))

theorem linearize_bars_barred :
    BarDrawing {} barredRow barred ∧ Bars barredRow barredWritten ∧
      Reads barredWritten barredTokens ∧ Derives .sum barredTokens barredTree ∧
      (linearize {} barred).text = "2*abs(abs(x)-1)+Y" ∧
      ∀ w ∈ (linearize {} barred).warnings, ∃ left right gap, w = .wideGap left right gap := by
  obtain ⟨htext, hnotes⟩ :=
    linearize_bars barDrawing_barred bars_barred reads_barred derives_barred
  exact ⟨barDrawing_barred, bars_barred, reads_barred, derives_barred, htext.trans (by decide),
    hnotes⟩

/-- The symbols `| X |`. -/
def capital : List Symbol :=
  [symbolAt "|" 0.0 0.0 2.0 20.0, symbolAt "X" 4.0 0.0 14.0 20.0, symbolAt "|" 16.0 0.0 18.0 20.0]

/-- A bar after a capital letter does not close a pair. -/
theorem linearize_misses_capital :
    ((∀ s ∈ capital, isKept {} s = true) ∧
      (capital.map Piece.detected).IsChain (fun p q => p.centerX < q.centerX) ∧
      (capital.map Piece.detected).IsChain (fun p q => isSuperscript {} p q = false)) ∧
    Formula.parse "abs(X)" = .ok (.call "abs" [.variable "X"]) ∧
    linearize {} capital = ⟨"|X|", [.unpairedBar 0, .unpairedBar 2, .unbalanced]⟩ := by
  decide +kernel

end GlyphMath.Line
