import GlyphMath.Proofs.Heights
import GlyphMath.Proofs.Leftovers
import GlyphMath.Proofs.Words
import Mathlib.Data.List.Chain

/-!
# Rows of pieces and their tokens

* `Called` -- every function of a row stands right before a piece of a sort.
* `Apart` -- two pieces between which no multiplication sign is missing.
* `Finished` -- what is known of a finished row.
* `Reads` -- a row and its tokens.

Principal results:

* `Reads.valuesApart`, `Reads.called` -- what is known of the tokens of a finished row.
* `Reads.spells` -- the text of a finished row spells its tokens.
-/

set_option autoImplicit false

namespace GlyphMath.Line

open Formula (Token isLiteral literalValue Spells Stops)

/-! ## Functions and what follows them -/

/-- Every function of a row stands right before a piece of a sort. -/
def Called (sort : Piece → Prop) : List Piece → Prop
  | [] => True
  | p :: rest => (p.kind = .function → ∃ q ∈ rest.head?, sort q) ∧ Called sort rest

section

variable {sort sort' : Piece → Prop} {row rest : List Piece}

theorem Called.mono (h : Called sort row) (hsort : ∀ p, sort p → sort' p) : Called sort' row := by
  induction row with
  | nil => trivial
  | cons p row ih =>
    refine ⟨fun hp => ?_, ih h.2⟩
    obtain ⟨q, hq, hsort'⟩ := h.1 hp
    exact ⟨q, hq, hsort q hsort'⟩

theorem Called.append (h : Called sort row) (h' : Called sort rest) :
    Called sort (row ++ rest) := by
  induction row with
  | nil => exact h'
  | cons p row ih =>
    refine ⟨fun hp => ?_, ih h.2⟩
    obtain ⟨q, hq, hsort⟩ := h.1 hp
    refine ⟨q, ?_, hsort⟩
    simp [Option.mem_def.1 hq]

theorem Called.of_append (h : Called sort (row ++ rest)) : Called sort rest := by
  induction row with
  | nil => exact h
  | cons p row ih => exact ih h.2

theorem called_cons {p : Piece} (hp : p.kind ≠ .function) (h : Called sort rest) :
    Called sort (p :: rest) :=
  ⟨fun hfunction => absurd hfunction hp, h⟩

theorem called_append (hrow : ∀ p ∈ row, p.kind ≠ .function) (h : Called sort rest) :
    Called sort (row ++ rest) := by
  induction row with
  | nil => exact h
  | cons p row ih =>
    have hrest := ih fun q hq => hrow q (List.mem_cons_of_mem _ hq)
    exact called_cons (hrow p List.mem_cons_self) hrest

end

/-! ## Finished rows -/

/-- Two pieces between which no multiplication sign is missing: two digits, or no value before
another one. -/
def Apart (a b : Piece) : Prop :=
  a.kind = .number ∧ b.kind = .number ∨ (a.kind.endsValue && b.kind.startsValue) = false

/-- What is known of a finished row. -/
structure Finished (row : List Piece) : Prop where
  words : ∀ p ∈ row, p.IsWord
  called : Called (fun q => q.isBracket = true) row
  apart : row.IsChain Apart

theorem ne_of_isBracket {p : Piece} (h : p.isBracket = true) :
    p.kind ≠ .number ∧ p.kind ≠ .variable ∧ p.kind ≠ .function := by
  refine ⟨?_, ?_, ?_⟩ <;> intro hkind <;> simp [Piece.isBracket, Piece.step?, hkind] at h

/-! ## Rows and their tokens -/

/-- `Reads row ts`: the pieces of a row stand for the tokens `ts`, adjacent digits for one
number. -/
inductive Reads : List Piece → List Token → Prop where
  | nil : Reads [] []
  | piece {p : Piece} {rest : List Piece} {ts : List Token} (hp : p.kind ≠ .number) :
      Reads rest ts → Reads (p :: rest) (p.token :: ts)
  | number {run rest : List Piece} {ts : List Token} (hnumbers : ∀ p ∈ run, p.kind = .number)
      (hnumeral : IsNumeral (chars run)) (hfinite : (literalValue (chars run)).isInf = false)
      (hrest : ∀ q ∈ rest.head?, q.kind ≠ .number) :
      Reads rest ts → Reads (run ++ rest) (.number (literalValue (chars run)) :: ts)

theorem Finished.cons {p : Piece} {rest : List Piece} (h : Finished (p :: rest)) :
    Finished rest :=
  ⟨fun q hq => h.words q (List.mem_cons_of_mem _ hq), h.called.2, h.apart.tail⟩

theorem Finished.append {run rest : List Piece} (h : Finished (run ++ rest)) : Finished rest := by
  induction run with
  | nil => exact h
  | cons p run ih => exact ih h.cons

/-- What follows a digit that no digit follows starts no value. -/
theorem Finished.startsValue_after {run rest : List Piece} (h : Finished (run ++ rest))
    (hrun : run ≠ []) (hnumbers : ∀ p ∈ run, p.kind = .number)
    (hrest : ∀ q ∈ rest.head?, q.kind ≠ .number) :
    ∀ q ∈ rest.head?, q.kind.startsValue = false := by
  intro q hq
  have hlast := List.getLast?_eq_some_getLast hrun
  have hkind := hnumbers _ (List.getLast_mem hrun)
  rcases (List.isChain_append.1 h.apart).2.2 _ hlast q hq with hboth | hvalues
  · exact absurd hboth.2 (hrest q hq)
  · rw [hkind] at hvalues
    exact hvalues

theorem Reads.startsValue {row : List Piece} {ts : List Token} (h : Reads row ts)
    (hwords : ∀ p ∈ row, p.IsWord) (hrow : ∀ p ∈ row.head?, p.kind.startsValue = false) :
    ∀ t ∈ ts.head?, t.startsValue = false := by
  intro t ht
  cases h with
  | nil => cases ht
  | piece hp =>
    cases ht
    rw [startsValue_token (hwords _ List.mem_cons_self) hp]
    exact hrow _ rfl
  | number hnumbers hnumeral =>
    obtain ⟨p, run, rfl⟩ := List.exists_cons_of_ne_nil hnumeral.ne_nil
    have hstart := hrow p rfl
    rw [hnumbers p List.mem_cons_self] at hstart
    cases hstart

/-- **In the tokens of a finished row values stand apart.** -/
theorem Reads.valuesApart {row : List Piece} {ts : List Token} (h : Reads row ts)
    (hrow : Finished row) : Formula.valuesApart ts = true := by
  induction h with
  | nil => rfl
  | @piece p rest ts hp hreads ih =>
    apply Formula.valuesApart_cons
    · intro t ht hend
      refine hreads.startsValue hrow.cons.words (fun q hq => ?_) t ht
      rw [endsValue_token (hrow.words p List.mem_cons_self) hp] at hend
      rcases (List.isChain_cons.1 hrow.apart).1 q hq with hboth | hvalues
      · exact absurd hboth.1 hp
      · rw [hend] at hvalues
        exact hvalues
    · exact ih hrow.cons
  | number hnumbers hnumeral _ hrest hreads ih =>
    apply Formula.valuesApart_cons
    · intro t ht _
      exact hreads.startsValue hrow.append.words
        (hrow.startsValue_after hnumeral.ne_nil hnumbers hrest) t ht
    · exact ih hrow.append

theorem Reads.comma_notMem {row : List Piece} {ts : List Token} (h : Reads row ts)
    (hwords : ∀ p ∈ row, p.IsWord) : .comma ∉ ts := by
  induction h with
  | nil => exact List.not_mem_nil
  | @piece p rest ts hp _ ih =>
    have hword := hwords p List.mem_cons_self
    rw [List.mem_cons, not_or]
    refine ⟨fun htoken => ?_, ih fun q hq => hwords q (List.mem_cons_of_mem _ hq)⟩
    have hkind := kindOf_token hword hp
    rw [← htoken] at hkind
    unfold Piece.IsWord at hword
    split at hkind
    · cases hkind
    · rw [← hkind] at hword
      exact hword
  | number _ _ _ _ _ ih =>
    rw [List.mem_cons, not_or]
    exact ⟨nofun, ih fun q hq => hwords q (List.mem_append_right _ hq)⟩

/-- Where every function stands before an opening bracket, every function name is called. -/
theorem Reads.called {row : List Piece} {ts : List Token} {f : String} (h : Reads row ts)
    (hwords : ∀ p ∈ row, p.IsWord) (hcalled : Called (fun q => q.kind = .opening) row) :
    ¬ Formula.NotCalled f ts := by
  rintro ⟨before, after, hts, hafter⟩
  induction h generalizing before with
  | nil => simp at hts
  | @piece p rest ts hp hreads ih =>
    cases before with
    | nil =>
      obtain ⟨htoken, rfl⟩ := List.cons.inj hts
      have hkind := kindOf_token (hwords p List.mem_cons_self) hp
      rw [htoken] at hkind
      split at hkind
      · cases hkind
      · obtain ⟨q, hq, hopen⟩ := hcalled.1 hkind.symm
        apply hafter
        cases hreads with
        | nil => cases hq
        | piece =>
          cases hq
          rw [List.head?_cons, token_opening (hwords q (by simp)) hopen]
        | number hnumbers hnumeral =>
          rw [List.head?_append_of_ne_nil _ hnumeral.ne_nil] at hq
          rw [hnumbers q (List.mem_of_mem_head? hq)] at hopen
          cases hopen
    | cons t before =>
      obtain ⟨-, hts⟩ := List.cons.inj hts
      exact ih (fun q hq => hwords q (List.mem_cons_of_mem _ hq)) hcalled.2 before hts
  | number _ _ _ _ _ ih =>
    cases before with
    | nil => simp at hts
    | cons t before =>
      obtain ⟨-, hts⟩ := List.cons.inj hts
      exact ih (fun q hq => hwords q (List.mem_append_right _ hq)) hcalled.of_append before hts

/-! ## The text of a finished row -/

theorem Finished.stops_word {p : Piece} {rest : List Piece} (h : Finished (p :: rest))
    (hkind : p.kind = .variable ∨ p.kind = .function) : Stops (chars rest) := by
  refine stops_row h.cons.words fun q hq => ?_
  rcases hkind with hvariable | hfunction
  · rcases (List.isChain_cons.1 h.apart).1 q hq with hboth | hvalues
    · rw [hboth.1] at hvariable
      cases hvariable
    · rw [hvariable] at hvalues
      exact Kind.ne_of_startsValue hvalues
  · obtain ⟨q', hq', hbracket⟩ := h.called.1 hfunction
    obtain rfl : q = q' := Option.mem_unique hq hq'
    exact ne_of_isBracket hbracket

theorem Finished.stops_number {run rest : List Piece} (h : Finished (run ++ rest))
    (hrun : run ≠ []) (hnumbers : ∀ p ∈ run, p.kind = .number)
    (hrest : ∀ q ∈ rest.head?, q.kind ≠ .number) : Stops (chars rest) :=
  stops_row h.append.words fun q hq =>
    Kind.ne_of_startsValue (h.startsValue_after hrun hnumbers hrest q hq)

/-- **The text of a finished row spells its tokens.** -/
theorem Reads.spells {row : List Piece} {ts : List Token} (h : Reads row ts)
    (hrow : Finished row) : Spells (chars row) ts := by
  induction h with
  | nil => exact .nil
  | @piece p rest ts hp _ ih =>
    have hword := hrow.words p List.mem_cons_self
    rw [chars_cons]
    exact .sign (takeToken?_piece hword hp fun hkind => hrow.stops_word hkind)
      (isLiteral_piece hword hp) (ih hrow.cons)
  | @number run rest ts hnumbers hnumeral hfinite hrest _ ih =>
    rw [chars_append]
    exact .literal
      (takeToken?_numeral hnumeral (hrow.stops_number hnumeral.ne_nil hnumbers hrest))
      (isLiteral_numeral hnumeral) hfinite (ih hrow.append)

end GlyphMath.Line
