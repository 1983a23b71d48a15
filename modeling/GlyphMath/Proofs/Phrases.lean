import GlyphMath.Proofs.Rows

/-!
# Rows of sentences

* `Token.step?` -- the step up or down that a bracket of a token list is.
* `Piece.Agrees` -- what a piece and its token have in common.

Principal results:

* `Derives.height?_eq`, `Derives.called`, `Derives.closes` -- in a phrase the brackets are well
  nested, every function name is called, and a value ends before every closing bracket.
* `Reads.climbs`, `Reads.calledBefore`, `Reads.closes`, `Reads.finished` -- what is known of a row
  that reads as a phrase.
-/

set_option autoImplicit false

/-! ## Tokens of phrases -/

namespace GlyphMath.Formula

open Line (height? height?_append height?_add)

/-- An opening bracket is a step up, a closing one a step down. -/
def Token.step? : Token → Option DyckStep
  | .openParen => some .U
  | .closeParen => some .D
  | .number _ | .name _ | .function _ | .operator _ | .comma => none

/-- Brackets around steps that lead back to every height lead back to every height. -/
theorem height?_bracketed {steps : List DyckStep} (h : ∀ start, height? start steps = some start)
    (start : Nat) : height? start (.U :: (steps ++ [.D])) = some start := by
  rw [height?, height?_append, h]
  rfl

/-- **The brackets of a phrase** lead from every height back to it. -/
theorem Derives.height?_eq {l : Level} {ts : List Token} {t : Expr} (h : Derives l ts t)
    (start : Nat) : height? start (ts.filterMap Token.step?) = some start := by
  have happend : ∀ {steps steps' : List DyckStep}, (∀ start, height? start steps = some start) →
      (∀ start, height? start steps' = some start) →
      ∀ start, height? start (steps ++ steps') = some start := by
    intro steps steps' h h' start
    rw [height?_append, h]
    exact h' start
  induction h generalizing start with
  | term _ ih | factor _ ih | base _ ih | plain _ ih => exact ih start
  | binary op _ _ iha ihb =>
    rw [List.filterMap_append]
    exact happend iha ihb start
  | negate _ ih => exact ih start
  | number v => rfl
  | name text => rfl
  | group _ ih =>
    have hrow := height?_bracketed ih start
    simpa [List.filterMap_cons, Token.step?] using hrow
  | call _ _ ih =>
    have hrow := height?_bracketed ih start
    simpa [List.filterMap_cons, Token.step?] using hrow
  | limitOfTwo _ _ iha ihb =>
    have hrow := height?_bracketed (happend iha ihb) start
    simpa [List.filterMap_cons, Token.step?] using hrow
  | limitOfThree _ _ _ iha ihb ihc =>
    have hrow := height?_bracketed (happend iha (happend ihb ihc)) start
    simpa [List.filterMap_cons, Token.step?] using hrow

section

variable {f : String} {x : Token} {ts us : List Token}

theorem valuesApart_cons_iff : Formula.valuesApart (x :: ts) = true ↔
    (∀ y ∈ ts.head?, (x.endsValue && y.startsValue) = false) ∧ Formula.valuesApart ts = true := by
  cases ts with
  | nil => simp [Formula.valuesApart]
  | cons y ts =>
    rw [Formula.valuesApart, Bool.and_eq_true, Bool.not_eq_true', List.head?_cons]
    exact and_congr_left fun _ => ⟨fun hfirst z hz => Option.some.inj hz ▸ hfirst, fun h => h y rfl⟩

theorem NotCalled.cons (h : NotCalled f ts) : NotCalled f (x :: ts) := by
  obtain ⟨before, after, rfl, hafter⟩ := h
  exact ⟨x :: before, after, rfl, hafter⟩

theorem NotCalled.of_cons (h : NotCalled f (x :: ts))
    (hx : x = .function f → ts.head? = some .openParen) : NotCalled f ts := by
  obtain ⟨before, after, hts, hafter⟩ := h
  cases before with
  | nil =>
    obtain ⟨rfl, rfl⟩ := List.cons.inj hts
    exact absurd (hx rfl) hafter
  | cons y before =>
    obtain ⟨-, rfl⟩ := List.cons.inj hts
    exact ⟨before, after, rfl, hafter⟩

theorem NotCalled.of_append (h : NotCalled f (ts ++ us))
    (hlast : ∃ y, ts.getLast? = some y ∧ y.endsValue = true) : NotCalled f ts ∨ NotCalled f us := by
  obtain ⟨before, after, hts, hafter⟩ := h
  rcases List.append_eq_append_iff.1 hts with ⟨middle, rfl, rfl⟩ | ⟨middle, rfl, hmiddle⟩
  · exact Or.inr ⟨middle, after, rfl, hafter⟩
  · cases middle with
    | nil =>
      exact Or.inr ⟨[], after, hmiddle.symm, hafter⟩
    | cons y middle =>
      obtain ⟨rfl, rfl⟩ := List.cons.inj hmiddle
      refine Or.inl ⟨before, middle, rfl, ?_⟩
      cases middle with
      | nil =>
        obtain ⟨z, hz, hend⟩ := hlast
        rw [List.getLast?_concat] at hz
        cases hz
        cases hend
      | cons z middle => exact hafter

theorem not_notCalled_singleton (hx : x ≠ .function f) : ¬ NotCalled f [x] := by
  intro hnot
  obtain ⟨before, after, hts, -⟩ := hnot.of_cons fun h => absurd h hx
  simp at hts

end

/-- **In a phrase every function name is called.** -/
theorem Derives.called {l : Level} {ts : List Token} {t : Expr} (h : Derives l ts t) (f : String) :
    ¬ NotCalled f ts := by
  have hclose : ¬ NotCalled f [.closeParen] := not_notCalled_singleton nofun
  induction h with
  | term _ ih | factor _ ih | base _ ih | plain _ ih => exact ih
  | binary op ha _ iha ihb =>
    intro hnot
    exact (hnot.of_append ha.getLast?).elim iha fun hnot => ihb (hnot.of_cons nofun)
  | negate _ ih => exact fun hnot => ih (hnot.of_cons nofun)
  | number v => exact not_notCalled_singleton nofun
  | name text => exact not_notCalled_singleton nofun
  | group ht ih =>
    intro hnot
    exact ((hnot.of_cons nofun).of_append ht.getLast?).elim ih hclose
  | call _ ht ih =>
    intro hnot
    exact (((hnot.of_cons fun _ => rfl).of_cons nofun).of_append ht.getLast?).elim ih hclose
  | limitOfTwo ha hb iha ihb =>
    intro hnot
    refine (((hnot.of_cons fun _ => rfl).of_cons nofun).of_append ha.getLast?).elim iha ?_
    exact fun hnot => ((hnot.of_cons nofun).of_append hb.getLast?).elim ihb hclose
  | limitOfThree ha hb hc iha ihb ihc =>
    intro hnot
    refine (((hnot.of_cons fun _ => rfl).of_cons nofun).of_append ha.getLast?).elim iha ?_
    refine fun hnot => ((hnot.of_cons nofun).of_append hb.getLast?).elim ihb ?_
    exact fun hnot => ((hnot.of_cons nofun).of_append hc.getLast?).elim ihc hclose

/-- What stands before a closing bracket ends a value. -/
def Closes (x y : Token) : Prop := y = .closeParen → x.endsValue = true

theorem Derives.head?_ne {l : Level} {ts : List Token} {t : Expr} (h : Derives l ts t) :
    ts.head? ≠ some .closeParen := by
  induction h with
  | term _ ih | factor _ ih | base _ ih | plain _ ih => exact ih
  | @binary op ts us a b ha _ iha _ =>
    obtain ⟨x, hx, -⟩ := ha.getLast?
    rwa [List.head?_append_of_ne_nil _ (List.ne_nil_of_mem (List.mem_of_getLast? hx))]
  | _ => exact nofun

/-- **In a phrase a value ends before every closing bracket.** -/
theorem Derives.closes {l : Level} {ts : List Token} {t : Expr} (h : Derives l ts t) :
    ts.IsChain Closes := by
  -- A phrase behind a token, before a closing bracket, and before another token.
  have hmark {x : Token} {us : List Token} (hus : us.IsChain Closes)
      (hhead : us.head? ≠ some .closeParen) : (x :: us).IsChain Closes :=
    List.isChain_cons.2 ⟨fun y hy hclose => absurd (hclose ▸ hy) hhead, hus⟩
  have hclose {l : Level} {us : List Token} {u : Expr} (hu : Derives l us u)
      (hus : us.IsChain Closes) : (us ++ [Token.closeParen]).IsChain Closes := by
    obtain ⟨x, hx, hends⟩ := hu.getLast?
    refine List.isChain_append.2 ⟨hus, List.isChain_singleton _, fun y hy _ _ _ => ?_⟩
    rwa [Option.some.inj (hy.symm.trans hx)]
  have happend {y : Token} {us ws : List Token} (hus : us.IsChain Closes)
      (hy : y ≠ .closeParen) (hws : (y :: ws).IsChain Closes) :
      (us ++ y :: ws).IsChain Closes :=
    List.isChain_append.2 ⟨hus, hws, fun _ _ z hz hclose =>
      absurd ((Option.some.inj hz).trans hclose) hy⟩
  have hopen {x : Token} {us ws : List Token} {l : Level} {u : Expr} (hu : Derives l us u)
      (hus : (us ++ ws).IsChain Closes) : (x :: (us ++ ws)).IsChain Closes := by
    obtain ⟨y, hy, -⟩ := hu.getLast?
    refine hmark hus ?_
    rw [List.head?_append_of_ne_nil _ (List.ne_nil_of_mem (List.mem_of_getLast? hy))]
    exact hu.head?_ne
  induction h with
  | term _ ih | factor _ ih | base _ ih | plain _ ih => exact ih
  | binary op _ hb iha ihb => exact happend iha nofun (hmark ihb hb.head?_ne)
  | negate ht ih => exact hmark ih ht.head?_ne
  | number v => exact List.isChain_singleton _
  | name text => exact List.isChain_singleton _
  | group ht ih => exact hopen ht (hclose ht ih)
  | call _ ht ih => exact hmark (hopen ht (hclose ht ih)) nofun
  | limitOfTwo ha hb iha ihb =>
    exact hmark (hopen ha (happend iha nofun (hopen hb (hclose hb ihb)))) nofun
  | limitOfThree ha hb hc iha ihb ihc =>
    refine hmark (hopen ha (happend iha nofun (hopen hb ?_))) nofun
    exact happend ihb nofun (hopen hc (hclose hc ihc))

end GlyphMath.Formula

/-! ## Rows of phrases -/

namespace GlyphMath.Line

open Formula (Token Derives Level NotCalled)

/-- A piece and its token are the same bracket or none, and the token is a function, ends a value or
starts one wherever the piece does.  Only a piece that is of no kind may end no value where its
token ends one. -/
structure Piece.Agrees (p : Piece) : Prop where
  step : p.token.step? = p.step?
  ends : p.kind.endsValue = true → p.token.endsValue = true
  ended : p.token.endsValue = true → p.kind.endsValue = true ∨ p.kind = .other
  starts : p.kind.startsValue = true → p.token.startsValue = true
  function : p.kind = .function → ∃ f, p.token = .function f

section

variable {p : Piece} (hword : p.IsWord) (hp : p.kind ≠ .number) (hbar : p.kind ≠ .bar)

include hword hp hbar

/-- The token of a piece that is neither a digit nor a bar has its kind. -/
theorem kindOf_token_eq : kindOf p.token = p.kind := by
  rw [kindOf_token hword hp, if_neg hbar]

theorem Piece.IsWord.agrees : p.Agrees := by
  have hkind := kindOf_token_eq hword hp hbar
  refine ⟨?_, fun hends => ?_, fun hended => Or.inl ?_, fun hstarts => ?_, fun hfunction => ?_⟩
  · unfold Piece.step?
    rw [← hkind]
    cases p.token <;> rfl
  · rwa [endsValue_eq, hkind]
  · rwa [← hkind, ← endsValue_eq]
  · rwa [startsValue_eq, hkind]
  · rw [hfunction] at hkind
    cases htoken : p.token with
    | function f => exact ⟨f, rfl⟩
    | _ => rw [htoken] at hkind; cases hkind

end

theorem agrees_of_words {row : List Piece} (hwords : ∀ p ∈ row, p.IsWord ∧ p.kind ≠ .bar) :
    ∀ p ∈ row, p.kind ≠ .number → p.Agrees := fun p hp hnumber =>
  (hwords p hp).1.agrees hnumber (hwords p hp).2

section

variable {row : List Piece} {ts : List Token} (h : Reads row ts)
  (hagrees : ∀ p ∈ row, p.kind ≠ .number → p.Agrees)

include h hagrees

theorem Reads.startsValue_head {q : Piece} (hq : q ∈ row.head?)
    (hstarts : q.kind.startsValue = true) : ∃ y ∈ ts.head?, y.startsValue = true := by
  cases h with
  | nil => cases hq
  | piece hp =>
    cases hq
    exact ⟨_, rfl, (hagrees q List.mem_cons_self hp).starts hstarts⟩
  | number => exact ⟨_, rfl, rfl⟩

/-- Tokens that start with an opening bracket are those of a row that does. -/
theorem Reads.opening_head (hopen : ts.head? = some .openParen) :
    ∃ q ∈ row.head?, q.kind = .opening := by
  cases h with
  | nil => cases hopen
  | @piece p rest ts hp =>
    have hstep := (hagrees p List.mem_cons_self hp).step
    rw [Option.some.inj hopen] at hstep
    refine ⟨p, rfl, ?_⟩
    unfold Piece.step? at hstep
    split at hstep
    · assumption
    · cases hstep
    · cases hstep
  | number => cases hopen

theorem Reads.brackets_eq : brackets row = ts.filterMap Token.step? := by
  induction h with
  | nil => rfl
  | @piece p rest ts hp _ ih =>
    have hrest := ih fun q hq => hagrees q (List.mem_cons_of_mem _ hq)
    unfold brackets at hrest ⊢
    rw [List.filterMap_cons, List.filterMap_cons, (hagrees p List.mem_cons_self hp).step, hrest]
  | @number run rest ts hnumbers _ _ _ _ ih =>
    have hrest := ih fun q hq => hagrees q (List.mem_append_right _ hq)
    have hrun : brackets run = [] := by
      refine List.filterMap_eq_nil_iff.2 fun p hp => ?_
      rw [Piece.step?, hnumbers p hp]
    rw [brackets, List.filterMap_append, ← brackets, ← brackets, hrun, hrest]
    rfl

theorem Reads.apart (hvalues : Formula.valuesApart ts = true) : row.IsChain Apart := by
  -- What follows a token that ends a value starts none, on both sides.
  have hnext : ∀ {rest : List Piece} {x : Token} {us : List Token}, Reads rest us →
      (∀ p ∈ rest, p.kind ≠ .number → p.Agrees) →
      (∀ y ∈ us.head?, (x.endsValue && y.startsValue) = false) → x.endsValue = true →
      ∀ q ∈ rest.head?, q.kind.startsValue = false := by
    intro rest x us hreads hrest hvalues hends q hq
    by_contra hstarts
    rw [Bool.not_eq_false] at hstarts
    obtain ⟨y, hy, hstart⟩ := hreads.startsValue_head hrest hq hstarts
    have hboth := hvalues y hy
    rw [hends, hstart] at hboth
    cases hboth
  induction h with
  | nil => exact .nil
  | @piece p rest ts hp hreads ih =>
    have hrest : ∀ q ∈ rest, q.kind ≠ .number → q.Agrees :=
      fun q hq => hagrees q (List.mem_cons_of_mem _ hq)
    rw [Formula.valuesApart_cons_iff] at hvalues
    refine List.isChain_cons.2 ⟨fun q hq => Or.inr ?_, ih hrest hvalues.2⟩
    rw [Bool.and_eq_false_imp]
    exact fun hends => hnext hreads hrest hvalues.1
      ((hagrees p List.mem_cons_self hp).ends hends) q hq
  | @number run rest ts hnumbers _ _ _ hreads ih =>
    have hrest : ∀ q ∈ rest, q.kind ≠ .number → q.Agrees :=
      fun q hq => hagrees q (List.mem_append_right _ hq)
    rw [Formula.valuesApart_cons_iff] at hvalues
    refine List.isChain_append.2 ⟨?_, ih hrest hvalues.2, fun p _ q hq => Or.inr ?_⟩
    · exact (List.pairwise_of_forall_mem_list fun p hp q hq =>
        Or.inl ⟨hnumbers p hp, hnumbers q hq⟩).isChain
    · rw [hnext hreads hrest hvalues.1 rfl q hq, Bool.and_false]

/-- Where every function name of the tokens is called, every function of the row stands before an
opening bracket. -/
theorem Reads.calledBefore (hcalled : ∀ f, ¬ NotCalled f ts) :
    Called (fun q => q.kind = .opening) row := by
  induction h with
  | nil => trivial
  | @piece p rest ts hp hreads ih =>
    have hrest : ∀ q ∈ rest, q.kind ≠ .number → q.Agrees :=
      fun q hq => hagrees q (List.mem_cons_of_mem _ hq)
    refine ⟨fun hfunction => ?_, ih hrest fun f hnot => hcalled f hnot.cons⟩
    obtain ⟨f, htoken⟩ := (hagrees p List.mem_cons_self hp).function hfunction
    apply hreads.opening_head hrest
    by_contra hne
    exact hcalled f ⟨[], ts, by rw [htoken]; rfl, hne⟩
  | @number run rest ts hnumbers _ _ _ _ ih =>
    have hrow := ih (fun q hq => hagrees q (List.mem_append_right _ hq))
      fun f hnot => hcalled f hnot.cons
    refine called_append (fun p hp => ?_) hrow
    rw [hnumbers p hp]
    exact nofun

/-- A row that starts with a closing bracket has tokens that do. -/
theorem Reads.closing_head {q : Piece} (hq : q ∈ row.head?) (hclose : q.kind = .closing) :
    ts.head? = some .closeParen := by
  cases h with
  | nil => cases hq
  | piece hp =>
    cases hq
    have hstep := (hagrees q List.mem_cons_self hp).step
    rw [Piece.step?, hclose] at hstep
    cases htoken : q.token with
    | closeParen => rfl
    | _ =>
      rw [htoken] at hstep
      cases hstep
  | @number run rest ts hnumbers hnumeral =>
    obtain ⟨p, run, rfl⟩ := List.exists_cons_of_ne_nil hnumeral.ne_nil
    cases hq
    rw [hnumbers q List.mem_cons_self] at hclose
    cases hclose

/-- Where a value ends before every closing bracket of the tokens, one ends before those of the
row, or a piece that is of no kind stands there. -/
theorem Reads.closes (hcloses : ts.IsChain Formula.Closes) : row.IsChain fun a b =>
    b.kind = .closing → a.kind.endsValue = true ∨ a.kind = .other := by
  induction h with
  | nil => exact .nil
  | @piece p rest ts hp hreads ih =>
    have hrest : ∀ q ∈ rest, q.kind ≠ .number → q.Agrees :=
      fun q hq => hagrees q (List.mem_cons_of_mem _ hq)
    rw [List.isChain_cons] at hcloses
    refine List.isChain_cons.2 ⟨fun q hq hclose => ?_, ih hrest hcloses.2⟩
    have hhead := hreads.closing_head hrest hq hclose
    exact (hagrees p List.mem_cons_self hp).ended (hcloses.1 _ hhead rfl)
  | @number run rest ts hnumbers _ _ _ hreads ih =>
    have hrest : ∀ q ∈ rest, q.kind ≠ .number → q.Agrees :=
      fun q hq => hagrees q (List.mem_append_right _ hq)
    have hends : ∀ p ∈ run, p.kind.endsValue = true := fun p hp => by rw [hnumbers p hp]; rfl
    refine List.isChain_append.2
      ⟨?_, ih hrest (List.isChain_cons.1 hcloses).2, fun p hp q _ _ => ?_⟩
    · exact (List.pairwise_of_forall_mem_list fun p hp q _ _ => Or.inl (hends p hp)).isChain
    · exact Or.inl (hends p (List.mem_of_getLast? hp))

variable {l : Level} {t : Expr} (hderives : Derives l ts t)

include hderives

theorem Reads.climbs : Climbs 0 0 row := by
  rw [Climbs, h.brackets_eq hagrees]
  exact hderives.height?_eq 0

end

/-- **A row that reads as a phrase is finished.** -/
theorem Reads.finished {row : List Piece} {ts : List Token} {l : Level} {t : Expr}
    (h : Reads row ts) (hwords : ∀ p ∈ row, p.IsWord ∧ p.kind ≠ .bar)
    (hderives : Derives l ts t) : Finished row where
  words p hp := (hwords p hp).1
  called := (h.calledBefore (agrees_of_words hwords) hderives.called).mono
    fun q hq => by rw [Piece.isBracket, Piece.step?, hq]; rfl
  apart := h.apart (agrees_of_words hwords) hderives.valuesApart

end GlyphMath.Line
