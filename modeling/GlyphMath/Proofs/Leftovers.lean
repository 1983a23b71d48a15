import GlyphMath.Proofs.Soundness

/-!
# Operands that are left over

* `ParseError.isLoose` -- the errors about a value that nothing joins and about a function name
  that is not called.
* `NotCalled` -- a function name stands somewhere without its bracket.

Principal result:

* `notCalled_of_parseTokens` -- where values stand apart and there is no comma, no operand is left
  over, and a function name is out of place only where it is not called.
-/

set_option autoImplicit false

namespace GlyphMath.Formula

/-! ## Errors that are loose ends -/

/-- Whether an error is about an operand that is left over or a function name out of place. -/
def ParseError.isLoose : ParseError → Bool
  | .leftoverOperands _ => true
  | .misplacedFunction _ _ => true
  | _ => false

theorem ParseError.isLoose_of_isApplied {e : ParseError} (h : e.isApplied = true) :
    e.isLoose = false := by
  cases e <;> first | rfl | cases h

theorem isLoose_reduceAll {entries : List Entry} {operands : List Operand} {e : ParseError}
    (h : reduceAll entries operands = .error e) : e.isLoose = false := by
  rcases isApplied_reduceAll h with happlied | ⟨offset, rfl, -⟩
  · exact e.isLoose_of_isApplied happlied
  · rfl

/-! ## Operands of a bracket -/

section

variable {ts : List Token} {entries entries' : List Entry} {frames : List CallFrame}
  {operands operands' : List Operand} {l m : Level} {opened base offset : Nat} {e : ParseError}

theorem Arguments.eq_nil {args : List Expr} (h : Arguments ts args) (hcomma : .comma ∉ ts) :
    args = [] := by
  cases h with
  | nil => rfl
  | snoc => simp at hcomma

/-- Without commas nothing stands between an open bracket and a phrase to come. -/
theorem Open.length_of_group
    (h : Open ts (.paren opened base false :: entries) frames operands l)
    (hcomma : .comma ∉ ts) : operands.length = base := by
  cases h with
  | group offset hopen hargs =>
    obtain rfl := hargs.eq_nil fun hmem => hcomma (by simp [hmem])
    rfl

theorem Ended.length_of_group
    (h : Ended ts (.paren opened base false :: entries) frames operands m)
    (hcomma : .comma ∉ ts) : operands.length = base + 1 := by
  obtain ⟨hopen, -, -⟩ := h
  rw [List.length_cons, hopen.length_of_group fun hmem => hcomma (List.mem_append_left _ hmem)]

/-- Without commas one operand at most is left at the end. -/
theorem Ended.length_of_all (h : Ended ts entries frames operands m) (hcomma : .comma ∉ ts)
    (hreduce : reduceAll entries operands = .ok operands') : operands'.length = 1 := by
  induction entries generalizing operands m with
  | nil =>
    cases hreduce
    obtain ⟨hopen, -, -⟩ := h
    cases hopen with
    | start hargs =>
      obtain rfl := hargs.eq_nil fun hmem => hcomma (List.mem_append_left _ hmem)
      rfl
  | cons entry entries ih =>
    rw [reduceAll] at hreduce
    split at hreduce
    · cases hreduce
    · rename_i hone
      refine ih (h.pop ?_ hone) hreduce
      cases entry with
      | paren => cases hone
      | negate | binary => rfl

/-- Without commas nothing is left at the end where a phrase is to come. -/
theorem Open.length_of_all (h : Open ts entries frames operands l) (hcomma : .comma ∉ ts)
    (hreduce : reduceAll entries operands = .ok operands') : operands'.length = 0 := by
  cases entries with
  | nil =>
    cases hreduce
    cases h with
    | start hargs =>
      obtain rfl := hargs.eq_nil hcomma
      rfl
  | cons entry entries =>
    obtain ⟨e, he⟩ := h.reduce_eq_error
    rw [reduceAll, he] at hreduce
    cases hreduce

/-- The bracket that operators are applied down to, where a phrase is to come. -/
theorem Open.reduceGroup_eq (h : Open ts entries frames operands l)
    (hreduce : reduceGroup entries operands = .ok (entries', operands')) :
    entries' = entries ∧ operands' = operands := by
  cases entries with
  | nil =>
    cases hreduce
    exact ⟨rfl, rfl⟩
  | cons entry entries =>
    cases hparen : entry.isParen with
    | true =>
      cases entry with
      | paren =>
        cases hreduce
        exact ⟨rfl, rfl⟩
      | binary | negate => cases hparen
    | false =>
      obtain ⟨e, he⟩ := h.reduce_eq_error
      rw [reduceGroup_cons _ _ hparen, he] at hreduce
      cases hreduce

theorem isLoose_closeGroup {s : State}
    (hgroup : ∀ {opened base entries' operands'},
      reduceGroup s.entries s.operands = .ok (.paren opened base false :: entries', operands') →
        operands'.length ≤ base + 1)
    (h : closeGroup s offset = .error e) : e.isLoose = false := by
  unfold closeGroup at h
  split at h
  · cases h
    rfl
  split at h
  · rename_i hreduce
    cases h
    exact ParseError.isLoose_of_isApplied (isApplied_reduceGroup hreduce)
  · split at h
    · cases h
      rfl
    · split at h
      · rename_i hcall
        cases h
        exact ParseError.isLoose_of_isApplied (isApplied_applyCall hcall)
      · cases h
  · rename_i opened base entries' operands' hreduce
    have hlength := hgroup hreduce
    obtain hnone | hone : operands'.length - base = 0 ∨ operands'.length - base = 1 := by omega
    · rw [hnone] at h
      cases h
      rfl
    · rw [hone] at h
      cases h
  · cases h
    rfl

theorem isLoose_finish {s : State} (hpending : s.pending = none)
    (hall : ∀ {operands'}, reduceAll s.entries s.operands = .ok operands' → operands'.length ≤ 1)
    (h : finish s = .error e) : e.isLoose = false := by
  unfold finish at h
  rw [hpending] at h
  dsimp only at h
  cases hreduce : reduceAll s.entries s.operands with
  | error e' =>
    rw [hreduce] at h
    cases h
    exact isLoose_reduceAll hreduce
  | ok operands =>
    rw [hreduce] at h
    have hlength := hall hreduce
    match operands, h with
    | [], h =>
      cases h
      rfl
    | _ :: _ :: _, _ => simp at hlength

/-! ## Taking tokens -/

/-- A function name stands among the tokens and no bracket follows it. -/
def NotCalled (f : String) (ts : List Token) : Prop :=
  ∃ before after, ts = before ++ .function f :: after ∧ after.head? ≠ some .openParen

/-- **One token.**  Where values stand apart and there is no comma, only a function name without
its bracket is out of place. -/
theorem notCalled_of_step {s : State} {lexeme : Lexeme} (h : Stands ts s)
    (hcomma : .comma ∉ ts) (hapart : s.afterValue = true → lexeme.token.startsValue = false)
    (hstep : step s lexeme = .error e) (hloose : e.isLoose = true) :
    ∃ f place, e = .misplacedFunction f place ∧
      ∀ rest, NotCalled f (ts ++ lexeme.token :: rest) := by
  obtain ⟨token, offset⟩ := lexeme
  cases h with
  | @named f place ts _ _ _ _ hopen =>
    simp only [step] at hstep
    split at hstep
    · cases hstep
    · rename_i htoken
      cases hstep
      refine ⟨f, place, rfl, fun rest => ⟨ts, token :: rest, by simp, ?_⟩⟩
      simpa using htoken
  | expecting hopen =>
    have hafter := hopen.afterValue
    simp only [step] at hstep
    cases token with
    | number | name | function | openParen => cases hstep
    | comma =>
      rw [takeToken, hafter, if_neg (by decide)] at hstep
      cases hstep
      cases hloose
    | closeParen =>
      rw [isLoose_closeGroup (fun hreduce => ?_) hstep] at hloose
      · cases hloose
      · obtain ⟨rfl, rfl⟩ := hopen.reduceGroup_eq hreduce
        exact Nat.le_succ_of_le (Nat.le_of_eq (hopen.length_of_group hcomma))
    | operator op =>
      rw [takeToken, hafter, if_neg (by decide)] at hstep
      split at hstep
      · cases hstep
      · cases hstep
        cases hloose
  | value hended =>
    have hafter := hended.afterValue
    have hstarts := hapart hafter
    simp only [step] at hstep
    cases token with
    | number | name | function | openParen => cases hstarts
    | comma =>
      rw [takeToken, hafter, if_pos rfl] at hstep
      split at hstep
      · rename_i hreduce
        cases hstep
        rw [ParseError.isLoose_of_isApplied (isApplied_reduceGroup hreduce)] at hloose
        cases hloose
      · cases hstep
    | closeParen =>
      rw [isLoose_closeGroup (fun hreduce => ?_) hstep] at hloose
      · cases hloose
      · exact Nat.le_of_eq ((hended.group hreduce).1.length_of_group hcomma)
    | operator op =>
      rw [takeToken, hafter, if_pos rfl] at hstep
      split at hstep
      · rename_i hreduce
        cases hstep
        rw [ParseError.isLoose_of_isApplied (isApplied_reduceFor hreduce)] at hloose
        cases hloose
      · cases hstep

/-- **Any number of tokens.**  By induction on the tokens, which keep the stacks the part of a
sentence. -/
theorem notCalled_of_steps {s : State} {ls : List Lexeme} (h : Stands ts s)
    (hcomma : .comma ∉ ts ++ ls.map (·.token))
    (hapart : valuesApart (ts ++ ls.map (·.token)) = true)
    (hsteps : steps s ls = .error e) (hloose : e.isLoose = true) :
    ∃ f place, e = .misplacedFunction f place ∧ NotCalled f (ts ++ ls.map (·.token)) := by
  induction ls generalizing ts s with
  | nil => cases hsteps
  | cons lexeme ls ih =>
    have hnext : s.afterValue = true → lexeme.token.startsValue = false := by
      intro hafter
      unfold State.afterValue at hafter
      rw [h.previous_eq] at hafter
      split at hafter
      · rename_i x hx
        exact startsValue_of_valuesApart hapart hx hafter
      · cases hafter
    rw [steps] at hsteps
    split at hsteps
    · rename_i hstep
      cases hsteps
      obtain ⟨f, place, he, hnot⟩ := notCalled_of_step h
        (fun hmem => hcomma (List.mem_append_left _ hmem)) hnext hstep hloose
      exact ⟨f, place, he, hnot _⟩
    · rename_i hstep
      rw [List.map_cons, List.append_cons] at hcomma hapart ⊢
      exact ih (stands_of_step h hnext hstep) hcomma hapart hsteps

theorem notCalled_of_finish {s : State} (h : Stands ts s) (hcomma : .comma ∉ ts)
    (hfinish : finish s = .error e) (hloose : e.isLoose = true) :
    ∃ f place, e = .misplacedFunction f place ∧ NotCalled f ts := by
  cases h with
  | @named f place ts _ _ _ _ hopen =>
    cases hfinish
    exact ⟨f, place, rfl, ts, [], rfl, nofun⟩
  | expecting hopen =>
    have hone := isLoose_finish rfl
      (fun hall => Nat.le_succ_of_le (Nat.le_of_eq (hopen.length_of_all hcomma hall))) hfinish
    rw [hone] at hloose
    cases hloose
  | value hended =>
    have hone := isLoose_finish rfl
      (fun hall => Nat.le_of_eq (hended.length_of_all hcomma hall)) hfinish
    rw [hone] at hloose
    cases hloose

end

/-- **Nothing is left over.**  Where values stand apart and there is no comma, no operand is left
over, and only a function name without its bracket is out of place. -/
theorem notCalled_of_parseTokens {ls : List Lexeme} {e : ParseError}
    (h : parseTokens ls = .error e) (hcomma : .comma ∉ ls.map (·.token))
    (hapart : valuesApart (ls.map (·.token)) = true) (hloose : e.isLoose = true) :
    ∃ f place, e = .misplacedFunction f place ∧ NotCalled f (ls.map (·.token)) := by
  have hstart : Stands [] State.start := .expecting (.start .nil)
  unfold parseTokens at h
  split at h
  · rename_i hsteps
    cases h
    exact notCalled_of_steps hstart (by simpa using hcomma) (by simpa using hapart) hsteps hloose
  · rename_i s hsteps
    have hstands := stands_of_steps hstart (by simpa using hapart) hsteps
    exact notCalled_of_finish hstands (by simpa using hcomma) h hloose

end GlyphMath.Formula
