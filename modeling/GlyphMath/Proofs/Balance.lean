import GlyphMath.Line.Reading
import GlyphMath.Proofs.Phrases
import GlyphMath.Proofs.Stages

/-!
# Balanced texts and brackets of the parser

* `bracketStep?` -- the step up or down that a character of a text is.
* `ParseError.isMismatch` -- the errors about a bracket without a partner.
* `State.Nests` -- so many brackets are open on the stacks.

The balance check counts characters, and the parser keeps its open brackets among the operators
that wait.  Both climb the same steps: a bracket is a token by itself, and no other token text or
blank contains one.

Principal results:

* `steps_of_tokenize` -- the brackets of a text are those of its tokens.
* `nests_of_step`, `mismatch_of_step` -- what one token does to the open brackets, and when it
  finds one without a partner.
* `isBalanced_of_parse`, `isBalanced_of_mismatch` -- what a tree, and a bracket without a partner,
  say about the text.
* `parse_of_isBalanced` -- the check and the parser agree.
-/

set_option autoImplicit false

namespace GlyphMath.Formula

open Line (height? height?_append filterMap_cons_toList balancedFrom isBalanced linearize
  balanceNotes Config symbolAt)
open Layout (Symbol)
open Decimal (isDigit)

/-! ## Brackets of texts -/

/-- An opening bracket is a step up; a closing bracket and a bar are a step down. -/
def bracketStep? (c : Char) : Option DyckStep :=
  if c == '(' then some .U else if c == ')' || c == '|' then some .D else none

/-- The balance check climbs the brackets of a text. -/
theorem balancedFrom_eq (depth : Nat) (text : List Char) :
    balancedFrom depth text = (height? depth (text.filterMap bracketStep?) == some 0) := by
  induction text generalizing depth with
  | nil => cases depth <;> rfl
  | cons c text ih =>
    rw [balancedFrom, List.filterMap_cons, bracketStep?]
    split
    · exact ih (depth + 1)
    · split
      · cases depth with
        | zero => rfl
        | succ depth => exact ih depth
      · exact ih depth

/-- A class of characters without brackets and bars. -/
theorem bracketStep?_eq_none {sort : Char → Bool} (hopen : sort '(' = false)
    (hclose : sort ')' = false) (hbar : sort '|' = false) {c : Char} (h : sort c = true) :
    bracketStep? c = none := by
  have hne : ∀ d : Char, sort d = false → (c == d) = false := by
    intro d hd
    rw [beq_eq_false_iff_ne]
    rintro rfl
    rw [hd] at h
    cases h
  rw [bracketStep?, hne _ hopen, hne _ hclose, hne _ hbar]
  rfl

theorem step?_signToken {c : Char} (h : isSign c = true) :
    (signToken [c]).step? = bracketStep? c :=
  eq_of_beq (@of_isSign (fun c => (signToken [c]).step? == bracketStep? c) (by decide) c h)

theorem step?_wordToken (word : String) : (wordToken word).step? = none := by
  unfold wordToken
  split <;> rfl

theorem steps_of_lexeme {chunk : Chunk} {l : Lexeme} {text rest : List Char}
    (htake : takeToken? text = some (chunk.text, rest)) (h : chunk.lexeme = .ok l) :
    chunk.text.filterMap bracketStep? = l.token.step?.toList := by
  obtain ⟨token, offset⟩ := chunk
  rcases takeToken?_cases htake with ⟨hliteral, hchars⟩ | ⟨-, hword, -⟩ | ⟨c, rfl, hsign⟩
  · rw [(number_of_lexeme hliteral h).1]
    refine List.filterMap_eq_nil_iff.2 fun c hc => ?_
    rcases hchars c hc with hdigit | rfl
    · exact bracketStep?_eq_none rfl rfl rfl hdigit
    · rfl
  · rw [token_of_lexeme (isLiteral_word hword) h, signToken_word hword, step?_wordToken]
    exact List.filterMap_eq_nil_iff.2 fun c hc => bracketStep?_eq_none rfl rfl rfl (hword c hc)
  · rw [token_of_lexeme (isLiteral_sign hsign) h, step?_signToken hsign]
    cases hstep : bracketStep? c <;> simp [hstep]

/-- **The brackets of a text are those of its tokens.** -/
theorem steps_of_tokenize {text : String} {ls : List Lexeme} (h : tokenize text = .ok ls) :
    text.toList.filterMap bracketStep? = (ls.map (·.token)).filterMap Token.step? := by
  rw [List.filterMap_eq_flatMap_toList Token.step?]
  refine @flatMap_of_tokenize _ (List.filterMap bracketStep?) _ rfl ?_ ?_ _ _ h
  · intro c rest hc
    rw [List.filterMap_cons, bracketStep?_eq_none rfl rfl rfl hc]
  · intro text chunk l rest htake hl
    rw [List.filterMap_append, steps_of_lexeme htake hl]

/-! ## Brackets on the stacks -/

/-- Whether an error is about a bracket without a partner. -/
def ParseError.isMismatch : ParseError → Bool
  | .unmatchedOpen _ => true
  | .unmatchedClose _ => true
  | _ => false

theorem ParseError.not_isMismatch {e : ParseError} (h : e.isApplied = true) :
    ¬ e.isMismatch = true := by
  intro hmismatch
  cases e with
  | missingOperand | arity | tooDeep => cases hmismatch
  | _ => cases h

/-- Whether an entry is the open bracket of a call. -/
def Entry.isCall : Entry → Bool
  | .paren _ _ isCall => isCall
  | _ => false

/-- So many brackets are open, and every open call among them has its function. -/
structure State.Nests (s : State) (depth : Nat) : Prop where
  brackets : s.entries.countP Entry.isParen = depth
  calls : s.frames.length = s.entries.countP Entry.isCall

theorem Entry.isCall_of_isParen {entry : Entry} (h : entry.isParen = false) :
    entry.isCall = false := by
  cases entry <;> first | rfl | cases h

section

variable {entry : Entry} {entries entries' : List Entry} {operands operands' : List Operand}
  {e : ParseError}

theorem countP_reduceGroup (h : reduceGroup entries operands = .ok (entries', operands')) :
    entries'.countP Entry.isParen = entries.countP Entry.isParen ∧
      entries'.countP Entry.isCall = entries.countP Entry.isCall ∧
        ∀ entry ∈ entries'.head?, entry.isParen = true := by
  induction entries generalizing operands with
  | nil =>
    cases h
    exact ⟨rfl, rfl, nofun⟩
  | cons entry entries ih =>
    cases hparen : entry.isParen with
    | true =>
      cases entry with
      | paren =>
        cases h
        exact ⟨rfl, rfl, fun _ hhead => Option.some.inj hhead ▸ rfl⟩
      | binary | negate => cases hparen
    | false =>
      rw [reduceGroup_cons _ _ hparen] at h
      cases hone : reduce entry operands with
      | error e =>
        rw [hone] at h
        cases h
      | ok operands =>
        rw [hone] at h
        rw [List.countP_cons_of_neg (by simp [hparen]),
          List.countP_cons_of_neg (by simp [Entry.isCall_of_isParen hparen])]
        exact ih h

theorem countP_reduceFor {op : Operator}
    (h : reduceFor op entries operands = .ok (entries', operands')) :
    entries'.countP Entry.isParen = entries.countP Entry.isParen ∧
      entries'.countP Entry.isCall = entries.countP Entry.isCall := by
  induction entries generalizing operands with
  | nil =>
    cases h
    exact ⟨rfl, rfl⟩
  | cons entry entries ih =>
    rw [reduceFor] at h
    split at h
    · rename_i hyields
      have hparen := Entry.isParen_of_yieldsTo hyields
      split at h
      · cases h
      · rw [List.countP_cons_of_neg (by simp [hparen]),
          List.countP_cons_of_neg (by simp [Entry.isCall_of_isParen hparen])]
        exact ih h
    · cases h
      exact ⟨rfl, rfl⟩

theorem countP_of_reduceAll (h : reduceAll entries operands = .ok operands') :
    entries.countP Entry.isParen = 0 := by
  induction entries generalizing operands with
  | nil => rfl
  | cons entry entries ih =>
    rw [reduceAll] at h
    split at h
    · cases h
    · rename_i hone
      cases entry with
      | paren => cases hone
      | binary | negate => exact ih h

end

/-! ## Taking tokens -/

section

variable {s s' : State} {ls : List Lexeme} {depth offset : Nat} {l : Lexeme} {e : ParseError}

theorem State.Nests.bracketed {base : Nat} {operands : List Operand}
    {pending : Option (String × Nat)} {previous : Option Token} (hs : s.Nests depth) :
    State.Nests ⟨.paren offset base false :: s.entries, s.frames, operands, pending, previous⟩
      (depth + 1) := by
  refine ⟨?_, ?_⟩ <;> dsimp only <;> rw [List.countP_cons]
  · exact congrArg (· + 1) hs.brackets
  · exact hs.calls

theorem State.Nests.called {base : Nat} {frame : CallFrame} {operands : List Operand}
    {pending : Option (String × Nat)} {previous : Option Token} (hs : s.Nests depth) :
    State.Nests ⟨.paren offset base true :: s.entries, frame :: s.frames, operands, pending,
      previous⟩ (depth + 1) := by
  refine ⟨?_, ?_⟩ <;> dsimp only <;> rw [List.countP_cons]
  · exact congrArg (· + 1) hs.brackets
  · exact congrArg (· + 1) hs.calls

theorem countP_of_reduceGroup_paren {opened base : Nat} {isCall : Bool} {entries : List Entry}
    {operands : List Operand} (hs : s.Nests depth)
    (h : reduceGroup s.entries s.operands = .ok (.paren opened base isCall :: entries, operands)) :
    entries.countP Entry.isParen + 1 = depth ∧
      s.frames.length = entries.countP Entry.isCall + if isCall then 1 else 0 := by
  obtain ⟨hbrackets, hcalls, -⟩ := countP_reduceGroup h
  rw [← hs.brackets, hs.calls, ← hbrackets, ← hcalls, List.countP_cons, List.countP_cons]
  exact ⟨rfl, rfl⟩

/-- A closing bracket closes one of the open brackets. -/
theorem nests_of_closeGroup (hs : s.Nests depth) (h : closeGroup s offset = .ok s') :
    ∃ below, depth = below + 1 ∧ s'.Nests below := by
  unfold closeGroup at h
  split at h
  · cases h
  split at h
  · cases h
  · rename_i hreduce
    obtain ⟨rfl, hcalls⟩ := countP_of_reduceGroup_paren hs hreduce
    split at h
    · cases h
    · rename_i hframes
      rw [hframes] at hcalls
      split at h
      · cases h
      · cases h
        exact ⟨_, rfl, rfl, Nat.succ.inj hcalls⟩
  · rename_i hreduce
    obtain ⟨rfl, hcalls⟩ := countP_of_reduceGroup_paren hs hreduce
    split at h
    · cases h
    · cases h
      exact ⟨_, rfl, rfl, hcalls⟩
    · cases h
  · cases h

/-- A closing bracket finds no partner only where none is open. -/
theorem mismatch_of_closeGroup (hs : s.Nests depth) (h : closeGroup s offset = .error e)
    (hmismatch : e.isMismatch = true) : depth = 0 := by
  unfold closeGroup at h
  split at h
  · cases h
    cases hmismatch
  split at h
  · rename_i hreduce
    cases h
    exact absurd hmismatch (ParseError.not_isMismatch (isApplied_reduceGroup hreduce))
  · rename_i hreduce
    obtain ⟨-, hcalls⟩ := countP_of_reduceGroup_paren hs hreduce
    split at h
    · -- An open call has its function.
      rename_i hframes
      rw [hframes] at hcalls
      cases hcalls
    · split at h
      · rename_i hcall
        cases h
        exact absurd hmismatch (ParseError.not_isMismatch (isApplied_applyCall hcall))
      · cases h
  · split at h
    · cases h
      cases hmismatch
    · cases h
    · cases h
      cases hmismatch
  · -- Operators are applied down to a bracket, if there is one.
    rename_i applied hcall hgroup hreduce
    obtain ⟨entries, operands⟩ := applied
    obtain ⟨hbrackets, -, hhead⟩ := countP_reduceGroup hreduce
    rw [← hs.brackets, ← hbrackets]
    cases entries with
    | nil => rfl
    | cons entry entries =>
      have hparen := hhead entry rfl
      cases entry with
      | paren opened base isCall =>
        cases isCall with
        | true => exact absurd rfl (hcall _ _ _ _)
        | false => exact absurd rfl (hgroup _ _ _ _)
      | binary | negate => cases hparen

/-- **One token** leads from as many open brackets to as many as its step does. -/
theorem nests_of_step (hs : s.Nests depth) (h : step s l = .ok s') :
    ∃ depth', height? depth l.token.step?.toList = some depth' ∧ s'.Nests depth' := by
  obtain ⟨token, offset⟩ := l
  have hbase : ∀ {entries operands},
      entries.countP Entry.isParen = s.entries.countP Entry.isParen →
      entries.countP Entry.isCall = s.entries.countP Entry.isCall →
      State.Nests ⟨entries, s.frames, operands, s.pending, some token⟩ depth :=
    fun hbrackets hcalls => ⟨hbrackets.trans hs.brackets, hs.calls.trans hcalls.symm⟩
  unfold step at h
  split at h
  · dsimp only at h ⊢
    cases token with
    | number | name | function =>
      cases h
      exact ⟨depth, rfl, hs.brackets, hs.calls⟩
    | openParen =>
      cases h
      exact ⟨depth + 1, rfl, hs.bracketed⟩
    | closeParen =>
      obtain ⟨below, rfl, hbelow⟩ := nests_of_closeGroup hs h
      exact ⟨below, rfl, hbelow⟩
    | comma =>
      rw [takeToken] at h
      split at h
      · split at h
        · cases h
        · rename_i hreduce
          obtain ⟨hbrackets, hcalls, -⟩ := countP_reduceGroup hreduce
          cases h
          exact ⟨depth, rfl, hbase hbrackets hcalls⟩
      · cases h
    | operator op =>
      rw [takeToken] at h
      split at h
      · split at h
        · cases h
        · rename_i hreduce
          obtain ⟨hbrackets, hcalls⟩ := countP_reduceFor hreduce
          cases h
          exact ⟨depth, rfl, hbase hbrackets hcalls⟩
      · split at h
        · cases h
          exact ⟨depth, rfl, hbase rfl rfl⟩
        · cases h
  · split at h
    · rename_i htoken
      dsimp only at htoken
      subst htoken
      cases h
      exact ⟨depth + 1, rfl, hs.called⟩
    · cases h

/-- One token finds a bracket without a partner only where its step leads below the ground. -/
theorem mismatch_of_step (hs : s.Nests depth) (h : step s l = .error e)
    (hmismatch : e.isMismatch = true) : height? depth l.token.step?.toList = none := by
  obtain ⟨token, offset⟩ := l
  unfold step at h
  split at h
  · dsimp only at h ⊢
    cases token with
    | number | name | function | openParen => cases h
    | closeParen =>
      obtain rfl := mismatch_of_closeGroup hs h hmismatch
      rfl
    | comma =>
      rw [takeToken] at h
      split at h
      · split at h
        · rename_i hreduce
          cases h
          exact absurd hmismatch (ParseError.not_isMismatch (isApplied_reduceGroup hreduce))
        · cases h
      · cases h
        cases hmismatch
    | operator op =>
      rw [takeToken] at h
      split at h
      · split at h
        · rename_i hreduce
          cases h
          exact absurd hmismatch (ParseError.not_isMismatch (isApplied_reduceFor hreduce))
        · cases h
      · split at h
        · cases h
        · cases h
          cases hmismatch
  · split at h
    · cases h
    · cases h
      cases hmismatch

/-- **Any number of tokens** lead to as many open brackets as their steps do. -/
theorem nests_of_steps (hs : s.Nests depth) (h : steps s ls = .ok s') :
    ∃ depth', height? depth ((ls.map (·.token)).filterMap Token.step?) = some depth' ∧
      s'.Nests depth' := by
  induction ls generalizing s depth with
  | nil =>
    cases h
    exact ⟨depth, rfl, hs⟩
  | cons l ls ih =>
    rw [steps] at h
    split at h
    · cases h
    · rename_i s₁ hone
      obtain ⟨depth₁, hdepth₁, hs₁⟩ := nests_of_step hs hone
      rw [List.map_cons, filterMap_cons_toList, height?_append, hdepth₁]
      exact ih hs₁ h

/-- Tokens find a bracket without a partner only where their steps lead below the ground. -/
theorem mismatch_of_steps (hs : s.Nests depth) (h : steps s ls = .error e)
    (hmismatch : e.isMismatch = true) :
    height? depth ((ls.map (·.token)).filterMap Token.step?) = none := by
  induction ls generalizing s depth with
  | nil => cases h
  | cons l ls ih =>
    rw [List.map_cons, filterMap_cons_toList, height?_append]
    rw [steps] at h
    split at h
    · rename_i hone
      cases h
      rw [mismatch_of_step hs hone hmismatch]
      rfl
    · rename_i s₁ hone
      obtain ⟨depth₁, hdepth₁, hs₁⟩ := nests_of_step hs hone
      rw [hdepth₁]
      exact ih hs₁ h

theorem nests_of_finish {t : Expr} (hs : s.Nests depth) (h : finish s = .ok t) : depth = 0 := by
  unfold finish at h
  split at h
  · cases h
  · split at h
    · cases h
    all_goals
      rename_i hreduce
      exact hs.brackets.symm.trans (countP_of_reduceAll hreduce)

/-- The end finds a bracket without a partner only where one is left open. -/
theorem mismatch_of_finish (hs : s.Nests depth) (h : finish s = .error e)
    (hmismatch : e.isMismatch = true) : depth ≠ 0 := by
  unfold finish at h
  split at h
  · cases h
    cases hmismatch
  · split at h
    · rename_i hreduce
      cases h
      rcases isApplied_reduceAll hreduce with happlied | ⟨-, -, hopen⟩
      · exact absurd hmismatch (ParseError.not_isMismatch happlied)
      · rw [← hs.brackets]
        exact Nat.ne_of_gt (List.countP_pos_iff.2 hopen)
    · cases h
      cases hmismatch
    · cases h
    · cases h
      cases hmismatch

end

/-! ## Both agree -/

section

variable {text : String} {ls : List Lexeme} {t : Expr} {e : ParseError}

theorem nests_start : State.start.Nests 0 := ⟨rfl, rfl⟩

theorem height?_of_parseTokens (h : parseTokens ls = .ok t) :
    height? 0 ((ls.map (·.token)).filterMap Token.step?) = some 0 := by
  unfold parseTokens at h
  split at h
  · cases h
  · rename_i hsteps
    obtain ⟨depth, hdepth, hs⟩ := nests_of_steps nests_start hsteps
    rw [hdepth, nests_of_finish hs h]

theorem height?_of_mismatch (h : parseTokens ls = .error e) (hmismatch : e.isMismatch = true) :
    height? 0 ((ls.map (·.token)).filterMap Token.step?) ≠ some 0 := by
  unfold parseTokens at h
  split at h
  · rename_i hsteps
    cases h
    rw [mismatch_of_steps nests_start hsteps hmismatch]
    nofun
  · rename_i hsteps
    obtain ⟨depth, hdepth, hs⟩ := nests_of_steps nests_start hsteps
    rw [hdepth]
    exact fun hground => mismatch_of_finish hs h hmismatch (Option.some.inj hground)

/-- The balance check climbs the brackets of the tokens. -/
theorem isBalanced_of_tokenize (h : tokenize text = .ok ls) :
    isBalanced text = (height? 0 ((ls.map (·.token)).filterMap Token.step?) == some 0) := by
  rw [isBalanced, balancedFrom_eq, steps_of_tokenize h]

/-- **A text with a tree** is balanced. -/
theorem isBalanced_of_parse (h : parse text = .ok t) : isBalanced text = true := by
  unfold parse at h
  split at h
  · cases h
  · rename_i ls hls
    rw [isBalanced_of_tokenize hls, height?_of_parseTokens h]
    rfl

/-- **A text with a bracket without a partner** is not balanced. -/
theorem isBalanced_of_mismatch (h : parse text = .error e) (hmismatch : e.isMismatch = true) :
    isBalanced text = false := by
  unfold parse at h
  split at h
  · cases h
    cases hmismatch
  · rename_i ls hls
    rw [isBalanced_of_tokenize hls]
    exact beq_false_of_ne (height?_of_mismatch h hmismatch)

theorem isBalanced_of_balanceNotes (h : .unbalanced ∉ balanceNotes text) :
    isBalanced text = true := by
  unfold balanceNotes at h
  split at h
  · assumption
  · exact absurd List.mem_cons_self h

/-- A line without a note on its brackets is balanced. -/
theorem isBalanced_of_linearize {config : Config} {symbols : List Symbol}
    (h : .unbalanced ∉ (linearize config symbols).warnings) :
    isBalanced (linearize config symbols).text = true := by
  unfold linearize at h ⊢
  split
  · rfl
  · rename_i hselect
    rw [hselect] at h
    exact isBalanced_of_balanceNotes fun hmem => h (List.mem_append_right _ hmem)

end

/-- **The balance check and the parser agree.**  A text that is not balanced has no tree, and in a
balanced text, such as a line without a note on its brackets, the parser misses no bracket. -/
theorem parse_of_isBalanced :
    (∀ text, isBalanced text = false → ∃ e, parse text = .error e) ∧
    (∀ text, isBalanced text = true → ∀ offset,
      parse text ≠ .error (.unmatchedOpen offset) ∧
        parse text ≠ .error (.unmatchedClose offset)) ∧
    (∀ config symbols, .unbalanced ∉ (linearize config symbols).warnings → ∀ offset,
      parse (linearize config symbols).text ≠ .error (.unmatchedOpen offset) ∧
        parse (linearize config symbols).text ≠ .error (.unmatchedClose offset)) := by
  have hagree : ∀ text, isBalanced text = true → ∀ offset,
      parse text ≠ .error (.unmatchedOpen offset) ∧
        parse text ≠ .error (.unmatchedClose offset) := by
    intro text hbalanced offset
    refine ⟨fun h => ?_, fun h => ?_⟩ <;>
    · rw [isBalanced_of_mismatch h rfl] at hbalanced
      cases hbalanced
  refine ⟨fun text hbalanced => ?_, hagree, fun config symbols hnote =>
    hagree _ (isBalanced_of_linearize hnote)⟩
  cases h : parse text with
  | error e => exact ⟨e, rfl⟩
  | ok t =>
    rw [isBalanced_of_parse h] at hbalanced
    cases hbalanced

/-- A bracket that a bar closes. -/
def barClosed : List Symbol :=
  [symbolAt "sin" 0.0 0.0 18.0 20.0, symbolAt "(" 20.0 0.0 24.0 20.0,
    symbolAt "x" 26.0 0.0 36.0 20.0, symbolAt "|" 38.0 0.0 40.0 20.0]

theorem parse_of_isBalanced_bar :
    (isBalanced ")(" = false ∧ ∃ e, parse ")(" = .error e) ∧
    (isBalanced "(2 3|" = true ∧ ∀ offset, parse "(2 3|" ≠ .error (.unmatchedOpen offset) ∧
      parse "(2 3|" ≠ .error (.unmatchedClose offset)) ∧
    (linearize {} barClosed).text = "sin(x|" ∧
      .unbalanced ∉ (linearize {} barClosed).warnings ∧
        ∀ offset, parse (linearize {} barClosed).text ≠ .error (.unmatchedOpen offset) ∧
          parse (linearize {} barClosed).text ≠ .error (.unmatchedClose offset) := by
  obtain ⟨hnone, hboth, hline⟩ := parse_of_isBalanced
  have hnote : .unbalanced ∉ (linearize {} barClosed).warnings := by decide +kernel
  exact ⟨⟨by decide +kernel, hnone ")(" (by decide +kernel)⟩,
    ⟨by decide +kernel, hboth "(2 3|" (by decide +kernel)⟩,
    by decide +kernel, hnote, hline {} barClosed hnote⟩

end GlyphMath.Formula
