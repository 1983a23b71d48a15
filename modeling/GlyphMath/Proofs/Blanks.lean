import GlyphMath.Proofs.LongestMatch
import GlyphMath.Proofs.Stacks

/-!
# Blanks make no difference

* `Lexeme.unplaced`, `Entry.unplaced`, `State.unplaced`, `ParseError.unplaced` -- tokens, stacks and
  errors whose places are forgotten.
* `forget` -- an outcome whose places are forgotten.
* `Alike` -- outcomes that differ in nothing but the place of an error.

The parser keeps the places of tokens on its stacks, and computes one place from another.  No place
decides anything: whoever forgets the places before a token is taken comes to the stacks, or to the
error, of one who forgets them afterwards.

Principal results:

* `step_unplaced`, `parseTokens_unplaced` -- one token, and any number of them.
* `parse_alike` -- the same tokens at other places, and a text with other blanks between the same
  tokens, have the same tree or the same error.
-/

set_option autoImplicit false

namespace GlyphMath.Formula

/-! ## Forgetting places -/

/-- A token whose place is forgotten. -/
def Lexeme.unplaced (l : Lexeme) : Lexeme := { l with offset := 0 }

def Chunk.unplaced (c : Chunk) : Chunk := { c with offset := 0 }

def Entry.unplaced : Entry → Entry
  | .binary op _ base => .binary op 0 base
  | .negate _ base => .negate 0 base
  | .paren _ base isCall => .paren 0 base isCall

def CallFrame.unplaced (frame : CallFrame) : CallFrame := { frame with offset := 0 }

/-- Stacks whose places are forgotten. -/
def State.unplaced (s : State) : State where
  entries := s.entries.map Entry.unplaced
  frames := s.frames.map CallFrame.unplaced
  operands := s.operands
  pending := s.pending.map fun p => (p.1, 0)
  previous := s.previous

def LexError.unplaced : LexError → LexError
  | .unexpectedChar found _ => .unexpectedChar found 0
  | .numberOutOfRange literal _ => .numberOutOfRange literal 0

/-- An error whose place is forgotten.  All else that it says is kept. -/
def ParseError.unplaced : ParseError → ParseError
  | .lex e => .lex e.unplaced
  | .unmatchedClose _ => .unmatchedClose 0
  | .unmatchedOpen _ => .unmatchedOpen 0
  | .missingOperand operator _ => .missingOperand operator 0
  | .leftoverOperands count => .leftoverOperands count
  | .empty => .empty
  | .emptyGroup _ => .emptyGroup 0
  | .unexpectedComma _ => .unexpectedComma 0
  | .misplacedFunction name _ => .misplacedFunction name 0
  | .arity name expected found => .arity name expected found
  | .tooDeep _ limit => .tooDeep 0 limit

/-- An outcome whose places are forgotten: those of the error, and those in what `f` forgets. -/
def forget {α β : Type} (f : α → β) : Except ParseError α → Except ParseError β
  | .ok a => .ok (f a)
  | .error e => .error e.unplaced

theorem forget_map {α β γ : Type} (f : β → γ) (g : α → β) (r : Except ParseError α) :
    forget f (r.map g) = forget (f ∘ g) r := by
  cases r <;> rfl

theorem map_forget {α β γ : Type} (f : α → β) (g : β → γ) (r : Except ParseError α) :
    (forget f r).map g = forget (g ∘ f) r := by
  cases r <;> rfl

/-! ## Applying operators and functions -/

section

variable (entry : Entry) (entries : List Entry) (operands : List Operand)

theorem node_unplaced (e : Expr) (childHeight offset : Nat) :
    Operand.node e childHeight 0 = forget id (Operand.node e childHeight offset) := by
  unfold Operand.node
  split <;> rfl

theorem Entry.isParen_unplaced : entry.unplaced.isParen = entry.isParen := by
  cases entry <;> rfl

theorem Entry.yieldsTo_unplaced (op : Operator) :
    entry.unplaced.yieldsTo op = entry.yieldsTo op := by
  cases entry <;> rfl

/-- An operator is applied without a look at its place. -/
theorem reduce_unplaced : reduce entry.unplaced operands = forget id (reduce entry operands) := by
  cases entry with
  | paren place base isCall => rfl
  | negate place base =>
    simp only [Entry.unplaced, reduce]
    split
    · rfl
    · cases operands with
      | nil => rfl
      | cons only rest =>
        dsimp only
        rw [node_unplaced _ _ place]
        cases Operand.node (.call "neg" [only.expr]) only.height place <;> rfl
  | binary op place base =>
    simp only [Entry.unplaced, reduce]
    split
    · rfl
    · rcases operands with _ | ⟨rhs, _ | ⟨lhs, rest⟩⟩
      · rfl
      · rfl
      · dsimp only
        rw [node_unplaced _ _ place]
        cases Operand.node (joined op lhs rhs).1 (joined op lhs rhs).2 place <;> rfl

theorem reduceAll_unplaced :
    reduceAll (entries.map Entry.unplaced) operands = forget id (reduceAll entries operands) := by
  induction entries generalizing operands with
  | nil => rfl
  | cons entry entries ih =>
    rw [List.map_cons, reduceAll, reduceAll, reduce_unplaced]
    cases reduce entry operands with
    | error e => rfl
    | ok operands => exact ih operands

/-- The entries on top that are of some sort are applied without a look at their places. -/
theorem reduceWhile_unplaced {sort : Entry → Bool}
    (hsort : ∀ entry : Entry, sort entry.unplaced = sort entry) :
    (reduceAll ((entries.map Entry.unplaced).takeWhile sort) operands).map
        ((entries.map Entry.unplaced).dropWhile sort, ·) =
      forget (Prod.map (List.map Entry.unplaced) id)
        ((reduceAll (entries.takeWhile sort) operands).map (entries.dropWhile sort, ·)) := by
  have hcomp : sort ∘ Entry.unplaced = sort := funext hsort
  rw [List.takeWhile_map, List.dropWhile_map, hcomp, reduceAll_unplaced, map_forget, forget_map]
  rfl

theorem reduceGroup_unplaced :
    reduceGroup (entries.map Entry.unplaced) operands =
      forget (Prod.map (List.map Entry.unplaced) id) (reduceGroup entries operands) := by
  rw [reduceGroup_eq, reduceGroup_eq]
  exact reduceWhile_unplaced entries operands fun entry => by rw [Entry.isParen_unplaced]

theorem reduceFor_unplaced (op : Operator) :
    reduceFor op (entries.map Entry.unplaced) operands =
      forget (Prod.map (List.map Entry.unplaced) id) (reduceFor op entries operands) := by
  rw [reduceFor_eq, reduceFor_eq]
  exact reduceWhile_unplaced entries operands fun entry => entry.yieldsTo_unplaced op

theorem applyCall_unplaced (frame : CallFrame) :
    applyCall frame.unplaced operands = forget id (applyCall frame operands) := by
  unfold applyCall CallFrame.unplaced
  dsimp only
  split
  · rw [node_unplaced _ _ frame.offset]
    generalize Operand.node _ _ frame.offset = made
    cases made <;> rfl
  · rfl

end

/-! ## Taking tokens -/

section

variable (s : State)

/-- The one place that is computed is that of a comma before a closing bracket, and nothing depends
on it either. -/
theorem closeGroup_unplaced (place : Nat) :
    closeGroup s.unplaced 0 = forget State.unplaced (closeGroup s place) := by
  have hgroup : reduceGroup s.unplaced.entries s.unplaced.operands = _ :=
    reduceGroup_unplaced s.entries s.operands
  unfold closeGroup
  by_cases hcomma : s.previous = some .comma
  · have hcomma' : s.unplaced.previous = some .comma := hcomma
    rw [if_pos hcomma, if_pos hcomma']
    rfl
  · have hcomma' : ¬ s.unplaced.previous = some .comma := hcomma
    rw [if_neg hcomma, if_neg hcomma', hgroup]
    dsimp only [State.unplaced]
    rcases reduceGroup s.entries s.operands with
      e | ⟨_ | ⟨_ | _ | ⟨opened, base, _ | _⟩, entries⟩, operands⟩
    case ok.cons.paren.false =>
      simp only [forget, Prod.map, id, List.map_cons, Entry.unplaced]
      rcases operands.length - base with _ | _ | count <;> rfl
    case ok.cons.paren.true =>
      cases s.frames with
      | nil => rfl
      | cons frame frames =>
        simp only [forget, Prod.map, id, List.map_cons, Entry.unplaced, applyCall_unplaced]
        cases applyCall frame operands <;> rfl
    all_goals rfl

theorem afterValue_unplaced : s.unplaced.afterValue = s.afterValue := rfl

theorem takeToken_unplaced (token : Token) (place : Nat) :
    takeToken s.unplaced token 0 = forget State.unplaced (takeToken s token place) := by
  cases token with
  | number v => rfl
  | name text => rfl
  | function f => rfl
  | openParen => rfl
  | closeParen => exact closeGroup_unplaced s place
  | comma =>
    rw [takeToken, takeToken, afterValue_unplaced]
    cases s.afterValue with
    | false => rfl
    | true =>
      dsimp only [State.unplaced]
      rw [reduceGroup_unplaced]
      rcases reduceGroup s.entries s.operands with e | ⟨entries, operands⟩ <;> rfl
  | operator op =>
    rw [takeToken, takeToken, afterValue_unplaced]
    cases s.afterValue with
    | false =>
      by_cases hsub : op = .sub
      · subst hsub
        rfl
      · simp only [if_neg hsub]
        rfl
    | true =>
      dsimp only [State.unplaced]
      rw [reduceFor_unplaced]
      rcases reduceFor op s.entries s.operands with e | ⟨entries, operands⟩ <;> rfl

/-- **One token** is taken without a look at its place, or at those on the stacks. -/
theorem step_unplaced (l : Lexeme) :
    step s.unplaced l.unplaced = forget State.unplaced (step s l) := by
  obtain ⟨entries, frames, operands, pending, previous⟩ := s
  cases pending with
  | none => exact takeToken_unplaced _ l.token l.offset
  | some name =>
    show (if l.unplaced.token = .openParen then _ else _) =
      forget State.unplaced (if l.token = .openParen then _ else _)
    by_cases hopen : l.token = .openParen
    · have hopen' : l.unplaced.token = .openParen := hopen
      rw [if_pos hopen, if_pos hopen']
      rfl
    · have hopen' : ¬ l.unplaced.token = .openParen := hopen
      rw [if_neg hopen, if_neg hopen']
      rfl

theorem steps_unplaced (ls : List Lexeme) :
    steps s.unplaced (ls.map Lexeme.unplaced) = forget State.unplaced (steps s ls) := by
  induction ls generalizing s with
  | nil => rfl
  | cons l ls ih =>
    rw [List.map_cons, steps, steps, step_unplaced]
    cases step s l with
    | error e => rfl
    | ok s => exact ih s

theorem finish_unplaced : finish s.unplaced = forget id (finish s) := by
  obtain ⟨entries, frames, operands, pending, previous⟩ := s
  cases pending with
  | some name => rfl
  | none =>
    simp only [finish, State.unplaced, Option.map_none]
    rw [reduceAll_unplaced]
    rcases reduceAll entries operands with e | ⟨_ | ⟨operand, _ | ⟨next, rest⟩⟩⟩ <;> rfl

end

/-- **The places of tokens matter to the places of errors alone.** -/
theorem parseTokens_unplaced (ls : List Lexeme) :
    parseTokens (ls.map Lexeme.unplaced) = forget id (parseTokens ls) := by
  have hsteps : steps State.start (ls.map Lexeme.unplaced) = _ := steps_unplaced State.start ls
  rw [parseTokens, parseTokens, hsteps]
  cases steps State.start ls with
  | error e => rfl
  | ok s => exact finish_unplaced s

/-! ## Texts with other blanks -/

theorem lexeme_unplaced (chunk : Chunk) :
    chunk.unplaced.lexeme =
      (chunk.lexeme.map Lexeme.unplaced).mapError LexError.unplaced := by
  unfold Chunk.lexeme Chunk.unplaced
  dsimp only
  split
  · split <;> rfl
  · rfl

theorem lexemes_unplaced (chunks : List Chunk) :
    lexemes (chunks.map Chunk.unplaced) =
      ((lexemes chunks).map (List.map Lexeme.unplaced)).mapError LexError.unplaced := by
  induction chunks with
  | nil => rfl
  | cons chunk chunks ih =>
    rw [List.map_cons, lexemes, lexemes, lexeme_unplaced, ih]
    rcases chunk.lexeme with e | l
    · rfl
    · rcases lexemes chunks with e | ls <;> rfl

theorem unplaced_congr {chunks chunks' : List Chunk}
    (h : chunks.map (·.text) = chunks'.map (·.text)) :
    chunks.map Chunk.unplaced = chunks'.map Chunk.unplaced := by
  have hof : ∀ cs : List Chunk, cs.map Chunk.unplaced = (cs.map (·.text)).map (⟨·, 0⟩) := by
    intro cs
    rw [List.map_map]
    rfl
  rw [hof, hof, h]

/-! ## Outcomes that are alike -/

/-- Outcomes that differ in nothing but the place of an error. -/
inductive Alike : Except ParseError Expr → Except ParseError Expr → Prop where
  | ok (t : Expr) : Alike (.ok t) (.ok t)
  | error {e e' : ParseError} (h : e.unplaced = e'.unplaced) : Alike (.error e) (.error e')

theorem alike_of_forget {r r' : Except ParseError Expr} (h : forget id r = forget id r') :
    Alike r r' := by
  rcases r with e | t <;> rcases r' with e' | t' <;> simp only [forget, id] at h
  · exact .error (Except.error.inj h)
  · cases h
  · cases h
  · rw [Except.ok.inj h]
    exact .ok t'

/-- The same tokens at other places. -/
theorem alike_of_tokens {ls ls' : List Lexeme} (h : ls.map (·.token) = ls'.map (·.token)) :
    Alike (parseTokens ls) (parseTokens ls') := by
  have hof : ∀ ls : List Lexeme, ls.map Lexeme.unplaced = (ls.map (·.token)).map (⟨·, 0⟩) := by
    intro ls
    rw [List.map_map]
    rfl
  apply alike_of_forget
  rw [← parseTokens_unplaced, ← parseTokens_unplaced, hof, hof, h]

/-- The same token texts with other blanks between them. -/
theorem alike_of_splits {text text' : String} {chunks chunks' : List Chunk}
    (h : Splits 0 text.toList chunks []) (h' : Splits 0 text'.toList chunks' [])
    (heq : chunks.map (·.text) = chunks'.map (·.text)) : Alike (parse text) (parse text') := by
  have hlexemes := congrArg lexemes (unplaced_congr heq)
  rw [lexemes_unplaced, lexemes_unplaced] at hlexemes
  rw [parse, parse, tokenize, tokenize, split_eq_ok_iff.2 h, split_eq_ok_iff.2 h']
  dsimp only
  generalize lexemes chunks = r at hlexemes
  generalize lexemes chunks' = r' at hlexemes
  rcases r with e | ls <;> rcases r' with e' | ls'
  · exact .error (congrArg ParseError.lex (Except.error.inj hlexemes))
  · cases hlexemes
  · cases hlexemes
  · have hls : ls.map Lexeme.unplaced = ls'.map Lexeme.unplaced := Except.ok.inj hlexemes
    apply alike_of_tokens
    have htoken : ((·.token) : Lexeme → Token) = (·.token) ∘ Lexeme.unplaced := rfl
    rw [htoken, ← List.map_map, hls, List.map_map]

/-- **Blanks make no difference.**  The same tokens at any other places come to the same tree, or to
the same error but for its place; and so do two texts with the same token texts, whatever blanks
stand between them. -/
theorem parse_alike :
    (∀ ls ls' : List Lexeme, ls.map (·.token) = ls'.map (·.token) →
      Alike (parseTokens ls) (parseTokens ls')) ∧
    ∀ (text text' : String) (chunks chunks' : List Chunk),
      Splits 0 text.toList chunks [] → Splits 0 text'.toList chunks' [] →
        chunks.map (·.text) = chunks'.map (·.text) → Alike (parse text) (parse text') :=
  ⟨fun _ _ => alike_of_tokens, fun _ _ _ _ => alike_of_splits⟩

/-- Tokens in an order of places that no text has, and a text with blanks before, between and after
its tokens. -/
theorem parse_alike_spread :
    Alike (parseTokens [⟨.openParen, 7⟩, ⟨.comma, 7⟩])
      (parseTokens [⟨.openParen, 0⟩, ⟨.comma, 3⟩]) ∧
    parse "2*(-x,1" = .error (.unmatchedOpen 2) ∧
    parse " 2 *\n( - x , 1\t" = .error (.unmatchedOpen 5) ∧
    Alike (parse "2*(-x,1") (parse " 2 *\n( - x , 1\t") := by
  refine ⟨parse_alike.1 _ _ rfl, by decide +kernel, by decide +kernel, ?_⟩
  refine parse_alike.2 _ _
    [⟨['2'], 0⟩, ⟨['*'], 1⟩, ⟨['('], 2⟩, ⟨['-'], 3⟩, ⟨['x'], 4⟩, ⟨[','], 5⟩, ⟨['1'], 6⟩]
    [⟨['2'], 1⟩, ⟨['*'], 3⟩, ⟨['('], 5⟩, ⟨['-'], 7⟩, ⟨['x'], 9⟩, ⟨[','], 11⟩, ⟨['1'], 13⟩] ?_ ?_ rfl
  · exact split_eq_ok_iff.1 (by decide +kernel)
  · exact split_eq_ok_iff.1 (by decide +kernel)

end GlyphMath.Formula
