import GlyphMath.Proofs.LongestMatch
import GlyphMath.Proofs.Stacks

/-!
# The places that errors report

* `ParseError.place?` -- the place that an error reports.
* `ParseError.Names` -- a text starts with what an error names.
* `ParseError.Blames` -- a token is the one that an error names, at the place that it reports.
* `State.Records` -- every place on the stacks is that of a token that has been taken.

An error is reported long after its token has been taken, from a place that the stacks have kept.
One place is not kept but computed: a comma before a closing bracket is looked for one character in
front of the bracket.

Principal results:

* `from_of_parseTokens` -- every error of the parser is about a token, or computes a place in front
  of a closing bracket.
* `parse_place_iff` -- the place of an error is that of what it names, but for blanks between a
  comma and the bracket that follows it.
-/

set_option autoImplicit false

namespace GlyphMath.Formula

open Line (IsNumeral)

/-! ## What an error names -/

def ParseError.place? : ParseError → Option Nat
  | .lex (.unexpectedChar _ place) => some place
  | .lex (.numberOutOfRange _ place) => some place
  | .unmatchedClose place => some place
  | .unmatchedOpen place => some place
  | .missingOperand _ place => some place
  | .emptyGroup place => some place
  | .unexpectedComma place => some place
  | .misplacedFunction _ place => some place
  | .tooDeep place _ => some place
  | .leftoverOperands _ => none
  | .empty => none
  | .arity _ _ _ => none

/-- The name of a function is the first word of a text. -/
def StartsFunction (f : String) (here : List Char) : Prop :=
  f ∈ functionNames ∧ IsLongest f.toList here

/-- A text starts with what an error names. -/
def ParseError.Names (e : ParseError) (here : List Char) : Prop :=
  match e with
  | .lex (.unexpectedChar c _) => here.head? = some c
  | .lex (.numberOutOfRange literal _) => IsNumeral literal.toList ∧ IsLongest literal.toList here
  | .unmatchedClose _ => here.head? = some ')' ∨ here.head? = some '|'
  | .unmatchedOpen _ => here.head? = some '('
  | .missingOperand c _ => here.head? = some c ∧ ∃ op : Operator, op.symbol = c
  | .emptyGroup _ => here.head? = some '('
  | .unexpectedComma _ => here.head? = some ','
  | .misplacedFunction f _ => StartsFunction f here
  | .tooDeep _ _ => (∃ op : Operator, here.head? = some op.symbol) ∨ ∃ f, StartsFunction f here
  | _ => False

theorem IsLongest.ne_nil {word here : List Char} (h : IsLongest word here) : here ≠ [] := by
  rintro rfl
  exact h.token.ne_nil (List.prefix_nil.1 h.front)

theorem ParseError.Names.ne_nil {e : ParseError} {here : List Char} (h : e.Names here) :
    here ≠ [] := by
  have hhead : ∀ {c : Char}, here.head? = some c → here ≠ [] := by
    rintro c hc rfl
    cases hc
  unfold ParseError.Names at h
  split at h
  · exact hhead h
  · exact h.2.ne_nil
  · exact h.elim hhead hhead
  · exact hhead h
  · exact hhead h.1
  · exact hhead h
  · exact hhead h
  · exact h.2.ne_nil
  · rcases h with ⟨op, hop⟩ | ⟨f, hf⟩
    · exact hhead hop
    · exact hf.2.ne_nil
  · exact h.elim

/-! ## The tokens that errors are about -/

/-- `e.Blames l`: an error names a token and reports its place. -/
inductive ParseError.Blames : ParseError → Lexeme → Prop where
  | unmatchedClose (place : Nat) : Blames (.unmatchedClose place) ⟨.closeParen, place⟩
  | unmatchedOpen (place : Nat) : Blames (.unmatchedOpen place) ⟨.openParen, place⟩
  | missingOperand (op : Operator) (place : Nat) :
      Blames (.missingOperand op.symbol place) ⟨.operator op, place⟩
  | emptyGroup (place : Nat) : Blames (.emptyGroup place) ⟨.openParen, place⟩
  | unexpectedComma (place : Nat) : Blames (.unexpectedComma place) ⟨.comma, place⟩
  | misplacedFunction (f : String) (place : Nat) :
      Blames (.misplacedFunction f place) ⟨.function f, place⟩
  | deepOperator (op : Operator) (place limit : Nat) :
      Blames (.tooDeep place limit) ⟨.operator op, place⟩
  | deepCall (f : String) (place limit : Nat) :
      Blames (.tooDeep place limit) ⟨.function f, place⟩

/-- Where an error about tokens comes from: it reports no place, it is about one of them, or it
stands one place in front of a closing bracket that follows a comma. -/
inductive ParseError.From (ls : List Lexeme) : ParseError → Prop where
  | silent {e : ParseError} (h : e.place? = none) : From ls e
  | token {e : ParseError} {l : Lexeme} (hl : l ∈ ls) (h : e.Blames l) : From ls e
  | trailing {before after : List Lexeme} {comma close : Lexeme}
      (hls : ls = before ++ comma :: close :: after) (hcomma : comma.token = .comma)
      (hclose : close.token = .closeParen) : From ls (.unexpectedComma (close.offset - 1))

theorem ParseError.From.append {ls : List Lexeme} {e : ParseError} (h : e.From ls)
    (more : List Lexeme) : e.From (ls ++ more) := by
  cases h with
  | silent h => exact .silent h
  | token hl h => exact .token (List.mem_append_left _ hl) h
  | trailing hls hcomma hclose =>
    subst hls
    exact .trailing (by rw [List.append_assoc]; rfl) hcomma hclose

def Entry.lexeme : Entry → Lexeme
  | .binary op place _ => ⟨.operator op, place⟩
  | .negate place _ => ⟨.operator .sub, place⟩
  | .paren place _ _ => ⟨.openParen, place⟩

def CallFrame.lexeme (frame : CallFrame) : Lexeme := ⟨.function frame.name, frame.offset⟩

section

variable {entry : Entry} {entries entries' : List Entry} {operands operands' : List Operand}
  {e : ParseError}

theorem tooDeep_of_node {expr : Expr} {childHeight place : Nat}
    (h : Operand.node expr childHeight place = .error e) : e = .tooDeep place maxHeight := by
  unfold Operand.node at h
  split at h
  · cases h
    rfl
  · cases h

theorem blames_reduce (h : reduce entry operands = .error e) : e.Blames entry.lexeme := by
  cases entry with
  | paren place base isCall =>
    cases h
    exact .unmatchedOpen place
  | negate place base =>
    rcases reduce_negate_cases place base operands with ⟨-, heq⟩ | ⟨-, only, rest, -, heq⟩
    · rw [heq] at h
      cases h
      exact .missingOperand .sub place
    · rw [tooDeep_of_node (map_eq_error (heq.symm.trans h))]
      exact .deepOperator .sub place maxHeight
  | binary op place base =>
    rcases reduce_binary_cases op place base operands with ⟨-, heq⟩ | ⟨-, rhs, lhs, rest, -, heq⟩
    · rw [heq] at h
      cases h
      exact .missingOperand op place
    · rw [tooDeep_of_node (map_eq_error (heq.symm.trans h))]
      exact .deepOperator op place maxHeight

theorem blames_reduceAll (h : reduceAll entries operands = .error e) :
    ∃ entry ∈ entries, e.Blames entry.lexeme := by
  induction entries generalizing operands with
  | nil => cases h
  | cons entry entries ih =>
    rw [reduceAll] at h
    split at h
    · rename_i hone
      cases h
      exact ⟨entry, List.mem_cons_self, blames_reduce hone⟩
    · obtain ⟨later, hlater, hblames⟩ := ih h
      exact ⟨later, List.mem_cons_of_mem _ hlater, hblames⟩

theorem blames_reduceWhile {sort : Entry → Bool}
    (h : (reduceAll (entries.takeWhile sort) operands).map (entries.dropWhile sort, ·) =
      .error e) : ∃ entry ∈ entries, e.Blames entry.lexeme := by
  obtain ⟨entry, hentry, hblames⟩ := blames_reduceAll (map_eq_error h)
  exact ⟨entry, (List.takeWhile_prefix sort).mem hentry, hblames⟩

theorem subset_reduceWhile {sort : Entry → Bool}
    (h : (reduceAll (entries.takeWhile sort) operands).map (entries.dropWhile sort, ·) =
      .ok (entries', operands')) : entries' ⊆ entries := by
  cases hall : reduceAll (entries.takeWhile sort) operands with
  | error e =>
    rw [hall] at h
    cases h
  | ok left =>
    rw [hall] at h
    cases h
    exact (List.dropWhile_suffix sort).subset

theorem blames_reduceGroup (h : reduceGroup entries operands = .error e) :
    ∃ entry ∈ entries, e.Blames entry.lexeme :=
  blames_reduceWhile (reduceGroup_eq entries operands ▸ h)

theorem subset_reduceGroup (h : reduceGroup entries operands = .ok (entries', operands')) :
    entries' ⊆ entries :=
  subset_reduceWhile (reduceGroup_eq entries operands ▸ h)

theorem blames_reduceFor {op : Operator} (h : reduceFor op entries operands = .error e) :
    ∃ entry ∈ entries, e.Blames entry.lexeme :=
  blames_reduceWhile (reduceFor_eq op entries operands ▸ h)

theorem subset_reduceFor {op : Operator}
    (h : reduceFor op entries operands = .ok (entries', operands')) : entries' ⊆ entries :=
  subset_reduceWhile (reduceFor_eq op entries operands ▸ h)

theorem blames_applyCall {frame : CallFrame} (h : applyCall frame operands = .error e) :
    e.place? = none ∨ e.Blames frame.lexeme := by
  unfold applyCall at h
  dsimp only at h
  split at h
  · split at h
    · rename_i hnode
      cases h
      rw [tooDeep_of_node hnode]
      exact Or.inr (.deepCall frame.name frame.offset maxHeight)
    · cases h
  · cases h
    exact Or.inl rfl

end

/-! ## What the stacks keep -/

/-- Every place on the stacks is that of a token that has been taken. -/
structure State.Records (ls : List Lexeme) (s : State) : Prop where
  entries : ∀ entry ∈ s.entries, entry.lexeme ∈ ls
  frames : ∀ frame ∈ s.frames, frame.lexeme ∈ ls
  pending : ∀ f place, s.pending = some (f, place) → ⟨.function f, place⟩ ∈ ls
  previous : s.previous = ls.getLast?.map (·.token)

/-- An outcome of the parser after the tokens `ls`: its stacks keep the places of these, or its
error comes from them. -/
def Follows (ls : List Lexeme) : Except ParseError State → Prop
  | .ok s => s.Records ls
  | .error e => e.From ls

theorem records_start : State.start.Records [] := ⟨nofun, nofun, nofun, rfl⟩

section

variable {ls : List Lexeme} {s : State} {l : Lexeme} {e : ParseError}

theorem previous_snoc (ls : List Lexeme) (h : s.previous = some l.token) :
    s.previous = (ls ++ [l]).getLast?.map (·.token) := by
  rw [h, List.getLast?_concat]
  rfl

theorem State.Records.from_entry (h : s.Records ls)
    (herror : ∃ entry ∈ s.entries, e.Blames entry.lexeme) : e.From ls := by
  obtain ⟨entry, hentry, hblames⟩ := herror
  exact .token (h.entries entry hentry) hblames

theorem State.Records.entries_snoc {entries : List Entry} (h : s.Records ls)
    (hsub : entries ⊆ s.entries) : ∀ entry ∈ entries, entry.lexeme ∈ ls ++ [l] :=
  fun entry hentry => List.mem_append_left _ (h.entries entry (hsub hentry))

theorem State.Records.frames_snoc (h : s.Records ls) :
    ∀ frame ∈ s.frames, frame.lexeme ∈ ls ++ [l] :=
  fun frame hframe => List.mem_append_left _ (h.frames frame hframe)

theorem State.Records.pending_snoc (h : s.Records ls) :
    ∀ f place, s.pending = some (f, place) → ⟨.function f, place⟩ ∈ ls ++ [l] :=
  fun f place hf => List.mem_append_left _ (h.pending f place hf)

/-- A closing bracket.  After a comma its error is the one whose place is computed. -/
theorem follows_closeGroup (h : s.Records ls) (place : Nat) :
    Follows (ls ++ [⟨.closeParen, place⟩]) (closeGroup s place) := by
  have hself : ParseError.From (ls ++ [⟨.closeParen, place⟩]) (.unmatchedClose place) :=
    .token (List.mem_append_right _ List.mem_cons_self) (.unmatchedClose place)
  unfold closeGroup
  split
  · rename_i hcomma
    rw [h.previous, Option.map_eq_some_iff] at hcomma
    obtain ⟨comma, hlast, hcomma⟩ := hcomma
    -- the comma was the last token taken, but the stacks do not keep its place
    obtain ⟨before, rfl⟩ := List.getLast?_eq_some_iff.1 hlast
    have hls : before ++ [comma] ++ [⟨.closeParen, place⟩] =
        before ++ comma :: ⟨.closeParen, place⟩ :: [] := List.append_assoc ..
    exact ParseError.From.trailing hls hcomma rfl
  split
  · rename_i hgroup
    exact (h.from_entry (blames_reduceGroup hgroup)).append _
  · rename_i hgroup
    have hsub := List.subset_of_cons_subset (subset_reduceGroup hgroup)
    have hframes := h.frames_snoc (l := ⟨.closeParen, place⟩)
    split
    · exact hself
    · rename_i frame frames heq
      rw [heq, List.forall_mem_cons] at hframes
      split
      · rename_i hcall
        rcases blames_applyCall hcall with hsilent | hblames
        · exact ParseError.From.silent hsilent
        · exact ParseError.From.token hframes.1 hblames
      · exact ⟨h.entries_snoc hsub, hframes.2, nofun, previous_snoc ls rfl⟩
  · rename_i opened base entries operands hgroup
    have hsub := subset_reduceGroup hgroup
    split
    · have hopened := h.entries_snoc (l := ⟨.closeParen, place⟩) hsub _ List.mem_cons_self
      exact ParseError.From.token hopened (.emptyGroup opened)
    · exact ⟨h.entries_snoc (List.subset_of_cons_subset hsub), h.frames_snoc, nofun,
        previous_snoc ls rfl⟩
    · exact ParseError.From.silent rfl
  · exact hself

/-- **One token**: its place is kept, or the error is about a token that was taken, or about it. -/
theorem follows_step (h : s.Records ls) (l : Lexeme) : Follows (ls ++ [l]) (step s l) := by
  have hself : l ∈ ls ++ [l] := List.mem_append_right _ List.mem_cons_self
  have hentries : ∀ entry ∈ s.entries, entry.lexeme ∈ ls ++ [l] := h.entries_snoc fun _ => id
  have hframes : ∀ frame ∈ s.frames, frame.lexeme ∈ ls ++ [l] := h.frames_snoc
  have hpending := h.pending_snoc (l := l)
  obtain ⟨token, place⟩ := l
  unfold step
  split
  · dsimp only
    cases token with
    | number v => exact ⟨hentries, hframes, hpending, previous_snoc ls rfl⟩
    | name text => exact ⟨hentries, hframes, hpending, previous_snoc ls rfl⟩
    | function f =>
      refine ⟨hentries, hframes, ?_, previous_snoc ls rfl⟩
      rintro f place ⟨⟩
      exact hself
    | openParen =>
      exact ⟨List.forall_mem_cons.2 ⟨hself, hentries⟩, hframes, hpending, previous_snoc ls rfl⟩
    | closeParen => exact follows_closeGroup h place
    | comma =>
      rw [takeToken]
      split
      · split
        · rename_i hgroup
          exact (h.from_entry (blames_reduceGroup hgroup)).append _
        · rename_i hgroup
          exact ⟨h.entries_snoc (subset_reduceGroup hgroup), hframes, hpending,
            previous_snoc ls rfl⟩
      · exact ParseError.From.token hself (.unexpectedComma place)
    | operator op =>
      rw [takeToken]
      split
      · split
        · rename_i hfor
          exact (h.from_entry (blames_reduceFor hfor)).append _
        · rename_i hfor
          refine ⟨List.forall_mem_cons.2 ⟨hself, ?_⟩, hframes, hpending, previous_snoc ls rfl⟩
          exact h.entries_snoc (subset_reduceFor hfor)
      · split
        · rename_i hsub
          subst hsub
          exact ⟨List.forall_mem_cons.2 ⟨hself, hentries⟩, hframes, hpending,
            previous_snoc ls rfl⟩
        · exact ParseError.From.token hself (.missingOperand op place)
  · rename_i f opened hf
    have hname := hpending f opened hf
    split
    · rename_i htoken
      dsimp only at htoken
      subst htoken
      refine ⟨List.forall_mem_cons.2 ⟨hself, hentries⟩, List.forall_mem_cons.2 ⟨hname, hframes⟩,
        ?_, previous_snoc ls rfl⟩
      rintro f place ⟨⟩
    · exact ParseError.From.token hname (.misplacedFunction f opened)

/-- **Any number of tokens.** -/
theorem follows_steps (h : s.Records ls) (more : List Lexeme) :
    Follows (ls ++ more) (steps s more) := by
  -- over the tokens to come: each moves to the tokens taken, and the invariant moves with it
  induction more generalizing s ls with
  | nil =>
    rw [List.append_nil]
    exact h
  | cons l more ih =>
    have hone := follows_step h l
    rw [steps, List.append_cons]
    split
    · rename_i hr
      rw [hr] at hone
      exact hone.append more
    · rename_i hr
      rw [hr] at hone
      exact ih hone

theorem from_of_finish (h : s.Records ls) (herror : finish s = .error e) : e.From ls := by
  unfold finish at herror
  split at herror
  · rename_i f opened hpending
    cases herror
    exact .token (h.pending f opened hpending) (.misplacedFunction f opened)
  · split at herror
    · rename_i hall
      cases herror
      exact h.from_entry (blames_reduceAll hall)
    · cases herror
      exact .silent rfl
    · cases herror
    · cases herror
      exact .silent rfl

/-- **Every error of the parser** reports no place, is about a token and reports its place, or
stands one place in front of a closing bracket that follows a comma. -/
theorem from_of_parseTokens (herror : parseTokens ls = .error e) : e.From ls := by
  have hsteps := follows_steps records_start ls
  rw [List.nil_append] at hsteps
  unfold parseTokens at herror
  split at herror
  · rename_i hr
    cases herror
    rw [hr] at hsteps
    exact hsteps
  · rename_i hr
    rw [hr] at hsteps
    exact from_of_finish hsteps herror

end

/-! ## Tokens in their text -/

/-- A token stands in a text at its place. -/
def Lexeme.StandsIn (l : Lexeme) (text : List Char) : Prop :=
  ∃ word, TokenText word l.token ∧ IsLongest word (text.drop l.offset)

theorem head?_of_front {c : Char} {here : List Char} (h : [c] <+: here) : here.head? = some c := by
  obtain ⟨rest, rfl⟩ := h
  rfl

/-- A token that is blamed is named where it stands. -/
theorem ParseError.Blames.names {e : ParseError} {l : Lexeme} {text : List Char}
    (h : e.Blames l) (hl : l.StandsIn text) :
    e.place? = some l.offset ∧ e.Names (text.drop l.offset) := by
  obtain ⟨word, hword, hlongest⟩ := hl
  have hfront := hlongest.front
  cases h with
  | unmatchedClose =>
    cases hword with
    | closeParen => exact ⟨rfl, Or.inl (head?_of_front hfront)⟩
    | bar => exact ⟨rfl, Or.inr (head?_of_front hfront)⟩
  | unmatchedOpen =>
    cases hword with
    | openParen => exact ⟨rfl, head?_of_front hfront⟩
  | missingOperand op =>
    cases hword with
    | operator => exact ⟨rfl, head?_of_front hfront, op, rfl⟩
  | emptyGroup =>
    cases hword with
    | openParen => exact ⟨rfl, head?_of_front hfront⟩
  | unexpectedComma =>
    cases hword with
    | comma => exact ⟨rfl, head?_of_front hfront⟩
  | misplacedFunction =>
    cases hword with
    | function hname => exact ⟨rfl, hname, by rwa [String.toList_ofList]⟩
  | deepOperator op =>
    cases hword with
    | operator => exact ⟨rfl, Or.inl ⟨op, head?_of_front hfront⟩⟩
  | deepCall =>
    cases hword with
    | function hname => exact ⟨rfl, Or.inr ⟨_, hname, by rwa [String.toList_ofList]⟩⟩

section

variable {text : List Char} {chunks : List Chunk} {ls : List Lexeme}

theorem exists_append_of_reads {before after : List Lexeme}
    (h : List.Forall₂ Chunk.Reads chunks (before ++ after)) :
    ∃ cs ds, chunks = cs ++ ds ∧ List.Forall₂ Chunk.Reads ds after :=
  ⟨_, _, (List.take_append_drop before.length chunks).symm,
    List.forall₂_drop_append chunks before after h⟩

theorem standsIn_of_reads (h : Splits 0 text chunks [])
    (hreads : List.Forall₂ Chunk.Reads chunks ls) : ∀ l ∈ ls, l.StandsIn text := by
  intro l hl
  obtain ⟨before, after, rfl⟩ := List.append_of_mem hl
  obtain ⟨cs, ds, rfl, hds⟩ := exists_append_of_reads hreads
  obtain ⟨chunk, ds, hchunk, -, rfl⟩ := List.forall₂_cons_right_iff.1 hds
  obtain ⟨n, hplace, hlongest⟩ := h.isLongest chunk (List.mem_append_right _ List.mem_cons_self)
  rw [Nat.zero_add] at hplace
  refine ⟨chunk.text, hchunk.token, ?_⟩
  rwa [hchunk.place, hplace]

/-- Between a comma and a closing bracket that are tokens side by side stand only blanks. -/
theorem blanks_of_reads {before after : List Lexeme} {comma close : Lexeme}
    (h : Splits 0 text chunks [])
    (hreads : List.Forall₂ Chunk.Reads chunks (before ++ comma :: close :: after))
    (hcomma : comma.token = .comma) (hclose : close.token = .closeParen) :
    ∃ front blanks c rest, text = front ++ ',' :: (blanks ++ c :: rest) ∧ (c = ')' ∨ c = '|') ∧
      (∀ d ∈ blanks, isSpace d = true) ∧ close.offset = front.length + 1 + blanks.length := by
  obtain ⟨cs, ds, rfl, hds⟩ := exists_append_of_reads hreads
  obtain ⟨first, ds, hfirst, hmore, rfl⟩ := List.forall₂_cons_right_iff.1 hds
  obtain ⟨second, ds, hsecond, -, rfl⟩ := List.forall₂_cons_right_iff.1 hmore
  obtain ⟨front, back, rfl, hback⟩ := h.cut
  obtain ⟨gap, rest, rfl, -, hplace, hrest⟩ := hback.next
  obtain ⟨blanks, rest, rfl, hblanks, hplace', -⟩ := hrest.next
  have htext : first.text = [','] := by
    have hword := hfirst.token
    rw [hcomma] at hword
    generalize first.text = word at hword
    cases hword
    rfl
  obtain ⟨c, hc, htext'⟩ : ∃ c, (c = ')' ∨ c = '|') ∧ second.text = [c] := by
    have hword := hsecond.token
    rw [hclose] at hword
    generalize second.text = word at hword
    cases hword with
    | closeParen => exact ⟨')', Or.inl rfl, rfl⟩
    | bar => exact ⟨'|', Or.inr rfl, rfl⟩
  have hoffset : close.offset = (front ++ gap).length + 1 + blanks.length := by
    rw [hsecond.place, hplace', hplace, htext, List.length_append, Nat.zero_add]
    rfl
  refine ⟨front ++ gap, blanks, c, rest, ?_, hc, hblanks, hoffset⟩
  rw [htext, htext', List.append_assoc]
  rfl

end

/-! ## The places of errors -/

/-- An error of the tokenizer is named where it is. -/
theorem names_of_tokenize {text : String} {e : LexError} (h : tokenize text = .error e) :
    ∃ place, ParseError.place? (.lex e) = some place ∧
      ParseError.Names (.lex e) (text.toList.drop place) := by
  rcases tokenize_eq_error_iff.1 h with
    ⟨chunks, before, c, rest, htext, -, rfl⟩ | ⟨before, chunk, after, hsplits, -, hover, rfl⟩
  · refine ⟨before.length, rfl, ?_⟩
    rw [htext, List.drop_left]
    rfl
  · obtain ⟨n, hplace, hlongest⟩ :=
      hsplits.isLongest chunk (List.mem_append_right _ List.mem_cons_self)
    obtain ⟨v, hword, -⟩ := hover
    rw [Nat.zero_add] at hplace
    refine ⟨n, congrArg some hplace, ?_⟩
    have hnumeral : IsNumeral chunk.text := by
      generalize chunk.text = word at hword
      cases hword with
      | number h => exact h
    show IsNumeral (String.ofList chunk.text).toList ∧ IsLongest (String.ofList chunk.text).toList _
    rw [String.toList_ofList]
    exact ⟨hnumeral, hlongest⟩

/-- Blanks between a comma and a closing bracket, the last of which an error reports. -/
structure ReportsBlank (text : List Char) (e : ParseError) (before blanks : List Char)
    (close : Char) (after : List Char) : Prop where
  stands : text = before ++ ',' :: (blanks ++ close :: after)
  closes : close = ')' ∨ close = '|'
  ne_nil : blanks ≠ []
  blank : ∀ c ∈ blanks, isSpace c = true
  error : e = .unexpectedComma (before.length + blanks.length)

section

variable {text : String} {e : ParseError} {place : Nat}

/-- An error that reports a place names what stands there, or reports a blank. -/
theorem names_or_reportsBlank (h : parse text = .error e) (hplace : e.place? = some place) :
    e.Names (text.toList.drop place) ∨
      ∃ before blanks close after, ReportsBlank text.toList e before blanks close after := by
  unfold parse at h
  split at h
  · rename_i htokens
    cases h
    obtain ⟨place', hplace', hnames⟩ := names_of_tokenize htokens
    obtain rfl := Option.some.inj (hplace.symm.trans hplace')
    exact Or.inl hnames
  · rename_i ls htokens
    obtain ⟨chunks, hsplits, hreads⟩ := tokenize_eq_ok_iff.1 htokens
    cases from_of_parseTokens h with
    | silent hsilent =>
      rw [hplace] at hsilent
      cases hsilent
    | token hl hblames =>
      obtain ⟨hplace', hnames⟩ := hblames.names (standsIn_of_reads hsplits hreads _ hl)
      obtain rfl := Option.some.inj (hplace.symm.trans hplace')
      exact Or.inl hnames
    | trailing hls hcomma hclose =>
      subst hls
      obtain ⟨before, blanks, c, rest, htext, hc, hblanks, hoffset⟩ :=
        blanks_of_reads hsplits hreads hcomma hclose
      cases hplace
      rw [hoffset, Nat.add_right_comm, Nat.add_sub_cancel]
      by_cases hnone : blanks = []
      · -- the bracket stands directly behind the comma
        refine Or.inl (head?_of_front ⟨c :: rest, ?_⟩)
        rw [htext, hnone, List.length_nil, Nat.add_zero, List.drop_left]
        rfl
      · exact Or.inr ⟨before, blanks, c, rest, htext, hc, hnone, hblanks, rfl⟩

/-- A blank that is reported is not what the error names. -/
theorem ReportsBlank.not_names {here before blanks after : List Char} {close : Char}
    (h : ReportsBlank here e before blanks close after) (hplace : e.place? = some place) :
    ¬ e.Names (here.drop place) := by
  obtain ⟨rfl, -, hne, hblanks, rfl⟩ := h
  obtain ⟨front, last, rfl⟩ := (List.eq_nil_or_concat' blanks).resolve_left hne
  cases hplace
  have hlast : (before ++ ',' :: (front ++ [last] ++ close :: after)).drop
      (before.length + (front ++ [last]).length) = last :: close :: after := by
    have hlength : before.length + (front ++ [last]).length = (before ++ ',' :: front).length := by
      simp only [List.length_append, List.length_cons, List.length_nil]
    rw [hlength, List.append_assoc, ← List.cons_append, ← List.append_assoc, List.drop_left]
    rfl
  intro hnames
  have hcomma : last = ',' := by
    rw [hlast] at hnames
    exact Option.some.inj hnames
  have hspace := hblanks last (List.mem_append_right _ List.mem_cons_self)
  rw [hcomma] at hspace
  exact absurd hspace (by decide)

/-- **The place of an error is that of what it names**, but where blanks stand between a comma and
the closing bracket that follows it.  There the last of the blanks is reported as the comma. -/
theorem parse_place_iff (h : parse text = .error e) (hplace : e.place? = some place) :
    (place < text.length ∧ e.Names (text.toList.drop place)) ↔
      ¬ ∃ before blanks close after, ReportsBlank text.toList e before blanks close after := by
  constructor
  · rintro ⟨-, hnames⟩ ⟨before, blanks, close, after, hblank⟩
    exact hblank.not_names hplace hnames
  · intro hnone
    have hnames := (names_or_reportsBlank h hplace).resolve_right hnone
    refine ⟨?_, hnames⟩
    have hne := hnames.ne_nil
    rw [Ne, List.drop_eq_nil_iff, String.length_toList] at hne
    exact Nat.lt_of_not_le hne

end

/-- An operator without an operand behind a character of several bytes. -/
theorem parse_place_iff_missing :
    parse "π * (x - )" = .error (.missingOperand '-' 7) ∧
    ParseError.place? (.missingOperand '-' 7) = some 7 ∧
    ((7 < "π * (x - )".length ∧
        ParseError.Names (.missingOperand '-' 7) ("π * (x - )".toList.drop 7)) ↔
      ¬ ∃ before blanks close after, ReportsBlank "π * (x - )".toList (.missingOperand '-' 7)
        before blanks close after) := by
  have hparse : parse "π * (x - )" = .error (.missingOperand '-' 7) := by decide +kernel
  exact ⟨hparse, rfl, parse_place_iff hparse rfl⟩

/-- **A blank is reported as a comma**: the bracket is not directly behind the comma. -/
theorem parse_misplaces_comma :
    parse "(1, )" = .error (.unexpectedComma 3) ∧ "(1, )".toList[2]? = some ',' ∧
      "(1, )".toList[3]? = some ' ' ∧
      ¬ ∀ text e place, parse text = .error e → e.place? = some place →
        place < text.length ∧ e.Names (text.toList.drop place) := by
  have hparse : parse "(1, )" = .error (.unexpectedComma 3) := by decide +kernel
  refine ⟨hparse, by decide, by decide, fun hall => ?_⟩
  have hnames : ("(1, )".toList.drop 3).head? = some ',' := (hall _ _ 3 hparse rfl).2
  exact absurd hnames (by decide)

end GlyphMath.Formula
