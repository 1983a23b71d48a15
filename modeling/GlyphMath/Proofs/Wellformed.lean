import GlyphMath.Json.Reader
import GlyphMath.Proofs.Numerals
import GlyphMath.Proofs.Quoting
import Mathlib.Data.List.TakeWhile

/-!
# The texts that hold a document

* `SpellsToken`, `Spells` -- the texts of tokens, with any blanks between them.
* `Tree.tokens` -- the tokens of a document: its scalars and brackets, commas between items and
  members, and a colon after each key.
* `Awaits`, `Taken` -- the tokens that bring the reader to a state.
* `taken_step` -- every token that the reader takes is one more of them.
* `steps_tokens` -- the reader takes the tokens of a document as that document, whatever brackets
  are open.
* `Reads` -- the reader takes a text as a document, whatever brackets are open and whatever follows.

Tokens that may stand side by side never run into each other: after a number the reader takes
nothing but a comma or a closing bracket.

Principal results:

* `reads_of_spells` -- a text of the tokens of a document is read as that document.
* `ofText?_iff` -- a text holds a document exactly when it spells the tokens of the document.
-/

set_option autoImplicit false

namespace GlyphMath.Json

open GlyphMath.Decimal

/-! ## The texts of tokens -/

inductive SpellsScalar : List Char → Scalar → Prop where
  | null : SpellsScalar ['n', 'u', 'l', 'l'] .null
  | true : SpellsScalar ['t', 'r', 'u', 'e'] (.bool true)
  | false : SpellsScalar ['f', 'a', 'l', 's', 'e'] (.bool false)
  | number {word : List Char} {n : Numeral} (spelled : SpellsNumeral word n) :
      SpellsScalar word (.number n)
  | string {body : List Char} {items : List Item} (spelled : SpellsItems body items) :
      SpellsScalar ('"' :: (body ++ ['"'])) (.string items)

inductive SpellsToken : List Char → Token → Prop where
  | openList : SpellsToken ['['] .openList
  | closeList : SpellsToken [']'] .closeList
  | openObject : SpellsToken ['\x7b'] .openObject
  | closeObject : SpellsToken ['\x7d'] .closeObject
  | colon : SpellsToken [':'] .colon
  | comma : SpellsToken [','] .comma
  | scalar {word : List Char} {s : Scalar} (spelled : SpellsScalar word s) :
      SpellsToken word (.scalar s)

/-- The texts of tokens one after another, with any blanks before, between and after them. -/
inductive Spells : List Char → List Token → Prop where
  | done {blanks : List Char} (hblank : ∀ c ∈ blanks, isBlank c = true) : Spells blanks []
  | token {blanks word rest : List Char} {token : Token} {tokens : List Token}
      (hblank : ∀ c ∈ blanks, isBlank c = true) (hword : SpellsToken word token) :
      Spells rest tokens → Spells (blanks ++ (word ++ rest)) (token :: tokens)

theorem nextToken_blanks {blanks : List Char} (h : ∀ c ∈ blanks, isBlank c = true)
    (text : List Char) : nextToken (blanks ++ text) = nextToken text := by
  rw [nextToken, nextToken, skipBlanks, List.dropWhile_append_of_pos h]
  rfl

theorem nextToken_cons {c : Char} (hc : isBlank c = false) (text : List Char) :
    nextToken (c :: text) = scanToken (c :: text) := by
  rw [nextToken, skipBlanks, List.dropWhile_cons_of_neg (by rw [hc]; decide)]

theorem isBlank_of_isDigit {c : Char} (h : isDigit c = true) : isBlank c = false := by
  rw [Bool.eq_false_iff]
  intro hblank
  simp only [isBlank, Bool.or_eq_true, beq_iff_eq] at hblank
  rcases hblank with ((rfl | rfl) | rfl) | rfl <;> exact absurd h (by decide)

/-- A text that starts like a number is a number. -/
theorem scanToken_numeral {c : Char} (hc : isDigit c = true ∨ c = '-') (text : List Char) :
    scanToken (c :: text) =
      (scanNumeral (c :: text)).map fun (n, rest) => (.scalar (.number n), rest) := by
  unfold scanToken
  split
  case h_1 heq => cases heq
  case h_12 heq => rw [heq]
  all_goals
    rename_i heq
    cases heq
    exact absurd hc (by decide)

/-- Whether a token is a number, which may run into what follows. -/
def Token.IsNumber : Token → Prop
  | .scalar (.number _) => True
  | _ => False

/-- **A text of a token is that token**, whatever follows that ends it where it is a number. -/
theorem nextToken_word {word : List Char} {token : Token} (h : SpellsToken word token)
    {rest : List Char} (hrest : token.IsNumber → Ends rest) :
    nextToken (word ++ rest) = some (token, rest) := by
  cases h with
  | scalar spelled =>
    cases spelled with
    | number spelled =>
      have hscan := scanNumeral_append spelled (hrest trivial)
      obtain ⟨c, text, rfl, hc⟩ := spelled.cons
      have hblank : isBlank c = false := by
        rcases hc with hc | rfl
        · exact isBlank_of_isDigit hc
        · rfl
      rw [List.cons_append] at hscan ⊢
      rw [nextToken_cons hblank, scanToken_numeral hc, hscan]
      rfl
    | string spelled =>
      have hscan := scanItems_append spelled rest
      rw [List.cons_append, List.append_assoc, nextToken_cons rfl, scanToken, List.cons_append,
        List.nil_append, hscan]
      rfl
    | null => rfl
    | true => rfl
    | false => rfl
  | _ => rfl

theorem append_of_dropWord {word text rest : List Char} (h : dropWord word text = some rest) :
    text = word ++ rest := by
  fun_induction dropWord word text with
  | case1 =>
    cases h
    rfl
  | case2 => cases h
  | case3 w word c text heq ih => rw [ih h, eq_of_beq heq, List.cons_append]
  | case4 => cases h

theorem spellsToken_of_scan {text rest : List Char} {token : Token}
    (h : scanToken text = some (token, rest)) :
    ∃ word, text = word ++ rest ∧ SpellsToken word token := by
  unfold scanToken at h
  split at h
  case h_1 => cases h
  case h_8 =>
    obtain ⟨_, hitems, heq⟩ := Option.map_eq_some_iff.1 h
    cases heq
    obtain ⟨body, rfl, hbody⟩ := spellsItems_of_scan hitems
    exact ⟨_, by simp, .scalar (.string hbody)⟩
  case h_9 =>
    obtain ⟨_, hword, heq⟩ := Option.map_eq_some_iff.1 h
    cases heq
    exact ⟨_, congrArg _ (append_of_dropWord hword), .scalar .null⟩
  case h_10 =>
    obtain ⟨_, hword, heq⟩ := Option.map_eq_some_iff.1 h
    cases heq
    exact ⟨_, congrArg _ (append_of_dropWord hword), .scalar .true⟩
  case h_11 =>
    obtain ⟨_, hword, heq⟩ := Option.map_eq_some_iff.1 h
    cases heq
    exact ⟨_, congrArg _ (append_of_dropWord hword), .scalar .false⟩
  case h_12 =>
    obtain ⟨_, hnumeral, heq⟩ := Option.map_eq_some_iff.1 h
    cases heq
    obtain ⟨word, htext, hword⟩ := spellsNumeral_of_scan hnumeral
    exact ⟨word, htext, .scalar (.number hword)⟩
  case h_2 =>
    cases h
    exact ⟨_, rfl, .openList⟩
  case h_3 =>
    cases h
    exact ⟨_, rfl, .closeList⟩
  case h_4 =>
    cases h
    exact ⟨_, rfl, .openObject⟩
  case h_5 =>
    cases h
    exact ⟨_, rfl, .closeObject⟩
  case h_6 =>
    cases h
    exact ⟨_, rfl, .colon⟩
  case h_7 =>
    cases h
    exact ⟨_, rfl, .comma⟩

/-- **The first token of a text** stands behind blanks and is spelled there. -/
theorem spellsToken_of_nextToken {text rest : List Char} {token : Token}
    (h : nextToken text = some (token, rest)) :
    ∃ blanks word, text = blanks ++ (word ++ rest) ∧ (∀ c ∈ blanks, isBlank c = true) ∧
      SpellsToken word token := by
  obtain ⟨word, htext, hword⟩ := spellsToken_of_scan h
  refine ⟨text.takeWhile isBlank, word, ?_, List.all_eq_true.1 List.all_takeWhile, hword⟩
  rw [← htext]
  exact List.takeWhile_append_dropWhile.symm

/-! ## The tokens of documents -/

/-- Parts with commas between them. -/
def separated : List (List Token) → List Token
  | [] => []
  | ts :: tss => ts ++ tss.flatMap (.comma :: ·)

mutual

/-- The tokens of a document. -/
def Tree.tokens : Source → List Token
  | .null => [.scalar .null]
  | .bool b => [.scalar (.bool b)]
  | .number n => [.scalar (.number n)]
  | .string s => [.scalar (.string s)]
  | .list items => .openList :: (separated (itemTokens items) ++ [.closeList])
  | .object members => .openObject :: (separated (memberTokens members) ++ [.closeObject])

def itemTokens : List Source → List (List Token)
  | [] => []
  | d :: ds => Tree.tokens d :: itemTokens ds

def memberTokens : List (List Item × Source) → List (List Token)
  | [] => []
  | (k, d) :: ms => (.scalar (.string k) :: .colon :: Tree.tokens d) :: memberTokens ms

end

/-- Parts with a comma after each of them. -/
def announced (tss : List (List Token)) : List Token := tss.flatMap (· ++ [.comma])

theorem separated_append (tss : List (List Token)) (ts : List Token) :
    separated (tss ++ [ts]) = announced tss ++ ts := by
  cases tss with
  | nil => simp [separated, announced]
  | cons ts' tss =>
    have h : ∀ tss : List (List Token), tss.flatMap (.comma :: ·) ++ .comma :: ts =
        .comma :: (announced tss ++ ts) := by
      intro tss
      induction tss with
      | nil => rfl
      | cons ts tss ih => simp [announced] at ih ⊢; exact ih
    simp [separated, announced] at h ⊢
    exact h tss

theorem itemTokens_append (as bs : List Source) :
    itemTokens (as ++ bs) = itemTokens as ++ itemTokens bs := by
  induction as with
  | nil => rfl
  | cons a as ih => rw [List.cons_append, itemTokens, ih, itemTokens, List.cons_append]

theorem memberTokens_append (as bs : List (List Item × Source)) :
    memberTokens (as ++ bs) = memberTokens as ++ memberTokens bs := by
  induction as with
  | nil => rfl
  | cons a as ih => rw [List.cons_append, memberTokens, ih, memberTokens, List.cons_append]

/-! ## What has been taken -/

/-- The tokens up to where the innermost open bracket awaits a value. -/
inductive Awaits : List Frame → List Token → Prop where
  | outermost : Awaits [] []
  | item {frames : List Frame} {ts : List Token} {items : List Source} :
      Awaits frames ts → Awaits (.list items :: frames)
        (ts ++ .openList :: announced (itemTokens items.reverse))
  | member {frames : List Frame} {ts : List Token} {members : List (List Item × Source)}
      {key : List Item} :
      Awaits frames ts → Awaits (.member members key :: frames)
        (ts ++ .openObject :: (announced (memberTokens members.reverse) ++
          [.scalar (.string key), .colon]))

/-- The tokens that bring the reader to a state. -/
inductive Taken : State → List Token → Prop where
  | value {frames : List Frame} {ts : List Token} : Awaits frames ts → Taken ⟨frames, .value⟩ ts
  | valueOrClose {frames : List Frame} {ts : List Token} :
      Awaits frames ts → Taken ⟨.list [] :: frames, .valueOrClose⟩ (ts ++ [.openList])
  | key {frames : List Frame} {ts : List Token} {members : List (List Item × Source)} :
      Awaits frames ts → Taken ⟨.object members :: frames, .key⟩
        (ts ++ .openObject :: announced (memberTokens members.reverse))
  | keyOrClose {frames : List Frame} {ts : List Token} :
      Awaits frames ts → Taken ⟨.object [] :: frames, .keyOrClose⟩ (ts ++ [.openObject])
  | colon {frames : List Frame} {ts : List Token} {members : List (List Item × Source)}
      {key : List Item} :
      Awaits frames ts → Taken ⟨.member members key :: frames, .colon⟩
        (ts ++ .openObject :: (announced (memberTokens members.reverse) ++ [.scalar (.string key)]))
  | item {frames : List Frame} {ts : List Token} {items : List Source} {d : Source} :
      Awaits frames ts → Taken ⟨.list (d :: items) :: frames, .commaOrClose⟩
        (ts ++ .openList :: separated (itemTokens (d :: items).reverse))
  | member {frames : List Frame} {ts : List Token} {members : List (List Item × Source)}
      {m : List Item × Source} :
      Awaits frames ts → Taken ⟨.object (m :: members) :: frames, .commaOrClose⟩
        (ts ++ .openObject :: separated (memberTokens (m :: members).reverse))
  | finished {d : Source} : Taken ⟨[], .finished d⟩ d.tokens

theorem separated_items (d : Source) (items : List Source) :
    separated (itemTokens (d :: items).reverse) =
      announced (itemTokens items.reverse) ++ d.tokens := by
  rw [List.reverse_cons, itemTokens_append, itemTokens, itemTokens, separated_append]

theorem separated_members (k : List Item) (d : Source) (members : List (List Item × Source)) :
    separated (memberTokens ((k, d) :: members).reverse) =
      announced (memberTokens members.reverse) ++ .scalar (.string k) :: .colon :: d.tokens := by
  rw [List.reverse_cons, memberTokens_append, memberTokens, memberTokens, separated_append]

/-- What has been written with commas between is announced with one more comma. -/
theorem announced_append (tss : List (List Token)) (ts : List Token) :
    announced (tss ++ [ts]) = separated (tss ++ [ts]) ++ [.comma] := by
  rw [separated_append, announced, List.flatMap_append, ← announced, List.append_assoc]
  simp

section

variable {frames : List Frame} {ts : List Token} {token : Token} {s : State}

theorem taken_finish {d : Source} (hframes : Awaits frames ts)
    (h : State.finish frames d = some s) : Taken s (ts ++ d.tokens) := by
  cases hframes with
  | outermost =>
    cases h
    exact .finished
  | item hframes =>
    cases h
    rw [List.append_assoc, List.cons_append, ← separated_items]
    exact .item hframes
  | member hframes =>
    rename_i outer front members key
    cases h
    have hmember : Taken ⟨.object ((key, d) :: members) :: outer, .commaOrClose⟩ _ :=
      .member hframes
    rw [separated_members] at hmember
    rw [List.append_assoc, List.cons_append, List.append_assoc]
    exact hmember

theorem taken_startValue (hframes : Awaits frames ts)
    (h : State.startValue frames token = some s) : Taken s (ts ++ [token]) := by
  unfold State.startValue at h
  split at h
  · rename_i scalar
    have htokens : (State.leaf scalar).tokens = [.scalar scalar] := by cases scalar <;> rfl
    rw [← htokens]
    exact taken_finish hframes h
  · cases h
    exact .valueOrClose hframes
  · cases h
    exact .keyOrClose hframes
  · cases h

theorem taken_takeKey {members : List (List Item × Source)} (hframes : Awaits frames ts)
    (h : State.takeKey (.object members :: frames) token = some s) :
    Taken s (ts ++ .openObject :: (announced (memberTokens members.reverse) ++ [token])) := by
  unfold State.takeKey at h
  split at h
  · rename_i heq
    cases heq
    cases h
    exact .colon hframes
  · cases h

theorem taken_closeList {items : List Source} (hframes : Awaits frames ts)
    (h : State.close (.list items :: frames) token = some s) :
    Taken s (ts ++ .openList :: (separated (itemTokens items.reverse) ++ [token])) := by
  unfold State.close at h
  split at h
  · rename_i heq
    cases heq
    exact taken_finish hframes h
  · rename_i heq
    cases heq
  · cases h

theorem taken_closeObject {members : List (List Item × Source)} (hframes : Awaits frames ts)
    (h : State.close (.object members :: frames) token = some s) :
    Taken s (ts ++ .openObject :: (separated (memberTokens members.reverse) ++ [token])) := by
  unfold State.close at h
  split at h
  · rename_i heq
    cases heq
  · rename_i heq
    cases heq
    exact taken_finish hframes h
  · cases h

/-- **Every token that the reader takes** is one more of them. -/
theorem taken_step {s' : State} (hs : Taken s ts) (h : s.step token = some s') :
    Taken s' (ts ++ [token]) := by
  cases hs with
  | value hframes => exact taken_startValue hframes h
  | valueOrClose hframes =>
    unfold State.step at h
    dsimp only at h
    split at h
    · rw [List.append_assoc]
      exact taken_closeList hframes h
    · exact taken_startValue hframes.item h
  | key hframes =>
    rw [List.append_assoc, List.cons_append]
    exact taken_takeKey hframes h
  | keyOrClose hframes =>
    unfold State.step at h
    dsimp only at h
    rw [List.append_assoc]
    split at h
    · exact taken_closeObject hframes h
    · exact taken_takeKey hframes h
  | colon hframes =>
    unfold State.step at h
    dsimp only at h
    split at h
    · rename_i htoken
      cases h
      rw [htoken, List.append_assoc, List.cons_append, List.append_assoc]
      exact .value hframes.member
    · cases h
  | item hframes =>
    rename_i outer front items d
    unfold State.step at h
    dsimp only at h
    rw [List.append_assoc, List.cons_append]
    split at h
    · rename_i htoken
      cases h
      have hvalue : Taken ⟨.list (d :: items) :: outer, .value⟩ _ := .value hframes.item
      rw [List.reverse_cons, itemTokens_append] at hvalue ⊢
      rw [htoken, itemTokens, itemTokens, ← announced_append]
      exact hvalue
    · exact taken_closeList hframes h
  | member hframes =>
    rename_i outer front members m
    unfold State.step at h
    dsimp only at h
    rw [List.append_assoc, List.cons_append]
    split at h
    · rename_i htoken
      cases h
      have hkey : Taken ⟨.object (m :: members) :: outer, .key⟩ _ := .key hframes
      rw [List.reverse_cons, memberTokens_append] at hkey ⊢
      rw [htoken, memberTokens, memberTokens, ← announced_append]
      exact hkey
    · exact taken_closeObject hframes h
  | finished => cases h

end

/-- One turn of the reader. -/
theorem run_eq (s : State) (text : List Char) :
    run s text = match s.want with
      | .finished document => if (skipBlanks text).isEmpty then some document else none
      | _ =>
        (nextToken text).bind fun (token, rest) => (s.step token).bind fun s => run s rest := by
  obtain ⟨frames, want⟩ := s
  rw [run]
  cases want with
  | finished document => rfl
  | _ =>
    dsimp only
    split
    · rename_i h
      rw [h]
      rfl
    · rename_i h
      rw [h, Option.bind_some]
      dsimp only
      split <;> rename_i hstep <;> rw [hstep] <;> rfl

theorem run_next {s s' : State} {text rest : List Char} {token : Token}
    (hnext : nextToken text = some (token, rest)) (hstep : s.step token = some s') :
    run s text = run s' rest := by
  rw [run_eq]
  split
  · rename_i hwant
    rw [State.step, hwant] at hstep
    cases hstep
  · rw [hnext, Option.bind_some]
    dsimp only
    rw [hstep, Option.bind_some]

theorem run_blanks {blanks : List Char} (h : ∀ c ∈ blanks, isBlank c = true) (s : State)
    (text : List Char) : run s (blanks ++ text) = run s text := by
  have hskip : skipBlanks (blanks ++ text) = skipBlanks text := List.dropWhile_append_of_pos h
  rw [run_eq, run_eq s text, hskip, nextToken_blanks h]

/-- **Run lemma.** A text that is read to its end spells what is left of the document. -/
theorem spells_of_run {s : State} {text : List Char} {ts : List Token} {d : Source}
    (hs : Taken s ts) (h : run s text = some d) :
    ∃ tokens, Spells text tokens ∧ ts ++ tokens = d.tokens := by
  fun_induction run s text generalizing ts with
  | case1 s text document hwant hblank =>
    cases h
    refine ⟨[], .done (List.all_eq_true.1 ?_), ?_⟩
    · rw [List.isEmpty_iff, skipBlanks, List.dropWhile_eq_nil_iff] at hblank
      exact List.all_eq_true.2 hblank
    · cases hs <;> cases hwant
      rw [List.append_nil]
  | case2 => cases h
  | case3 => cases h
  | case4 => cases h
  | case5 s text token rest hnext s' hstep _ ih =>
    obtain ⟨blanks, word, rfl, hblank, hword⟩ := spellsToken_of_nextToken hnext
    obtain ⟨tokens, htokens, heq⟩ := ih (taken_step hs hstep) h
    refine ⟨token :: tokens, .token hblank hword htokens, ?_⟩
    rw [← heq, List.append_assoc]
    rfl

/-! ## Taking the tokens of a document -/

/-- Takes tokens one after another. -/
def State.steps (s : State) : List Token → Option State
  | [] => some s
  | t :: ts => (s.step t).bind fun s => s.steps ts

theorem steps_cons {s s' : State} {t : Token} (h : s.step t = some s') (ts : List Token) :
    s.steps (t :: ts) = s'.steps ts := by
  rw [State.steps, h, Option.bind_some]

theorem steps_singleton (s : State) (t : Token) : s.steps [t] = s.step t :=
  Option.bind_fun_some _

theorem steps_append {s s' : State} {ts : List Token} (h : s.steps ts = some s')
    (ts' : List Token) : s.steps (ts ++ ts') = s'.steps ts' := by
  induction ts generalizing s with
  | nil =>
    cases h
    rfl
  | cons t ts ih =>
    obtain ⟨s₁, hstep, hrest⟩ := Option.bind_eq_some_iff.1 h
    rw [List.cons_append, steps_cons hstep, ih hrest]

theorem step_value {frames : List Frame} {want : Want} {token : Token}
    (hwant : want = .value ∨ want = .valueOrClose) (hclose : token ≠ .closeList) :
    State.step ⟨frames, want⟩ token = State.startValue frames token := by
  rcases hwant with rfl | rfl
  · rfl
  · exact if_neg hclose

theorem steps_scalar {frames : List Frame} {want : Want}
    (hwant : want = .value ∨ want = .valueOrClose) (scalar : Scalar) :
    State.steps ⟨frames, want⟩ [.scalar scalar] = State.finish frames (State.leaf scalar) := by
  have hstep : State.step ⟨frames, want⟩ (.scalar scalar) = _ := step_value hwant nofun
  rw [steps_singleton, hstep]
  rfl

/-- A key and its colon are taken wherever a key is wanted. -/
theorem steps_key {frames : List Frame} {want : Want} (members : List (List Item × Source))
    (hwant : want = .key ∨ want = .keyOrClose) (k : List Item) (ts : List Token) :
    State.steps ⟨.object members :: frames, want⟩ (.scalar (.string k) :: .colon :: ts) =
      State.steps ⟨.member members k :: frames, .value⟩ ts := by
  have hkey : State.step ⟨.object members :: frames, want⟩ (.scalar (.string k)) =
      some ⟨.member members k :: frames, .colon⟩ := by
    rcases hwant with rfl | rfl <;> rfl
  have hcolon : State.step ⟨.member members k :: frames, .colon⟩ .colon =
      some ⟨.member members k :: frames, .value⟩ := rfl
  rw [steps_cons hkey, steps_cons hcolon]

mutual

/-- **The tokens of a document are taken as that document**, whatever brackets are open.  The
induction is on the document. -/
theorem steps_tokens : ∀ (d : Source) {frames : List Frame} {want : Want},
    want = .value ∨ want = .valueOrClose →
      State.steps ⟨frames, want⟩ d.tokens = State.finish frames d
  | .null, _, _, hwant => steps_scalar hwant .null
  | .bool b, _, _, hwant => steps_scalar hwant (.bool b)
  | .number n, _, _, hwant => steps_scalar hwant (.number n)
  | .string s, _, _, hwant => steps_scalar hwant (.string s)
  | .list items, frames, want, hwant => by
    have hopen : State.step ⟨frames, want⟩ .openList = some ⟨.list [] :: frames, .valueOrClose⟩ :=
      step_value hwant nofun
    rw [Tree.tokens, steps_cons hopen, steps_items items]
  | .object members, frames, want, hwant => by
    have hopen : State.step ⟨frames, want⟩ .openObject =
      some ⟨.object [] :: frames, .keyOrClose⟩ := step_value hwant nofun
    rw [Tree.tokens, steps_cons hopen, steps_members members]

theorem steps_items : ∀ (items : List Source) {frames : List Frame},
    State.steps ⟨.list [] :: frames, .valueOrClose⟩ (separated (itemTokens items) ++ [.closeList]) =
      State.finish frames (.list items)
  | [], _ => steps_singleton _ _
  | d :: ds, frames => by
    have hfirst : State.steps ⟨.list [] :: frames, .valueOrClose⟩ d.tokens = _ :=
      steps_tokens d (Or.inr rfl)
    rw [itemTokens, separated, List.append_assoc, steps_append hfirst]
    exact steps_moreItems ds [d]

theorem steps_moreItems : ∀ (items read : List Source) {frames : List Frame},
    State.steps ⟨.list read :: frames, .commaOrClose⟩
      ((itemTokens items).flatMap (.comma :: ·) ++ [.closeList]) =
        State.finish frames (.list (read.reverse ++ items))
  | [], read, _ => by
    rw [List.append_nil]
    exact steps_singleton _ _
  | d :: ds, read, frames => by
    have hcomma : State.step ⟨.list read :: frames, .commaOrClose⟩ .comma =
      some ⟨.list read :: frames, .value⟩ := rfl
    have hitem : State.steps ⟨.list read :: frames, .value⟩ d.tokens = _ :=
      steps_tokens d (Or.inl rfl)
    have hrest : State.steps ⟨.list (d :: read) :: frames, .commaOrClose⟩ _ = _ :=
      steps_moreItems ds (d :: read)
    rw [List.reverse_cons, List.append_assoc] at hrest
    rw [itemTokens, List.flatMap_cons, List.append_assoc, List.cons_append, steps_cons hcomma,
      steps_append hitem]
    exact hrest

theorem steps_members : ∀ (members : List (List Item × Source)) {frames : List Frame},
    State.steps ⟨.object [] :: frames, .keyOrClose⟩
      (separated (memberTokens members) ++ [.closeObject]) = State.finish frames (.object members)
  | [], _ => steps_singleton _ _
  | (k, d) :: ms, frames => by
    have hfirst : State.steps ⟨.member [] k :: frames, .value⟩ d.tokens = _ :=
      steps_tokens d (Or.inl rfl)
    rw [memberTokens, separated, List.append_assoc, List.cons_append, List.cons_append,
      steps_key [] (Or.inr rfl), steps_append hfirst]
    exact steps_moreMembers ms [(k, d)]

theorem steps_moreMembers : ∀ (members read : List (List Item × Source)) {frames : List Frame},
    State.steps ⟨.object read :: frames, .commaOrClose⟩
      ((memberTokens members).flatMap (.comma :: ·) ++ [.closeObject]) =
        State.finish frames (.object (read.reverse ++ members))
  | [], read, _ => by
    rw [List.append_nil]
    exact steps_singleton _ _
  | (k, d) :: ms, read, frames => by
    have hcomma : State.step ⟨.object read :: frames, .commaOrClose⟩ .comma =
      some ⟨.object read :: frames, .key⟩ := rfl
    have hmember : State.steps ⟨.member read k :: frames, .value⟩ d.tokens = _ :=
      steps_tokens d (Or.inl rfl)
    have hrest : State.steps ⟨.object ((k, d) :: read) :: frames, .commaOrClose⟩ _ = _ :=
      steps_moreMembers ms ((k, d) :: read)
    rw [List.reverse_cons, List.append_assoc] at hrest
    rw [memberTokens, List.flatMap_cons, List.append_assoc, List.cons_append, List.cons_append,
      List.cons_append, steps_cons hcomma, steps_key read (Or.inl rfl), steps_append hmember]
    exact hrest

end

/-! ## Texts that hold a document -/

/-- After a number the reader has finished, or it wants a comma or a closing bracket. -/
theorem want_of_number {s s' : State} {token : Token} (hnumber : token.IsNumber)
    (h : s.step token = some s') : s'.want = .commaOrClose ∨ ∃ d, s'.want = .finished d := by
  have hfinish : ∀ {frames : List Frame} {d : Source}, State.finish frames d = some s' →
      s'.want = .commaOrClose ∨ ∃ d, s'.want = .finished d := by
    intro frames d h
    unfold State.finish at h
    split at h <;> cases h
    · exact Or.inr ⟨_, rfl⟩
    · exact Or.inl rfl
    · exact Or.inl rfl
  obtain ⟨n, rfl⟩ : ∃ n, token = .scalar (.number n) := by
    unfold Token.IsNumber at hnumber
    split at hnumber
    · exact ⟨_, rfl⟩
    · cases hnumber
  obtain ⟨frames, want⟩ := s
  cases want with
  | value => exact hfinish h
  | valueOrClose => exact hfinish h
  | key => cases h
  | keyOrClose => cases h
  | colon => cases h
  | commaOrClose => cases h
  | finished => cases h

/-- What the reader takes there ends a number. -/
theorem ends_of_step {s s' : State} {token : Token} {word : List Char}
    (hwant : s.want = .commaOrClose ∨ ∃ d, s.want = .finished d) (h : s.step token = some s')
    (hword : SpellsToken word token) (rest : List Char) : Ends (word ++ rest) := by
  obtain ⟨frames, want⟩ := s
  rcases hwant with hwant | ⟨d, hwant⟩ <;> obtain rfl : want = _ := hwant
  · have htoken : token = .comma ∨ token = .closeList ∨ token = .closeObject := by
      unfold State.step at h
      dsimp only at h
      split at h
      · exact Or.inl ‹_›
      · unfold State.close at h
        split at h
        · exact Or.inr (Or.inl rfl)
        · exact Or.inr (Or.inr rfl)
        · cases h
    rcases htoken with rfl | rfl | rfl <;> cases hword <;> rintro _ ⟨⟩ <;> simp
  · cases h

theorem ends_cons {c : Char} (hc : isBlank c = true ∨ c = ',' ∨ c = ']' ∨ c = '\x7d')
    (rest : List Char) : Ends (c :: rest) := by
  intro d hd
  cases hd
  exact hc

theorem ends_blanks {blanks : List Char} (h : ∀ c ∈ blanks, isBlank c = true) {rest : List Char}
    (hrest : Ends rest) : Ends (blanks ++ rest) := by
  cases blanks with
  | nil => exact hrest
  | cons c blanks => exact ends_cons (Or.inl (h c List.mem_cons_self)) _

/-- **A text of tokens is run through as these**, where the reader takes them and what follows ends
the last of them.  The induction is on the text. -/
theorem run_of_spells {text : List Char} {tokens : List Token} (h : Spells text tokens)
    {s s' : State} (hsteps : s.steps tokens = some s') {rest : List Char} (hrest : Ends rest) :
    run s (text ++ rest) = run s' rest := by
  induction h generalizing s with
  | done hblank =>
    cases hsteps
    exact run_blanks hblank _ _
  | token hblank hword htext ih =>
    rename_i text token tokens
    obtain ⟨s₁, hstep, hsteps⟩ := Option.bind_eq_some_iff.1 hsteps
    have hends : token.IsNumber → Ends (text ++ rest) := by
      intro hnumber
      have hwant := want_of_number hnumber hstep
      cases htext with
      | done hblank => exact ends_blanks hblank hrest
      | token hblank hword =>
        obtain ⟨s₂, hstep, -⟩ := Option.bind_eq_some_iff.1 hsteps
        rw [List.append_assoc, List.append_assoc]
        exact ends_blanks hblank (ends_of_step hwant hstep hword _)
    rw [List.append_assoc, List.append_assoc, run_blanks hblank,
      run_next (nextToken_word hword hends) hstep]
    exact ih hsteps

/-- The reader takes the text as the document, whatever brackets are open around it and whatever
text follows that ends it. -/
def Reads (text : List Char) (d : Source) : Prop :=
  ∀ ⦃frames : List Frame⦄ ⦃want : Want⦄ ⦃s : State⦄ ⦃rest : List Char⦄,
    want = .value ∨ want = .valueOrClose → State.finish frames d = some s → Ends rest →
      run ⟨frames, want⟩ (text ++ rest) = run s rest

/-- **A text of the tokens of a document is read as that document.** -/
theorem reads_of_spells {text : List Char} {d : Source} (h : Spells text d.tokens) :
    Reads text d := by
  intro frames want s rest hwant hfinish hrest
  exact run_of_spells h ((steps_tokens d hwant).trans hfinish) hrest

/-- **A text holds a document exactly when it spells the tokens of the document.** -/
theorem ofText?_iff {text : List Char} {d : Source} :
    Source.ofText? text = some d ↔ Spells text d.tokens := by
  constructor
  · intro h
    obtain ⟨tokens, htext, rfl⟩ := spells_of_run (.value .outermost) h
    exact htext
  · intro h
    have hrest : Ends [] := nofun
    have hfinish : State.finish [] d = some ⟨[], .finished d⟩ := rfl
    rw [Source.ofText?, State.start, ← List.append_nil text,
      reads_of_spells h (Or.inl rfl) hfinish hrest, run_eq]
    rfl

end GlyphMath.Json
