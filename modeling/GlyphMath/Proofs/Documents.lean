import GlyphMath.Proofs.Nesting

/-!
# Written documents are read

* `Spacing`, `spaced` -- a document with blanks before its items and members; both ways of writing
  are of this form.
* `written` -- the document that the text of a decoded document holds, its strings and numbers as
  they are written.
* `spells_spaced` -- a document with blanks is a text of its tokens, by induction on the document.

Principal results:

* `ofText?_compact`, `ofText?_pretty` -- a text that was written holds the document it was written
  for.
-/

set_option autoImplicit false

namespace GlyphMath.Json

open GlyphMath.Decimal

/-! ## Two ways of writing in one -/

/-- The blanks before an item or a closing bracket and those after a colon. -/
structure Spacing where
  line : Nat → List Char
  afterColon : List Char
  line_blank : ∀ level, ∀ c ∈ line level, isBlank c = true
  afterColon_blank : ∀ c ∈ afterColon, isBlank c = true

namespace Spacing

def none : Spacing := ⟨fun _ => [], [], (fun _ _ h => nomatch h), fun _ h => nomatch h⟩

theorem newLine_blank (level : Nat) : ∀ c ∈ newLine level, isBlank c = true := by
  intro c hc
  rcases List.mem_cons.1 hc with rfl | hc
  · rfl
  · rw [(List.mem_replicate.1 hc).2]
    rfl

/-- Lines and indentation. -/
def lines : Spacing := ⟨newLine, [' '], newLine_blank, List.all_eq_true.1 rfl⟩

end Spacing

mutual

/-- A document with blanks. -/
def spaced (p : Spacing) (level : Nat) : Value → List Char
  | .null => ['n', 'u', 'l', 'l']
  | .bool b => boolText b
  | .number n => numberText n
  | .string s => quoted s
  | .list [] => ['[', ']']
  | .list (v :: vs) =>
    '[' :: (p.line (level + 1) ++ (spaced p (level + 1) v ++ spacedItems p level vs))
  | .object [] => ['\x7b', '\x7d']
  | .object ((k, v) :: ms) =>
    '\x7b' :: (p.line (level + 1) ++ (quoted k ++ ':' :: (p.afterColon ++
      (spaced p (level + 1) v ++ spacedMembers p level ms))))

/-- The items after the first, and the closing bracket. -/
def spacedItems (p : Spacing) (level : Nat) : List Value → List Char
  | [] => p.line level ++ [']']
  | v :: vs => ',' :: (p.line (level + 1) ++ (spaced p (level + 1) v ++ spacedItems p level vs))

/-- The members after the first, and the closing bracket. -/
def spacedMembers (p : Spacing) (level : Nat) : List (String × Value) → List Char
  | [] => p.line level ++ ['\x7d']
  | (k, v) :: ms =>
    ',' :: (p.line (level + 1) ++ (quoted k ++ ':' :: (p.afterColon ++
      (spaced p (level + 1) v ++ spacedMembers p level ms))))

end

mutual

theorem compact_eq (level : Nat) : ∀ v : Value, compact v = spaced .none level v
  | .null => rfl
  | .bool _ => rfl
  | .number _ => rfl
  | .string _ => rfl
  | .list [] => rfl
  | .list (v :: vs) => by
    rw [compact, spaced, compact_eq (level + 1) v, compactItems_eq level vs]
    rfl
  | .object [] => rfl
  | .object ((k, v) :: ms) => by
    rw [compact, spaced, compact_eq (level + 1) v, compactMembers_eq level ms]
    rfl

theorem compactItems_eq (level : Nat) :
    ∀ vs : List Value, compactItems vs = spacedItems .none level vs
  | [] => rfl
  | v :: vs => by
    rw [compactItems, spacedItems, compact_eq (level + 1) v, compactItems_eq level vs]
    rfl

theorem compactMembers_eq (level : Nat) :
    ∀ ms : List (String × Value), compactMembers ms = spacedMembers .none level ms
  | [] => rfl
  | (k, v) :: ms => by
    rw [compactMembers, spacedMembers, compact_eq (level + 1) v, compactMembers_eq level ms]
    rfl

end

mutual

theorem pretty_eq (level : Nat) : ∀ v : Value, pretty level v = spaced .lines level v
  | .null => rfl
  | .bool _ => rfl
  | .number _ => rfl
  | .string _ => rfl
  | .list [] => rfl
  | .list (v :: vs) => by
    rw [pretty, spaced, pretty_eq (level + 1) v, prettyItems_eq level vs]
    rfl
  | .object [] => rfl
  | .object ((k, v) :: ms) => by
    rw [pretty, spaced, pretty_eq (level + 1) v, prettyMembers_eq level ms]
    rfl

theorem prettyItems_eq (level : Nat) :
    ∀ vs : List Value, prettyItems level vs = spacedItems .lines level vs
  | [] => rfl
  | v :: vs => by
    rw [prettyItems, spacedItems, pretty_eq (level + 1) v, prettyItems_eq level vs]
    rfl

theorem prettyMembers_eq (level : Nat) :
    ∀ ms : List (String × Value), prettyMembers level ms = spacedMembers .lines level ms
  | [] => rfl
  | (k, v) :: ms => by
    rw [prettyMembers, spacedMembers, pretty_eq (level + 1) v, prettyMembers_eq level ms]
    rfl

end

/-! ## Documents as they are written -/

/-- A number as it is written: nothing but a null where it is not finite. -/
def Number.scalar (x : Number) : Scalar :=
  match x.numeral? with
  | some n => .number n
  | none => .null

mutual

/-- A document with its strings and numbers as they are written. -/
def written : Value → Source
  | .null => .null
  | .bool b => .bool b
  | .number x => State.leaf x.scalar
  | .string s => .string (itemsOf s)
  | .list vs => .list (writtenItems vs)
  | .object ms => .object (writtenMembers ms)

def writtenItems : List Value → List Source
  | [] => []
  | v :: vs => written v :: writtenItems vs

def writtenMembers : List (String × Value) → List (List Item × Source)
  | [] => []
  | (k, v) :: ms => (itemsOf k, written v) :: writtenMembers ms

end

mutual

theorem nesting_written : ∀ v : Value, (written v).nesting = v.nesting
  | .null => rfl
  | .bool _ => rfl
  | .number x => by
    rw [written, Number.scalar]
    split <;> rfl
  | .string _ => rfl
  | .list vs => by rw [written, Tree.nesting, Tree.nesting, itemsNesting_written vs]
  | .object ms => by rw [written, Tree.nesting, Tree.nesting, membersNesting_written ms]

theorem itemsNesting_written : ∀ vs : List Value, itemsNesting (writtenItems vs) = itemsNesting vs
  | [] => rfl
  | v :: vs => by
    rw [writtenItems, itemsNesting, itemsNesting, nesting_written v, itemsNesting_written vs]

theorem membersNesting_written :
    ∀ ms : List (String × Value), membersNesting (writtenMembers ms) = membersNesting ms
  | [] => rfl
  | (_, v) :: ms => by
    rw [writtenMembers, membersNesting, membersNesting, nesting_written v,
      membersNesting_written ms]

end

/-! ## The texts of written documents -/

/-- Blanks in front make no difference. -/
theorem Spells.blanks {blanks text : List Char} {tokens : List Token}
    (h : ∀ c ∈ blanks, isBlank c = true) (htext : Spells text tokens) :
    Spells (blanks ++ text) tokens := by
  cases htext with
  | done hblank => exact .done fun c hc => (List.mem_append.1 hc).elim (h c) (hblank c)
  | token hblank hword hrest =>
    rw [← List.append_assoc]
    exact .token (fun c hc => (List.mem_append.1 hc).elim (h c) (hblank c)) hword hrest

theorem Spells.word {word rest : List Char} {token : Token} {tokens : List Token}
    (hword : SpellsToken word token) (hrest : Spells rest tokens) :
    Spells (word ++ rest) (token :: tokens) := by
  have h : Spells ([] ++ (word ++ rest)) (token :: tokens) :=
    .token (fun _ hc => nomatch hc) hword hrest
  exact h

theorem spellsScalar_numberText (x : Number) : SpellsScalar (numberText x) x.scalar := by
  rw [numberText_eq, Number.scalar]
  cases h : x.numeral? with
  | some n => exact .number (spellsNumeral_text (isWritten_of_numeral? h))
  | none => exact .null

theorem spellsScalar_quoted (s : String) : SpellsScalar (quoted s) (.string (itemsOf s)) :=
  .string (spellsItems_escape s.toList)

theorem spellsScalar_boolText (b : Bool) : SpellsScalar (boolText b) (.bool b) := by
  cases b
  · exact .false
  · exact .true

theorem tokens_leaf (scalar : Scalar) : (State.leaf scalar).tokens = [.scalar scalar] := by
  cases scalar <;> rfl

section

variable (p : Spacing) {rest : List Char} {ts : List Token}

theorem spells_key (k : String) (h : Spells rest ts) :
    Spells (quoted k ++ ':' :: (p.afterColon ++ rest))
      (.scalar (.string (itemsOf k)) :: .colon :: ts) :=
  .word (.scalar (spellsScalar_quoted k)) (.word .colon (.blanks p.afterColon_blank h))

end

mutual

/-- **A document with blanks is a text of its tokens.**  The induction is on the document. -/
theorem spells_spaced (p : Spacing) (level : Nat) : ∀ (v : Value) {rest : List Char}
    {ts : List Token}, Spells rest ts →
      Spells (spaced p level v ++ rest) ((written v).tokens ++ ts)
  | .null, _, _, h => .word (.scalar .null) h
  | .bool b, _, _, h => .word (.scalar (spellsScalar_boolText b)) h
  | .number x, _, _, h => by
    rw [written, tokens_leaf]
    exact .word (.scalar (spellsScalar_numberText x)) h
  | .string s, _, _, h => .word (.scalar (spellsScalar_quoted s)) h
  | .list [], _, _, h => by
    rw [spaced, List.cons_append]
    exact .word .openList (.word .closeList h)
  | .list (v :: vs), rest, ts, h => by
    have hitems := spells_spaced p (level + 1) v (spells_spacedItems p level vs h)
    simp only [spaced, written, writtenItems, Tree.tokens, itemTokens, separated, List.cons_append,
      List.append_assoc, List.nil_append]
    exact .word .openList (.blanks (p.line_blank _) hitems)
  | .object [], _, _, h => by
    rw [spaced, List.cons_append]
    exact .word .openObject (.word .closeObject h)
  | .object ((k, v) :: ms), rest, ts, h => by
    have hmembers := spells_spaced p (level + 1) v (spells_spacedMembers p level ms h)
    simp only [spaced, written, writtenMembers, Tree.tokens, memberTokens, separated,
      List.cons_append, List.append_assoc, List.nil_append]
    exact .word .openObject (.blanks (p.line_blank _) (spells_key p k hmembers))

theorem spells_spacedItems (p : Spacing) (level : Nat) : ∀ (vs : List Value) {rest : List Char}
    {ts : List Token}, Spells rest ts →
      Spells (spacedItems p level vs ++ rest)
        ((itemTokens (writtenItems vs)).flatMap (.comma :: ·) ++ .closeList :: ts)
  | [], rest, _, h => by
    rw [spacedItems, List.append_assoc]
    exact .blanks (p.line_blank level) (.word .closeList h)
  | v :: vs, rest, ts, h => by
    have hitems := spells_spaced p (level + 1) v (spells_spacedItems p level vs h)
    simp only [spacedItems, writtenItems, itemTokens, List.flatMap_cons, List.cons_append,
      List.append_assoc]
    exact .word .comma (.blanks (p.line_blank _) hitems)

theorem spells_spacedMembers (p : Spacing) (level : Nat) :
    ∀ (ms : List (String × Value)) {rest : List Char} {ts : List Token}, Spells rest ts →
      Spells (spacedMembers p level ms ++ rest)
        ((memberTokens (writtenMembers ms)).flatMap (.comma :: ·) ++ .closeObject :: ts)
  | [], rest, _, h => by
    rw [spacedMembers, List.append_assoc]
    exact .blanks (p.line_blank level) (.word .closeObject h)
  | (k, v) :: ms, rest, ts, h => by
    have hmembers := spells_spaced p (level + 1) v (spells_spacedMembers p level ms h)
    simp only [spacedMembers, writtenMembers, memberTokens, List.flatMap_cons, List.cons_append,
      List.append_assoc]
    exact .word .comma (.blanks (p.line_blank _) (spells_key p k hmembers))

end

/-! ## Whole texts -/

theorem ofText?_spaced (p : Spacing) (level : Nat) (v : Value) :
    Source.ofText? (spaced p level v) = some (written v) := by
  have hend : Spells [] [] := .done fun _ hc => nomatch hc
  have htext := spells_spaced p level v hend
  rw [List.append_nil, List.append_nil] at htext
  exact ofText?_iff.2 htext

/-- **A text without blanks holds the document it was written for.** -/
theorem ofText?_compact (v : Value) : Source.ofText? (compact v) = some (written v) := by
  rw [compact_eq 0, ofText?_spaced]

/-- **A text with lines holds the document it was written for.** -/
theorem ofText?_pretty (level : Nat) (v : Value) :
    Source.ofText? (pretty level v) = some (written v) := by
  rw [pretty_eq, ofText?_spaced]

end GlyphMath.Json
