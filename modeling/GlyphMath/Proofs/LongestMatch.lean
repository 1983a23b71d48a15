import GlyphMath.Proofs.Words

/-!
# The longest token first

* `TokenText` -- the texts of tokens, each with its token.
* `IsLongest` -- the longest token text at the front of a text.
* `Splits` -- a text as blanks and longest token texts, up to its end or to where no token starts.
* `Chunk.Reads`, `Chunk.Overflows` -- a token text in range, and a literal that is not.
* `IsOutOfRange` -- the literals that are not, by the number that their digits stand for.
* `Covers` -- how token texts lie in a text.

Principal results:

* `takeToken?_eq_some_iff`, `takeToken?_eq_none_iff` -- what is taken from the front is the longest
  token text there.
* `Splits.covers` -- nothing but blanks is lost.
* `Chunk.overflows_iff` -- which literals are out of range.
* `tokenize_iff_splits` -- the tokenizer succeeds and fails as the split does.
-/

set_option autoImplicit false

namespace GlyphMath.Formula

open Decimal (isDigit digitsValue leastInfinite isInf_nearest_iff)
open Line (IsNumeral)

/-! ## The texts of tokens -/

/-- `TokenText word t`: the text of a token.  The number of a literal may be out of range. -/
inductive TokenText : List Char → Token → Prop where
  | number {word : List Char} (h : IsNumeral word) : TokenText word (.number (literalValue word))
  | name {word : List Char} (hne : word ≠ []) (hletters : ∀ c ∈ word, isLetter c = true)
      (hname : String.ofList word ∉ functionNames) : TokenText word (.name (String.ofList word))
  | function {word : List Char} (hname : String.ofList word ∈ functionNames) :
      TokenText word (.function (String.ofList word))
  | pi : TokenText ['π'] (.name "pi")
  | e : TokenText ['ℯ'] (.name "e")
  | operator (op : Operator) : TokenText [op.symbol] (.operator op)
  | openParen : TokenText ['('] .openParen
  | closeParen : TokenText [')'] .closeParen
  | bar : TokenText ['|'] .closeParen
  | comma : TokenText [','] .comma

def IsTokenText (word : List Char) : Prop := ∃ t, TokenText word t

theorem letters_of_function {word : List Char} (h : String.ofList word ∈ functionNames) :
    word ≠ [] ∧ ∀ c ∈ word, isLetter c = true := by
  simpa using functionNames_letters _ h

theorem isTokenText_letters {word : List Char} (hne : word ≠ [])
    (hletters : ∀ c ∈ word, isLetter c = true) : IsTokenText word := by
  by_cases hname : String.ofList word ∈ functionNames
  · exact ⟨_, .function hname⟩
  · exact ⟨_, .name hne hletters hname⟩

theorem isTokenText_sign {c : Char} (h : isSign c = true) : IsTokenText [c] := by
  unfold isSign at h
  have hmem := of_decide_eq_true h
  simp only [List.mem_cons, List.not_mem_nil, or_false] at hmem
  rcases hmem with rfl | rfl | rfl | rfl | rfl | rfl | rfl | rfl | rfl | rfl | rfl
  · exact ⟨_, .pi⟩
  · exact ⟨_, .e⟩
  · exact ⟨_, .operator .add⟩
  · exact ⟨_, .operator .sub⟩
  · exact ⟨_, .operator .mul⟩
  · exact ⟨_, .operator .div⟩
  · exact ⟨_, .operator .pow⟩
  · exact ⟨_, .openParen⟩
  · exact ⟨_, .closeParen⟩
  · exact ⟨_, .bar⟩
  · exact ⟨_, .comma⟩

/-- A token text is a numeral, a row of letters or a sign. -/
theorem IsTokenText.cases {word : List Char} (h : IsTokenText word) :
    IsNumeral word ∨ (word ≠ [] ∧ ∀ c ∈ word, isLetter c = true) ∨
      ∃ c, word = [c] ∧ isSign c = true := by
  obtain ⟨t, ht⟩ := h
  cases ht with
  | number h => exact Or.inl h
  | name hne hletters => exact Or.inr (Or.inl ⟨hne, hletters⟩)
  | function hname => exact Or.inr (Or.inl (letters_of_function hname))
  | operator op => cases op <;> exact Or.inr (Or.inr ⟨_, rfl, by decide⟩)
  | _ => exact Or.inr (Or.inr ⟨_, rfl, by decide⟩)

theorem IsTokenText.ne_nil {word : List Char} (h : IsTokenText word) : word ≠ [] := by
  rcases h.cases with hnumeral | ⟨hne, -⟩ | ⟨c, rfl, -⟩
  · obtain ⟨c, hc, -⟩ := hnumeral.digit
    exact List.ne_nil_of_mem hc
  · exact hne
  · exact List.cons_ne_nil _ _

/-- The token of a text is determined by it. -/
theorem TokenText.token_eq {word : List Char} {t : Token} (h : TokenText word t) :
    t = if isLiteral word then .number (literalValue word) else signToken word := by
  cases h with
  | number h => rw [if_pos (Line.isLiteral_numeral h)]
  | name hne hletters hname =>
    rw [if_neg (by simp [isLiteral_word hletters]), signToken_word hletters, wordToken,
      if_neg hname]
  | function hname =>
    have hletters := (letters_of_function hname).2
    rw [if_neg (by simp [isLiteral_word hletters]), signToken_word hletters, wordToken,
      if_pos hname]
  | operator op => cases op <;> rfl
  | _ => rfl

/-! ## What is taken from the front -/

theorem count_point_digits {ds : List Char} (hds : ∀ c ∈ ds, isDigit c = true) :
    ds.count '.' = 0 := by
  rw [List.count_eq_zero]
  intro hmem
  exact absurd (hds '.' hmem) (by decide)

theorem isNumeral_takeNumeral {c : Char} {tail : List Char} (hc : isDigit c = true) :
    IsNumeral (takeNumeral (c :: tail)).1 := by
  have hdigits : ∀ {text : List Char}, ∀ d ∈ text.takeWhile isDigit, isDigit d = true :=
    List.all_eq_true.1 List.all_takeWhile
  refine ⟨fun d hd => mem_takeNumeral hd, ?_, c, ?_, hc⟩
  · unfold takeNumeral
    split
    · rw [List.count_append, List.count_cons_self, count_point_digits hdigits,
        count_point_digits hdigits]
    · rw [count_point_digits hdigits]
      exact Nat.zero_le 1
  · obtain ⟨token, htoken⟩ := takeNumeral_cons hc tail
    rw [htoken]
    exact List.mem_cons_self

/-- A point before digits starts a numeral. -/
theorem isNumeral_point {fs : List Char} (hne : fs ≠ []) (hfs : ∀ c ∈ fs, isDigit c = true) :
    IsNumeral ('.' :: fs) := by
  obtain ⟨d, hd⟩ := List.exists_mem_of_ne_nil fs hne
  refine ⟨fun c hc => ?_, ?_, d, List.mem_cons_of_mem _ hd, hfs d hd⟩
  · exact (List.mem_cons.1 hc).symm.imp_left (hfs c)
  · rw [List.count_cons_self, count_point_digits hfs]

theorem isTokenText_of_takeToken? {text word rest : List Char}
    (h : takeToken? text = some (word, rest)) : IsTokenText word := by
  unfold takeToken? at h
  split at h
  · cases h
  · rename_i c tail
    split at h
    · rename_i hc
      have hnumeral := @isNumeral_takeNumeral c tail hc
      rw [Option.some.inj h] at hnumeral
      exact ⟨_, .number hnumeral⟩
    · split at h
      · split at h
        · cases h
        · rename_i hfraction
          cases h
          refine ⟨_, .number (isNumeral_point (fun hnil => ?_) ?_)⟩
          · rw [hnil] at hfraction
            exact hfraction rfl
          · exact List.all_eq_true.1 List.all_takeWhile
      · split at h
        · rename_i hc
          cases h
          refine isTokenText_letters ?_ (List.all_eq_true.1 List.all_takeWhile)
          rw [List.takeWhile_cons_of_pos hc]
          exact List.cons_ne_nil _ _
        · split at h
          · rename_i hsign
            cases h
            exact isTokenText_sign hsign
          · cases h

theorem takeNumeral_digits_append {ds : List Char} (hds : ∀ c ∈ ds, isDigit c = true)
    (text : List Char) :
    takeNumeral (ds ++ text) = (ds ++ (takeNumeral text).1, (takeNumeral text).2) := by
  unfold takeNumeral
  rw [List.takeWhile_append_of_pos hds, List.dropWhile_append_of_pos hds]
  split
  · rw [List.append_assoc]
  · rfl

theorem takeNumeral_point (text : List Char) :
    takeNumeral ('.' :: text) = ('.' :: text.takeWhile isDigit, text.dropWhile isDigit) := by
  have hpoint : isDigit '.' = false := by decide
  simp [takeNumeral, hpoint]

theorem takeToken?_digits {ds : List Char} (hne : ds ≠ []) (hds : ∀ c ∈ ds, isDigit c = true)
    (text : List Char) :
    takeToken? (ds ++ text) = some (ds ++ (takeNumeral text).1, (takeNumeral text).2) := by
  rw [← takeNumeral_digits_append hds]
  obtain ⟨c, ds, rfl⟩ := List.exists_cons_of_ne_nil hne
  rw [List.cons_append, takeToken?, if_pos (hds c List.mem_cons_self)]

/-- Before any text a numeral is taken as a whole, and perhaps more. -/
theorem takeToken?_numeral_append {word : List Char} (h : IsNumeral word) (text : List Char) :
    ∃ more rest, takeToken? (word ++ text) = some (word ++ more, rest) := by
  obtain ⟨c, hc, hdigit⟩ := h.digit
  rcases Line.numeral_cases h.chars h.points with hds | ⟨ds, fs, rfl, hds, hfs⟩
  · exact ⟨_, _, takeToken?_digits (List.ne_nil_of_mem hc) hds text⟩
  · by_cases hne : ds = []
    · subst hne
      have hfs' : fs ≠ [] := by
        rintro rfl
        rw [List.mem_singleton.1 hc] at hdigit
        exact absurd hdigit (by decide)
      have hpoint : isDigit '.' = false := by decide
      refine ⟨text.takeWhile isDigit, text.dropWhile isDigit, ?_⟩
      simp [takeToken?, hpoint, List.takeWhile_append_of_pos hfs,
        List.dropWhile_append_of_pos hfs, hfs']
    · refine ⟨text.takeWhile isDigit, text.dropWhile isDigit, ?_⟩
      rw [List.append_assoc, takeToken?_digits hne hds, List.cons_append, takeNumeral_point,
        List.takeWhile_append_of_pos hfs, List.dropWhile_append_of_pos hfs, List.append_assoc,
        List.cons_append]

/-- Before any text a token text is taken as a whole, and perhaps more. -/
theorem takeToken?_append_of_isTokenText {word : List Char} (h : IsTokenText word)
    (text : List Char) : ∃ more rest, takeToken? (word ++ text) = some (word ++ more, rest) := by
  rcases h.cases with hnumeral | ⟨hne, hletters⟩ | ⟨c, rfl, hsign⟩
  · exact takeToken?_numeral_append hnumeral text
  · obtain ⟨c, word, rfl⟩ := List.exists_cons_of_ne_nil hne
    have hc := hletters c List.mem_cons_self
    have hpoint : c ≠ '.' := by
      rintro rfl
      exact absurd hc (by decide)
    refine ⟨text.takeWhile isLetter, text.dropWhile isLetter, ?_⟩
    rw [← List.takeWhile_append_of_pos hletters, ← List.dropWhile_append_of_pos hletters,
      List.cons_append, takeToken?, if_neg (by simp [not_isDigit_of_isLetter hc]),
      if_neg (by simpa using hpoint), if_pos hc]
  · exact ⟨[], text, takeToken?_sign hsign text⟩

/-- The longest token text at the front of a text. -/
structure IsLongest (word text : List Char) : Prop where
  front : word <+: text
  token : IsTokenText word
  longest : ∀ other, other <+: text → IsTokenText other → other.length ≤ word.length

/-- **What is taken is the longest token text at the front.** -/
theorem takeToken?_eq_some_iff {text word rest : List Char} :
    takeToken? text = some (word, rest) ↔ text = word ++ rest ∧ IsLongest word text := by
  constructor
  · intro h
    have happend := takeToken?_append h
    refine ⟨happend.symm, ⟨rest, happend⟩, isTokenText_of_takeToken? h, ?_⟩
    rintro other ⟨text, rfl⟩ hother
    obtain ⟨more, rest', hmore⟩ := takeToken?_append_of_isTokenText hother text
    obtain ⟨rfl, -⟩ := Prod.mk.inj (Option.some.inj (h.symm.trans hmore))
    exact List.length_append ▸ Nat.le_add_right _ _
  · rintro ⟨rfl, hword⟩
    obtain ⟨more, rest', hmore⟩ := takeToken?_append_of_isTokenText hword.token rest
    -- nothing more is taken, since the word is the longest
    have hle := hword.longest (word ++ more) ⟨rest', takeToken?_append hmore⟩
      (isTokenText_of_takeToken? hmore)
    have hnil : more = [] := by
      rw [List.length_append] at hle
      exact List.length_eq_zero_iff.1 (by omega)
    subst hnil
    have happend := takeToken?_append hmore
    rw [List.append_nil] at happend hmore
    rw [hmore, List.append_cancel_left happend]

/-- **Nothing is taken where no token starts.** -/
theorem takeToken?_eq_none_iff {text : List Char} :
    takeToken? text = none ↔ ∀ word, word <+: text → ¬ IsTokenText word := by
  constructor
  · rintro h word ⟨rest, rfl⟩ hword
    obtain ⟨more, rest', hmore⟩ := takeToken?_append_of_isTokenText hword rest
    rw [h] at hmore
    cases hmore
  · intro h
    cases htake : takeToken? text with
    | none => rfl
    | some taken =>
      obtain ⟨word, rest⟩ := taken
      exact absurd (isTokenText_of_takeToken? htake) (h word ⟨rest, takeToken?_append htake⟩)

/-- A word is not directly followed by a letter. -/
theorem IsLongest.next {word rest : List Char} (h : IsLongest word (word ++ rest))
    (hletters : ∀ c ∈ word, isLetter c = true) : ∀ c ∈ rest.head?, isLetter c = false := by
  intro c hc
  rw [Bool.eq_false_iff]
  intro hletter
  cases rest with
  | nil => cases hc
  | cons d rest =>
    cases hc
    have hmore : ∀ d ∈ word ++ [c], isLetter d = true := by
      intro d hd
      rcases List.mem_append.1 hd with hd | hd
      · exact hletters d hd
      · rwa [List.mem_singleton.1 hd]
    have hlonger := h.longest (word ++ [c]) ⟨rest, by simp⟩ (isTokenText_letters (by simp) hmore)
    rw [List.length_append, List.length_singleton] at hlonger
    omega

/-! ## Splitting -/

/-- `Splits place text chunks stop`: a text that starts at a place splits, left to right and with
the longest token each time, into blanks and the token texts `chunks`.  What is left is `stop`: it
is empty, or no token starts it. -/
inductive Splits : Nat → List Char → List Chunk → List Char → Prop where
  | done {place : Nat} : Splits place [] [] []
  | stuck {place : Nat} {c : Char} {rest : List Char} (hc : isSpace c = false)
      (hnone : ∀ word, word <+: c :: rest → ¬ IsTokenText word) :
      Splits place (c :: rest) [] (c :: rest)
  | blank {place : Nat} {c : Char} {rest stop : List Char} {chunks : List Chunk}
      (hc : isSpace c = true) : Splits (place + 1) rest chunks stop →
      Splits place (c :: rest) chunks stop
  | token {place : Nat} {word rest stop : List Char} {chunks : List Chunk}
      (hword : IsLongest word (word ++ rest)) : Splits (place + word.length) rest chunks stop →
      Splits place (word ++ rest) (⟨word, place⟩ :: chunks) stop

theorem exists_splits (place : Nat) (text : List Char) :
    ∃ chunks stop, Splits place text chunks stop := by
  fun_induction split place text with
  | case1 place => exact ⟨[], [], .done⟩
  | case2 place c rest hc ih =>
    obtain ⟨chunks, stop, h⟩ := ih
    exact ⟨chunks, stop, .blank hc h⟩
  | case3 place c rest hc hnone =>
    exact ⟨[], c :: rest, .stuck (by simpa using hc) (takeToken?_eq_none_iff.1 hnone)⟩
  | case4 place c rest hc word after htake e he ih =>
    obtain ⟨chunks, stop, h⟩ := ih
    obtain ⟨htext, hword⟩ := takeToken?_eq_some_iff.1 htake
    rw [htext] at hword ⊢
    exact ⟨_, stop, .token hword h⟩
  | case5 place c rest hc word after htake chunks hchunks ih =>
    obtain ⟨chunks, stop, h⟩ := ih
    obtain ⟨htext, hword⟩ := takeToken?_eq_some_iff.1 htake
    rw [htext] at hword ⊢
    exact ⟨_, stop, .token hword h⟩

/-- What becomes of a split: its token texts, or the character at which it stops. -/
def splitResult (chunks : List Chunk) (place : Nat) : List Char → Except LexError (List Chunk)
  | [] => .ok chunks
  | c :: _ => .error (.unexpectedChar c place)

namespace Splits

variable {place : Nat} {text stop : List Char} {chunks : List Chunk}

/-- **The tokenizer splits a text at its longest tokens.** -/
theorem split_eq (h : Splits place text chunks stop) :
    ∃ before, text = before ++ stop ∧
      split place text = splitResult chunks (place + before.length) stop := by
  induction h with
  | done => exact ⟨[], rfl, by rw [split]; rfl⟩
  | @stuck place c rest hc hnone =>
    refine ⟨[], rfl, ?_⟩
    have hnone := takeToken?_eq_none_iff.2 hnone
    rw [split, if_neg (by simp [hc])]
    split
    · rfl
    · rename_i hsome
      rw [hnone] at hsome
      cases hsome
  | @blank place c rest stop chunks hc _ ih =>
    obtain ⟨before, rfl, hsplit⟩ := ih
    refine ⟨c :: before, rfl, ?_⟩
    rw [split, if_pos hc, hsplit, List.length_cons, Nat.add_assoc, Nat.add_comm 1]
  | @token place word rest stop chunks hword _ ih =>
    obtain ⟨before, rfl, hsplit⟩ := ih
    refine ⟨word ++ before, (List.append_assoc ..).symm, ?_⟩
    rw [split_append place (takeToken?_eq_some_iff.2 ⟨rfl, hword⟩), hsplit, List.length_append,
      ← Nat.add_assoc]
    cases stop <;> rfl

theorem isLongest (h : Splits place text chunks stop) :
    ∀ chunk ∈ chunks, ∃ n, chunk.offset = place + n ∧ IsLongest chunk.text (text.drop n) := by
  induction h with
  | done => exact nofun
  | stuck => exact nofun
  | blank _ _ ih =>
    intro chunk hchunk
    obtain ⟨n, hplace, hlongest⟩ := ih chunk hchunk
    exact ⟨n + 1, by omega, hlongest⟩
  | @token place word rest stop chunks hword _ ih =>
    rintro chunk (_ | ⟨_, hchunk⟩)
    · exact ⟨0, rfl, hword⟩
    · obtain ⟨n, hplace, hlongest⟩ := ih chunk hchunk
      refine ⟨word.length + n, by omega, ?_⟩
      rwa [List.drop_length_add_append]

theorem place_le (h : Splits place text chunks stop) : ∀ chunk ∈ chunks, place ≤ chunk.offset := by
  intro chunk hchunk
  obtain ⟨n, hplace, -⟩ := h.isLongest chunk hchunk
  exact hplace ▸ Nat.le_add_right place n

/-- Token texts stand one behind the other. -/
theorem apart (h : Splits place text chunks stop) :
    chunks.Pairwise fun a b => a.offset + a.text.length ≤ b.offset := by
  induction h with
  | done => exact .nil
  | stuck => exact .nil
  | blank _ _ ih => exact ih
  | token _ hrest ih => exact .cons hrest.place_le ih

/-- Only blanks stand in front of the first token text. -/
theorem next {chunk : Chunk} (h : Splits place text (chunk :: chunks) stop) :
    ∃ blanks rest, text = blanks ++ (chunk.text ++ rest) ∧ (∀ c ∈ blanks, isSpace c = true) ∧
      chunk.offset = place + blanks.length ∧
      Splits (chunk.offset + chunk.text.length) rest chunks stop := by
  generalize hall : chunk :: chunks = all at h
  induction h with
  | done => cases hall
  | stuck => cases hall
  | @blank place c rest stop all hc _ ih =>
    obtain ⟨blanks, rest, rfl, hblanks, hplace, hrest⟩ := ih hall
    refine ⟨c :: blanks, rest, rfl, ?_, ?_, hrest⟩
    · rintro d (_ | ⟨_, hd⟩)
      · exact hc
      · exact hblanks d hd
    · rw [hplace, List.length_cons, Nat.add_assoc, Nat.add_comm 1]
  | @token place word rest stop all hword hrest _ =>
    obtain ⟨rfl, rfl⟩ := List.cons.inj hall
    exact ⟨[], rest, rfl, nofun, rfl, hrest⟩

/-- A text is divided in front of each of its token texts. -/
theorem cut {before after : List Chunk} (h : Splits place text (before ++ after) stop) :
    ∃ front back, text = front ++ back ∧ Splits (place + front.length) back after stop := by
  induction before generalizing place text with
  | nil => exact ⟨[], text, rfl, h⟩
  | cons chunk before ih =>
    obtain ⟨blanks, rest, rfl, -, hplace, hrest⟩ := h.next
    obtain ⟨front, back, rfl, hback⟩ := ih hrest
    refine ⟨blanks ++ chunk.text ++ front, back, by simp, ?_⟩
    rwa [hplace, Nat.add_assoc, Nat.add_assoc, ← Nat.add_assoc blanks.length,
      ← List.length_append, ← List.length_append] at hback

/-- Where a split stops, nothing can be taken. -/
theorem takeToken?_stop {c : Char} {rest : List Char} (h : Splits place text chunks (c :: rest)) :
    takeToken? (c :: rest) = none := by
  generalize hstop : c :: rest = stop at h
  induction h with
  | done => cases hstop
  | stuck _ hnone => exact takeToken?_eq_none_iff.2 hnone
  | blank _ _ ih => exact ih hstop
  | token _ _ ih => exact ih hstop

/-- What no token text covers is a blank. -/
theorem isSpace_of_uncovered (h : Splits place text chunks []) {i : Nat} {c : Char}
    (hi : text[i]? = some c)
    (hfree : ∀ chunk ∈ chunks,
      ¬ (chunk.offset ≤ place + i ∧ place + i < chunk.offset + chunk.text.length)) :
    isSpace c = true := by
  -- the position is relative to what is left, the places of token texts are not
  generalize hstop : [] = stop at h
  induction h generalizing i with
  | done => cases hi
  | stuck => cases hstop
  | @blank place d rest stop chunks hd _ ih =>
    cases i with
    | zero =>
      cases hi
      exact hd
    | succ i =>
      refine ih hi (fun chunk hchunk => ?_) hstop
      rw [Nat.add_assoc, Nat.add_comm 1]
      exact hfree chunk hchunk
  | @token place word rest stop chunks _ _ ih =>
    have hlater := hfree ⟨word, place⟩ List.mem_cons_self
    dsimp only at hlater
    obtain ⟨j, rfl⟩ := Nat.exists_eq_add_of_le (show word.length ≤ i by omega)
    rw [List.getElem?_append_right (Nat.le_add_right _ _), Nat.add_sub_cancel_left] at hi
    refine ih hi (fun chunk hchunk => ?_) hstop
    rw [Nat.add_assoc]
    exact hfree chunk (List.mem_cons_of_mem _ hchunk)

end Splits

/-- How token texts lie in a text. -/
structure Covers (text : List Char) (chunks : List Chunk) : Prop where
  /-- Each stands in the text at its place. -/
  stands : ∀ chunk ∈ chunks, chunk.text <+: text.drop chunk.offset
  increasing : (chunks.map (·.offset)).Pairwise (· < ·)
  /-- Each starts where the ones before it have ended. -/
  apart : chunks.Pairwise fun a b => a.offset + a.text.length ≤ b.offset
  /-- A character of none of them is a blank. -/
  blanks : ∀ i c, text[i]? = some c →
    (∀ chunk ∈ chunks, ¬ (chunk.offset ≤ i ∧ i < chunk.offset + chunk.text.length)) →
      isSpace c = true
  /-- No letter follows a word. -/
  words : ∀ chunk ∈ chunks, (∀ c ∈ chunk.text, isLetter c = true) →
    ∀ c, text[chunk.offset + chunk.text.length]? = some c → isLetter c = false

/-- **Nothing but blanks is lost** by a split that comes to the end. -/
theorem Splits.covers {text : List Char} {chunks : List Chunk} (h : Splits 0 text chunks []) :
    Covers text chunks := by
  have hlongest : ∀ chunk ∈ chunks, IsLongest chunk.text (text.drop chunk.offset) := by
    intro chunk hchunk
    obtain ⟨n, hplace, hlongest⟩ := h.isLongest chunk hchunk
    rwa [hplace, Nat.zero_add]
  refine ⟨fun chunk hchunk => (hlongest chunk hchunk).front, ?_, h.apart, ?_, ?_⟩
  · rw [List.pairwise_map]
    refine h.apart.imp_of_mem fun {a b} ha _ hle => ?_
    have hpos := List.length_pos_iff.2 (hlongest a ha).token.ne_nil
    omega
  · intro i c hi hfree
    refine h.isSpace_of_uncovered hi fun chunk hchunk => ?_
    rw [Nat.zero_add]
    exact hfree chunk hchunk
  · intro chunk hchunk hletters c hc
    have hword := hlongest chunk hchunk
    obtain ⟨rest, hrest⟩ := hword.front
    rw [← hrest] at hword
    refine hword.next hletters c ?_
    rw [← List.getElem?_drop, ← hrest, List.getElem?_append_right (Nat.le_refl _), Nat.sub_self]
      at hc
    rwa [List.head?_eq_getElem?]

/-! ## Tokens of token texts -/

/-- A number in the range of doubles, or any other token. -/
def Token.InRange : Token → Prop
  | .number v => v.isInf = false
  | _ => True

/-- A token text and its token, which starts at its place and is in range. -/
structure Chunk.Reads (chunk : Chunk) (l : Lexeme) : Prop where
  place : l.offset = chunk.offset
  token : TokenText chunk.text l.token
  range : l.token.InRange

/-- A literal that is out of range. -/
def Chunk.Overflows (chunk : Chunk) : Prop :=
  ∃ v, TokenText chunk.text (.number v) ∧ v.isInf = true

/-- The literals of at least `leastInfinite`: digits, perhaps with a point and further digits. -/
inductive IsOutOfRange : List Char → Prop where
  | whole {ds : List Char} (hds : ∀ c ∈ ds, isDigit c = true)
      (h : leastInfinite ≤ digitsValue ds) : IsOutOfRange ds
  | fraction {ds fs : List Char} (hds : ∀ c ∈ ds, isDigit c = true)
      (hfs : ∀ c ∈ fs, isDigit c = true)
      (h : leastInfinite * 10 ^ fs.length ≤ digitsValue (ds ++ fs)) :
      IsOutOfRange (ds ++ '.' :: fs)

def Chunk.refusal (chunk : Chunk) : LexError :=
  .numberOutOfRange (String.ofList chunk.text) chunk.offset

section

variable {chunk : Chunk} {chunks : List Chunk} {l : Lexeme} {ls : List Lexeme} {t : Token}
  {e : LexError}

theorem TokenText.isNumeral {word : List Char} {v : Float} (h : TokenText word (.number v)) :
    IsNumeral word ∧ v = literalValue word := by
  cases h with
  | number h => exact ⟨h, rfl⟩

theorem isInf_digits_iff {ds : List Char} (hds : ∀ c ∈ ds, isDigit c = true) :
    (literalValue ds).isInf = true ↔ leastInfinite ≤ digitsValue ds := by
  rw [Decimal.literalValue_whole hds, isInf_nearest_iff, Int.neg_zero, Int.toNat_zero,
    Nat.pow_zero, Nat.mul_one, Nat.mul_one]

theorem isInf_fraction_iff {ds : List Char} (hds : ∀ c ∈ ds, isDigit c = true) (fs : List Char) :
    (literalValue (ds ++ '.' :: fs)).isInf = true ↔
      leastInfinite * 10 ^ fs.length ≤ digitsValue (ds ++ fs) := by
  rw [Decimal.literalValue_fraction hds, isInf_nearest_iff, Int.neg_neg, Int.toNat_natCast,
    Int.toNat_neg_natCast, Nat.pow_zero, Nat.mul_one]

theorem IsOutOfRange.isInf {word : List Char} (h : IsOutOfRange word) :
    (literalValue word).isInf = true := by
  cases h with
  | whole hds h => exact (isInf_digits_iff hds).2 h
  | fraction hds hfs h => exact (isInf_fraction_iff hds _).2 h

theorem IsOutOfRange.exists_digit {word : List Char} (h : IsOutOfRange word) :
    ∃ c ∈ word, isDigit c = true := by
  have hpos : 0 < leastInfinite := by decide +kernel
  cases h with
  | whole hds h =>
    cases word with
    | nil => exact absurd h (Nat.not_le_of_lt hpos)
    | cons c ds => exact ⟨c, List.mem_cons_self, hds c List.mem_cons_self⟩
  | @fraction ds fs hds hfs h =>
    have hne : ds ++ fs ≠ [] := by
      intro hnil
      rw [hnil] at h
      exact absurd h (Nat.not_le_of_lt (Nat.mul_pos hpos (Nat.pow_pos (by decide))))
    obtain ⟨c, hc⟩ := List.exists_mem_of_ne_nil _ hne
    rcases List.mem_append.1 hc with hc | hc
    · exact ⟨c, List.mem_append_left _ hc, hds c hc⟩
    · exact ⟨c, List.mem_append_right _ (List.mem_cons_of_mem _ hc), hfs c hc⟩

theorem IsOutOfRange.isNumeral {word : List Char} (h : IsOutOfRange word) : IsNumeral word := by
  have hdigit := h.exists_digit
  cases h with
  | whole hds =>
    exact ⟨fun c hc => Or.inl (hds c hc), by rw [count_point_digits hds]; exact Nat.zero_le 1,
      hdigit⟩
  | fraction hds hfs =>
    refine ⟨fun c hc => ?_, ?_, hdigit⟩
    · rcases List.mem_append.1 hc with hc | hc
      · exact Or.inl (hds c hc)
      · exact (List.mem_cons.1 hc).symm.imp_left (hfs c)
    · rw [List.count_append, List.count_cons_self, count_point_digits hds,
        count_point_digits hfs]

/-- **A literal is out of range** from halfway between the greatest finite double and the next power
of two on. -/
theorem Chunk.overflows_iff : chunk.Overflows ↔ IsOutOfRange chunk.text := by
  constructor
  · rintro ⟨v, htext, hinf⟩
    obtain ⟨hnumeral, rfl⟩ := htext.isNumeral
    rcases Line.numeral_cases hnumeral.chars hnumeral.points with hds | ⟨ds, fs, heq, hds, hfs⟩
    · exact .whole hds ((isInf_digits_iff hds).1 hinf)
    · rw [heq] at hinf ⊢
      exact .fraction hds hfs ((isInf_fraction_iff hds fs).1 hinf)
  · intro h
    exact ⟨_, .number h.isNumeral, h.isInf⟩

theorem lexeme_of_inRange (h : TokenText chunk.text t) (hrange : t.InRange) :
    chunk.lexeme = .ok ⟨t, chunk.offset⟩ := by
  have htoken := h.token_eq
  unfold Chunk.lexeme
  split at htoken
  · rename_i hliteral
    rw [htoken] at hrange ⊢
    have hfinite : (literalValue chunk.text).isInf = false := hrange
    rw [if_pos hliteral]
    dsimp only
    rw [if_neg (by simp [hfinite])]
  · rename_i hliteral
    rw [if_neg hliteral, htoken]

theorem Chunk.Overflows.lexeme_eq (h : chunk.Overflows) : chunk.lexeme = .error chunk.refusal := by
  obtain ⟨v, htext, hinf⟩ := h
  obtain ⟨hnumeral, rfl⟩ := htext.isNumeral
  unfold Chunk.lexeme
  rw [if_pos (Line.isLiteral_numeral hnumeral)]
  dsimp only
  rw [if_pos hinf]
  rfl

theorem reads_or_overflows (h : IsTokenText chunk.text) :
    (∃ l, chunk.Reads l) ∨ chunk.Overflows := by
  obtain ⟨t, ht⟩ := h
  cases t with
  | number v =>
    cases hinf : v.isInf with
    | false => exact Or.inl ⟨⟨_, chunk.offset⟩, rfl, ht, hinf⟩
    | true => exact Or.inr ⟨v, ht, hinf⟩
  | _ => exact Or.inl ⟨⟨_, chunk.offset⟩, rfl, ht, trivial⟩

theorem Chunk.Reads.lexeme_eq (h : chunk.Reads l) : chunk.lexeme = .ok l := by
  rw [lexeme_of_inRange h.token h.range, ← h.place]

theorem Chunk.Reads.not_overflows (h : chunk.Reads l) : ¬ chunk.Overflows := by
  intro hover
  have heq := h.lexeme_eq
  rw [hover.lexeme_eq] at heq
  cases heq

theorem lexemes_of_reads (h : List.Forall₂ Chunk.Reads chunks ls) : lexemes chunks = .ok ls := by
  induction h with
  | nil => rfl
  | cons hl _ ih =>
    rw [lexemes_cons, hl.lexeme_eq, ih]
    rfl

theorem lexemes_of_overflows {before after : List Chunk}
    (hbefore : ∀ earlier ∈ before, ∃ l, earlier.Reads l) (h : chunk.Overflows) :
    lexemes (before ++ chunk :: after) = .error chunk.refusal := by
  induction before with
  | nil =>
    rw [List.nil_append, lexemes_cons, h.lexeme_eq]
    rfl
  | cons earlier before ih =>
    obtain ⟨l, hl⟩ := hbefore earlier List.mem_cons_self
    rw [List.cons_append, lexemes_cons, hl.lexeme_eq,
      ih fun c hc => hbefore c (List.mem_cons_of_mem _ hc)]
    rfl

theorem forall_reads_or_overflows (h : ∀ chunk ∈ chunks, IsTokenText chunk.text) :
    (∃ ls, List.Forall₂ Chunk.Reads chunks ls) ∨ ∃ before chunk after,
      chunks = before ++ chunk :: after ∧ (∀ earlier ∈ before, ∃ l, earlier.Reads l) ∧
        chunk.Overflows := by
  induction chunks with
  | nil => exact Or.inl ⟨[], .nil⟩
  | cons chunk chunks ih =>
    rcases reads_or_overflows (h chunk List.mem_cons_self) with ⟨l, hl⟩ | hover
    · rcases ih fun c hc => h c (List.mem_cons_of_mem _ hc) with
        ⟨ls, hls⟩ | ⟨before, c, after, rfl, hbefore, hover⟩
      · exact Or.inl ⟨l :: ls, .cons hl hls⟩
      · refine Or.inr ⟨chunk :: before, c, after, rfl, ?_, hover⟩
        rintro earlier (_ | ⟨_, hearlier⟩)
        · exact ⟨l, hl⟩
        · exact hbefore earlier hearlier
    · exact Or.inr ⟨[], chunk, chunks, rfl, nofun, hover⟩

theorem lexemes_eq_ok_iff (h : ∀ chunk ∈ chunks, IsTokenText chunk.text) :
    lexemes chunks = .ok ls ↔ List.Forall₂ Chunk.Reads chunks ls := by
  refine ⟨fun hls => ?_, lexemes_of_reads⟩
  rcases forall_reads_or_overflows h with ⟨ls', hreads⟩ | ⟨before, c, after, rfl, hbefore, hover⟩
  · rw [lexemes_of_reads hreads] at hls
    cases hls
    exact hreads
  · rw [lexemes_of_overflows hbefore hover] at hls
    cases hls

theorem lexemes_eq_error_iff (h : ∀ chunk ∈ chunks, IsTokenText chunk.text) :
    lexemes chunks = .error e ↔ ∃ before chunk after, chunks = before ++ chunk :: after ∧
      (∀ earlier ∈ before, ¬ earlier.Overflows) ∧ chunk.Overflows ∧ e = chunk.refusal := by
  constructor
  · intro hls
    rcases forall_reads_or_overflows h with ⟨ls', hreads⟩ | ⟨before, c, after, rfl, hbefore, hover⟩
    · rw [lexemes_of_reads hreads] at hls
      cases hls
    · rw [lexemes_of_overflows hbefore hover] at hls
      cases hls
      refine ⟨before, c, after, rfl, fun earlier hearlier => ?_, hover, rfl⟩
      obtain ⟨l, hl⟩ := hbefore earlier hearlier
      exact hl.not_overflows
  · rintro ⟨before, c, after, rfl, hbefore, hover, rfl⟩
    refine lexemes_of_overflows (fun earlier hearlier => ?_) hover
    exact (reads_or_overflows (h earlier (List.mem_append_left _ hearlier))).resolve_right
      (hbefore earlier hearlier)

end

/-! ## The tokenizer -/

section

variable {place : Nat} {text stop : List Char} {chunks : List Chunk} {e : LexError}

theorem split_eq_ok_iff : split place text = .ok chunks ↔ Splits place text chunks [] := by
  constructor
  · intro hsplit
    obtain ⟨chunks', stop, h⟩ := exists_splits place text
    obtain ⟨before, -, heq⟩ := h.split_eq
    rw [hsplit] at heq
    cases stop with
    | nil =>
      cases heq
      exact h
    | cons c rest => cases heq
  · intro h
    obtain ⟨before, -, heq⟩ := h.split_eq
    exact heq

theorem split_eq_error_iff : split place text = .error e ↔ ∃ chunks before c rest,
    text = before ++ c :: rest ∧ Splits place text chunks (c :: rest) ∧
      e = .unexpectedChar c (place + before.length) := by
  constructor
  · intro hsplit
    obtain ⟨chunks, stop, h⟩ := exists_splits place text
    obtain ⟨before, hbefore, heq⟩ := h.split_eq
    rw [hsplit] at heq
    cases stop with
    | nil => cases heq
    | cons c rest =>
      cases heq
      exact ⟨chunks, before, c, rest, hbefore, h, rfl⟩
  · rintro ⟨chunks, before, c, rest, htext, h, rfl⟩
    obtain ⟨before', htext', heq⟩ := h.split_eq
    rw [htext] at htext'
    rw [heq, List.append_cancel_right htext']
    rfl

theorem Splits.isTokenText (h : Splits place text chunks stop) :
    ∀ chunk ∈ chunks, IsTokenText chunk.text := by
  intro chunk hchunk
  obtain ⟨n, -, hlongest⟩ := h.isLongest chunk hchunk
  exact hlongest.token

theorem tokenize_eq_ok_iff {text : String} {ls : List Lexeme} : tokenize text = .ok ls ↔
    ∃ chunks, Splits 0 text.toList chunks [] ∧ List.Forall₂ Chunk.Reads chunks ls := by
  unfold tokenize
  constructor
  · intro h
    split at h
    · cases h
    · rename_i chunks hsplit
      have hsplits := split_eq_ok_iff.1 hsplit
      exact ⟨chunks, hsplits, (lexemes_eq_ok_iff hsplits.isTokenText).1 h⟩
  · rintro ⟨chunks, hsplits, hreads⟩
    rw [split_eq_ok_iff.2 hsplits]
    exact lexemes_of_reads hreads

/-- The split comes first: literals are looked at only in a text that splits to its end. -/
theorem tokenize_eq_error_iff {text : String} : tokenize text = .error e ↔
    (∃ chunks before c rest, text.toList = before ++ c :: rest ∧
      Splits 0 text.toList chunks (c :: rest) ∧ e = .unexpectedChar c before.length) ∨
    ∃ before chunk after, Splits 0 text.toList (before ++ chunk :: after) [] ∧
      (∀ earlier ∈ before, ¬ earlier.Overflows) ∧ chunk.Overflows ∧ e = chunk.refusal := by
  unfold tokenize
  constructor
  · intro h
    split at h
    · rename_i hsplit
      cases h
      have hstop := split_eq_error_iff.1 hsplit
      simp only [Nat.zero_add] at hstop
      exact Or.inl hstop
    · rename_i chunks hsplit
      have hsplits := split_eq_ok_iff.1 hsplit
      obtain ⟨before, chunk, after, rfl, hrefused⟩ :=
        (lexemes_eq_error_iff hsplits.isTokenText).1 h
      exact Or.inr ⟨before, chunk, after, hsplits, hrefused⟩
  · rintro (⟨chunks, before, c, rest, htext, hsplits, rfl⟩ | ⟨before, chunk, after, hsplits, h⟩)
    · have hsplit : split 0 text.toList = .error (.unexpectedChar c before.length) :=
        split_eq_error_iff.2 ⟨chunks, before, c, rest, htext, hsplits, by rw [Nat.zero_add]⟩
      rw [hsplit]
    · rw [split_eq_ok_iff.2 hsplits]
      exact (lexemes_eq_error_iff hsplits.isTokenText).2 ⟨before, chunk, after, rfl, h⟩

end

/-- **The tokenizer takes the longest token each time and loses nothing but blanks.**  It succeeds
exactly where the text splits to its end into blanks and token texts in range, which then lie in the
text.  It fails at the first character that no token starts with, exactly where the split stops
there, and at the first literal out of range, exactly where the whole text splits.  Out of range is
a literal of at least `leastInfinite`. -/
theorem tokenize_iff_splits (text : String) :
    (∀ ls, tokenize text = .ok ls ↔
      ∃ chunks, Splits 0 text.toList chunks [] ∧ List.Forall₂ Chunk.Reads chunks ls) ∧
    (∀ chunks, Splits 0 text.toList chunks [] → Covers text.toList chunks) ∧
    (∀ c place, tokenize text = .error (.unexpectedChar c place) ↔
      ∃ chunks before rest, text.toList = before ++ c :: rest ∧ place = before.length ∧
        Splits 0 text.toList chunks (c :: rest)) ∧
    (∀ literal place, tokenize text = .error (.numberOutOfRange literal place) ↔
      ∃ before chunk after, Splits 0 text.toList (before ++ chunk :: after) [] ∧
        (∀ earlier ∈ before, ¬ earlier.Overflows) ∧ chunk.Overflows ∧
        literal.toList = chunk.text ∧ place = chunk.offset) ∧
    ∀ chunk : Chunk, chunk.Overflows ↔ IsOutOfRange chunk.text := by
  refine ⟨fun ls => tokenize_eq_ok_iff, fun chunks h => h.covers, fun c place => ?_,
    fun literal place => ?_, fun chunk => Chunk.overflows_iff⟩
  · rw [tokenize_eq_error_iff]
    constructor
    · rintro (⟨chunks, before, d, rest, htext, hsplits, he⟩ | ⟨before, chunk, after, -, -, -, he⟩)
      · cases he
        exact ⟨chunks, before, rest, htext, rfl, hsplits⟩
      · cases he
    · rintro ⟨chunks, before, rest, htext, rfl, hsplits⟩
      exact Or.inl ⟨chunks, before, c, rest, htext, hsplits, rfl⟩
  · rw [tokenize_eq_error_iff]
    constructor
    · rintro (⟨chunks, before, d, rest, -, -, he⟩ |
        ⟨before, chunk, after, hsplits, hfirst, hover, he⟩)
      · cases he
      · cases he
        exact ⟨before, chunk, after, hsplits, hfirst, hover, String.toList_ofList, rfl⟩
    · rintro ⟨before, chunk, after, hsplits, hfirst, hover, hliteral, rfl⟩
      refine Or.inr ⟨before, chunk, after, hsplits, hfirst, hover, ?_⟩
      rw [Chunk.refusal, ← hliteral, String.ofList_toList]

end GlyphMath.Formula
