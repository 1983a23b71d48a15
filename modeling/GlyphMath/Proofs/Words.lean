import GlyphMath.Proofs.Soundness
import GlyphMath.Proofs.Spelling
import GlyphMath.Proofs.Stages

/-!
# Pieces as words of a text

* `Kind.Has` -- what is known of a text of a kind.
* `Piece.IsWord` -- a piece that may stand in a finished line.
* `IsNumeral` -- digits with one point at most.
* `Piece.token` -- the token of a piece that is no digit.
* `kindOf` -- the kind of piece that has a token.

Principal results:

* `takeToken?_piece`, `takeToken?_numeral` -- a piece and a row of digits are token texts before
  anything that does not extend them.
* `kindOf_token` -- pieces and tokens agree on where values end and start.
-/

set_option autoImplicit false

namespace GlyphMath.Line

open Decimal (isDigit)
open Formula (Token Operator functionNames isLetter isSign isLiteral signToken takeToken? Stops)

/-! ## Texts of a kind -/

/-- What is known of a text of a kind. -/
def Kind.Has (kind : Kind) (text : String) : Prop :=
  match kind with
  | .number => isNumeric text.toList = true
  | .variable => text = "π" ∨ text = "ℯ" ∨ isLowerCase text.toList = true
  | .function => text ∈ spelledNames
  | .operator => text ∈ ["+", "-", "*", "/", "^"]
  | .opening => text = "("
  | .closing => text = ")"
  | .bar => text = "|"
  | .comma => text = ","
  | .root => text = "√"
  | .other => True

instance (kind : Kind) (text : String) : Decidable (kind.Has text) :=
  match kind with
  | .number => inferInstanceAs (Decidable (isNumeric text.toList = true))
  | .variable => inferInstanceAs (Decidable (text = "π" ∨ text = "ℯ" ∨ _))
  | .function => inferInstanceAs (Decidable (text ∈ spelledNames))
  | .operator => inferInstanceAs (Decidable (text ∈ ["+", "-", "*", "/", "^"]))
  | .opening | .closing | .bar | .comma | .root => inferInstanceAs (Decidable (text = _))
  | .other => inferInstanceAs (Decidable True)

theorem Kind.has_of (text : String) : (Kind.of text).Has text := by
  unfold Kind.of
  split
  case h_13 =>
    split
    · rename_i hnumeric
      exact hnumeric
    · split
      · rename_i hname
        exact hname
      · split
        · rename_i hlower
          exact Or.inr (Or.inr hlower)
        · trivial
  all_goals simp [Kind.Has]

theorem Piece.IsRead.has {p : Piece} (hread : p.IsRead) : p.kind.Has p.text := by
  rw [hread]
  exact Kind.has_of p.text

/-- A piece that may stand in a finished line. -/
def Piece.IsWord (p : Piece) : Prop :=
  match p.kind with
  | .function => p.text ∈ functionNames
  | .comma | .root | .other => False
  | kind => kind.Has p.text

instance (p : Piece) : Decidable p.IsWord :=
  match h : p.kind with
  | .function => decidable_of_iff (p.text ∈ functionNames) (by simp [Piece.IsWord, h])
  | .comma | .root | .other => isFalse (by simp [Piece.IsWord, h])
  | .number | .variable | .operator | .opening | .closing | .bar =>
    decidable_of_iff (p.kind.Has p.text) (by simp [Piece.IsWord, h])

/-! ## Letters, signs and digits -/

theorem isLetter_of_isLowerCase {text : List Char} (h : isLowerCase text = true) :
    ∃ c, text = [c] ∧ isLetter c = true := by
  unfold isLowerCase at h
  split at h
  · rename_i c
    exact ⟨c, rfl, by simp [isLetter, h]⟩
  · cases h

/-- A piece that is no digit is a sign, a letter or the name of a function. -/
theorem Piece.IsWord.spelled {p : Piece} (h : p.IsWord) (hp : p.kind ≠ .number) :
    (∃ c, p.text.toList = [c] ∧ isSign c = true) ∨
      (p.kind = .variable ∨ p.kind = .function) ∧ p.text.toList ≠ [] ∧
        ∀ c ∈ p.text.toList, isLetter c = true := by
  unfold Piece.IsWord at h
  cases hkind : p.kind <;> rw [hkind] at h
  case number => exact absurd hkind hp
  case «variable» =>
    rcases h with h | h | h
    · exact Or.inl ⟨'π', by rw [h]; decide, by decide⟩
    · exact Or.inl ⟨'ℯ', by rw [h]; decide, by decide⟩
    · obtain ⟨c, hc, hletter⟩ := isLetter_of_isLowerCase h
      refine Or.inr ⟨Or.inl rfl, by simp [hc], ?_⟩
      simpa [hc] using hletter
  case function => exact Or.inr ⟨Or.inr rfl, Formula.functionNames_letters _ h⟩
  case operator =>
    simp only [Kind.Has, List.mem_cons, List.not_mem_nil, or_false] at h
    rcases h with h | h | h | h | h
    all_goals exact Or.inl ⟨_, by rw [h]; rfl, by decide⟩
  case opening => exact Or.inl ⟨'(', by rw [h]; rfl, by decide⟩
  case closing => exact Or.inl ⟨')', by rw [h]; rfl, by decide⟩
  case bar => exact Or.inl ⟨'|', by rw [h]; rfl, by decide⟩
  case comma => exact h.elim
  case root => exact h.elim
  case other => exact h.elim

/-- **A piece is a token text.**  A letter or a name must not run into what follows it. -/
theorem takeToken?_piece {p : Piece} (h : p.IsWord) (hp : p.kind ≠ .number) {rest : List Char}
    (hstops : p.kind = .variable ∨ p.kind = .function → Stops rest) :
    takeToken? (p.text.toList ++ rest) = some (p.text.toList, rest) := by
  rcases h.spelled hp with ⟨c, hc, hsign⟩ | ⟨hkind, hne, hletters⟩
  · rw [hc]
    exact Formula.takeToken?_sign hsign rest
  · exact Formula.takeToken?_word hne hletters (hstops hkind)

theorem isLiteral_piece {p : Piece} (h : p.IsWord) (hp : p.kind ≠ .number) :
    isLiteral p.text.toList = false := by
  rcases h.spelled hp with ⟨c, hc, hsign⟩ | ⟨-, -, hletters⟩
  · rw [hc]
    exact Formula.isLiteral_sign hsign
  · exact Formula.isLiteral_word hletters

/-- Digits with one point at most. -/
structure IsNumeral (text : List Char) : Prop where
  chars : ∀ c ∈ text, isDigit c = true ∨ c = '.'
  points : text.count '.' ≤ 1
  digit : ∃ c ∈ text, isDigit c = true

theorem isNumeral_iff {text : List Char} : IsNumeral text ↔
    text.all (fun c => isDigit c || c == '.') = true ∧ text.count '.' ≤ 1 ∧
      text.any isDigit = true := by
  simp only [List.all_eq_true, Bool.or_eq_true, beq_iff_eq, List.any_eq_true]
  exact ⟨fun h => ⟨h.chars, h.points, h.digit⟩, fun h => ⟨h.1, h.2.1, h.2.2⟩⟩

instance (text : List Char) : Decidable (IsNumeral text) := decidable_of_iff _ isNumeral_iff.symm

theorem numeral_cases {text : List Char} (hchars : ∀ c ∈ text, isDigit c = true ∨ c = '.')
    (hpoints : text.count '.' ≤ 1) :
    (∀ c ∈ text, isDigit c = true) ∨ ∃ ds fs, text = ds ++ '.' :: fs ∧
      (∀ c ∈ ds, isDigit c = true) ∧ ∀ c ∈ fs, isDigit c = true := by
  by_cases hmem : '.' ∈ text
  · obtain ⟨ds, fs, rfl⟩ := List.append_of_mem hmem
    rw [List.count_append, List.count_cons_self] at hpoints
    have hds : '.' ∉ ds := List.count_eq_zero.1 (by omega)
    have hfs : '.' ∉ fs := List.count_eq_zero.1 (by omega)
    refine Or.inr ⟨ds, fs, rfl, fun c hc => ?_, fun c hc => ?_⟩
    · refine (hchars c (List.mem_append_left _ hc)).resolve_right ?_
      rintro rfl
      exact hds hc
    · refine (hchars c (List.mem_append_right _ (List.mem_cons_of_mem _ hc))).resolve_right ?_
      rintro rfl
      exact hfs hc
  · refine Or.inl fun c hc => (hchars c hc).resolve_right ?_
    rintro rfl
    exact hmem hc

/-- **A numeral is a token text.** -/
theorem takeToken?_numeral {text rest : List Char} (h : IsNumeral text) (hrest : Stops rest) :
    takeToken? (text ++ rest) = some (text, rest) := by
  obtain ⟨c, hc, hdigit⟩ := h.digit
  rcases numeral_cases h.chars h.points with hdigits | ⟨ds, fs, rfl, hds, hfs⟩
  · exact Formula.takeToken?_positional (.whole (List.ne_nil_of_mem hc) hdigits) hrest
  · by_cases hne : ds = []
    · subst hne
      have hfs' : fs ≠ [] := by
        rintro rfl
        rw [List.mem_singleton.1 hc] at hdigit
        exact absurd hdigit (by decide)
      have hsplit := Decimal.takeWhile_digits hfs rest fun c hc => (hrest c hc).1
      have hpoint : isDigit '.' = false := by decide
      simp [takeToken?, hpoint, hsplit.1, hsplit.2, hfs']
    · exact Formula.takeToken?_positional (.fraction hne hds hfs) hrest

theorem isLiteral_numeral {text : List Char} (h : IsNumeral text) : isLiteral text = true := by
  obtain ⟨c, hc, -⟩ := h.digit
  cases text with
  | nil => cases hc
  | cons d text =>
    rcases h.chars d List.mem_cons_self with hd | rfl
    · simp [isLiteral, hd]
    · rfl

/-! ## Tokens of pieces -/

/-- The token of a piece that is no digit. -/
def Piece.token (p : Piece) : Token := signToken p.text.toList

/-- The kind of piece that has a token. -/
def kindOf : Token → Kind
  | .number _ => .number
  | .name _ => .variable
  | .function _ => .function
  | .operator _ => .operator
  | .openParen => .opening
  | .closeParen => .closing
  | .comma => .comma

theorem endsValue_eq (t : Token) : t.endsValue = (kindOf t).endsValue := by
  cases t <;> rfl

theorem startsValue_eq (t : Token) : t.startsValue = (kindOf t).startsValue := by
  cases t <;> rfl

theorem signToken_single {text : String} {c : Char} (hc : text.toList = [c])
    (hletter : isLetter c = true) : signToken text.toList = .name text := by
  have hletters : ∀ d ∈ text.toList, isLetter d = true := by simpa [hc] using hletter
  have hname : text ∉ functionNames := by
    intro hmem
    have hlength : ∀ name ∈ functionNames, name.toList.length ≠ 1 := by decide
    exact hlength _ hmem (by rw [hc]; rfl)
  rw [Formula.signToken_word hletters, String.ofList_toList, Formula.wordToken, if_neg hname]

theorem signToken_letter {text : String} (h : isLowerCase text.toList = true) :
    signToken text.toList = .name text := by
  obtain ⟨c, hc, hletter⟩ := isLetter_of_isLowerCase h
  exact signToken_single hc hletter

theorem signToken_function {text : String} (h : text ∈ functionNames) :
    signToken text.toList = .function text := by
  rw [Formula.signToken_word (Formula.functionNames_letters _ h).2, String.ofList_toList,
    Formula.wordToken, if_pos h]

/-- **Pieces and tokens agree.**  The token of a piece has its kind, but for a bar, which closes. -/
theorem kindOf_token {p : Piece} (h : p.IsWord) (hp : p.kind ≠ .number) :
    kindOf p.token = if p.kind = .bar then .closing else p.kind := by
  unfold Piece.IsWord at h
  unfold Piece.token
  cases hkind : p.kind <;> rw [hkind] at h
  case number => exact absurd hkind hp
  case «variable» =>
    rcases h with h | h | h
    · rw [h]; decide
    · rw [h]; decide
    · rw [signToken_letter h]
      rfl
  case function =>
    rw [signToken_function h]
    rfl
  case operator =>
    simp only [Kind.Has, List.mem_cons, List.not_mem_nil, or_false] at h
    rcases h with h | h | h | h | h <;> rw [h] <;> decide
  case opening => rw [h]; decide
  case closing => rw [h]; decide
  case bar => rw [h]; decide
  case comma => exact h.elim
  case root => exact h.elim
  case other => exact h.elim

theorem token_opening {p : Piece} (h : p.IsWord) (hp : p.kind = .opening) :
    p.token = .openParen := by
  unfold Piece.IsWord at h
  rw [hp] at h
  have htext : p.text = "(" := h
  rw [Piece.token, htext]
  rfl

theorem endsValue_token {p : Piece} (h : p.IsWord) (hp : p.kind ≠ .number) :
    p.token.endsValue = p.kind.endsValue := by
  rw [endsValue_eq, kindOf_token h hp]
  split
  · rename_i hbar
    rw [hbar]
    rfl
  · rfl

theorem startsValue_token {p : Piece} (h : p.IsWord) (hp : p.kind ≠ .number) :
    p.token.startsValue = p.kind.startsValue := by
  rw [startsValue_eq, kindOf_token h hp]
  split
  · rename_i hbar
    rw [hbar]
    rfl
  · rfl

/-! ## Texts of rows -/

def chars (row : List Piece) : List Char := row.flatMap fun p => p.text.toList

theorem chars_cons (p : Piece) (row : List Piece) :
    chars (p :: row) = p.text.toList ++ chars row :=
  List.flatMap_cons ..

theorem chars_append (row rest : List Piece) : chars (row ++ rest) = chars row ++ chars rest :=
  List.flatMap_append ..

theorem toList_lineText (row : List Piece) : (lineText row).toList = chars row := by
  rw [lineText, String.toList_join, List.flatMap_map, chars]

theorem lineText_eq (row : List Piece) : lineText row = String.ofList (chars row) := by
  rw [← toList_lineText, String.ofList_toList]

theorem IsNumeral.ne_nil {row : List Piece} (h : IsNumeral (Line.chars row)) : row ≠ [] := by
  obtain ⟨c, hc, -⟩ := h.digit
  rintro rfl
  cases hc

/-- The text of a row stops a word and a literal where no word and no literal starts it. -/
theorem stops_row {row : List Piece} (hwords : ∀ p ∈ row, p.IsWord)
    (h : ∀ q ∈ row.head?, q.kind ≠ .number ∧ q.kind ≠ .variable ∧ q.kind ≠ .function) :
    Stops (chars row) := by
  cases row with
  | nil => exact nofun
  | cons q row =>
    obtain ⟨hnumber, hvariable, hfunction⟩ := h q rfl
    rcases (hwords q List.mem_cons_self).spelled hnumber with ⟨c, hc, hsign⟩ | ⟨hkind, -⟩
    · intro d hd
      rw [chars_cons, hc] at hd
      cases hd
      exact Formula.isSign_cases hsign
    · exact absurd hkind (not_or.2 ⟨hvariable, hfunction⟩)

theorem Kind.ne_of_startsValue {kind : Kind} (h : kind.startsValue = false) :
    kind ≠ .number ∧ kind ≠ .variable ∧ kind ≠ .function := by
  refine ⟨?_, ?_, ?_⟩ <;> rintro rfl <;> cases h

end GlyphMath.Line
