import GlyphMath.Proofs.Bases
import GlyphMath.Proofs.Scanning
import GlyphMath.Proofs.Supply

/-!
# Exponents that have a base

* `endsBase` -- the characters that a number, a letter or a closing bracket ends with.

Principal results:

* `parse_of_base` -- an exponent in brackets behind a number, a letter or a closing bracket has
  both of its operands.
* `bases_assemble` -- what the power signs of a line stand behind.
* `powers_linearize` -- when every exponent of a line stands at something.
-/

set_option autoImplicit false

namespace GlyphMath.Line

open Layout (Symbol)
open Decimal (isDigit)
open Formula (Lexeme Chunk takeToken? isLetter isSpace signToken)

/-! ## How a base ends -/

/-- The characters that a number, a letter or a closing bracket ends with. -/
def endsBase (c : Char) : Bool := isDigit c || c == '.' || isLetter c || c ∈ ['π', 'ℯ', ')']

theorem endsBase_of_isSpace {c : Char} (h : isSpace c = true) : endsBase c = false := by
  have hblanks : [' ', '\t', '\r', '\n'].all (!endsBase ·) = true := by decide
  have hmem : c ∈ [' ', '\t', '\r', '\n'] := by simpa [isSpace, or_assoc] using h
  simpa using List.all_eq_true.1 hblanks c hmem

/-- A token text that ends with such a character ends a value or is the name of a function. -/
theorem token_of_endsBase {text word after : List Char} {offset : Nat} {l : Lexeme}
    (htake : takeToken? text = some (word, after)) (hl : Chunk.lexeme ⟨word, offset⟩ = .ok l)
    {c : Char} (hc : c ∈ word.getLast?) (hends : endsBase c = true) :
    l.token.endsValue = true ∨ ∃ f, l.token = .function f := by
  rcases Formula.takeToken?_cases htake with ⟨hliteral, -⟩ | ⟨-, hletters, -⟩ | ⟨d, rfl, hsign⟩
  · rw [(Formula.number_of_lexeme hliteral hl).1]
    exact Or.inl rfl
  · rw [Formula.token_of_lexeme (Formula.isLiteral_word hletters) hl,
      Formula.signToken_word hletters, Formula.wordToken]
    split
    · exact Or.inr ⟨_, rfl⟩
    · exact Or.inl rfl
  · obtain rfl : d = c := by simpa using hc
    have hvalue := @Formula.of_isSign (fun d => !endsBase d || (signToken [d]).endsValue)
      (by decide) d hsign
    rw [Formula.token_of_lexeme (Formula.isLiteral_sign hsign) hl]
    left
    simpa [hends] using hvalue

/-- The last token of a text that ends like a base. -/
theorem Scans.last {offset : Nat} {rest text : List Char} {ls : List Lexeme} {c : Char}
    (h : Scans rest offset text ls) (hc : c ∈ text.getLast?) (hends : endsBase c = true) :
    ∃ before last, ls = before ++ [last] ∧
      (last.token.endsValue = true ∨ ∃ f, last.token = .function f) := by
  induction h with
  | nil => cases hc
  | @blank offset d text ls hd hrest ih =>
    cases text with
    | nil =>
      obtain rfl : d = c := by simpa using hc
      exact absurd (endsBase_of_isSpace hd) (by simp [hends])
    | cons a text => exact ih (by simpa using hc)
  | @token offset word text l ls htake hl hrest ih =>
    cases text with
    | nil =>
      rw [List.append_nil] at hc
      rw [hrest.eq_nil]
      exact ⟨[], l, rfl, token_of_endsBase htake hl hc hends⟩
    | cons a text =>
      obtain ⟨before, last, rfl, hlast⟩ := ih (by simpa using hc)
      exact ⟨l :: before, last, rfl, hlast⟩

/-- **An exponent in brackets behind a base has both of its operands**, whatever stands around
them. -/
theorem parse_of_base {text : String} {as bs : List Char}
    (htext : text.toList = as ++ '^' :: '(' :: bs) {c : Char} (hc : c ∈ as.getLast?)
    (hends : endsBase c = true) (sign : Char) :
    Formula.parse text ≠ .error (.missingOperand sign as.length) := by
  intro he
  unfold Formula.parse at he
  split at he
  · cases he
  · rename_i ls htokens
    have hscans := (lexes_of_tokenize htokens).scans
    rw [htext] at hscans
    obtain ⟨front, back, rfl, hfront, hback⟩ := hscans.cut (by decide)
    obtain ⟨before, last, rfl, hlast⟩ := hfront.last hc hends
    obtain ⟨behind, rfl, hbehind⟩ := hback.sign (by decide)
    obtain ⟨after, rfl, hafter⟩ := hbehind.sign (by decide)
    rw [Nat.zero_add] at he hbehind hafter
    have hsigns : signToken ['^'] = .operator .pow ∧ signToken ['('] = .openParen := by decide
    have hspares : Formula.Spares as.length (fun _ => True) (Formula.parseTokens
        (before ++ [last] ++ ⟨signToken ['^'], as.length⟩ ::
          ⟨signToken ['('], as.length + 1⟩ :: after)) := by
      rw [hsigns.1, hsigns.2]
      refine Formula.spares_parseTokens hlast (fun l hl => ?_) (fun l hl => ?_)
      · have := (hfront.bounds l hl).2
        omega
      · have := (hafter.bounds l hl).1
        omega
    rw [he] at hspares
    exact hspares ⟨sign, rfl⟩

/-! ## The row of a line -/

theorem has_assemble (config : Config) (symbols : List Symbol) :
    ∀ p ∈ (assemble config symbols).1, p.kind ≠ .function → p.kind.Has p.text := by
  have hread := isRead_beforeCalls config (isRead_piecesOf symbols)
  refine forall_assemble config ?_ (fun p _ => ?_) fun _ => by decide
  · exact (calls_writeCalls 0 _).forall hread (fun p _ _ hkind => absurd rfl hkind)
      (fun p hp _ _ => hp.has) (fun hkind => absurd rfl hkind) (fun _ => rfl) fun _ => rfl
  · unfold Piece.flip
    split
    · exact rfl
    · exact rfl

theorem endsBase_of_isBase {p : Piece} (hhas : p.kind.Has p.text) (hbase : p.kind.isBase = true) :
    ∃ c ∈ p.text.toList.getLast?, endsBase c = true := by
  cases hkind : p.kind <;> rw [hkind] at hhas hbase
  case number =>
    simp only [Kind.Has, isNumeric, Bool.and_eq_true, Bool.not_eq_true', List.isEmpty_eq_false_iff,
      List.all_eq_true] at hhas
    have hlast := hhas.2 _ (List.getLast_mem hhas.1)
    refine ⟨_, List.getLast?_eq_some_getLast hhas.1, ?_⟩
    unfold endsBase
    rw [hlast]
    simp
  case «variable» =>
    rcases hhas with h | h | h
    · exact ⟨'π', by rw [h]; decide, by decide⟩
    · exact ⟨'ℯ', by rw [h]; decide, by decide⟩
    · obtain ⟨c, hc, hletter⟩ := isLetter_of_isLowerCase h
      exact ⟨c, by rw [hc]; rfl, by simp [endsBase, hletter]⟩
  case closing =>
    have htext : p.text = ")" := hhas
    exact ⟨')', by rw [htext]; decide, by decide⟩
  all_goals cases hbase

section

variable {config : Config} {symbols : List Symbol}
  (hflip : ∀ w ∈ (assemble config symbols).2, w.isFlip = false)

include hflip

theorem opened_assemble : Opened (assemble config symbols).1 := by
  have hpaired := @paired_barPairs 0 false [] (groupExponents config (piecesOf symbols)).1
    List.nodup_nil nofun
  have hraised := opened_groupExponents config (seen_piecesOf symbols)
  rw [assemble_eq hflip]
  exact opened_insertMultiplication config (opened_writeCalls 0
    (opened_writeBars hpaired.toMatching hpaired.bars hraised))

theorem head?_assemble : (assemble config symbols).1.head? ≠ some powerSign := by
  have hpaired := @paired_barPairs 0 false [] (groupExponents config (piecesOf symbols)).1
    List.nodup_nil nofun
  have hraised := (behind_groupExponents config (seen_piecesOf symbols) 0).1
  rw [assemble_eq hflip, head?_insertMultiplication]
  refine mt (fun hcalled => ?_) hraised
  have hbarred := (head?_writeCalls_powerSign 0).1 hcalled
  exact (head?_writeBars hpaired.toMatching hpaired.bars (by decide)).1 hbarred

/-- **What the power signs of a line stand behind**: a base, unless a bar to which a run is raised
neither ends a pair nor ends the operand of a bare call. -/
theorem bases_assemble :
    let raised := (groupExponents config (piecesOf symbols)).1
    let pairs := barPairs 0 false [] raised
    let paired := (beforeCalls config (piecesOf symbols)).1
    (∀ before p after, (assemble config symbols).1 = before ++ p :: powerSign :: after →
        p.kind.isBase = true) ↔
      ∀ before bar after, raised = before ++ bar :: powerSign :: after → bar.kind = .bar →
        (∃ pair ∈ pairs, pair.2 = before.length) ∨
          ∃ b ∈ bareCalls 0 0 paired, b.stop = (writeBars pairs 0 (before ++ [bar])).1.length := by
  intro raised pairs paired
  have hpaired : Paired 0 [] raised pairs := paired_barPairs List.nodup_nil nofun
  have hraised := (behind_groupExponents config (seen_piecesOf symbols) 0).2
  have hplace (before : List Piece) (bar : Piece) :
      (writeBars pairs 0 (before ++ [bar])).1.length = placeOf pairs (before.length + 1) := by
    simpa [placeOf] using length_writeBars pairs 0 (before ++ [bar])
  have hbase : Behind (fun _ p => p.kind.isBase = true) 0 (assemble config symbols).1 ↔
      Behind (fun i p => p.kind = .bar → (∃ pair ∈ pairs, pair.2 = i) ∨
        CallStops 0 0 paired (placeOf pairs (i + 1))) 0 raised := by
    rw [assemble_eq hflip, behind_insertMultiplication config 0 0,
      ← behind_writeBars hpaired.toMatching _ hpaired.bars hraised]
    exact behind_writeCalls 0 0 0 0
  rw [behind_iff, behind_iff] at hbase
  simp only [hplace, Nat.zero_add] at hbase ⊢
  exact hbase

end

/-- **When every exponent of a line stands at something.**  Where no bracket is changed, a number, a
variable or a closing bracket stands before every power sign of a line, and the parser finds the
operand, if every bar to which a run is raised is the second one of a pair or the last piece of the
operand of a bare call, and only then. -/
theorem powers_linearize (config : Config) (symbols : List Symbol)
    (hflip : ∀ w ∈ (linearize config symbols).warnings, w.isFlip = false) :
    let kept := symbols.filter (isKept config)
    let raised := (groupExponents config (piecesOf kept)).1
    let pairs := barPairs 0 false [] raised
    let paired := (beforeCalls config (piecesOf kept)).1
    (∀ before after, (assemble config kept).1 = before ++ powerSign :: after →
        (∃ q ∈ before.getLast?, q.kind.isBase = true) ∧
          ∀ sign, Formula.parse (linearize config symbols).text ≠
            .error (.missingOperand sign (lineText before).length)) ↔
      ∀ before bar after, raised = before ++ bar :: powerSign :: after → bar.kind = .bar →
        (∃ pair ∈ pairs, pair.2 = before.length) ∨
          ∃ b ∈ bareCalls 0 0 paired, b.stop = (writeBars pairs 0 (before ++ [bar])).1.length := by
  intro kept raised pairs paired
  have hkept : ∀ w ∈ (assemble config kept).2, w.isFlip = false := fun w hw =>
    hflip w (mem_warnings hw)
  refine Iff.trans ?_ (bases_assemble hkept)
  constructor
  · intro h before p after heq
    obtain ⟨q, hq, hbase⟩ := (h (before ++ [p]) after (by simp [heq])).1
    obtain rfl : p = q := by simpa using hq
    exact hbase
  · intro h before after heq
    have hopened := opened_assemble hkept
    rw [heq] at hopened
    obtain ⟨rest, rfl⟩ := List.head?_eq_some_iff.1 hopened.after
    rcases List.eq_nil_or_concat before with rfl | ⟨init, q, rfl⟩
    · exact absurd (by rw [heq]; rfl) (head?_assemble hkept)
    · rw [List.concat_eq_append] at heq ⊢
      have hbase : q.kind.isBase = true := h init q (Piece.openParen :: rest) (by simp [heq])
      have hhas : q.kind.Has q.text := by
        refine has_assemble config kept q (by simp [heq]) ?_
        intro hfunction
        rw [hfunction] at hbase
        cases hbase
      obtain ⟨c, hc, hends⟩ := endsBase_of_isBase hhas hbase
      refine ⟨⟨q, by simp, hbase⟩, fun sign => ?_⟩
      have htext : (linearize config symbols).text.toList =
          chars (init ++ [q]) ++ '^' :: '(' :: chars rest := by
        rw [text_linearize, heq, toList_lineText, chars_append, chars_cons, chars_cons]
        rfl
      have hlast : c ∈ (chars (init ++ [q])).getLast? := by
        have hq : (chars [q]).getLast? = some c := by simpa [chars] using hc
        rw [chars_append, List.getLast?_append, hq]
        rfl
      have := parse_of_base htext hlast hends sign
      rwa [← toList_lineText, String.length_toList] at this

/-- An absolute value with an exponent, and a third bar with one at the end of a bare operand. -/
def raisedBehindBars : List Symbol :=
  [symbolAt "|" 0.0 10.0 4.0 40.0, symbolAt "y" 6.0 15.0 16.0 35.0, symbolAt "|" 18.0 10.0 22.0 40.0,
    symbolAt "2" 24.0 0.0 30.0 12.0, symbolAt "+" 34.0 20.0 44.0 30.0,
    symbolAt "sin" 46.0 15.0 66.0 35.0, symbolAt "x" 68.0 15.0 78.0 35.0,
    symbolAt "|" 80.0 10.0 84.0 40.0, symbolAt "3" 86.0 0.0 92.0 12.0]

theorem powers_linearize_bars :
    let row := (assemble {} (raisedBehindBars.filter (isKept {}))).1
    (linearize {} raisedBehindBars).text = "abs(y)^(2)+sin(x|)^(3)" ∧
      ∀ before after, row = before ++ powerSign :: after →
        (∃ q ∈ before.getLast?, q.kind.isBase = true) ∧
          ∀ sign, Formula.parse (linearize {} raisedBehindBars).text ≠
            .error (.missingOperand sign (lineText before).length) := by
  refine ⟨by decide +kernel, (powers_linearize {} raisedBehindBars (by decide +kernel)).2 ?_⟩
  have hplaces : Behind (fun i _ => i = 2 ∨ i = 10) 0
      (groupExponents {} (piecesOf (raisedBehindBars.filter (isKept {})))).1 := by
    decide +kernel
  intro before bar after heq _
  rcases behind_iff.1 hplaces before bar after heq with hlength | hlength
  · left
    refine ⟨(0, 2), by decide +kernel, ?_⟩
    omega
  · right
    have hfront : before ++ [bar] =
        (groupExponents {} (piecesOf (raisedBehindBars.filter (isKept {})))).1.take 11 := by
      have htake : 11 = (before ++ [bar]).length := by
        rw [List.length_append, List.length_singleton]
        omega
      rw [heq, htake, List.append_cons before bar (powerSign :: after), List.take_left]
    rw [hfront]
    decide +kernel

/-- A bar with an exponent, before what stands between it and a second bar. -/
def raisedBehindFirstBar : List Symbol :=
  [symbolAt "|" 0.0 10.0 4.0 40.0, symbolAt "2" 5.0 0.0 10.0 12.0, symbolAt "x" 12.0 15.0 22.0 35.0,
    symbolAt "|" 24.0 10.0 28.0 40.0]

/-- **An exponent that stands at nothing**: the bar before it is the first one of its pair, and
becomes an opening bracket. -/
theorem linearize_baseless_power :
    let row := (assemble {} (raisedBehindFirstBar.filter (isKept {}))).1
    (linearize {} raisedBehindFirstBar).text = "abs(^(2)*x)" ∧
      (linearize {} raisedBehindFirstBar).warnings = [] ∧
      row[1]? = some Piece.openParen ∧ row[2]? = some powerSign ∧
      Formula.parse (linearize {} raisedBehindFirstBar).text = .error (.missingOperand '^' 4) := by
  decide +kernel

end GlyphMath.Line
