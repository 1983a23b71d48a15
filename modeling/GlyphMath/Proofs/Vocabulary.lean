import GlyphMath.Proofs.Loading
import GlyphMath.Proofs.LongestMatch
import GlyphMath.Proofs.Neighbours
import GlyphMath.Proofs.Trimming

/-!
# What a detector can report

* `namedLabels` -- the labels that are tokens already, but for the rows of digits.
* `unspelledNames` -- the names of functions among them that are no spelled names.
* `Piece.Reported` -- a piece of a known label.
* `Piece.IsText` -- a piece that may stand in the finished line of known labels.
* `isLexable` -- the characters that token texts are made of.

The line reader does not recognize the unspelled names, and keeps them as they are.

Principal results:

* `reported_of_load` -- the pieces of the symbols that are loaded.
* `isText_assemble` -- the pieces of a finished line.
* `error_of_tokenize` -- what the tokenizer refuses in a text of lexable characters.
* `tokenize_of_load` -- what the tokenizer makes of the line of loaded symbols.
-/

set_option autoImplicit false

/-! ## Labels that stand for tokens -/

namespace GlyphMath.Detection

open Layout (Symbol SymbolSet)
open Formula (functionNames)
open Line (Kind isNumeric)

/-- Every loaded symbol has the token that its label stands for. -/
theorem token?_of_resolve {labels : LabelMap} {index : Nat} {records : List Record}
    {symbols : List Symbol} {warnings : List LoadWarning}
    (h : resolve labels index records = .ok (symbols, warnings)) :
    ∀ s ∈ symbols, labels.token? s.label = some s.token := by
  induction records generalizing index symbols warnings with
  | nil =>
    cases h
    exact nofun
  | cons r records ih =>
    rw [resolve] at h
    split at h
    · cases h
    · split at h
      · cases h
      · rename_i hrest
        split at h
        · rename_i htoken
          cases h
          intro s hs
          rcases List.mem_cons.1 hs with rfl | hs
          · exact htoken
          · exact ih hrest s hs
        · cases h
          exact ih hrest

theorem token?_of_load {labels : LabelMap} {text : String} {set : SymbolSet}
    {notes : List LoadWarning} (h : load labels text = .ok (set, notes)) :
    ∀ s ∈ set.symbols, labels.token? s.label = some s.token := by
  unfold load at h
  split at h
  · cases h
  · split at h
    · cases h
    · rename_i hresolve
      cases h
      exact token?_of_resolve hresolve

/-- The labels that are tokens already, but for the rows of digits. -/
def namedLabels : List String :=
  "lim" :: functionNames ++ (lowerCase ++ signTokens).map fun c => String.ofList [c]

/-- The labels that are names of functions under which no letters are joined. -/
def unspelledNames : List String := ["neg", "diff"]

theorem mem_functionNames {name : String} (h : name ∈ unspelledNames) : name ∈ functionNames := by
  have hnames : ∀ name ∈ unspelledNames, name ∈ functionNames := by decide
  exact hnames name h

theorem isTokenLike_cases {label : String} (h : isTokenLike label = true) :
    (label.toList ≠ [] ∧ ∀ c ∈ label.toList, Decimal.isDigit c = true) ∨ label ∈ namedLabels := by
  have hsingle : ∀ c, label.toList = [c] → c ∈ lowerCase ++ signTokens → label ∈ namedLabels := by
    intro c hc hmem
    refine List.mem_cons_of_mem _ (List.mem_append_right _ ?_)
    rw [← String.ofList_toList (s := label), hc]
    exact List.mem_map_of_mem hmem
  cases isTokenLike_iff.1 h with
  | digits hne hdigits => exact Or.inl ⟨hne, hdigits⟩
  | limit => exact Or.inr List.mem_cons_self
  | function hname => exact Or.inr (List.mem_cons_of_mem _ (List.mem_append_left _ hname))
  | letter hc hletter => exact Or.inr (hsingle _ hc (List.mem_append_left _ hletter))
  | sign hc hsign => exact Or.inr (hsingle _ hc (List.mem_append_right _ hsign))

theorem kind_of_digits {text : String} (hne : text.toList ≠ [])
    (h : ∀ c ∈ text.toList, Decimal.isDigit c = true) :
    Kind.of (Line.normalize (Text.trim text)) = .number := by
  have hall : text.toList.all Decimal.isDigit = true := List.all_eq_true.2 h
  have hnumeric : isNumeric text.toList = true := by
    unfold isNumeric
    rw [Bool.and_eq_true, List.all_eq_true]
    refine ⟨by simpa using hne, fun c hc => ?_⟩
    rw [h c hc, Bool.true_or]
  have hnormal : Line.normalize text = text := by
    unfold Line.normalize
    split
    all_goals first
      | exact absurd hall (by decide)
      | rfl
  rw [Text.trim_eq fun c hc => Text.isBlank_of_isDigit (h c hc), hnormal]
  unfold Kind.of
  split
  case h_13 => rw [if_pos hnumeric]
  all_goals exact absurd hall (by decide)

/-- **The line reader recognizes what the loader lets pass**, but for the unspelled names. -/
theorem kind_of_token? {label token : String}
    (h : LabelMap.standard.token? label = some token)
    (hkind : Kind.of (Line.normalize (Text.trim token)) = .other) :
    label ∈ unspelledNames ∧ Line.normalize (Text.trim token) = label := by
  have hentries : ∀ entry ∈ LabelMap.standard.entries,
      Kind.of (Line.normalize (Text.trim entry.2)) ≠ .other := by decide +kernel
  have hnamed : ∀ name ∈ namedLabels,
      Kind.of (Line.normalize (Text.trim name)) = .other →
        LabelMap.standard.entries.find? (fun entry => entry.1 == name) = none →
          name ∈ unspelledNames ∧ Line.normalize (Text.trim name) = name := by decide +kernel
  unfold LabelMap.token? at h
  split at h
  · rename_i entry hfound
    cases h
    exact absurd hkind (hentries entry (List.mem_of_find?_eq_some hfound))
  · rename_i hmissing
    split at h
    · rename_i hlike
      cases h
      rcases isTokenLike_cases hlike with ⟨hne, hdigits⟩ | hname
      · rw [kind_of_digits hne hdigits] at hkind
        cases hkind
      · exact hnamed _ hname hkind hmissing
    · cases h

end GlyphMath.Detection

/-! ## What the tokenizer refuses -/

namespace GlyphMath.Formula

open Decimal (isDigit)

/-- The characters that token texts are made of. -/
def isLexable (c : Char) : Bool := isDigit c || c == '.' || isLetter c || isSign c

/-- Of these characters only a point may start no token text. -/
theorem eq_point_of_takeToken? {c : Char} {text : List Char} (hc : isLexable c = true)
    (h : takeToken? (c :: text) = none) : c = '.' := by
  rw [takeToken?] at h
  split at h
  · cases h
  · rename_i hdigit
    split at h
    · rename_i hpoint
      exact eq_of_beq hpoint
    · rename_i hpoint
      split at h
      · cases h
      · rename_i hletter
        split at h
        · cases h
        · rename_i hsign
          simpa [isLexable, hdigit, hletter, hsign] using hc

/-- **What the tokenizer refuses** in a text of these characters: a point by itself, and a literal
out of range. -/
theorem error_of_tokenize {text : String} {e : LexError}
    (hchars : ∀ c ∈ text.toList, isLexable c = true) (h : tokenize text = .error e) :
    (∃ place, e = .unexpectedChar '.' place) ∨
      ∃ literal place, e = .numberOutOfRange literal place := by
  rcases tokenize_eq_error_iff.1 h with
    ⟨chunks, before, c, rest, htext, hsplits, rfl⟩ | ⟨before, chunk, after, -, -, -, rfl⟩
  · have hc := hchars c (htext ▸ List.mem_append_right _ List.mem_cons_self)
    rw [eq_point_of_takeToken? hc hsplits.takeToken?_stop]
    exact Or.inl ⟨before.length, rfl⟩
  · exact Or.inr ⟨_, _, rfl⟩

end GlyphMath.Formula

/-! ## Pieces of known labels -/

namespace GlyphMath.Line

open Layout (Symbol SymbolSet)
open Decimal (isDigit)
open Detection (LabelMap LoadWarning unspelledNames)
open Formula (functionNames isLetter isSign isLexable tokenize)

/-- A piece of a known label: it has its kind from its text, and is an unspelled name where it is
not recognized. -/
structure Piece.Reported (p : Piece) : Prop where
  read : p.IsRead
  named : p.kind = .other → p.text ∈ unspelledNames

/-- A piece that may stand in the finished line of known labels. -/
def Piece.IsText (p : Piece) : Prop :=
  p.IsWord ∨ p.kind = .comma ∧ p.text = "," ∨ p.kind = .other ∧ p.text ∈ unspelledNames

theorem detected_eq (s : Symbol) :
    Piece.detected s =
      ⟨normalize (Text.trim s.token), Kind.of (normalize (Text.trim s.token)), some s.box⟩ := rfl

/-- A symbol that is not recognized has an unspelled name for its label. -/
theorem label_of_other {s : Symbol} (h : LabelMap.standard.token? s.label = some s.token)
    (hkind : (Piece.detected s).kind = .other) :
    s.label ∈ unspelledNames ∧ (Piece.detected s).text = s.label := by
  rw [detected_eq] at hkind ⊢
  dsimp only at hkind ⊢
  exact Detection.kind_of_token? h hkind

theorem reported_of_token? {s : Symbol} (h : LabelMap.standard.token? s.label = some s.token) :
    (Piece.detected s).Reported := by
  refine ⟨Piece.isRead_detected s, fun hkind => ?_⟩
  obtain ⟨hlabel, htext⟩ := label_of_other h hkind
  rw [htext]
  exact hlabel

/-- **The pieces of loaded symbols** are recognized, but for the unspelled names. -/
theorem reported_of_load {text : String} {set : SymbolSet} {notes : List LoadWarning}
    (h : Detection.load .standard text = .ok (set, notes)) :
    ∀ s ∈ set.symbols, (Piece.detected s).Reported := by
  intro s hs
  exact reported_of_token? (Detection.token?_of_load h s hs)

theorem Piece.Reported.isText {p : Piece} (h : p.Reported) (hp : isCallable p = false) :
    p.IsText := by
  by_cases hcomma : p.kind = .comma
  · have htext := h.read.has
    rw [hcomma] at htext
    exact Or.inr (Or.inl ⟨hcomma, htext⟩)
  · by_cases hother : p.kind = .other
    · exact Or.inr (Or.inr ⟨hother, h.named hother⟩)
    · exact Or.inl (Recognized.isWord ⟨h.read, hother, hcomma⟩ hp)

theorem Piece.Reported.isText_head {p : Piece} (h : p.Reported) (hp : isCallable p = true) :
    p.head.IsText := Or.inl (callName_mem h.read hp)

theorem isText_flip (p : Piece) : p.flip.IsText := Or.inl (isWord_flip p)

/-- **The pieces of a finished line.** -/
theorem isText_assemble (config : Config) {symbols : List Symbol}
    (h : ∀ s ∈ symbols, (Piece.detected s).Reported) :
    ∀ p ∈ (assemble config symbols).1, p.IsText := by
  have hname : ∀ name ∈ spelledNames, Kind.of name = .function := by decide
  have hadded : ∀ text kind box, Kind.of text = kind → kind ≠ .other →
      Piece.Reported ⟨text, kind, box⟩ := fun text kind box hread hother =>
    ⟨hread.symm, fun hkind => absurd hkind hother⟩
  have hword : ∀ p : Piece, p.IsWord → p.IsText := fun p hp => Or.inl hp
  have hbefore := forall_beforeCalls config h
    (fun name hmem box => hadded name .function box (hname name hmem) nofun)
    (hadded "^" .operator none (by decide) nofun) (hadded "(" .opening none (by decide) nofun)
    (hadded ")" .closing none (by decide) nofun)
  have hcalled := (calls_writeCalls 0 (beforeCalls config (piecesOf symbols)).1).forall hbefore
    (fun p hp hcallable => hp.isText_head hcallable) (fun p hp hplain => hp.isText hplain)
    (hword (.added "diff" .function) (by decide)) (hword .openParen rfl) (hword .closeParen rfl)
  exact forall_assemble config hcalled isText_flip (hword (.added "*" .operator) (by decide))

/-- A piece of a finished line is a row of digits and points, a sign, or a row of letters. -/
theorem Piece.IsText.spelled {p : Piece} (h : p.IsText) :
    (p.kind = .number ∧ p.text.toList ≠ [] ∧ ∀ c ∈ p.text.toList, isDigit c = true ∨ c = '.') ∨
      p.kind ≠ .number ∧ ((∃ c, p.text.toList = [c] ∧ isSign c = true) ∨
        p.text.toList ≠ [] ∧ ∀ c ∈ p.text.toList, isLetter c = true) := by
  rcases h with hword | ⟨hkind, htext⟩ | ⟨hkind, htext⟩
  · by_cases hnumber : p.kind = .number
    · unfold Piece.IsWord at hword
      rw [hnumber] at hword
      have hnumeric : isNumeric p.text.toList = true := hword
      simp only [isNumeric, Bool.and_eq_true, Bool.not_eq_true', List.isEmpty_eq_false_iff,
        List.all_eq_true, Bool.or_eq_true, beq_iff_eq] at hnumeric
      exact Or.inl ⟨hnumber, hnumeric⟩
    · exact Or.inr ⟨hnumber, (hword.spelled hnumber).imp_right And.right⟩
  · refine Or.inr ⟨by simp [hkind], Or.inl ⟨',', ?_, by decide⟩⟩
    rw [htext]
    rfl
  · refine Or.inr ⟨by simp [hkind], Or.inr ?_⟩
    exact Formula.functionNames_letters _ (Detection.mem_functionNames htext)

theorem Piece.IsText.isLexable {p : Piece} (h : p.IsText) :
    ∀ c ∈ p.text.toList, isLexable c = true := by
  intro c hc
  rcases h.spelled with ⟨-, -, hchars⟩ | ⟨-, ⟨d, hd, hsign⟩ | ⟨-, hletters⟩⟩
  · rcases hchars c hc with hdigit | rfl
    · simp [Formula.isLexable, hdigit]
    · decide
  · rw [hd, List.mem_singleton] at hc
    simp [Formula.isLexable, hc, hsign]
  · simp [Formula.isLexable, hletters c hc]

/-- The line of loaded symbols consists of the characters of token texts. -/
theorem isLexable_linearize (config : Config) {symbols : List Symbol}
    (h : ∀ s ∈ symbols, (Piece.detected s).Reported) :
    ∀ c ∈ (linearize config symbols).text.toList, isLexable c = true := by
  intro c hc
  rw [text_linearize, toList_lineText] at hc
  obtain ⟨p, hp, hc⟩ := List.mem_flatMap.1 hc
  have htext := isText_assemble config (fun s hs => h s (List.mem_of_mem_filter hs)) p hp
  exact htext.isLexable c hc

/-- **The line of loaded symbols can be read.**  It consists of digits, points, letters and signs,
and the tokenizer refuses nothing in it but a point by itself and a literal out of range. -/
theorem tokenize_of_load (config : Config) {text : String} {set : SymbolSet}
    {notes : List LoadWarning} (h : Detection.load .standard text = .ok (set, notes)) :
    ((∃ ls, tokenize (linearize config set.symbols).text = .ok ls) ∨
      (∃ place, tokenize (linearize config set.symbols).text =
        .error (.unexpectedChar '.' place)) ∨
      ∃ literal place, tokenize (linearize config set.symbols).text =
        .error (.numberOutOfRange literal place)) ∧
    ∀ c ∈ (linearize config set.symbols).text.toList, isLexable c = true := by
  have hchars := isLexable_linearize config (reported_of_load h)
  refine ⟨?_, hchars⟩
  cases htokens : tokenize (linearize config set.symbols).text with
  | ok ls => exact Or.inl ⟨ls, rfl⟩
  | error e =>
    rcases Formula.error_of_tokenize hchars htokens with ⟨place, rfl⟩ | ⟨literal, place, rfl⟩
    · exact Or.inr (Or.inl ⟨place, rfl⟩)
    · exact Or.inr (Or.inr ⟨literal, place, rfl⟩)

/-- A root over a constant, and a point that starts no literal. -/
def glyphFile : String :=
  "[[60,20],[[\"root\",1,[0,0,10,20]],[\"pi\",1,[12,0,20,20]],[\"×\",1,[22,8,28,14]]," ++
    "[\"dot\",1,[32,18,34,20]]]]"

def glyphSet : SymbolSet :=
  ⟨60, 20, [⟨"root", "√", 1.0, ⟨0.0, 0.0, 10.0, 20.0⟩⟩, ⟨"pi", "π", 1.0, ⟨12.0, 0.0, 20.0, 20.0⟩⟩,
    ⟨"×", "*", 1.0, ⟨22.0, 8.0, 28.0, 14.0⟩⟩, ⟨"dot", ".", 1.0, ⟨32.0, 18.0, 34.0, 20.0⟩⟩]⟩

theorem tokenize_of_load_glyphs :
    Detection.load .standard glyphFile = .ok (glyphSet, []) ∧
    (linearize {} glyphSet.symbols).text = "sqrt(π)*." ∧
    ((∃ ls, tokenize (linearize {} glyphSet.symbols).text = .ok ls) ∨
      (∃ place, tokenize (linearize {} glyphSet.symbols).text =
        .error (.unexpectedChar '.' place)) ∨
      ∃ literal place, tokenize (linearize {} glyphSet.symbols).text =
        .error (.numberOutOfRange literal place)) ∧
    ∀ c ∈ (linearize {} glyphSet.symbols).text.toList, isLexable c = true := by
  have hload : Detection.load .standard glyphFile = .ok (glyphSet, []) := by decide +kernel
  exact ⟨hload, by decide +kernel, tokenize_of_load {} hload⟩

end GlyphMath.Line
