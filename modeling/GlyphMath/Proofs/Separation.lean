import GlyphMath.Proofs.Vocabulary

/-!
# Words of a line

* `words` -- the words of a text: its longest rows of letters, and its constants.
* `Piece.word?` -- the word that a piece is: a variable, a constant or the name of a function.
* `Piece.isLettered` -- a piece is a row of letters.

Two rows of letters side by side are one word.  The line reader puts a multiplication sign or a
bracket between them, unless one of them is a function name that it does not recognize.

Principal results:

* `words_of_tokenize` -- the words among the tokens of a text are the words of the text.
* `words_eq_iff` -- the words of a row are its own exactly where no two rows of letters meet.
* `words_of_load` -- the words of the line of loaded symbols.
-/

set_option autoImplicit false

/-! ## Words of a text -/

namespace GlyphMath.Formula

open Decimal (isDigit)

/-- Whether a token is a variable, a constant or the name of a function. -/
def Token.isWord : Token → Bool
  | .name _ => true
  | .function _ => true
  | _ => false

/-- The signs that are names by themselves. -/
def isConstant (c : Char) : Bool := c == 'π' || c == 'ℯ'

/-- The words of a text: its longest rows of letters, and its constants. -/
def words (text : List Char) : List Token :=
  match text with
  | [] => []
  | c :: rest =>
    if isLetter c then
      wordToken (String.ofList (c :: rest.takeWhile isLetter)) :: words (rest.dropWhile isLetter)
    else if isConstant c then signToken [c] :: words rest
    else words rest
termination_by text.length
decreasing_by
  · exact Nat.lt_succ_of_le (List.dropWhile_sublist _).length_le
  · exact Nat.lt_succ_self _
  · exact Nat.lt_succ_self _

section

variable {word rest : List Char} {c : Char}

theorem words_word (hne : word ≠ []) (hword : ∀ c ∈ word, isLetter c = true)
    (hrest : ∀ c ∈ rest.head?, isLetter c = false) :
    words (word ++ rest) = wordToken (String.ofList word) :: words rest := by
  obtain ⟨c, word, rfl⟩ := List.exists_cons_of_ne_nil hne
  have htail : ∀ d ∈ word, isLetter d = true := fun d hd => hword d (List.mem_cons_of_mem _ hd)
  have hstop : rest.takeWhile isLetter = [] ∧ rest.dropWhile isLetter = rest := by
    cases rest with
    | nil => exact ⟨rfl, rfl⟩
    | cons d rest => simp [hrest d rfl]
  rw [List.cons_append, words, if_pos (hword c List.mem_cons_self),
    List.takeWhile_append_of_pos htail, List.dropWhile_append_of_pos htail, hstop.1, hstop.2,
    List.append_nil]

/-- Characters that are neither letters nor constants are no part of a word. -/
theorem words_plain (hword : ∀ c ∈ word, isLetter c = false ∧ isConstant c = false) :
    words (word ++ rest) = words rest := by
  induction word with
  | nil => rfl
  | cons c word ih =>
    obtain ⟨hletter, hconstant⟩ := hword c List.mem_cons_self
    rw [List.cons_append, words, if_neg (by simp [hletter]), if_neg (by simp [hconstant])]
    exact ih fun d hd => hword d (List.mem_cons_of_mem _ hd)

theorem words_sign (h : isSign c = true) :
    words (c :: rest) = [signToken [c]].filter Token.isWord ++ words rest := by
  have hletter : isLetter c = false := (isSign_cases h).2.2
  have hword : (signToken [c]).isWord = isConstant c :=
    eq_of_beq (@of_isSign (fun c => (signToken [c]).isWord == isConstant c) (by decide) c h)
  rw [words, if_neg (by simp [hletter]), List.filter_cons, hword]
  split <;> rfl

theorem isWord_wordToken (text : String) : (wordToken text).isWord = true := by
  unfold wordToken
  split <;> rfl

theorem wordToken_inj {text text' : String} (h : wordToken text = wordToken text') :
    text = text' := by
  have htext : ∀ text : String, (wordToken text).toText = text := by
    intro text
    unfold wordToken
    split <;> rfl
  rw [← htext text, h, htext]

/-- A row of letters that a letter follows is no word: the letter belongs to it. -/
theorem words_ne {ts : List Token} (hne : word ≠ []) (hword : ∀ c ∈ word, isLetter c = true)
    (hrest : ¬ ∀ c ∈ rest.head?, isLetter c = false) :
    words (word ++ rest) ≠ wordToken (String.ofList word) :: ts := by
  intro hsame
  have hall : ∀ c ∈ word ++ rest.takeWhile isLetter, isLetter c = true :=
    List.forall_mem_append.2 ⟨hword, List.all_eq_true.1 List.all_takeWhile⟩
  have hstop : ∀ c ∈ (rest.dropWhile isLetter).head?, isLetter c = false := by
    intro c hc
    have hdrop := List.head?_dropWhile_not isLetter rest
    rwa [Option.mem_def.1 hc] at hdrop
  rw [← List.takeWhile_append_dropWhile (p := isLetter) (l := rest), ← List.append_assoc,
    words_word (by simp [hne]) hall hstop] at hsame
  have hrun : rest.takeWhile isLetter = [] := by
    simpa [String.ofList_inj] using wordToken_inj (List.cons.inj hsame).1
  apply hrest
  intro c hc
  cases rest with
  | nil => cases hc
  | cons d rest =>
    cases hc
    rw [Bool.eq_false_iff]
    intro hletter
    rw [List.takeWhile_cons_of_pos hletter] at hrun
    cases hrun

theorem not_isLetter_of_isDigit (h : isDigit c = true) :
    isLetter c = false ∧ isConstant c = false := by
  constructor
  · rw [Bool.eq_false_iff]
    intro hletter
    rw [not_isDigit_of_isLetter hletter] at h
    cases h
  · rw [isConstant, Bool.or_eq_false_iff, beq_eq_false_iff_ne, beq_eq_false_iff_ne]
    constructor <;> rintro rfl <;> exact absurd h (by decide)

theorem words_digits (hword : ∀ c ∈ word, isDigit c = true ∨ c = '.') :
    words (word ++ rest) = words rest := by
  refine words_plain fun c hc => ?_
  rcases hword c hc with hdigit | rfl
  · exact not_isLetter_of_isDigit hdigit
  · decide

theorem words_of_lexeme {chunk : Chunk} {l : Lexeme} {text : List Char}
    (htake : takeToken? text = some (chunk.text, rest)) (h : chunk.lexeme = .ok l) :
    words (chunk.text ++ rest) = [l.token].filter Token.isWord ++ words rest := by
  obtain ⟨token, offset⟩ := chunk
  rcases takeToken?_cases htake with ⟨hliteral, hchars⟩ | ⟨hne, hword, hrest⟩ | ⟨c, rfl, hsign⟩
  · rw [(number_of_lexeme hliteral h).1, words_digits hchars]
    rfl
  · rw [token_of_lexeme (isLiteral_word hword) h, signToken_word hword,
      words_word hne hword hrest, List.filter_cons_of_pos (isWord_wordToken _)]
    rfl
  · rw [token_of_lexeme (isLiteral_sign hsign) h]
    exact words_sign hsign

/-- **The words among the tokens of a text** are the words of the text. -/
theorem words_of_tokenize {text : String} {ls : List Lexeme} (h : tokenize text = .ok ls) :
    (ls.map (·.token)).filter Token.isWord = words text.toList := by
  have hread : words text.toList =
      (ls.map (·.token)).flatMap fun t => [t].filter Token.isWord := by
    refine flatMap_of_tokenize (by rw [words]) ?_ (fun htake hl => words_of_lexeme htake hl) h
    intro c rest hc
    simp only [isSpace, Bool.or_eq_true, beq_iff_eq] at hc
    refine @words_plain [c] rest fun d hd => ?_
    rw [List.mem_singleton.1 hd]
    rcases hc with ((rfl | rfl) | rfl) | rfl <;> decide
  rw [hread, ← List.filter_flatMap, List.flatMap_singleton']

end

end GlyphMath.Formula

/-! ## Words of a row -/

namespace GlyphMath.Line

open Layout (Symbol SymbolSet)
open Detection (LoadWarning unspelledNames)
open Formula (Token Lexeme functionNames isLetter isSign isConstant signToken wordToken words
  tokenize)

/-- The name of a variable or constant. -/
def variableName (text : String) : String :=
  match text with
  | "π" => "pi"
  | "ℯ" => "e"
  | text => text

/-- The word that a piece is: a variable, a constant or the name of a function. -/
def Piece.word? (p : Piece) : Option Token :=
  match p.kind with
  | .variable => some (.name (variableName p.text))
  | .function => some (.function p.text)
  | .other => some (.function p.text)
  | _ => none

def Piece.isLettered (p : Piece) : Bool := p.text.toList.all isLetter

theorem variableName_letter {text : String} (h : isLowerCase text.toList = true) :
    variableName text = text := by
  unfold variableName
  split
  all_goals first
    | exact absurd h (by decide)
    | rfl

section

variable {p : Piece} {row : List Piece} {rest : List Char}

/-- A piece is a word where its token is one. -/
theorem Piece.IsText.word?_toList (h : p.IsText) (hp : p.kind ≠ .number) :
    p.word?.toList = [p.token].filter Token.isWord := by
  unfold Piece.word?
  rcases h with hword | ⟨hkind, htext⟩ | ⟨hkind, htext⟩
  · unfold Piece.IsWord at hword
    cases hkind : p.kind <;> rw [hkind] at hword
    case number => exact absurd hkind hp
    case «variable» =>
      rcases hword with htext | htext | hlower
      · rw [Piece.token, htext]
        decide
      · rw [Piece.token, htext]
        decide
      · rw [Piece.token, signToken_letter hlower, variableName_letter hlower]
        rfl
    case function =>
      rw [Piece.token, signToken_function hword]
      rfl
    case operator =>
      simp only [Kind.Has, List.mem_cons, List.not_mem_nil, or_false] at hword
      rw [Piece.token]
      rcases hword with htext | htext | htext | htext | htext <;> rw [htext] <;> decide
    case opening | closing | bar =>
      rw [Piece.token, show p.text = _ from hword]
      decide
    case comma | root | other => exact hword.elim
  · rw [hkind, Piece.token, htext]
    decide
  · rw [hkind, Piece.token, signToken_function (Detection.mem_functionNames htext)]
    rfl

/-- A row of letters is one word, and no other piece starts with a letter. -/
theorem Piece.IsText.isLettered_cases (h : p.IsText) :
    p.isLettered = true ∧ p.text.toList ≠ [] ∧ (∀ c ∈ p.text.toList, isLetter c = true) ∧
        p.word? = some (wordToken p.text) ∨
      p.isLettered = false ∧ (∃ c tail, p.text.toList = c :: tail ∧ isLetter c = false) ∧
        ∀ rest, words (p.text.toList ++ rest) = p.word?.toList ++ words rest := by
  rcases h.spelled with ⟨hnumber, hne, hchars⟩ | ⟨hnumber, ⟨c, hc, hsign⟩ | ⟨hne, hletters⟩⟩
  · right
    obtain ⟨c, tail, hc⟩ := List.exists_cons_of_ne_nil hne
    have hletter : isLetter c = false := by
      rcases hchars c (by rw [hc]; exact List.mem_cons_self) with hdigit | rfl
      · exact (Formula.not_isLetter_of_isDigit hdigit).1
      · decide
    refine ⟨by simp [isLettered, hc, hletter], ⟨c, tail, hc, hletter⟩, fun rest => ?_⟩
    rw [Formula.words_digits hchars, word?, hnumber]
    rfl
  · right
    have hletter : isLetter c = false := (Formula.isSign_cases hsign).2.2
    refine ⟨by simp [isLettered, hc, hletter], ⟨c, [], hc, hletter⟩, fun rest => ?_⟩
    rw [h.word?_toList hnumber, token, hc]
    exact Formula.words_sign hsign
  · left
    refine ⟨List.all_eq_true.2 hletters, hne, hletters, ?_⟩
    have hword := h.word?_toList hnumber
    rw [token, Formula.signToken_word hletters, String.ofList_toList,
      List.filter_cons_of_pos (Formula.isWord_wordToken _)] at hword
    cases hp : p.word? with
    | none =>
      rw [hp] at hword
      cases hword
    | some t =>
      rw [hp] at hword
      rw [(List.cons.inj hword).1]

theorem isLetter_head_iff (h : ∀ p ∈ row, p.IsText) :
    (∀ c ∈ (chars row).head?, isLetter c = false) ↔ ∀ q ∈ row.head?, q.isLettered = false := by
  cases row with
  | nil => exact ⟨nofun, nofun⟩
  | cons q row =>
    rw [chars_cons]
    rcases (h q List.mem_cons_self).isLettered_cases with
      ⟨hlettered, hne, hletters, -⟩ | ⟨hlettered, ⟨c, tail, hc, hletter⟩, -⟩
    · obtain ⟨c, tail, hc⟩ := List.exists_cons_of_ne_nil hne
      have hletter := hletters c (by rw [hc]; exact List.mem_cons_self)
      simp [hc, hletter, hlettered]
    · simp [hc, hletter, hlettered]

/-- **The words of a row** are those of its pieces exactly where no two rows of letters meet.  By
induction on the row: a row of letters is a word only if no letter follows it. -/
theorem words_eq_iff (h : ∀ p ∈ row, p.IsText) :
    words (chars row) = row.filterMap Piece.word? ↔
      row.IsChain fun p q => (p.isLettered && q.isLettered) = false := by
  induction row with
  | nil => simp [chars, words]
  | cons p row ih =>
    have hrow : ∀ q ∈ row, q.IsText := fun q hq => h q (List.mem_cons_of_mem _ hq)
    have ih := ih hrow
    have hhead := isLetter_head_iff hrow
    rw [chars_cons, filterMap_cons_toList, List.isChain_cons]
    rcases (h p List.mem_cons_self).isLettered_cases with
      ⟨hlettered, hne, hletters, hword⟩ | ⟨hlettered, -, hwords⟩
    · by_cases hnext : ∀ q ∈ row.head?, q.isLettered = false
      · rw [Formula.words_word hne hletters (hhead.2 hnext), hword, String.ofList_toList]
        simpa [hlettered, ih] using fun _ => hnext
      · refine iff_of_false ?_ ?_
        · rw [← hhead] at hnext
          rw [hword, ← String.ofList_toList (s := p.text), String.toList_ofList]
          exact Formula.words_ne hne hletters hnext
        · intro hchain
          apply hnext
          simpa [hlettered] using hchain.1
    · rw [hwords]
      simp [hlettered, ih]

/-! ## Rows of letters side by side -/

/-- No row of letters stands beside a function name that is not recognized. -/
def NameApart (p q : Piece) : Prop :=
  p.kind = .other ∨ q.kind = .other → (p.isLettered && q.isLettered) = false

instance (p q : Piece) : Decidable (NameApart p q) :=
  inferInstanceAs (Decidable (_ → _))

theorem Piece.IsText.kind_of_isLettered (h : p.IsText) (hp : p.isLettered = true) :
    p.kind = .variable ∨ p.kind = .function ∨ p.kind = .other := by
  rcases h.isLettered_cases with ⟨-, -, -, hword⟩ | ⟨hp', -⟩
  · unfold word? at hword
    split at hword
    · exact Or.inl ‹_›
    · exact Or.inr (Or.inl ‹_›)
    · exact Or.inr (Or.inr ‹_›)
    · cases hword
  · rw [hp'] at hp
    cases hp

/-- Two rows of letters meet only at a name that is not recognized: a multiplication sign stands
between variables, and a bracket after a function. -/
theorem isLettered_of_apart {q : Piece} (hp : p.IsText) (hq : q.IsText) (happart : Apart p q)
    (hcalled : p.kind = .function → q.isBracket = true) (hname : NameApart p q) :
    (p.isLettered && q.isLettered) = false := by
  rw [Bool.eq_false_iff]
  intro hboth
  have hlettered := hboth
  rw [Bool.and_eq_true] at hlettered
  have hother : p.kind ≠ .other ∧ q.kind ≠ .other := by
    constructor <;> intro hkind
    · rw [hname (Or.inl hkind)] at hboth
      cases hboth
    · rw [hname (Or.inr hkind)] at hboth
      cases hboth
  have hqkind : q.kind = .variable ∨ q.kind = .function :=
    (hq.kind_of_isLettered hlettered.2).imp_right fun h => h.resolve_right hother.2
  rcases hp.kind_of_isLettered hlettered.1 with hvariable | hfunction | hkind
  · rcases happart with hnumbers | hvalues
    · rw [hvariable] at hnumbers
      cases hnumbers.1
    · rw [hvariable] at hvalues
      rcases hqkind with hkind | hkind <;> rw [hkind] at hvalues <;> cases hvalues
  · obtain ⟨-, hnevariable, hnefunction⟩ := ne_of_isBracket (hcalled hfunction)
    exact hqkind.elim hnevariable hnefunction
  · exact hother.1 hkind

theorem isChain_isLettered_iff (h : ∀ p ∈ row, p.IsText) (happart : row.IsChain Apart)
    (hcalled : Called (fun q => q.isBracket = true) row) :
    row.IsChain (fun p q => (p.isLettered && q.isLettered) = false) ↔ row.IsChain NameApart := by
  induction row with
  | nil => simp
  | cons p row ih =>
    have ih := ih (fun q hq => h q (List.mem_cons_of_mem _ hq)) happart.tail hcalled.2
    rw [List.isChain_cons] at happart ⊢
    rw [List.isChain_cons, ih]
    refine and_congr_left fun _ => ⟨fun hnext q hq _ => hnext q hq, fun hnext q hq => ?_⟩
    refine isLettered_of_apart (h p List.mem_cons_self)
      (h q (List.mem_cons_of_mem _ (List.mem_of_mem_head? hq))) (happart.1 q hq) ?_ (hnext q hq)
    intro hfunction
    obtain ⟨q', hq', hbracket⟩ := hcalled.1 hfunction
    rwa [Option.mem_unique hq hq']

end

/-- What is not recognized in a finished row has been detected. -/
theorem kind_assemble (config : Config) {symbols : List Symbol}
    (h : ∀ s ∈ symbols, (Piece.detected s).kind ≠ .other) :
    ∀ p ∈ (assemble config symbols).1, p.kind ≠ .other := by
  have hbefore : ∀ p ∈ (beforeCalls config (piecesOf symbols)).1, p.kind ≠ .other :=
    forall_beforeCalls config h (fun _ _ _ => nofun) nofun nofun nofun
  have hcalled : ∀ p ∈ (writeCalls 0 (beforeCalls config (piecesOf symbols)).1).1,
      p.kind ≠ .other :=
    (calls_writeCalls 0 _).forall hbefore (fun _ _ _ => nofun) (fun _ hp _ => hp) nofun nofun nofun
  refine forall_assemble config hcalled (fun p => ?_) nofun
  unfold Piece.flip
  split <;> nofun

/-- **The words of the line of loaded symbols** are those of its pieces, in their order, exactly
where no row of letters stands beside a function name that is not recognized.  In particular they
are where no symbol that is kept has an unspelled name for its label. -/
theorem words_of_load (config : Config) {text : String} {set : SymbolSet}
    {notes : List LoadWarning} {ls : List Lexeme}
    (hload : Detection.load .standard text = .ok (set, notes))
    (htokens : tokenize (linearize config set.symbols).text = .ok ls) :
    ((ls.map (·.token)).filter Token.isWord =
        (assemble config (set.symbols.filter (isKept config))).1.filterMap Piece.word? ↔
      (assemble config (set.symbols.filter (isKept config))).1.IsChain NameApart) ∧
    ((∀ s ∈ set.symbols, isKept config s = true → s.label ∉ unspelledNames) →
      (ls.map (·.token)).filter Token.isWord =
        (assemble config (set.symbols.filter (isKept config))).1.filterMap Piece.word?) := by
  have hreported : ∀ s ∈ set.symbols.filter (isKept config), (Piece.detected s).Reported :=
    fun s hs => reported_of_load hload s (List.mem_of_mem_filter hs)
  have htext := isText_assemble config hreported
  have hiff : (ls.map (·.token)).filter Token.isWord =
        (assemble config (set.symbols.filter (isKept config))).1.filterMap Piece.word? ↔
      (assemble config (set.symbols.filter (isKept config))).1.IsChain NameApart := by
    rw [Formula.words_of_tokenize htokens, text_linearize, toList_lineText, words_eq_iff htext]
    exact isChain_isLettered_iff htext (apart_insertMultiplication config _)
      (called_isBracket_assemble config _)
  refine ⟨hiff, fun hlabels => hiff.2 ?_⟩
  have hkinds : ∀ p ∈ (assemble config (set.symbols.filter (isKept config))).1,
      p.kind ≠ .other := by
    refine kind_assemble config fun s hs hkind => ?_
    rw [List.mem_filter] at hs
    have hlabel := label_of_other (Detection.token?_of_load hload s hs.1) hkind
    exact hlabels s hs.1 hs.2 hlabel.1
  exact (List.pairwise_of_forall_mem_list fun p hp q hq hother =>
    absurd hother (not_or.2 ⟨hkinds p hp, hkinds q hq⟩)).isChain

/-- A name that is seen too faintly to be kept, a letter, and a function with two more. -/
def faintFile : String :=
  "[[80,20],[[\"neg\",0.05,[0,0,10,20]],[\"x\",1,[12,0,22,20]],[\"sin\",1,[24,0,42,20]]," ++
    "[\"var_y\",1,[44,0,54,20]],[\"pi\",1,[56,0,66,20]]]]"

def faintSet : SymbolSet :=
  ⟨80, 20, [⟨"neg", "neg", 0.05, ⟨0.0, 0.0, 10.0, 20.0⟩⟩, ⟨"x", "x", 1.0, ⟨12.0, 0.0, 22.0, 20.0⟩⟩,
    ⟨"sin", "sin", 1.0, ⟨24.0, 0.0, 42.0, 20.0⟩⟩, ⟨"var_y", "y", 1.0, ⟨44.0, 0.0, 54.0, 20.0⟩⟩,
    ⟨"pi", "π", 1.0, ⟨56.0, 0.0, 66.0, 20.0⟩⟩]⟩

theorem words_of_load_faint :
    Detection.load .standard faintFile = .ok (faintSet, []) ∧
    (linearize {} faintSet.symbols).text = "x*sin(y*π)" ∧
    ∃ ls, tokenize (linearize {} faintSet.symbols).text = .ok ls ∧
      ((ls.map (·.token)).filter Token.isWord =
          (assemble {} (faintSet.symbols.filter (isKept {}))).1.filterMap Piece.word? ↔
        (assemble {} (faintSet.symbols.filter (isKept {}))).1.IsChain NameApart) ∧
      (ls.map (·.token)).filter Token.isWord =
        (assemble {} (faintSet.symbols.filter (isKept {}))).1.filterMap Piece.word? := by
  have hload : Detection.load .standard faintFile = .ok (faintSet, []) := by decide +kernel
  have htokens : tokenize (linearize {} faintSet.symbols).text =
      .ok [⟨.name "x", 0⟩, ⟨.operator .mul, 1⟩, ⟨.function "sin", 2⟩, ⟨.openParen, 5⟩,
        ⟨.name "y", 6⟩, ⟨.operator .mul, 7⟩, ⟨.name "pi", 8⟩, ⟨.closeParen, 9⟩] := by
    decide +kernel
  obtain ⟨hiff, hwords⟩ := words_of_load {} hload htokens
  exact ⟨hload, by decide +kernel, _, htokens, hiff, hwords (by decide +kernel)⟩

/-- A name that the line reader does not recognize, and a letter. -/
def fusedFile : String :=
  "[[40,20],[[\"neg\",1,[0,0,10,20]],[\"x\",1,[12,0,22,20]]]]"

def fusedSet : SymbolSet :=
  ⟨40, 20, [⟨"neg", "neg", 1.0, ⟨0.0, 0.0, 10.0, 20.0⟩⟩, ⟨"x", "x", 1.0, ⟨12.0, 0.0, 22.0, 20.0⟩⟩]⟩

/-- **Two symbols that become one word.** -/
theorem linearize_fuses_name :
    Detection.load .standard fusedFile = .ok (fusedSet, []) ∧
    ∃ ls, tokenize (linearize {} fusedSet.symbols).text = .ok ls ∧
      (ls.map (·.token)).filter Token.isWord = [.name "negx"] ∧
      (assemble {} (fusedSet.symbols.filter (isKept {}))).1.filterMap Piece.word? =
        [.function "neg", .name "x"] := by
  have htokens : tokenize (linearize {} fusedSet.symbols).text = .ok [⟨.name "negx", 0⟩] := by
    decide +kernel
  exact ⟨by decide +kernel, _, htokens, by decide +kernel, by decide +kernel⟩

end GlyphMath.Line
