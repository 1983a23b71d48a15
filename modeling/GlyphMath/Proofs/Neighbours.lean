import GlyphMath.Proofs.Rows
import GlyphMath.Proofs.Stages
import GlyphMath.Proofs.Unmatched

/-!
# No multiplication sign is missing

* `Recognized` -- a piece that has a kind that is recognized.
* `Lexes` -- the tokens of a text that starts at a place.

Principal results:

* `finished_assemble` -- the finished row of recognized symbols.
* `reads_of_tokenize` -- the tokens that are found in the text of a finished row.
* `parse_linearize` -- no operand of a line is left over, and no function of a line without changed
  brackets is out of place.
-/

set_option autoImplicit false

namespace GlyphMath.Line

open Layout (Symbol)
open Decimal (isDigit)
open Formula (Token Lexeme LexError Chunk functionNames isLiteral literalValue takeToken? Stops
  valuesApart)

/-! ## The stages before the repair -/

/-- A piece that has a kind that is recognized, from its text, and is no comma. -/
structure Recognized (p : Piece) : Prop where
  read : p.IsRead
  other : p.kind ≠ .other
  comma : p.kind ≠ .comma

theorem recognized_beforeCalls (config : Config) {symbols : List Symbol}
    (h : ∀ s ∈ symbols, (Piece.detected s).kind ≠ .other ∧ (Piece.detected s).kind ≠ .comma) :
    ∀ p ∈ (beforeCalls config (piecesOf symbols)).1, Recognized p := by
  have hname : ∀ name ∈ spelledNames, Kind.of name = .function := by decide
  have hadded : ∀ text kind box, Kind.of text = kind → kind ≠ .other → kind ≠ .comma →
      Recognized ⟨text, kind, box⟩ := fun text kind box hread hother hcomma =>
    ⟨hread.symm, hother, hcomma⟩
  exact forall_beforeCalls config
    (fun s hs => ⟨Piece.isRead_detected s, (h s hs).1, (h s hs).2⟩)
    (fun name hmem box => hadded name .function box (hname name hmem) nofun nofun)
    (hadded "^" .operator none (by decide) nofun nofun)
    (hadded "(" .opening none (by decide) nofun nofun)
    (hadded ")" .closing none (by decide) nofun nofun)

theorem callName_mem {p : Piece} (h : p.IsRead) (hp : isCallable p = true) :
    callName p.text ∈ functionNames := by
  have hhas := h.has
  unfold isCallable at hp
  rw [Bool.or_eq_true, beq_iff_eq, beq_iff_eq] at hp
  rcases hp with hp | hp <;> rw [hp] at hhas
  · have htext : p.text = "√" := hhas
    rw [htext]
    decide
  · have hnames : ∀ name ∈ spelledNames, callName name ∈ functionNames := by decide
    exact hnames _ hhas

theorem Recognized.isWord {p : Piece} (h : Recognized p) (hp : isCallable p = false) :
    p.IsWord := by
  have hhas := h.read.has
  unfold isCallable at hp
  unfold Piece.IsWord
  cases hkind : p.kind <;> rw [hkind] at hhas hp
  case function => cases hp
  case root => cases hp
  case comma => exact h.comma hkind
  case other => exact h.other hkind
  all_goals exact hhas

theorem Calls.isWord {pieces out : List Piece} (hcalls : Calls pieces out)
    (h : ∀ p ∈ pieces, Recognized p) : ∀ p ∈ out, p.IsWord := by
  have hdiff : (Piece.added "diff" .function).IsWord := by
    show "diff" ∈ functionNames
    decide
  have hopen : Piece.openParen.IsWord := rfl
  have hclose : Piece.closeParen.IsWord := rfl
  exact hcalls.forall h (fun p hp hcallable => callName_mem hp.read hcallable)
    (fun p hp hplain => hp.isWord hplain) hdiff hopen hclose

theorem Calls.startsOpen {pieces out : List Piece} (hcalls : Calls pieces out)
    (h : ∀ p ∈ pieces, p.IsRead) (hopen : startsOpen pieces = true) :
    ∃ q ∈ out.head?, q.kind = .opening := by
  unfold Line.startsOpen at hopen
  cases hcalls with
  | nil => cases hopen
  | @derivative d slash d' v rest out hd hslash hd' hv _ =>
    have hread : d.kind = Kind.of d.text := h d List.mem_cons_self
    rw [hd] at hread
    rw [beq_iff_eq, hread] at hopen
    exact absurd hopen (by decide)
  | called hp =>
    rw [beq_iff_eq, hp] at hopen
    cases hopen
  | bare hp =>
    rw [beq_iff_eq] at hopen
    simp [isCallable, hopen] at hp
  | plain =>
    exact ⟨_, rfl, eq_of_beq hopen⟩

theorem Calls.functions {pieces out : List Piece} (hcalls : Calls pieces out)
    (h : ∀ p ∈ pieces, p.IsRead) : Called (fun q => q.kind = .opening) out := by
  induction hcalls with
  | nil => trivial
  | @derivative d slash d' v rest out _ _ _ hv _ ih =>
    have hout := ih fun p hp => h p (by simp [hp])
    refine ⟨fun _ => ⟨_, rfl, rfl⟩, called_cons nofun (called_cons ?_ (called_cons nofun hout))⟩
    rw [hv]
    exact nofun
  | @called p rest out hp hopen hcalls ih =>
    have hrest : ∀ q ∈ rest, q.IsRead := fun q hq => h q (List.mem_cons_of_mem _ hq)
    exact ⟨fun _ => hcalls.startsOpen hrest hopen, ih hrest⟩
  | @bare p operand rest inner out hp _ _ ih ih' =>
    have hinner := ih fun q hq => h q (by simp [hq])
    have hout := ih' fun q hq => h q (by simp [hq])
    exact ⟨fun _ => ⟨_, rfl, rfl⟩, called_cons nofun (hinner.append (called_cons nofun hout))⟩
  | @plain p rest out hp _ ih =>
    have hout := ih fun q hq => h q (List.mem_cons_of_mem _ hq)
    refine called_cons ?_ hout
    intro hfunction
    simp [isCallable, hfunction] at hp

/-! ## Repair -/

theorem isWord_flip (p : Piece) : p.flip.IsWord := by
  unfold Piece.flip
  split <;> rfl

theorem forall_flipAt {holds : Piece → Prop} (hflip : ∀ p : Piece, holds p.flip)
    {row : List Piece} (h : ∀ p ∈ row, holds p) (position : Nat) :
    ∀ p ∈ flipAt row position, holds p := by
  unfold flipAt
  induction row generalizing position with
  | nil => simp
  | cons q row ih =>
    have hrow : ∀ p ∈ row, holds p := fun p hp => h p (List.mem_cons_of_mem _ hp)
    cases position with
    | zero =>
      rintro p (_ | ⟨_, hp⟩)
      · exact hflip q
      · exact hrow p hp
    | succ position =>
      rintro p (_ | ⟨_, hp⟩)
      · exact h q List.mem_cons_self
      · exact ih hrow position p hp

theorem called_flipAt {row : List Piece} (h : Called (fun q => q.isBracket = true) row)
    (position : Nat) : Called (fun q => q.isBracket = true) (flipAt row position) := by
  unfold flipAt
  induction row generalizing position with
  | nil => simp [Called]
  | cons p row ih =>
    cases position with
    | zero =>
      refine called_cons ?_ h.2
      unfold Piece.flip
      split <;> nofun
    | succ position =>
      refine ⟨fun hp => ?_, ih h.2 position⟩
      obtain ⟨q, hq, hbracket⟩ := h.1 hp
      cases row with
      | nil => cases hq
      | cons q' row =>
        cases hq
        cases position with
        | zero => exact ⟨_, rfl, isBracket_flip q⟩
        | succ position => exact ⟨_, rfl, hbracket⟩

/-- Whether a note is about a changed bracket. -/
def Warning.isFlip : Warning → Bool
  | .closedBracket _ => true
  | .openedBracket _ => true
  | _ => false

/-- Without a note about a changed bracket none is changed. -/
theorem repairBrackets_eq {passes : Nat} {row : List Piece}
    (h : ∀ w ∈ (repairBrackets passes row).2, w.isFlip = false) :
    (repairBrackets passes row).1 = row := by
  revert h
  fun_cases repairBrackets passes row with
  | case1 n hvalid => exact fun _ => rfl
  | case2 n hvalid => exact fun _ => rfl
  | case3 n hvalid passes hnone => exact fun _ => rfl
  | case4 n hvalid passes position htarget out notes hout =>
    intro h
    have hnote := h (flipNote row position) List.mem_cons_self
    unfold flipNote at hnote
    split at hnote <;> cases hnote

/-! ## Multiplication -/

theorem head?_insertMultiplication (config : Config) (row : List Piece) :
    (insertMultiplication config row).1.head? = row.head? := by
  unfold insertMultiplication
  split
  · rfl
  · rfl
  · dsimp only
    split
    · rfl
    · split <;> rfl

theorem forall_insertMultiplication (config : Config) {holds : Piece → Prop} {row : List Piece}
    (h : ∀ p ∈ row, holds p) (htimes : holds (Piece.added "*" .operator)) :
    ∀ p ∈ (insertMultiplication config row).1, holds p := by
  fun_induction insertMultiplication config row with
  | case1 => exact h
  | case2 => exact h
  | case3 a b rest out notes hout _ ih =>
    rw [hout] at ih
    rintro p (_ | ⟨_, hp⟩)
    · exact h a List.mem_cons_self
    · exact ih (fun q hq => h q (List.mem_cons_of_mem _ hq)) p hp
  | case4 a b rest out notes hout _ _ ih =>
    rw [hout] at ih
    simp only [List.mem_cons]
    rintro p (rfl | rfl | hp)
    · exact h p List.mem_cons_self
    · exact htimes
    · exact ih (fun q hq => h q (List.mem_cons_of_mem _ hq)) p hp
  | case5 a b rest out notes hout _ _ ih =>
    rw [hout] at ih
    rintro p (_ | ⟨_, hp⟩)
    · exact h a List.mem_cons_self
    · exact ih (fun q hq => h q (List.mem_cons_of_mem _ hq)) p hp

theorem called_insertMultiplication (config : Config) {sort : Piece → Prop} {row : List Piece}
    (h : Called sort row) : Called sort (insertMultiplication config row).1 := by
  fun_induction insertMultiplication config row with
  | case1 => exact h
  | case2 => exact h
  | case3 a b rest out notes hout hnumbers ih =>
    have hhead := head?_insertMultiplication config (b :: rest)
    rw [hout] at ih hhead
    exact ⟨fun hfunction => by rw [hhead]; exact h.1 hfunction, ih h.2⟩
  | case4 a b rest out notes hout _ hvalues ih =>
    rw [hout] at ih
    refine called_cons ?_ (called_cons nofun (ih h.2))
    intro hfunction
    rw [hfunction] at hvalues
    cases hvalues
  | case5 a b rest out notes hout _ _ ih =>
    have hhead := head?_insertMultiplication config (b :: rest)
    rw [hout] at ih hhead
    exact ⟨fun hfunction => by rw [hhead]; exact h.1 hfunction, ih h.2⟩

/-- **Between two values stands a multiplication sign.** -/
theorem apart_insertMultiplication (config : Config) (row : List Piece) :
    (insertMultiplication config row).1.IsChain Apart := by
  fun_induction insertMultiplication config row with
  | case1 => exact .nil
  | case2 => exact .singleton _
  | case3 a b rest out notes hout hnumbers ih =>
    have hhead := head?_insertMultiplication config (b :: rest)
    rw [hout] at ih hhead
    rw [List.isChain_cons]
    refine ⟨fun y hy => ?_, ih⟩
    rw [hhead] at hy
    cases hy
    exact Or.inl hnumbers
  | case4 a b rest out notes hout _ hvalues ih =>
    rw [hout] at ih
    rw [List.isChain_cons, List.isChain_cons]
    refine ⟨fun y hy => ?_, fun y hy => Or.inr rfl, ih⟩
    cases hy
    exact Or.inr (Bool.and_false _)
  | case5 a b rest out notes hout _ hvalues ih =>
    have hhead := head?_insertMultiplication config (b :: rest)
    rw [hout] at ih hhead
    rw [List.isChain_cons]
    refine ⟨fun y hy => ?_, ih⟩
    rw [hhead] at hy
    cases hy
    exact Or.inr (by simpa using hvalues)

/-! ## Tokens of a text -/

/-- The tokens of a text that starts at a place. -/
def Lexes (offset : Nat) (text : List Char) (ls : List Lexeme) : Prop :=
  ∃ chunks, Formula.split offset text = .ok chunks ∧ Formula.lexemes chunks = .ok ls

theorem lexes_of_tokenize {text : String} {ls : List Lexeme} (h : Formula.tokenize text = .ok ls) :
    Lexes 0 text.toList ls := by
  unfold Formula.tokenize at h
  split at h
  · cases h
  · rename_i chunks hsplit
    exact ⟨chunks, hsplit, h⟩

/-- The first token of a text is that of the token text at its front. -/
theorem lexes_append {offset : Nat} {word rest : List Char} {ls : List Lexeme}
    (htake : takeToken? (word ++ rest) = some (word, rest)) (h : Lexes offset (word ++ rest) ls) :
    ∃ l ls', ls = l :: ls' ∧ Chunk.lexeme ⟨word, offset⟩ = .ok l ∧
      Lexes (offset + word.length) rest ls' := by
  obtain ⟨chunks, hsplit, hls⟩ := h
  rw [Formula.split_append offset htake] at hsplit
  cases hrest : Formula.split (offset + word.length) rest with
  | error e =>
    rw [hrest] at hsplit
    cases hsplit
  | ok chunks' =>
    rw [hrest] at hsplit
    cases hsplit
    obtain ⟨l, ls', rfl, hone, hmore⟩ := Formula.lexemes_cons_eq_ok hls
    exact ⟨l, ls', rfl, hone, chunks', hrest, hmore⟩

/-- A text has no tokens where a token text is to start and none does. -/
theorem not_lexes {offset : Nat} {c : Char} {rest : List Char} {ls : List Lexeme}
    (hspace : Formula.isSpace c = false) (htake : takeToken? (c :: rest) = none) :
    ¬ Lexes offset (c :: rest) ls := by
  rintro ⟨chunks, hsplit, -⟩
  rw [Formula.split, if_neg (by simp [hspace])] at hsplit
  split at hsplit
  · cases hsplit
  · rename_i htoken
    rw [htake] at htoken
    cases htoken

/-- The pieces of a run of digits are a numeral, unless they are a lone point. -/
theorem numeral_run {run : List Piece} (hrun : run ≠ []) (hwords : ∀ p ∈ run, p.IsWord)
    (hnumbers : ∀ p ∈ run, p.kind = .number)
    (hpoints : (chars run).count '.' ≤ 1) :
    IsNumeral (chars run) ∨ chars run = ['.'] := by
  have hnumeric : ∀ p ∈ run, isNumeric p.text.toList = true := by
    intro p hp
    have hword := hwords p hp
    unfold Piece.IsWord at hword
    rw [hnumbers p hp] at hword
    exact hword
  have hchars : ∀ c ∈ chars run, isDigit c = true ∨ c = '.' := by
    intro c hc
    obtain ⟨p, hp, hc⟩ := List.mem_flatMap.1 hc
    have := hnumeric p hp
    simp only [isNumeric, Bool.and_eq_true, List.all_eq_true, Bool.or_eq_true, beq_iff_eq] at this
    exact this.2 c hc
  have hne : chars run ≠ [] := by
    obtain ⟨p, run, rfl⟩ := List.exists_cons_of_ne_nil hrun
    have := hnumeric p List.mem_cons_self
    simp only [isNumeric, Bool.and_eq_true, Bool.not_eq_true', List.isEmpty_eq_false_iff] at this
    simp [chars_cons, this.1]
  generalize chars run = text at *
  by_cases hdigit : ∃ c ∈ text, isDigit c = true
  · exact Or.inl ⟨hchars, hpoints, hdigit⟩
  · have hall : text = List.replicate text.length '.' := by
      rw [List.eq_replicate_iff]
      refine ⟨rfl, fun c hc => (hchars c hc).resolve_left fun hc' => hdigit ⟨c, hc, hc'⟩⟩
    have hlength : text.length = 1 := by
      rw [hall, List.count_replicate_self] at hpoints
      have := List.length_pos_iff.2 hne
      omega
    rw [hlength] at hall
    exact Or.inr hall

theorem number_run {p : Piece} (hp : p.kind = .number) (rest : List Piece) :
    ∃ run after, p :: rest = run ++ after ∧ run ≠ [] ∧ (∀ q ∈ run, q.kind = .number) ∧
      ∀ q ∈ after.head?, q.kind ≠ .number := by
  refine ⟨(p :: rest).takeWhile (·.kind = .number), (p :: rest).dropWhile (·.kind = .number),
    List.takeWhile_append_dropWhile.symm, ?_, ?_, ?_⟩
  · simp [hp]
  · intro q hq
    simpa using List.all_eq_true.1 List.all_takeWhile q hq
  · intro q hq
    have := List.head?_dropWhile_not (fun q : Piece => decide (q.kind = .number)) (p :: rest)
    rw [Option.mem_def.1 hq] at this
    simpa using this

theorem takeToken?_point {rest : List Char} (h : Stops rest) :
    takeToken? ('.' :: rest) = none := by
  have hpoint : isDigit '.' = false := by decide
  have hrest : rest.takeWhile isDigit = [] := by
    cases rest with
    | nil => rfl
    | cons c rest => simp [(h c rfl).1]
  simp [takeToken?, hpoint, hrest]

/-- **The tokens of a finished row.**  By induction on its pieces, a run of digits at a time. -/
theorem reads_of_lexes {row : List Piece} (hrow : Finished row)
    (hpoints : ∀ run, run <:+: row → (∀ p ∈ run, p.kind = .number) →
      (chars run).count '.' ≤ 1)
    {offset : Nat} {ls : List Lexeme} (h : Lexes offset (chars row) ls) :
    Reads row (ls.map (·.token)) := by
  induction hlength : row.length using Nat.strongRecOn generalizing row offset ls with
  | ind n ih =>
    cases row with
    | nil =>
      obtain ⟨chunks, hsplit, hls⟩ := h
      rw [chars, List.flatMap_nil, Formula.split] at hsplit
      cases hsplit
      cases hls
      exact .nil
    | cons p rest =>
      by_cases hp : p.kind = .number
      · obtain ⟨run, after, happ, hrun, hnumbers, hafter⟩ := number_run hp rest
        rw [happ] at hrow hpoints h hlength ⊢
        have hwords : ∀ q ∈ run, q.IsWord := fun q hq => hrow.words q (List.mem_append_left _ hq)
        have hstops := hrow.stops_number hrun hnumbers hafter
        rw [chars_append] at h
        rcases numeral_run hrun hwords hnumbers (hpoints run (List.infix_append' [] run after)
          hnumbers) with hnumeral | hpoint
        · obtain ⟨l, ls', rfl, hl, hlexes⟩ := lexes_append (takeToken?_numeral hnumeral hstops) h
          obtain ⟨htoken, hfinite⟩ := Formula.number_of_lexeme (isLiteral_numeral hnumeral) hl
          rw [List.map_cons, htoken]
          refine .number hnumbers hnumeral hfinite hafter (ih after.length ?_ hrow.append
            (fun run' hrun' => hpoints run' (hrun'.trans (List.suffix_append run after).isInfix))
            hlexes rfl)
          have := List.length_pos_iff.2 hrun
          rw [List.length_append] at hlength
          omega
        · rw [hpoint] at h
          exact absurd h (not_lexes (by decide) (takeToken?_point hstops))
      · have hword := hrow.words p List.mem_cons_self
        obtain ⟨l, ls', rfl, hl, hlexes⟩ :=
          lexes_append (takeToken?_piece hword hp hrow.stops_word) (by rwa [chars_cons] at h)
        rw [List.map_cons, Formula.token_of_lexeme (isLiteral_piece hword hp) hl]
        refine .piece hp (ih rest.length ?_ hrow.cons
          (fun run' hrun' => hpoints run' (hrun'.trans (List.suffix_cons p rest).isInfix))
          hlexes rfl)
        rw [← hlength]
        exact Nat.lt_succ_self _

theorem reads_of_tokenize {row : List Piece} (hrow : Finished row)
    (hpoints : ∀ run, run <:+: row → (∀ p ∈ run, p.kind = .number) →
      (lineText run).toList.count '.' ≤ 1)
    {ls : List Lexeme} (h : Formula.tokenize (lineText row) = .ok ls) :
    Reads row (ls.map (·.token)) := by
  simp only [toList_lineText] at hpoints
  have hlexes := lexes_of_tokenize h
  rw [toList_lineText] at hlexes
  exact reads_of_lexes hrow hpoints hlexes

/-! ## Finished rows -/

/-- What holds of the pieces with their functions called, and of the pieces that the repair and the
multiplication signs bring in, holds of the finished row. -/
theorem forall_assemble (config : Config) {holds : Piece → Prop} {symbols : List Symbol}
    (h : ∀ p ∈ (writeCalls 0 (beforeCalls config (piecesOf symbols)).1).1, holds p)
    (hflip : ∀ p : Piece, holds p.flip) (htimes : holds (Piece.added "*" .operator)) :
    ∀ p ∈ (assemble config symbols).1, holds p := by
  have hrepaired := repairBrackets_keeps (fun row => ∀ p ∈ row, holds p)
    (fun row position _ hrow => forall_flipAt hflip hrow position) config.maxRepairPasses h
  exact forall_insertMultiplication config hrepaired htimes

theorem called_isBracket_assemble (config : Config) (symbols : List Symbol) :
    Called (fun q => q.isBracket = true) (assemble config symbols).1 := by
  have hread := isRead_beforeCalls config (isRead_piecesOf symbols)
  have hcalled : Called (fun q => q.isBracket = true)
      (writeCalls 0 (beforeCalls config (piecesOf symbols)).1).1 :=
    ((calls_writeCalls 0 _).functions hread).mono
      fun q hq => by rw [Piece.isBracket, Piece.step?, hq]; rfl
  have hrepaired := repairBrackets_keeps (Called fun q => q.isBracket = true)
    (fun row position _ h => called_flipAt h position) config.maxRepairPasses hcalled
  exact called_insertMultiplication config hrepaired

/-- Without a note about a changed bracket the multiplication signs are written into the row that
has its functions called. -/
theorem assemble_eq {config : Config} {symbols : List Symbol}
    (hflip : ∀ w ∈ (assemble config symbols).2, w.isFlip = false) :
    (assemble config symbols).1 =
      (insertMultiplication config (beforeRepair config (piecesOf symbols)).1).1 := by
  have hrow : (repairBrackets config.maxRepairPasses
      (beforeRepair config (piecesOf symbols)).1).1 =
        (beforeRepair config (piecesOf symbols)).1 := by
    apply repairBrackets_eq
    intro w hw
    exact hflip w (by simp [assemble, hw])
  rw [← congrArg (fun row => (insertMultiplication config row).1) hrow]
  rfl

section

variable (config : Config) {symbols : List Symbol}
  (hkinds : ∀ s ∈ symbols, (Piece.detected s).kind ≠ .other ∧ (Piece.detected s).kind ≠ .comma)

include hkinds

/-- **The finished row of recognized symbols.** -/
theorem finished_assemble : Finished (assemble config symbols).1 := by
  have hbefore := recognized_beforeCalls config hkinds
  have hwords := (calls_writeCalls 0 (beforeCalls config (piecesOf symbols)).1).isWord hbefore
  have htimes : (Piece.added "*" .operator).IsWord := by
    show "*" ∈ ["+", "-", "*", "/", "^"]
    decide
  exact ⟨forall_assemble config hwords isWord_flip htimes,
    called_isBracket_assemble config symbols, apart_insertMultiplication config _⟩

theorem called_assemble (hflip : ∀ w ∈ (assemble config symbols).2, w.isFlip = false) :
    Called (fun q => q.kind = .opening) (assemble config symbols).1 := by
  have hbefore := recognized_beforeCalls config hkinds
  have hcalls := calls_writeCalls 0 (beforeCalls config (piecesOf symbols)).1
  have hcalled := hcalls.functions fun p hp => (hbefore p hp).read
  rw [assemble_eq hflip]
  exact called_insertMultiplication config hcalled

end

/-- **No multiplication sign is missing.**  Where every kept symbol is recognized, none is a comma
and no row of digits has two points, no operand of the line is left over.  Where moreover no
bracket is changed, no function of the line is out of place. -/
theorem parse_linearize (config : Config) (symbols : List Symbol)
    (hkinds : ∀ s ∈ symbols, isKept config s = true →
      (Piece.detected s).kind ≠ .other ∧ (Piece.detected s).kind ≠ .comma)
    (hpoints : ∀ run, run <:+: (assemble config (symbols.filter (isKept config))).1 →
      (∀ p ∈ run, p.kind = .number) → (lineText run).toList.count '.' ≤ 1) :
    (∀ count, Formula.parse (linearize config symbols).text ≠ .error (.leftoverOperands count)) ∧
      ((∀ w ∈ (linearize config symbols).warnings, w.isFlip = false) →
        ∀ name offset, Formula.parse (linearize config symbols).text ≠
          .error (.misplacedFunction name offset)) := by
  have hkept : ∀ s ∈ symbols.filter (isKept config),
      (Piece.detected s).kind ≠ .other ∧ (Piece.detected s).kind ≠ .comma := by
    intro s hs
    rw [List.mem_filter] at hs
    exact hkinds s hs.1 hs.2
  have hrow := finished_assemble config hkept
  have hloose : ∀ e, Formula.parse (linearize config symbols).text = .error e →
      e.isLoose = true → ∃ f place ts, e = .misplacedFunction f place ∧
        Reads (assemble config (symbols.filter (isKept config))).1 ts ∧
          Formula.NotCalled f ts := by
    intro e he hloose
    rw [text_linearize] at he
    unfold Formula.parse at he
    split at he
    · cases he
      cases hloose
    · rename_i ls htokens
      have hreads := reads_of_tokenize hrow hpoints htokens
      obtain ⟨f, place, heq, hnot⟩ := Formula.notCalled_of_parseTokens he
        (hreads.comma_notMem hrow.words) (hreads.valuesApart hrow) hloose
      exact ⟨f, place, _, heq, hreads, hnot⟩
  constructor
  · intro count he
    obtain ⟨f, place, ts, heq, -⟩ := hloose _ he rfl
    cases heq
  · intro hflip name offset he
    obtain ⟨f, place, ts, -, hreads, hnot⟩ := hloose _ he rfl
    exact hreads.called hrow.words
      (called_assemble config hkept fun w hw => hflip w (mem_warnings hw)) hnot

/-- A number in front of a letter, a name in front of a root, and a third bar. -/
def crowded : List Symbol :=
  [symbolAt "2" 0.0 0.0 8.0 20.0, symbolAt "." 9.0 16.0 10.0 20.0, symbolAt "5" 11.0 0.0 19.0 20.0,
    symbolAt "x" 20.0 0.0 30.0 20.0, symbolAt "sin" 32.0 0.0 50.0 20.0,
    symbolAt "√" 52.0 0.0 60.0 20.0, symbolAt "3" 62.0 0.0 70.0 20.0,
    symbolAt "|" 72.0 0.0 74.0 20.0, symbolAt "y" 76.0 0.0 86.0 20.0,
    symbolAt "|" 88.0 0.0 90.0 20.0, symbolAt "|" 92.0 0.0 94.0 20.0]

theorem parse_linearize_crowded :
    (linearize {} crowded).text = "2.5*x*sin(sqrt(3*abs(y)|))" ∧
      (∀ count, Formula.parse (linearize {} crowded).text ≠ .error (.leftoverOperands count)) ∧
        ∀ name offset, Formula.parse (linearize {} crowded).text ≠
          .error (.misplacedFunction name offset) := by
  have hpoints : ∀ run, run <:+: (assemble {} (crowded.filter (isKept {}))).1 →
      (∀ p ∈ run, p.kind = .number) → (lineText run).toList.count '.' ≤ 1 := by
    intro run hrun _
    have hsub : (lineText run).toList.Sublist
        (lineText (assemble {} (crowded.filter (isKept {}))).1).toList := by
      rw [toList_lineText, toList_lineText]
      exact hrun.sublist.flatMap _
    exact (hsub.count_le '.').trans (by decide +kernel)
  have hline := parse_linearize {} crowded (by decide +kernel) hpoints
  exact ⟨by decide +kernel, hline.1, hline.2 (by decide +kernel)⟩

end GlyphMath.Line
