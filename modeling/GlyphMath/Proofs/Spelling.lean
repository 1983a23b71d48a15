import GlyphMath.Proofs.PlainText

/-!
# Texts and their tokens

* `Spells` -- a text, the longest token first, and the tokens that it spells.  Blanks may stand
  anywhere.
* `Spells.tokenize` -- the tokenizer finds the tokens that a text spells.
* `Token.IsWritten` -- what is known of a token that was read from a text.
* `takeToken?_positional`, `takeToken?_word` -- literals and words, before anything that does not
  extend them.
* `takeToken?_cases` -- what a token text can be.

Principal results:

* `flatMap_of_tokenize` -- what is read of a text token by token is what is read of its tokens.
* `isWritten_of_tokenize` -- numbers that are read are finite and have no sign, names are words
  that stand for no function.
-/

set_option autoImplicit false

namespace GlyphMath.Formula

open GlyphMath.Decimal

/-! ## Spelling -/

/-- `Spells text ts`: the text splits into blanks and the texts of the tokens `ts`, the longest
first. -/
inductive Spells : List Char → List Token → Prop where
  | nil : Spells [] []
  | blank {c : Char} {rest : List Char} {ts : List Token} (hc : isSpace c = true) :
      Spells rest ts → Spells (c :: rest) ts
  | literal {word rest : List Char} {ts : List Token}
      (htake : takeToken? (word ++ rest) = some (word, rest)) (hword : isLiteral word = true)
      (hinf : (literalValue word).isInf = false) :
      Spells rest ts → Spells (word ++ rest) (.number (literalValue word) :: ts)
  | sign {word rest : List Char} {ts : List Token}
      (htake : takeToken? (word ++ rest) = some (word, rest)) (hword : isLiteral word = false) :
      Spells rest ts → Spells (word ++ rest) (signToken word :: ts)

theorem isSpace_of_takeToken? {c : Char} {rest : List Char} {p : List Char × List Char}
    (h : takeToken? (c :: rest) = some p) : isSpace c = false := by
  unfold takeToken? at h
  rw [Bool.eq_false_iff]
  intro hspace
  unfold isSpace at hspace
  simp only [Bool.or_eq_true, beq_iff_eq] at hspace
  rcases hspace with ((rfl | rfl) | rfl) | rfl <;> simp [isDigit, isLetter, isSign] at h

theorem split_append {word rest : List Char} (offset : Nat)
    (h : takeToken? (word ++ rest) = some (word, rest)) :
    split offset (word ++ rest) =
      (split (offset + word.length) rest).map (⟨word, offset⟩ :: ·) := by
  obtain ⟨c, word', rfl⟩ := List.exists_cons_of_ne_nil (takeToken?_ne_nil h)
  rw [List.cons_append] at h ⊢
  rw [split, if_neg (by simp [isSpace_of_takeToken? h])]
  split
  · rename_i hnone
    rw [h] at hnone
    cases hnone
  · rename_i token after hsome
    rw [h] at hsome
    obtain ⟨rfl, rfl⟩ := Prod.mk.inj (Option.some.inj hsome)
    cases Formula.split (offset + (c :: word').length) rest <;> rfl

theorem lexemes_cons (chunk : Chunk) (chunks : List Chunk) :
    lexemes (chunk :: chunks) =
      chunk.lexeme.bind fun l => (lexemes chunks).map (l :: ·) := by
  rw [lexemes]
  cases chunk.lexeme with
  | error e => rfl
  | ok l =>
    dsimp only [Except.bind]
    cases lexemes chunks <;> rfl

theorem lexemes_cons_eq_ok {chunk : Chunk} {chunks : List Chunk} {ls : List Lexeme}
    (h : lexemes (chunk :: chunks) = .ok ls) :
    ∃ l ls', ls = l :: ls' ∧ chunk.lexeme = .ok l ∧ lexemes chunks = .ok ls' := by
  rw [lexemes] at h
  split at h
  · cases h
  · rename_i l hl
    split at h
    · cases h
    · rename_i ls' hls
      cases h
      exact ⟨l, ls', rfl, hl, hls⟩

theorem number_of_lexeme {text : List Char} {offset : Nat} {l : Lexeme}
    (hliteral : isLiteral text = true) (h : Chunk.lexeme ⟨text, offset⟩ = .ok l) :
    l.token = .number (literalValue text) ∧ (literalValue text).isInf = false := by
  unfold Chunk.lexeme at h
  rw [if_pos hliteral] at h
  dsimp only at h
  split at h
  · cases h
  · rename_i hfinite
    cases h
    exact ⟨rfl, Bool.eq_false_iff.2 hfinite⟩

theorem token_of_lexeme {text : List Char} {offset : Nat} {l : Lexeme}
    (hliteral : isLiteral text = false) (h : Chunk.lexeme ⟨text, offset⟩ = .ok l) :
    l.token = signToken text := by
  unfold Chunk.lexeme at h
  rw [if_neg (by simp [hliteral])] at h
  cases h
  rfl

theorem Spells.chunks {text : List Char} {ts : List Token} (h : Spells text ts) (offset : Nat) :
    ∃ chunks ls, split offset text = .ok chunks ∧ lexemes chunks = .ok ls ∧
      ls.map (·.token) = ts := by
  induction h generalizing offset with
  | nil => exact ⟨[], [], by rw [split], rfl, rfl⟩
  | blank hc _ ih =>
    obtain ⟨chunks, ls, hsplit, hls, hts⟩ := ih (offset + 1)
    exact ⟨chunks, ls, by rw [split, if_pos hc, hsplit], hls, hts⟩
  | @literal word rest ts htake hword hinf _ ih =>
    obtain ⟨chunks, ls, hsplit, hls, hts⟩ := ih (offset + word.length)
    refine ⟨⟨word, offset⟩ :: chunks, ⟨.number (literalValue word), offset⟩ :: ls, ?_, ?_, ?_⟩
    · rw [split_append offset htake, hsplit]
      rfl
    · rw [lexemes_cons, hls, Chunk.lexeme]
      dsimp only
      rw [if_pos hword, hinf]
      rfl
    · rw [List.map_cons, hts]
  | @sign word rest ts htake hword _ ih =>
    obtain ⟨chunks, ls, hsplit, hls, hts⟩ := ih (offset + word.length)
    refine ⟨⟨word, offset⟩ :: chunks, ⟨signToken word, offset⟩ :: ls, ?_, ?_, ?_⟩
    · rw [split_append offset htake, hsplit]
      rfl
    · rw [lexemes_cons, hls, Chunk.lexeme]
      dsimp only
      rw [hword]
      rfl
    · rw [List.map_cons, hts]

/-- **The tokenizer finds the tokens that a text spells.** -/
theorem Spells.tokenize {text : List Char} {ts : List Token} (h : Spells text ts) :
    ∃ ls, tokenize (String.ofList text) = .ok ls ∧ ls.map (·.token) = ts := by
  obtain ⟨chunks, ls, hsplit, hls, hts⟩ := h.chunks 0
  refine ⟨ls, ?_, hts⟩
  rw [Formula.tokenize, String.toList_ofList, hsplit]
  exact hls

/-! ## Words, literals and signs -/

/-- A text that no literal and no word runs into. -/
def Stops (rest : List Char) : Prop :=
  ∀ c ∈ rest.head?, isDigit c = false ∧ c ≠ '.' ∧ isLetter c = false

theorem isLetter_iff {c : Char} :
    isLetter c = true ↔ 97 ≤ c.toNat ∧ c.toNat ≤ 122 ∨ 65 ≤ c.toNat ∧ c.toNat ≤ 90 := by
  unfold isLetter
  simp only [Bool.or_eq_true, Bool.and_eq_true, decide_eq_true_iff, Char.le_def,
    UInt32.le_iff_toNat_le]
  rfl

/-- The name of a function is a word. -/
theorem functionNames_letters : ∀ name ∈ functionNames,
    name.toList ≠ [] ∧ ∀ c ∈ name.toList, isLetter c = true := by
  simp only [← List.all_eq_true]
  decide

theorem not_isDigit_of_isLetter {c : Char} (h : isLetter c = true) : isDigit c = false := by
  rw [Bool.eq_false_iff]
  intro hd
  have := isLetter_iff.1 h
  have := isDigit_iff.1 hd
  omega

theorem takeToken?_word {word rest : List Char} (hne : word ≠ [])
    (hword : ∀ c ∈ word, isLetter c = true) (hrest : Stops rest) :
    takeToken? (word ++ rest) = some (word, rest) := by
  obtain ⟨c, word', rfl⟩ := List.exists_cons_of_ne_nil hne
  have hc := hword c (List.mem_cons_self ..)
  have hdot : (c == '.') = false := by
    rw [beq_eq_false_iff_ne]
    rintro rfl
    exact absurd hc (by decide)
  have hstop : rest.takeWhile isLetter = [] ∧ rest.dropWhile isLetter = rest := by
    cases rest with
    | nil => exact ⟨rfl, rfl⟩
    | cons d rest => simp [(hrest d rfl).2.2]
  rw [List.cons_append, takeToken?, if_neg (by simp [not_isDigit_of_isLetter hc]),
    if_neg (by simp [hdot]), if_pos hc, ← List.cons_append, List.takeWhile_append_of_pos hword,
    List.dropWhile_append_of_pos hword, hstop.1, hstop.2, List.append_nil]

theorem takeNumeral_positional {text rest : List Char} {n places : Nat}
    (h : Positional text n places) (hrest : Stops rest) :
    takeNumeral (text ++ rest) = (text, rest) := by
  have hdigit : ∀ c ∈ rest.head?, isDigit c = false := fun c hc => (hrest c hc).1
  unfold takeNumeral
  cases h with
  | whole hne hds =>
    have hsplit := takeWhile_digits hds rest hdigit
    rw [hsplit.1, hsplit.2]
    split
    · rename_i after
      exact absurd rfl (hrest '.' rfl).2.1
    · rfl
  | @fraction ds fs hne hds hfs =>
    have hsplit := takeWhile_digits hds ('.' :: (fs ++ rest)) (by simp; decide)
    have hsplit' := takeWhile_digits hfs rest hdigit
    rw [List.append_assoc, List.cons_append, hsplit.1, hsplit.2]
    show (ds ++ '.' :: (fs ++ rest).takeWhile isDigit, (fs ++ rest).dropWhile isDigit) = _
    rw [hsplit'.1, hsplit'.2]

theorem head_positional {text : List Char} {n places : Nat} (h : Positional text n places) :
    ∃ c tail, text = c :: tail ∧ isDigit c = true := by
  cases h with
  | whole hne hds =>
    obtain ⟨c, tail, rfl⟩ := List.exists_cons_of_ne_nil hne
    exact ⟨c, tail, rfl, hds c (List.mem_cons_self ..)⟩
  | @fraction ds fs hne hds hfs =>
    obtain ⟨c, tail, rfl⟩ := List.exists_cons_of_ne_nil hne
    exact ⟨c, tail ++ '.' :: fs, rfl, hds c (List.mem_cons_self ..)⟩

theorem takeToken?_positional {text rest : List Char} {n places : Nat}
    (h : Positional text n places) (hrest : Stops rest) :
    takeToken? (text ++ rest) = some (text, rest) := by
  have htake := takeNumeral_positional h hrest
  obtain ⟨c, tail, rfl, hc⟩ := head_positional h
  rw [List.cons_append] at htake ⊢
  rw [takeToken?, if_pos hc, htake]

theorem isLiteral_positional {text : List Char} {n places : Nat}
    (h : Positional text n places) : isLiteral text = true := by
  obtain ⟨c, tail, rfl, hc⟩ := head_positional h
  rw [isLiteral, hc, Bool.true_or]

theorem ofChar?_of_isLetter {c : Char} (h : isLetter c = true) : Operator.ofChar? c = none := by
  unfold Operator.ofChar?
  split <;> first | exact absurd h (by decide) | rfl

theorem signToken_word {word : List Char} (hword : ∀ c ∈ word, isLetter c = true) :
    signToken word = wordToken (String.ofList word) := by
  unfold signToken
  split
  all_goals first
    | exact absurd (hword _ (List.mem_cons_self ..)) (by decide)
    | rfl
    | skip
  rename_i c _ _ _ _ _ _
  rw [ofChar?_of_isLetter (hword c (List.mem_cons_self ..))]

theorem isLiteral_word {word : List Char} (hword : ∀ c ∈ word, isLetter c = true) :
    isLiteral word = false := by
  cases word with
  | nil => rfl
  | cons c word =>
    have hc := hword c (List.mem_cons_self ..)
    have hdot : (c == '.') = false := by
      rw [beq_eq_false_iff_ne]
      rintro rfl
      exact absurd hc (by decide)
    rw [isLiteral, not_isDigit_of_isLetter hc, hdot]
    rfl

/-- What holds of each sign holds of every sign. -/
theorem of_isSign {sort : Char → Bool}
    (hall : ['π', 'ℯ', '+', '-', '*', '/', '^', '(', ')', '|', ','].all sort = true) {c : Char}
    (h : isSign c = true) : sort c = true :=
  List.all_eq_true.1 hall c (of_decide_eq_true h)

theorem isSign_cases {c : Char} (h : isSign c = true) :
    isDigit c = false ∧ c ≠ '.' ∧ isLetter c = false := by
  have hsort := @of_isSign (fun c => !isDigit c && c != '.' && !isLetter c) (by decide) c h
  simpa [and_assoc] using hsort

theorem takeToken?_sign {c : Char} (h : isSign c = true) (rest : List Char) :
    takeToken? (c :: rest) = some ([c], rest) := by
  obtain ⟨hdigit, hpoint, hletter⟩ := isSign_cases h
  have hpoint : (c == '.') = false := beq_eq_false_iff_ne.2 hpoint
  simp [takeToken?, hdigit, hpoint, hletter, h]

theorem isLiteral_sign {c : Char} (h : isSign c = true) : isLiteral [c] = false := by
  obtain ⟨hdigit, hpoint, -⟩ := isSign_cases h
  simp [isLiteral, hdigit, hpoint]

theorem takeNumeral_cons {c : Char} (hc : isDigit c = true) (tail : List Char) :
    ∃ token, (takeNumeral (c :: tail)).1 = c :: token := by
  obtain ⟨d, token, htoken⟩ := List.exists_cons_of_ne_nil (@takeNumeral_ne_nil c tail hc)
  have happend := takeNumeral_append (c :: tail)
  rw [htoken] at happend
  obtain ⟨rfl, -⟩ := List.cons.inj happend
  exact ⟨token, htoken⟩

theorem isLiteral_takeNumeral {c : Char} {tail : List Char} (hc : isDigit c = true) :
    isLiteral (takeNumeral (c :: tail)).1 = true := by
  obtain ⟨token, htoken⟩ := takeNumeral_cons hc tail
  rw [htoken, isLiteral, hc, Bool.true_or]

theorem mem_takeNumeral {c : Char} {text : List Char} (h : c ∈ (takeNumeral text).1) :
    isDigit c = true ∨ c = '.' := by
  have hdigits : ∀ {text : List Char}, c ∈ text.takeWhile isDigit → isDigit c = true := fun hmem =>
    List.all_eq_true.1 List.all_takeWhile c hmem
  unfold takeNumeral at h
  split at h
  · rcases List.mem_append.1 h with h | h
    · exact Or.inl (hdigits h)
    · exact (List.mem_cons.1 h).symm.imp_left hdigits
  · exact Or.inl (hdigits h)

/-- **What a token text can be**: a literal of digits and points, a word that ends where no letter
follows, or a sign. -/
theorem takeToken?_cases {text token rest : List Char}
    (h : takeToken? text = some (token, rest)) :
    isLiteral token = true ∧ (∀ c ∈ token, isDigit c = true ∨ c = '.') ∨
      token ≠ [] ∧ (∀ c ∈ token, isLetter c = true) ∧ (∀ c ∈ rest.head?, isLetter c = false) ∨
      ∃ c, token = [c] ∧ isSign c = true := by
  unfold takeToken? at h
  split at h
  · cases h
  · rename_i c tail
    split at h
    · rename_i hc
      have hnumeral := Option.some.inj h
      refine Or.inl ⟨?_, fun d hd => @mem_takeNumeral d (c :: tail) ?_⟩
      · have hliteral := @isLiteral_takeNumeral c tail hc
        rwa [hnumeral] at hliteral
      · rwa [hnumeral]
    · split at h
      · split at h
        · cases h
        · cases h
          refine Or.inl ⟨rfl, fun d hd => (List.mem_cons.1 hd).symm.imp_left fun hd => ?_⟩
          exact List.all_eq_true.1 List.all_takeWhile d hd
      · split at h
        · rename_i hc
          cases h
          refine Or.inr (Or.inl ⟨?_, fun d hd => ?_, fun d hd => ?_⟩)
          · rw [List.takeWhile_cons_of_pos hc]
            exact List.cons_ne_nil _ _
          · exact List.all_eq_true.1 List.all_takeWhile d hd
          · have hstop := List.head?_dropWhile_not isLetter (c :: tail)
            rw [Option.mem_def.1 hd] at hstop
            exact hstop
        · split at h
          · rename_i hsign
            cases h
            exact Or.inr (Or.inr ⟨c, rfl, hsign⟩)
          · cases h

/-! ## Reading token by token -/

section

variable {α : Type} {read : List Char → List α} {value : Token → List α}
  (hnil : read [] = [])
  (hblank : ∀ {c : Char} {rest : List Char}, isSpace c = true → read (c :: rest) = read rest)
  (htoken : ∀ {text rest : List Char} {chunk : Chunk} {l : Lexeme},
    takeToken? text = some (chunk.text, rest) → chunk.lexeme = .ok l →
      read (chunk.text ++ rest) = value l.token ++ read rest)

include hnil hblank htoken

theorem flatMap_of_split {offset : Nat} {text : List Char} {chunks : List Chunk}
    {ls : List Lexeme} (hsplit : split offset text = .ok chunks) (hls : lexemes chunks = .ok ls) :
    read text = (ls.map (·.token)).flatMap value := by
  fun_induction split offset text generalizing chunks ls with
  | case1 =>
    cases hsplit
    cases hls
    exact hnil
  | case2 offset c rest hc ih =>
    rw [hblank hc]
    exact ih hsplit hls
  | case3 => cases hsplit
  | case4 => cases hsplit
  | case5 offset c rest hc token after htake rest' hrest ih =>
    cases hsplit
    obtain ⟨l, ls', rfl, hl, hls'⟩ := lexemes_cons_eq_ok hls
    rw [← takeToken?_append htake, htoken htake hl, ih hrest hls', List.map_cons,
      List.flatMap_cons]

/-- **What is read of a text token by token** is what is read of its tokens. -/
theorem flatMap_of_tokenize {text : String} {ls : List Lexeme} (h : tokenize text = .ok ls) :
    read text.toList = (ls.map (·.token)).flatMap value := by
  unfold tokenize at h
  split at h
  · cases h
  · rename_i chunks hsplit
    exact flatMap_of_split hnil hblank htoken hsplit h

end

/-! ## What is known of tokens -/

/-- What is known of a token that was read from a text. -/
def Token.IsWritten : Token → Prop
  | .number v => ∃ s k, Binary.ofFloat v = .finite false s k
  | .name text => text.toList ≠ [] ∧ (∀ c ∈ text.toList, isLetter c = true) ∧ text ∉ functionNames
  | .function f => f ∈ functionNames
  | _ => True

theorem isWritten_wordToken {word : List Char} (hne : word ≠ [])
    (hword : ∀ c ∈ word, isLetter c = true) : (wordToken (String.ofList word)).IsWritten := by
  unfold wordToken
  split
  · rename_i hmem
    exact hmem
  · rename_i hmem
    refine ⟨?_, ?_, hmem⟩ <;> rw [String.toList_ofList] <;> assumption

theorem isWritten_literal {text : List Char} (h : (literalValue text).isInf = false) :
    (Token.number (literalValue text)).IsWritten := by
  unfold literalValue at h ⊢
  dsimp only at h ⊢
  rcases ofFloat_nearest _ _ with hfinite | hinfinite
  · exact hfinite
  · rw [isInf_of_infinite hinfinite] at h
    cases h

theorem isWritten_sign {text token rest : List Char} (h : takeToken? text = some (token, rest))
    (hlit : isLiteral token = false) : (signToken token).IsWritten := by
  rcases takeToken?_cases h with ⟨hliteral, -⟩ | ⟨hne, hword, -⟩ | ⟨c, rfl, hsign⟩
  · rw [hliteral] at hlit
    cases hlit
  · rw [signToken_word hword]
    exact isWritten_wordToken hne hword
  · unfold isSign at hsign
    have hmem := of_decide_eq_true hsign
    simp only [List.mem_cons, List.not_mem_nil, or_false] at hmem
    rcases hmem with rfl | rfl | rfl | rfl | rfl | rfl | rfl | rfl | rfl | rfl | rfl
    · exact ⟨by decide, List.all_eq_true.1 (by decide), by decide⟩
    · exact ⟨by decide, List.all_eq_true.1 (by decide), by decide⟩
    all_goals trivial

theorem takeToken?_of_split {offset : Nat} {text : List Char} {chunks : List Chunk}
    (h : split offset text = .ok chunks) :
    ∀ chunk ∈ chunks, ∃ text rest, takeToken? text = some (chunk.text, rest) := by
  fun_induction split offset text generalizing chunks with
  | case1 =>
    cases h
    exact fun chunk hmem => absurd hmem List.not_mem_nil
  | case2 offset c rest hc ih => exact ih h
  | case3 => cases h
  | case4 => cases h
  | case5 offset c rest hc token after htake rest' hrest ih =>
    cases h
    intro chunk hmem
    rcases List.mem_cons.1 hmem with rfl | hmem
    · exact ⟨_, _, htake⟩
    · exact ih hrest chunk hmem

theorem isWritten_lexeme {chunk : Chunk} {l : Lexeme} {text rest : List Char}
    (htake : takeToken? text = some (chunk.text, rest)) (h : chunk.lexeme = .ok l) :
    l.token.IsWritten := by
  unfold Chunk.lexeme at h
  dsimp only at h
  split at h
  · split at h
    · cases h
    · rename_i hinf
      cases h
      exact isWritten_literal (by simpa using hinf)
  · rename_i hlit
    cases h
    exact isWritten_sign htake (by simpa using hlit)

theorem isWritten_lexemes {chunks : List Chunk} {ls : List Lexeme}
    (htake : ∀ chunk ∈ chunks, ∃ text rest, takeToken? text = some (chunk.text, rest))
    (h : lexemes chunks = .ok ls) : ∀ l ∈ ls, l.token.IsWritten := by
  induction chunks generalizing ls with
  | nil =>
    cases h
    exact fun l hmem => absurd hmem List.not_mem_nil
  | cons chunk chunks ih =>
    obtain ⟨l, ls', rfl, hl, hls⟩ := lexemes_cons_eq_ok h
    intro l' hmem
    rcases List.mem_cons.1 hmem with rfl | hmem
    · obtain ⟨text, rest, hchunk⟩ := htake chunk (List.mem_cons_self ..)
      exact isWritten_lexeme hchunk hl
    · exact ih (fun chunk hc => htake chunk (List.mem_cons_of_mem _ hc)) hls l' hmem

/-- **What is known of the tokens of a text.** -/
theorem isWritten_of_tokenize {text : String} {ls : List Lexeme} (h : tokenize text = .ok ls) :
    ∀ l ∈ ls, l.token.IsWritten := by
  unfold tokenize at h
  split at h
  · cases h
  · rename_i chunks hsplit
    exact isWritten_lexemes (takeToken?_of_split hsplit) h

end GlyphMath.Formula
