import GlyphMath.Proofs.Neighbours

/-!
# Tokens of a part of a text

* `Scans` -- the tokens of a part of a text, with what follows the part at hand: a token text is the
  longest one.

Principal results:

* `Scans.bounds` -- the tokens of a part stand in it.
* `Scans.cut` -- a sign divides the tokens of a text where it divides the text.
-/

set_option autoImplicit false

namespace GlyphMath.Line

open Formula (Lexeme Chunk takeToken? isSign isSpace signToken)

/-- `Scans rest offset text ls`: the tokens of a text that starts at a place and stands in front of
the text `rest`. -/
inductive Scans (rest : List Char) : Nat → List Char → List Lexeme → Prop where
  | nil {offset : Nat} : Scans rest offset [] []
  | blank {offset : Nat} {c : Char} {text : List Char} {ls : List Lexeme}
      (hc : isSpace c = true) : Scans rest (offset + 1) text ls → Scans rest offset (c :: text) ls
  | token {offset : Nat} {word text : List Char} {l : Lexeme} {ls : List Lexeme}
      (htake : takeToken? (word ++ (text ++ rest)) = some (word, text ++ rest))
      (hl : Chunk.lexeme ⟨word, offset⟩ = .ok l) :
      Scans rest (offset + word.length) text ls → Scans rest offset (word ++ text) (l :: ls)

theorem Lexes.scans {offset : Nat} {text : List Char} {ls : List Lexeme}
    (h : Lexes offset text ls) : Scans [] offset text ls := by
  obtain ⟨chunks, hsplit, hls⟩ := h
  fun_induction Formula.split offset text generalizing chunks ls with
  | case1 =>
    cases hsplit
    cases hls
    exact .nil
  | case2 offset c rest hc ih => exact .blank hc (ih chunks hsplit hls)
  | case3 => cases hsplit
  | case4 => cases hsplit
  | case5 offset c rest hc word after htake chunks' hrest ih =>
    cases hsplit
    obtain ⟨l, ls', rfl, hl, hls'⟩ := Formula.lexemes_cons_eq_ok hls
    have htext := Formula.takeToken?_append htake
    rw [← htext] at htake ⊢
    refine .token ?_ hl (ih chunks' hrest hls')
    rwa [List.append_nil]

theorem offset_of_lexeme {chunk : Chunk} {l : Lexeme} (h : chunk.lexeme = .ok l) :
    l.offset = chunk.offset := by
  unfold Chunk.lexeme at h
  dsimp only at h
  split at h
  · split at h
    · cases h
    · cases h
      rfl
  · cases h
    rfl

theorem isSpace_of_isSign {c : Char} (h : isSign c = true) : isSpace c = false := by
  simpa using @Formula.of_isSign (fun c => !isSpace c) (by decide) c h

/-- A sign is a token text by itself. -/
theorem eq_singleton_of_isSign {text word after : List Char} {c : Char}
    (htake : takeToken? text = some (word, after)) (hc : isSign c = true) (hmem : c ∈ word) :
    word = [c] := by
  obtain ⟨hdigit, hpoint, hletter⟩ := Formula.isSign_cases hc
  rcases Formula.takeToken?_cases htake with ⟨-, hchars⟩ | ⟨-, hletters, -⟩ | ⟨d, rfl, -⟩
  · rcases hchars c hmem with h | h
    · rw [hdigit] at h
      cases h
    · exact absurd h hpoint
  · rw [hletters c hmem] at hletter
    cases hletter
  · rw [List.mem_singleton.1 hmem]

namespace Scans

variable {offset : Nat} {rest text as bs : List Char} {ls : List Lexeme} {c : Char}

theorem bounds (h : Scans rest offset text ls) :
    ∀ l ∈ ls, offset ≤ l.offset ∧ l.offset < offset + text.length := by
  induction h with
  | nil => exact nofun
  | blank hc _ ih =>
    intro l hl
    have := ih l hl
    rw [List.length_cons]
    omega
  | token htake hl _ ih =>
    have hpos := List.length_pos_iff.2 (Formula.takeToken?_ne_nil htake)
    have hplace := offset_of_lexeme hl
    dsimp only at hplace
    rw [List.length_append]
    intro l' hl'
    rcases List.mem_cons.1 hl' with rfl | hl'
    · omega
    · have := ih l' hl'
      omega

theorem eq_nil (h : Scans rest offset [] ls) : ls = [] := by
  rw [List.eq_nil_iff_forall_not_mem]
  intro l hl
  have := h.bounds l hl
  rw [List.length_nil] at this
  omega

theorem sign (hc : isSign c = true) (h : Scans rest offset (c :: text) ls) :
    ∃ ls', ls = ⟨signToken [c], offset⟩ :: ls' ∧ Scans rest (offset + 1) text ls' := by
  generalize htext : c :: text = whole at h
  cases h with
  | nil => cases htext
  | blank hd =>
    obtain ⟨rfl, -⟩ := List.cons.inj htext
    exact absurd hd (by simp [isSpace_of_isSign hc])
  | @token _ word text' l ls' htake hl hafter =>
    have htaken := Formula.takeToken?_sign hc (text ++ rest)
    rw [← List.cons_append, htext, List.append_assoc, htake] at htaken
    obtain ⟨rfl, hrest⟩ := Prod.mk.inj (Option.some.inj htaken)
    obtain rfl := List.append_cancel_right hrest
    refine ⟨ls', ?_, hafter⟩
    rw [← Formula.token_of_lexeme (Formula.isLiteral_sign hc) hl]
    exact congrArg (· :: ls') (congrArg (Lexeme.mk l.token) (offset_of_lexeme hl))

/-- **A sign divides the tokens of a text** where it divides the text: no literal and no word goes
on behind it. -/
theorem cut (hc : isSign c = true) (h : Scans rest offset (as ++ c :: bs) ls) :
    ∃ front back, ls = front ++ back ∧ Scans (c :: bs ++ rest) offset as front ∧
      Scans rest (offset + as.length) (c :: bs) back := by
  generalize htext : as ++ c :: bs = whole at h
  induction h generalizing as with
  | nil => simp at htext
  | @blank offset d text ls hd hrest ih =>
    cases as with
    | nil =>
      obtain ⟨rfl, -⟩ := List.cons.inj htext
      exact absurd hd (by simp [isSpace_of_isSign hc])
    | cons a as =>
      obtain ⟨rfl, rfl⟩ := List.cons.inj htext
      obtain ⟨front, back, rfl, hfront, hback⟩ := ih rfl
      refine ⟨front, back, rfl, .blank hd hfront, ?_⟩
      rwa [List.length_cons, ← Nat.add_assoc, Nat.add_right_comm]
  | @token offset word text l ls htake hl hrest ih =>
    by_cases hempty : as = []
    · subst hempty
      rw [List.nil_append] at htext
      rw [htext]
      exact ⟨[], l :: ls, rfl, .nil, .token htake hl hrest⟩
    · obtain ⟨as', rfl, rfl⟩ : ∃ as', as = word ++ as' ∧ text = as' ++ c :: bs := by
        rcases List.append_eq_append_iff.1 htext with ⟨part, hword, hpart⟩ | hlater
        · cases part with
          | nil => exact ⟨[], by simpa using hword.symm, hpart.symm⟩
          | cons d part =>
            obtain ⟨rfl, -⟩ := List.cons.inj hpart
            have hsingle := eq_singleton_of_isSign htake hc (by simp [hword])
            rw [hword, List.append_eq_singleton_iff] at hsingle
            simp [hempty] at hsingle
        · exact hlater
      obtain ⟨front, back, rfl, hfront, hback⟩ := ih rfl
      refine ⟨l :: front, back, rfl, .token (by simpa using htake) hl hfront, ?_⟩
      rwa [List.length_append, ← Nat.add_assoc]

end Scans

end GlyphMath.Line
