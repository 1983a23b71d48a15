import GlyphMath.Json.Nesting
import GlyphMath.Proofs.Wellformed

/-!
# The nesting of a text is that of its document

* `Tree.nesting` -- the brackets of a document around its innermost place.
* `Passed` -- text that is passed over without a quote or a bracket.
* `Scan.take` -- what a token does to a scan, and `Scan.foldl_word`, that scanning a text of the
  token does the same.
* `State.scan` -- the scan of the text that has brought the reader to a state: as many brackets are
  open as there are frames.
* `scan_step` -- every token keeps the reader and the scan together.

Principal result:

* `nestingDepth_eq` -- the nesting of a text that holds a document is the nesting of the document.
-/

set_option autoImplicit false

namespace GlyphMath.Json

open GlyphMath.Decimal

/-! ## The nesting of a document -/

mutual

/-- The brackets of a document around its innermost place. -/
def Tree.nesting {Str Num : Type} : Tree Str Num → Nat
  | .null => 0
  | .bool _ => 0
  | .number _ => 0
  | .string _ => 0
  | .list items => itemsNesting items + 1
  | .object members => membersNesting members + 1

def itemsNesting {Str Num : Type} : List (Tree Str Num) → Nat
  | [] => 0
  | d :: ds => max d.nesting (itemsNesting ds)

def membersNesting {Str Num : Type} : List (Str × Tree Str Num) → Nat
  | [] => 0
  | (_, d) :: ms => max d.nesting (membersNesting ms)

end

attribute [simp] Tree.nesting itemsNesting membersNesting

section

variable {Str Num : Type}

theorem itemsNesting_append (as bs : List (Tree Str Num)) :
    itemsNesting (as ++ bs) = max (itemsNesting as) (itemsNesting bs) := by
  induction as with
  | nil => rw [itemsNesting, Nat.zero_max, List.nil_append]
  | cons a as ih => rw [List.cons_append, itemsNesting, itemsNesting, ih, Nat.max_assoc]

theorem membersNesting_append (as bs : List (Str × Tree Str Num)) :
    membersNesting (as ++ bs) = max (membersNesting as) (membersNesting bs) := by
  induction as with
  | nil => rw [membersNesting, Nat.zero_max, List.nil_append]
  | cons a as ih => rw [List.cons_append, membersNesting, membersNesting, ih, Nat.max_assoc]

theorem itemsNesting_reverse (items : List (Tree Str Num)) :
    itemsNesting items.reverse = itemsNesting items := by
  induction items with
  | nil => rfl
  | cons d ds ih =>
    rw [List.reverse_cons, itemsNesting_append, ih, itemsNesting, itemsNesting, itemsNesting,
      Nat.max_zero, Nat.max_comm]

theorem membersNesting_reverse (members : List (Str × Tree Str Num)) :
    membersNesting members.reverse = membersNesting members := by
  induction members with
  | nil => rfl
  | cons m ms ih =>
    rw [List.reverse_cons, membersNesting_append, ih, membersNesting, membersNesting,
      membersNesting, Nat.max_zero, Nat.max_comm]

end

/-! ## Text without quotes and brackets -/

/-- Neither a quote nor a bracket. -/
def isPlain (c : Char) : Bool := c != '"' && c != '[' && c != ']' && c != '\x7b' && c != '\x7d'

/-- The second text is what is left of the first one after characters that are neither quotes nor
brackets. -/
def Passed (text rest : List Char) : Prop :=
  ∃ front, text = front ++ rest ∧ ∀ c ∈ front, isPlain c = true

theorem isPlain_of_isBlank {c : Char} (h : isBlank c = true) : isPlain c = true := by
  simp only [isBlank, Bool.or_eq_true, beq_iff_eq] at h
  rcases h with ((rfl | rfl) | rfl) | rfl <;> decide

theorem isPlain_of_isDigit {c : Char} (h : isDigit c = true) : isPlain c = true := by
  simp only [isPlain, Bool.and_eq_true, bne_iff_ne]
  refine ⟨⟨⟨⟨?_, ?_⟩, ?_⟩, ?_⟩, ?_⟩ <;> rintro rfl <;> exact absurd h (by decide)

theorem passed_skipBlanks (text : List Char) : Passed text (skipBlanks text) :=
  ⟨text.takeWhile isBlank, List.takeWhile_append_dropWhile.symm, fun c hc =>
    isPlain_of_isBlank (List.all_eq_true.1 List.all_takeWhile c hc)⟩

theorem isPlain_of_spellsExponent {word : List Char} {e : Option ExponentText}
    (h : SpellsExponent word e) : ∀ c ∈ word, isPlain c = true := by
  cases h with
  | none => simp
  | some hletter hsign hdigits =>
    rename_i letter sign e
    have hsigns : (exponentSigns e.negative).all (·.all isPlain) = true := by
      cases e.negative <;> rfl
    have hplain := List.all_eq_true.1 (List.all_eq_true.1 hsigns sign hsign)
    intro c hc
    rcases List.mem_cons.1 hc with rfl | hc
    · rcases hletter with rfl | rfl <;> rfl
    · exact (List.mem_append.1 hc).elim (hplain c) fun hc =>
        isPlain_of_isDigit (hdigits.2 c hc)

theorem isPlain_of_spellsNumeral {word : List Char} {n : Numeral} (h : SpellsNumeral word n) :
    ∀ c ∈ word, isPlain c = true := by
  obtain ⟨whole, fraction, spelled⟩ := h
  have hsign : (signText n.negative).all isPlain = true := by cases n.negative <;> rfl
  have hfraction : ∀ c ∈ fractionText n.fraction, isPlain c = true := by
    intro c hc
    cases hn : n.fraction with
    | none =>
      rw [hn] at hc
      cases hc
    | some ds =>
      rw [hn] at hc
      rcases List.mem_cons.1 hc with rfl | hc
      · rfl
      · exact isPlain_of_isDigit ((fraction ds hn).2 c hc)
  intro c hc
  rcases List.mem_append.1 hc with hc | hc
  · exact List.all_eq_true.1 hsign c hc
  · rcases List.mem_append.1 hc with hc | hc
    · exact isPlain_of_isDigit ((areDigits_whole whole).2 c hc)
    · exact (List.mem_append.1 hc).elim (hfraction c) (isPlain_of_spellsExponent spelled c)

/-! ## Scanning a token -/

namespace Scan

/-- What a token does to a scan. -/
def take (s : Scan) : Token → Scan
  | .openList => s.outside '['
  | .closeList => s.outside ']'
  | .openObject => s.outside '\x7b'
  | .closeObject => s.outside '\x7d'
  | _ => s

theorem outside_plain {c : Char} (hc : isPlain c = true) (s : Scan) : s.outside c = s := by
  simp only [isPlain, Bool.and_eq_true, bne_iff_ne] at hc
  simp [outside, hc]

/-- Text without quotes and brackets changes nothing outside of strings. -/
theorem foldl_passed {s : Scan} (hs : s.inString = false) {text rest : List Char}
    (h : Passed text rest) : text.foldl step s = rest.foldl step s := by
  obtain ⟨front, rfl, hfront⟩ := h
  rw [List.foldl_append]
  congr 1
  induction front with
  | nil => rfl
  | cons c front ih =>
    have hstep : s.step c = s := by
      rw [step, if_neg (by rw [hs]; decide), outside_plain (hfront c List.mem_cons_self)]
    rw [List.foldl_cons, hstep]
    exact ih fun c hc => hfront c (List.mem_cons_of_mem _ hc)

/-- Nothing happens inside a string but at quotes and backslashes. -/
theorem step_inString {depth deepest : Nat} {c : Char} (hquote : c ≠ '"') (hslash : c ≠ '\\') :
    step ⟨depth, deepest, true, false⟩ c = ⟨depth, deepest, true, false⟩ := by
  simp [step, inside, hquote, hslash]

theorem step_hexDigit {depth deepest n : Nat} {c : Char} (h : hexValue? c = some n) :
    step ⟨depth, deepest, true, false⟩ c = ⟨depth, deepest, true, false⟩ := by
  have hquote : hexValue? '"' = none := by decide
  have hslash : hexValue? '\\' = none := by decide
  refine step_inString ?_ ?_
  · rintro rfl
    rw [hquote] at h
    cases h
  · rintro rfl
    rw [hslash] at h
    cases h

theorem foldl_item {depth deepest : Nat} {word : List Char} {item : Item}
    (h : SpellsItem word item) :
    word.foldl step ⟨depth, deepest, true, false⟩ = ⟨depth, deepest, true, false⟩ := by
  cases h with
  | plain _ hquote hslash => exact step_inString hquote hslash
  | letter => rfl
  | unit hdigits =>
    unfold hexUnit? at hdigits
    split at hdigits
    · rename_i ha hb hc hd
      rw [List.foldl_cons, List.foldl_cons,
        show step (step ⟨depth, deepest, true, false⟩ '\\') 'u' = ⟨depth, deepest, true, false⟩ from
          rfl,
        List.foldl_cons, step_hexDigit ha, List.foldl_cons, step_hexDigit hb, List.foldl_cons,
        step_hexDigit hc, List.foldl_cons, step_hexDigit hd, List.foldl_nil]
    · cases hdigits

/-- **A string is scanned to its closing quote**, whatever it holds. -/
theorem foldl_items {depth deepest : Nat} {body : List Char} {items : List Item}
    (h : SpellsItems body items) :
    body.foldl step ⟨depth, deepest, true, false⟩ = ⟨depth, deepest, true, false⟩ := by
  induction h with
  | nil => rfl
  | cons hitem _ ih => rw [List.foldl_append, foldl_item hitem, ih]

/-- **A text of a token does to a scan what the token does.** -/
theorem foldl_word {s : Scan} (hs : s.inString = false) (hescaped : s.escaped = false)
    {word : List Char} {token : Token} (h : SpellsToken word token) :
    word.foldl step s = s.take token := by
  obtain ⟨depth, deepest, inString, escaped⟩ := s
  obtain rfl : inString = false := hs
  obtain rfl : escaped = false := hescaped
  have hplain : (∀ c ∈ word, isPlain c = true) → word.foldl step ⟨depth, deepest, false, false⟩ =
      ⟨depth, deepest, false, false⟩ :=
    fun hplain => foldl_passed rfl ⟨word, (List.append_nil word).symm, hplain⟩
  cases h with
  | scalar spelled =>
    cases spelled with
    | number spelled => exact hplain (isPlain_of_spellsNumeral spelled)
    | string spelled =>
      rename_i body items
      have hopen : step ⟨depth, deepest, false, false⟩ '"' = ⟨depth, deepest, true, false⟩ := rfl
      rw [List.foldl_cons, hopen, List.foldl_append, foldl_items spelled]
      rfl
    | null => exact hplain (List.all_eq_true.1 rfl)
    | true => exact hplain (List.all_eq_true.1 rfl)
    | false => exact hplain (List.all_eq_true.1 rfl)
  | _ => rfl

end Scan

theorem scan_nextToken {s : Scan} (hs : s.inString = false) (hescaped : s.escaped = false)
    {text rest : List Char} {token : Token} (h : nextToken text = some (token, rest)) :
    text.foldl Scan.step s = rest.foldl Scan.step (s.take token) := by
  obtain ⟨blanks, word, rfl, hblank, hword⟩ := spellsToken_of_nextToken h
  rw [Scan.foldl_passed hs ⟨blanks, rfl, fun c hc => isPlain_of_isBlank (hblank c hc)⟩,
    List.foldl_append, Scan.foldl_word hs hescaped hword]

/-! ## The reader and the scan -/

/-- The deepest nesting of what has been read inside an open bracket. -/
def Frame.inner : Frame → Nat
  | .list items => itemsNesting items
  | .object members => membersNesting members
  | .member members _ => membersNesting members

/-- The deepest nesting of what has been read, the open brackets included. -/
def framesNesting : List Frame → Nat
  | [] => 0
  | f :: rest => max (framesNesting rest) (rest.length + 1 + f.inner)

theorem length_le_framesNesting (frames : List Frame) : frames.length ≤ framesNesting frames := by
  cases frames with
  | nil => exact Nat.le_refl _
  | cons f rest =>
    rw [framesNesting, List.length_cons]
    omega

namespace State

/-- The deepest nesting of what has been read. -/
def nesting (s : State) : Nat :=
  match s.want with
  | .finished document => document.nesting
  | _ => framesNesting s.frames

/-- The scan of the text that has been read. -/
def scan (s : State) : Scan := ⟨s.frames.length, s.nesting, false, false⟩

theorem scan_finish {frames : List Frame} {value : Source} {s : State}
    (h : finish frames value = some s) :
    s.scan = ⟨frames.length, max (framesNesting frames) (frames.length + value.nesting), false,
      false⟩ := by
  unfold finish at h
  split at h <;> cases h
  · simp [scan, nesting, framesNesting]
  · simp only [scan, nesting, framesNesting, Frame.inner, itemsNesting, List.length_cons,
      Scan.mk.injEq, and_self, and_true, true_and]
    omega
  · simp only [scan, nesting, framesNesting, Frame.inner, membersNesting, List.length_cons,
      Scan.mk.injEq, and_self, and_true, true_and]
    omega

theorem scan_startValue {frames : List Frame} {token : Token} {s : State}
    (h : startValue frames token = some s) :
    s.scan = Scan.take ⟨frames.length, framesNesting frames, false, false⟩ token := by
  have hle := length_le_framesNesting frames
  unfold startValue at h
  split at h
  · rename_i scalar
    rw [scan_finish h]
    cases scalar <;> simp [leaf, Tree.nesting, Scan.take, hle]
  · cases h
    simp [scan, nesting, framesNesting, Frame.inner, itemsNesting, Scan.take, Scan.outside]
  · cases h
    simp [scan, nesting, framesNesting, Frame.inner, membersNesting, Scan.take, Scan.outside]
  · cases h

theorem scan_takeKey {frames : List Frame} {token : Token} {s : State}
    (h : takeKey frames token = some s) :
    s.scan = Scan.take ⟨frames.length, framesNesting frames, false, false⟩ token := by
  unfold takeKey at h
  split at h <;> cases h
  rfl

theorem scan_close {frames : List Frame} {token : Token} {s : State}
    (h : close frames token = some s) :
    s.scan = Scan.take ⟨frames.length, framesNesting frames, false, false⟩ token := by
  unfold close at h
  split at h
  · rw [scan_finish h, Tree.nesting, itemsNesting_reverse, Nat.add_comm _ 1, ← Nat.add_assoc]
    rfl
  · rw [scan_finish h, Tree.nesting, membersNesting_reverse, Nat.add_comm _ 1, ← Nat.add_assoc]
    rfl
  · cases h

/-- **Every token keeps the reader and the scan together.** -/
theorem scan_step {s s' : State} {token : Token} (h : s.step token = some s') :
    s'.scan = s.scan.take token := by
  obtain ⟨frames, want⟩ := s
  unfold step at h
  dsimp only at h
  split at h
  · exact scan_startValue h
  · split at h
    · exact scan_close h
    · exact scan_startValue h
  · exact scan_takeKey h
  · split at h
    · exact scan_close h
    · exact scan_takeKey h
  · split at h
    · rename_i htoken
      cases h
      rw [htoken]
      rfl
    · cases h
  · split at h
    · rename_i htoken
      obtain ⟨want, hwant, rfl⟩ := Option.map_eq_some_iff.1 h
      rw [htoken]
      unfold afterComma at hwant
      split at hwant <;> cases hwant <;> rfl
    · exact scan_close h
  · cases h

end State

/-- **Run lemma.** The scan of the rest of a text goes as deep as the document that is read. -/
theorem deepest_of_run {s : State} {text : List Char} {d : Source} (h : run s text = some d) :
    (text.foldl Scan.step s.scan).deepest = d.nesting := by
  fun_induction run s text with
  | case1 s text document hwant hblank =>
    cases h
    rw [Scan.foldl_passed rfl (passed_skipBlanks text), List.isEmpty_iff.1 hblank]
    simp only [List.foldl_nil, State.scan, State.nesting, hwant]
  | case2 => cases h
  | case3 => cases h
  | case4 => cases h
  | case5 s text token rest hnext s' hstep _ ih =>
    rw [scan_nextToken (s := s.scan) rfl rfl hnext, ← State.scan_step hstep]
    exact ih h

/-- **The nesting of a text that holds a document is the nesting of the document.** -/
theorem nestingDepth_eq {text : List Char} {d : Source} (h : Source.ofText? text = some d) :
    nestingDepth text = d.nesting :=
  deepest_of_run h

/-- The brackets of a text are those of the document that it spells. -/
theorem nestingDepth_of_spells {text : List Char} {d : Source} (h : Spells text d.tokens) :
    nestingDepth text = d.nesting :=
  nestingDepth_eq (ofText?_iff.2 h)

end GlyphMath.Json
