import GlyphMath.Expr.Document
import GlyphMath.Proofs.Nesting

/-!
# The scan bounds what the reader opens

* `Reaches` -- where the reader comes to in a text, whether the text holds a document or not.
* `Scan.stepByte`, `byteNesting` -- the scan of the bytes of a text.

As long as the reader finds tokens, the scan of what it has read has as many brackets open as the
reader, and it stands outside of a string.  A closing bracket that the reader takes has one open; a
bracket that it refuses is never passed.  What comes behind can only make the nesting greater.

Principal results:

* `scan_of_reaches` -- the reader and the scan stay together.
* `byteNesting_eq` -- it makes no difference whether characters or bytes are scanned.
* `nestingDepth_bounds` -- no text makes the reader open more brackets than the scan has counted.
-/

set_option autoImplicit false

namespace GlyphMath.Json

/-! ## The scan never goes back -/

namespace Scan

theorem step_bounds {s : Scan} (h : s.depth ≤ s.deepest) (c : Char) :
    (s.step c).depth ≤ (s.step c).deepest ∧ s.deepest ≤ (s.step c).deepest := by
  unfold step inside outside
  split
  · split_ifs <;> exact ⟨h, Nat.le_refl _⟩
  · split_ifs
    · exact ⟨h, Nat.le_refl _⟩
    · exact ⟨Nat.le_max_right _ _, Nat.le_max_left _ _⟩
    · exact ⟨Nat.le_trans (Nat.sub_le _ _) h, Nat.le_refl _⟩
    · exact ⟨h, Nat.le_refl _⟩

/-- **More text only goes deeper**, and what is open is always counted. -/
theorem foldl_bounds {s : Scan} (h : s.depth ≤ s.deepest) (text : List Char) :
    (text.foldl step s).depth ≤ (text.foldl step s).deepest ∧
      s.deepest ≤ (text.foldl step s).deepest := by
  induction text generalizing s with
  | nil => exact ⟨h, Nat.le_refl _⟩
  | cons c text ih =>
    obtain ⟨hstep, hgrows⟩ := step_bounds h c
    obtain ⟨hdepth, hdeeper⟩ := ih hstep
    exact ⟨hdepth, Nat.le_trans hgrows hdeeper⟩

end Scan

/-! ## Bytes -/

theorem toNat_ofByte (b : UInt8) : (Char.ofNat b.toNat).toNat = b.toNat := by
  have hvalid : b.toNat.isValidChar := Or.inl (Nat.lt_trans b.toNat_lt (by decide))
  rw [Char.ofNat, dif_pos hvalid]
  rfl

namespace Scan

/-- Takes one byte, as the character of its number. -/
def stepByte (s : Scan) (b : UInt8) : Scan := s.step (Char.ofNat b.toNat)

/-- What a character does that is neither a quote, nor a backslash, nor a bracket. -/
def skip (s : Scan) : Scan := { s with escaped := s.escaped && !s.inString }

/-- Quotes, backslashes and brackets are ASCII. -/
theorem step_high {c : Char} (h : 0x80 ≤ c.toNat) (s : Scan) : s.step c = s.skip := by
  have hne {d : Char} (hd : d.toNat < 0x80) : c ≠ d := by
    rintro rfl
    exact absurd h (Nat.not_le_of_lt hd)
  have hquote : c ≠ '"' := hne (by decide)
  have hslash : c ≠ '\\' := hne (by decide)
  have hplain : isPlain c = true := by
    simp only [isPlain, Bool.and_eq_true, bne_iff_ne]
    exact ⟨⟨⟨⟨hquote, hne (by decide)⟩, hne (by decide)⟩, hne (by decide)⟩, hne (by decide)⟩
  obtain ⟨depth, deepest, inString, escaped⟩ := s
  cases inString with
  | false => exact (outside_plain hplain _).trans (by simp [skip])
  | true =>
    cases escaped with
    | false => exact step_inString hquote hslash
    | true => rfl

theorem skip_skip (s : Scan) : s.skip.skip = s.skip := by
  simp only [skip, Bool.and_assoc, Bool.and_self]

/-- Bytes outside of ASCII are skipped, any number of them. -/
theorem foldl_high {b : UInt8} {bytes : List UInt8} (hb : 0x80 ≤ b.toNat)
    (h : ∀ b ∈ bytes, 0x80 ≤ b.toNat) (s : Scan) : (b :: bytes).foldl stepByte s = s.skip := by
  have hstep {b : UInt8} (hb : 0x80 ≤ b.toNat) (s : Scan) : s.stepByte b = s.skip :=
    step_high ((toNat_ofByte b).symm ▸ hb) s
  induction bytes generalizing b s with
  | nil => exact hstep hb s
  | cons b' bytes ih =>
    obtain ⟨hb', hbytes⟩ := List.forall_mem_cons.1 h
    rw [List.foldl_cons, ih hb' hbytes, hstep hb, skip_skip]

end Scan

/-- A character outside of ASCII has only bytes outside of ASCII. -/
theorem utf8EncodeChar_high {c : Char} (h : 0x80 ≤ c.toNat) :
    ∃ b bytes, String.utf8EncodeChar c = b :: bytes ∧ 0x80 ≤ b.toNat ∧
      ∀ b ∈ bytes, 0x80 ≤ b.toNat := by
  have hbyte (n : Nat) (hlow : 0x80 ≤ n) (hhigh : n < 0x100) : 0x80 ≤ (UInt8.ofNat n).toNat := by
    rwa [UInt8.toNat_ofNat', Nat.mod_eq_of_lt hhigh]
  have hrest (n : Nat) : 0x80 ≤ (UInt8.ofNat (n % 64 + 128)).toNat :=
    hbyte _ (Nat.le_add_left _ _) (by omega)
  have hwide : ¬c.val.toNat ≤ 0x7f := Nat.not_le.2 h
  rw [String.utf8EncodeChar, if_neg hwide]
  split_ifs
  -- two, three or four bytes
  all_goals
    refine ⟨_, _, rfl, hbyte _ (by omega) (by omega), ?_⟩
    simpa only [List.forall_mem_cons, hrest, true_and] using nofun

/-- **The bytes of a character** do to a scan what the character does. -/
theorem foldl_utf8EncodeChar (s : Scan) (c : Char) :
    (String.utf8EncodeChar c).foldl Scan.stepByte s = s.step c := by
  by_cases hsize : c.toNat ≤ 0x7f
  · have hbyte : (UInt8.ofNat c.toNat).toNat = c.toNat := by
      rw [UInt8.toNat_ofNat', Nat.mod_eq_of_lt (Nat.lt_of_le_of_lt hsize (by decide))]
    have hbytes : String.utf8EncodeChar c = [UInt8.ofNat c.toNat] := if_pos hsize
    rw [hbytes, List.foldl_cons, List.foldl_nil, Scan.stepByte, hbyte, Char.ofNat_toNat]
  · have hhigh : 0x80 ≤ c.toNat := Nat.lt_of_not_le hsize
    obtain ⟨b, bytes, hbytes, hb, hrest⟩ := utf8EncodeChar_high hhigh
    rw [hbytes, Scan.foldl_high hb hrest]
    exact (Scan.step_high hhigh s).symm

/-- The most brackets that are open at once, counted over bytes. -/
def byteNesting (bytes : List UInt8) : Nat := (bytes.foldl Scan.stepByte Scan.start).deepest

/-- **It makes no difference whether characters or bytes are scanned.** -/
theorem byteNesting_eq (text : String) :
    byteNesting text.toUTF8.data.toList = nestingDepth text.toList := by
  rw [String.toUTF8_eq_toByteArray, ← String.utf8Encode_toList, List.utf8Encode,
    List.data_toByteArray, List.toList_toArray, byteNesting, nestingDepth, List.foldl_flatMap]
  simp only [foldl_utf8EncodeChar]

/-! ## Where the reader comes to -/

/-- The reader comes to a state with the rest of a text to read. -/
inductive Reaches (text : List Char) : State → List Char → Prop where
  | start : Reaches text .start text
  | token {s s' : State} {rest rest' : List Char} {token : Token} :
      Reaches text s rest → nextToken rest = some (token, rest') → s.step token = some s' →
        Reaches text s' rest'

section

variable {text rest : List Char} {s : State}

/-- What the reader finds in a text is what it finds in the rest from where it comes to. -/
theorem run_of_reaches (h : Reaches text s rest) : run s rest = Source.ofText? text := by
  induction h with
  | start => rfl
  | token _ hnext hstep ih => rw [← run_next hnext hstep, ih]

/-- **The reader and the scan stay together**: what has been read has as many brackets open as the
reader, and it ends outside of a string. -/
theorem scan_of_reaches (h : Reaches text s rest) :
    ∃ front, text = front ++ rest ∧ front.foldl Scan.step Scan.start = s.scan := by
  induction h with
  | start => exact ⟨[], rfl, rfl⟩
  | token _ hnext hstep ih =>
    obtain ⟨front, rfl, hfront⟩ := ih
    obtain ⟨blanks, word, rfl, hblank, hword⟩ := spellsToken_of_nextToken hnext
    refine ⟨front ++ (blanks ++ word), by simp only [List.append_assoc], ?_⟩
    have hblanks : Passed (blanks ++ word) word :=
      ⟨blanks, rfl, fun c hc => isPlain_of_isBlank (hblank c hc)⟩
    rw [List.foldl_append, hfront, Scan.foldl_passed rfl hblanks, Scan.foldl_word rfl rfl hword,
      State.scan_step hstep]

/-- **The reader never has more brackets open than the scan of the whole text counts.** -/
theorem length_le_nestingDepth (h : Reaches text s rest) :
    s.frames.length ≤ nestingDepth text := by
  obtain ⟨front, rfl, hfront⟩ := scan_of_reaches h
  have hopen := (Scan.foldl_bounds (s := Scan.start) (Nat.le_refl 0) front).1
  rw [hfront] at hopen
  rw [nestingDepth, List.foldl_append, hfront]
  exact Nat.le_trans hopen (Scan.foldl_bounds hopen rest).2

end

/-- **No text makes the reader open more brackets than are counted in advance**, whether it holds a
document or not, and where it holds one its brackets are counted exactly, those in its strings left
out.  It is the same count whether characters or bytes are scanned.  So a text is refused as nested
too deep, or it is read with a bounded number of open brackets, and so is its document. -/
theorem nestingDepth_bounds (text : String) :
    byteNesting text.toUTF8.data.toList = nestingDepth text.toList ∧
    (∀ s rest, Reaches text.toList s rest → run s rest = Source.ofText? text.toList ∧
      s.frames.length ≤ nestingDepth text.toList) ∧
    (∀ d : Source, Spells text.toList d.tokens → nestingDepth text.toList = d.nesting) ∧
    (Expr.ofJson text = .error (.tooDeep Formula.maxHeight) ∨
      (∀ s rest, Reaches text.toList s rest → s.frames.length ≤ 2 * Formula.maxHeight + 2) ∧
        ∀ d, Source.ofText? text.toList = some d → d.nesting ≤ 2 * Formula.maxHeight + 2) := by
  refine ⟨byteNesting_eq text, fun s rest h => ⟨run_of_reaches h, length_le_nestingDepth h⟩,
    fun d h => nestingDepth_of_spells h, ?_⟩
  by_cases hdeep : maxNesting < nestingDepth text.toList
  · left
    rw [Expr.ofJson, if_pos hdeep]
  · have hle : nestingDepth text.toList ≤ 2 * Formula.maxHeight + 2 := Nat.le_of_not_lt hdeep
    right
    constructor
    · intro s rest h
      exact Nat.le_trans (length_le_nestingDepth h) hle
    · intro d h
      rwa [← nestingDepth_eq h]

/-- In `["\"]é\\", [1, ]]]` the reader comes to the second comma and no further. -/
theorem nestingDepth_bounds_unclosed :
    let text := "[\"\\\"]é\\\\\", [1, ]]]"
    ∃ s, Reaches text.toList s " ]]]".toList ∧ s.frames.length = 2 ∧
      run s " ]]]".toList = Source.ofText? text.toList ∧
      s.frames.length ≤ nestingDepth text.toList := by
  have hread : Reaches "[\"\\\"]é\\\\\", [1, ]]]".toList _ " ]]]".toList :=
    .token (.token (.token (.token (.token (.token .start rfl rfl) rfl rfl) rfl rfl) rfl rfl)
      rfl rfl) rfl rfl
  obtain ⟨hrun, hlength⟩ := (nestingDepth_bounds _).2.1 _ _ hread
  exact ⟨_, hread, rfl, hrun, hlength⟩

end GlyphMath.Json
