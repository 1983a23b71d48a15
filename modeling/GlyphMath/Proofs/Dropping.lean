import GlyphMath.Proofs.Trimming
import GlyphMath.Proofs.Words

/-!
# What is said of dropped symbols

* `dropped` -- the symbols that do not reach the threshold.
* `DropCount.ofKinds` -- how many things of each sort there are among kinds.
* `Kind.IsCounted` -- the kinds that have a sort of their own.
* `plainKind` -- the kind that a dropped symbol is counted under: that of its piece, but for a token
  with blanks at its ends, which is counted under no sort of its own.

A piece is made of a token without the blanks at its ends, but a dropped symbol is counted by the
token as it stands.

Principal results:

* `kind_of_blank` -- no sort has a text with a blank.
* `countDropped_eq` -- what the dropped symbols are counted as.
* `warnings_linearize_dropped` -- when the note counts them under the kinds of their pieces.
-/

set_option autoImplicit false

namespace GlyphMath.Line

open Formula (isLetter isLetter_iff)
open Layout (Symbol)

/-! ## Sorts -/

def dropped (config : Config) (symbols : List Symbol) : List Symbol :=
  symbols.filter fun s => !isKept config s

/-- The kinds that have a sort of their own among the dropped symbols. -/
def Kind.IsCounted (kind : Kind) : Prop :=
  kind = .number ∨ kind = .operator ∨ kind = .function ∨ kind = .root

instance (kind : Kind) : Decidable kind.IsCounted := inferInstanceAs (Decidable (_ ∨ _))

/-- How many things of each sort there are among kinds. -/
def DropCount.ofKinds (kinds : List Kind) : DropCount where
  digits := kinds.count .number
  operators := kinds.count .operator
  functions := kinds.count .function + kinds.count .root
  others := kinds.countP fun kind => ¬ kind.IsCounted

/-- The number of things that are counted. -/
def DropCount.total (c : DropCount) : Nat := c.digits + c.operators + c.functions + c.others

theorem DropCount.ofKinds_cons (kind : Kind) (kinds : List Kind) :
    ofKinds (kind :: kinds) = (ofKinds kinds).add kind := by
  cases kind <;> simp [ofKinds, add, Kind.IsCounted, Nat.add_right_comm, Nat.add_assoc]

/-- Kinds without a sort of their own are counted alike. -/
theorem DropCount.add_eq_other {kind : Kind} (h : ¬ kind.IsCounted) (c : DropCount) :
    c.add kind = c.add .other := by
  cases kind <;> simp [Kind.IsCounted] at h <;> rfl

theorem DropCount.total_ofKinds (kinds : List Kind) : (ofKinds kinds).total = kinds.length := by
  induction kinds with
  | nil => rfl
  | cons kind kinds ih =>
    rw [ofKinds_cons, List.length_cons, ← ih]
    cases kind <;> simp only [add, total] <;> omega

/-- The order in which two kinds are counted does not matter. -/
theorem DropCount.add_comm (c : DropCount) (kind kind' : Kind) :
    (c.add kind).add kind' = (c.add kind').add kind := by
  cases kind <;> cases kind' <;> rfl

theorem DropCount.foldl_add (kinds : List Kind) (c : DropCount) (kind : Kind) :
    kinds.foldl add (c.add kind) = (kinds.foldl add c).add kind := by
  induction kinds generalizing c with
  | nil => rfl
  | cons kind' kinds ih => rw [List.foldl_cons, List.foldl_cons, add_comm, ih]

theorem DropCount.foldl_add_eq (kinds : List Kind) :
    kinds.foldl add ⟨0, 0, 0, 0⟩ = ofKinds kinds := by
  induction kinds with
  | nil => rfl
  | cons kind kinds ih => rw [List.foldl_cons, foldl_add, ih, ofKinds_cons]

/-! ## Blanks -/

theorem isBlank_of_isLetter {c : Char} (h : isLetter c = true) : Text.isBlank c = false := by
  have hcode := isLetter_iff.1 h
  exact Text.isBlank_of_visible (by omega) (by omega)

section

variable {text : String} {c : Char} (hc : c ∈ text.toList) (hblank : Text.isBlank c = true)

include hc hblank

/-- A text with a blank in it is none of some words without blanks. -/
theorem notMem_of_blank {words : List String}
    (h : words.all fun word => word.toList.all fun c => !Text.isBlank c) : text ∉ words := by
  intro hmem
  have := List.all_eq_true.1 (List.all_eq_true.1 h text hmem) c hc
  simp [hblank] at this

theorem kind_of_blank : Kind.of text = .other := by
  have hhas := Kind.has_of text
  cases hkind : Kind.of text <;> rw [hkind] at hhas
  case number =>
    simp only [Kind.Has, isNumeric, Bool.and_eq_true, List.all_eq_true] at hhas
    have hnumeric := hhas.2 c hc
    rw [Bool.or_eq_true, beq_iff_eq] at hnumeric
    rcases hnumeric with hdigit | rfl
    · rw [Text.isBlank_of_isDigit hdigit] at hblank
      cases hblank
    · exact absurd hblank (by decide)
  case «variable» =>
    rcases hhas with hpi | he | hlower
    · exact absurd (List.mem_singleton.2 hpi) (notMem_of_blank hc hblank (by decide))
    · exact absurd (List.mem_singleton.2 he) (notMem_of_blank hc hblank (by decide))
    · obtain ⟨d, hd, hletter⟩ := isLetter_of_isLowerCase hlower
      rw [hd, List.mem_singleton] at hc
      subst hc
      rw [isBlank_of_isLetter hletter] at hblank
      cases hblank
  case function | operator => exact absurd hhas (notMem_of_blank hc hblank (by decide))
  case opening | closing | bar | comma | root =>
    exact absurd (List.mem_singleton.2 hhas) (notMem_of_blank hc hblank (by decide))

theorem normalize_of_blank : normalize text = text := by
  unfold normalize
  split
  case h_10 => rfl
  all_goals exact absurd (List.mem_singleton_self _) (notMem_of_blank hc hblank (by decide))

end

/-- A token with blanks at its ends is counted under no sort of its own. -/
theorem kind_of_padded {token : String} (h : Text.trim token ≠ token) :
    Kind.of (normalize token) = .other := by
  have hblank : ∃ c ∈ token.toList, Text.isBlank c = true := by
    by_contra hnone
    apply h
    apply Text.trim_eq
    intro c hc
    simpa using fun hblank => hnone ⟨c, hc, hblank⟩
  obtain ⟨c, hc, hblank⟩ := hblank
  rw [normalize_of_blank hc hblank]
  exact kind_of_blank hc hblank

/-! ## The note -/

/-- The kind that a dropped symbol is counted under. -/
def plainKind (s : Symbol) : Kind :=
  if Text.trim s.token = s.token then (Piece.detected s).kind else .other

theorem kind_detected (s : Symbol) :
    (Piece.detected s).kind = Kind.of (normalize (Text.trim s.token)) := by
  simp only [Piece.detected]

theorem plainKind_eq (s : Symbol) : plainKind s = Kind.of (normalize s.token) := by
  by_cases htrim : Text.trim s.token = s.token
  · rw [plainKind, if_pos htrim, kind_detected, htrim]
  · rw [plainKind, if_neg htrim, kind_of_padded htrim]

/-- **What dropped symbols are counted as.** -/
theorem countDropped_eq (symbols : List Symbol) :
    countDropped symbols = .ofKinds (symbols.map plainKind) := by
  simp only [countDropped, ← DropCount.foldl_add_eq, List.foldl_map, plainKind_eq]

/-- The symbols that are counted under another sort than that of their pieces. -/
def isMiscounted (s : Symbol) : Bool :=
  Text.trim s.token ≠ s.token && (Piece.detected s).kind.IsCounted

/-- Every miscounted symbol is one too many among those without a sort of their own. -/
theorem others_plainKind (symbols : List Symbol) :
    (DropCount.ofKinds (symbols.map plainKind)).others =
      (DropCount.ofKinds (symbols.map fun s => (Piece.detected s).kind)).others +
        symbols.countP isMiscounted := by
  have hother : ¬ Kind.other.IsCounted := by decide
  induction symbols with
  | nil => rfl
  | cons s symbols ih =>
    simp only [DropCount.ofKinds, List.map_cons, List.countP_cons] at ih ⊢
    rw [ih]
    by_cases htrim : Text.trim s.token = s.token <;>
      by_cases hcounted : (Piece.detected s).kind.IsCounted <;>
        simp [plainKind, isMiscounted, htrim, hcounted, hother] <;> omega

/-- **The counts are those of the kinds of the pieces** where no symbol is miscounted, and only
then. -/
theorem ofKinds_plainKind_iff (symbols : List Symbol) :
    DropCount.ofKinds (symbols.map plainKind) =
        .ofKinds (symbols.map fun s => (Piece.detected s).kind) ↔
      ∀ s ∈ symbols, Text.trim s.token ≠ s.token → ¬ (Piece.detected s).kind.IsCounted := by
  constructor
  · intro h s hs htrim hcounted
    have hothers := others_plainKind symbols
    rw [h] at hothers
    have hnone : symbols.countP isMiscounted = 0 := by omega
    have := List.countP_eq_zero.1 hnone s hs
    simp [isMiscounted, htrim, hcounted] at this
  · intro h
    induction symbols with
    | nil => rw [List.map_nil, List.map_nil]
    | cons s symbols ih =>
      obtain ⟨hs, hrest⟩ := List.forall_mem_cons.1 h
      simp only [List.map_cons, DropCount.ofKinds_cons, ih hrest]
      unfold plainKind
      split
      · rfl
      · rename_i htrim
        exact (DropCount.add_eq_other (hs htrim) _).symm

theorem warnings_of_dropped (config : Config) {symbols : List Symbol}
    (h : dropped config symbols ≠ []) :
    ∃ notes, (linearize config symbols).warnings =
      .dropped (countDropped (dropped config symbols)) config.scoreThreshold :: notes := by
  have hsymbols : ¬ symbols.isEmpty = true := by
    intro hempty
    rw [List.isEmpty_iff.1 hempty] at h
    exact h rfl
  have hdropped : ¬ (symbols.filter fun s => !isKept config s).isEmpty = true := by
    rwa [List.isEmpty_iff]
  unfold linearize select
  rw [if_neg hsymbols]
  dsimp only
  rw [if_neg hdropped]
  by_cases hkept : (symbols.filter (isKept config)).isEmpty = true
  · rw [if_pos hkept]
    exact ⟨_, rfl⟩
  · rw [if_neg hkept]
    exact ⟨_, rfl⟩

/-- **What the note about dropped symbols says.**  It is the first note of a line, and its numbers
add up to that of the dropped symbols.  It counts every one of them under the kind of its piece, but
for those with blanks at the ends of their tokens, which have no sort of their own.  So the numbers
are those of the kinds of the pieces if no such symbol has a piece of another sort, and only
then. -/
theorem warnings_linearize_dropped (config : Config) {symbols : List Symbol}
    (h : dropped config symbols ≠ []) :
    ∃ count notes,
      (linearize config symbols).warnings = .dropped count config.scoreThreshold :: notes ∧
      count.total = (dropped config symbols).length ∧
      count = .ofKinds ((dropped config symbols).map plainKind) ∧
      (count = .ofKinds ((dropped config symbols).map fun s => (Piece.detected s).kind) ↔
        ∀ s ∈ dropped config symbols, Text.trim s.token ≠ s.token →
          ¬ (Piece.detected s).kind.IsCounted) := by
  obtain ⟨notes, hnotes⟩ := warnings_of_dropped config h
  have hcount := countDropped_eq (dropped config symbols)
  refine ⟨_, notes, hnotes, ?_, hcount, ?_⟩
  · rw [hcount, DropCount.total_ofKinds, List.length_map]
  · rw [hcount]
    exact ofKinds_plainKind_iff (dropped config symbols)

/-- A letter among blots of every sort: two digits, a times sign, a root, a comma, and a name that
nothing is known of with blanks around it. -/
def blots : List Symbol :=
  [⟨"", "7", 0.05, ⟨0, 0, 4, 9⟩⟩, ⟨"", "×", 0.0, ⟨5, 0, 9, 9⟩⟩, ⟨"", "√", 0.01, ⟨10, 0, 14, 9⟩⟩,
    symbolAt "x" 20.0 0.0 30.0 20.0, ⟨"", " moon ", 0.05, ⟨40, 0, 44, 9⟩⟩,
    ⟨"", "1", 0.0 / 0.0, ⟨50, 0, 54, 9⟩⟩, ⟨"", ",", 0.05, ⟨60, 0, 64, 9⟩⟩]

theorem warnings_linearize_dropped_blots :
    dropped {} blots ≠ [] ∧
    (∀ s ∈ dropped {} blots, Text.trim s.token ≠ s.token → ¬ (Piece.detected s).kind.IsCounted) ∧
    ∃ count notes, (linearize {} blots).warnings = .dropped count 0.10 :: notes ∧
      count = .ofKinds [.number, .operator, .root, .other, .number, .comma] := by
  have hdropped : dropped {} blots ≠ [] := by decide +kernel
  have hplain : ∀ s ∈ dropped {} blots,
      Text.trim s.token ≠ s.token → ¬ (Piece.detected s).kind.IsCounted := by decide +kernel
  obtain ⟨count, notes, hnotes, -, -, hcount⟩ := warnings_linearize_dropped {} hdropped
  refine ⟨hdropped, hplain, count, notes, hnotes, ?_⟩
  rw [hcount.2 hplain]
  decide +kernel

/-- **A digit that is counted as another thing**: a blank stands in front of it. -/
theorem linearize_miscounts_digit :
    let digit : Symbol := ⟨"", " 1", 0.05, ⟨0, 0, 4, 20⟩⟩
    (Piece.detected digit).kind = .number ∧
      (linearize {} [digit]).warnings.head? = some (.dropped ⟨0, 0, 0, 1⟩ 0.10) := by
  decide +kernel

end GlyphMath.Line
