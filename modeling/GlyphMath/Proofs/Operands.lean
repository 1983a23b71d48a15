import GlyphMath.Proofs.BracketRepair
import GlyphMath.Proofs.Origins

/-!
# Functions without brackets and what is noted of them

* `isBare` -- a function that is called without brackets.
* `BareCall` -- such a function, its place in a row and its operand.
* `bareCalls` -- the bare calls of a row, outer ones before those in their operands.
* `BareCall.Within` -- a bare call in the operand of another one.
* `Warning.about?` -- the text and the position that a note names.

Principal results:

* `notes_writeCalls` -- what is noted of the operands of a row is noted of its bare calls.
* `origin_eq_iff` -- a bare call is counted from the start of the row if it stands in no operand.
* `operandNotes_linearize` -- which notes about operands name the place of their function.
-/

set_option autoImplicit false

namespace GlyphMath.Line

open Layout (Symbol)

/-! ## One piece of a row -/

/-- Whether a function is called without brackets. -/
def isBare (p : Piece) (rest : List Piece) : Bool :=
  isCallable p && !(p.kind == .function && startsOpen rest)

section

variable {position : Nat} {p v : Piece} {rest after : List Piece}

theorem writeCalls_derivative (h : derivative? (p :: rest) = some (v, after)) :
    writeCalls position (p :: rest) =
      (Piece.added "diff" .function :: Piece.openParen :: v :: Piece.closeParen ::
        (writeCalls (position + 4) after).1, (writeCalls (position + 4) after).2) := by
  rw [writeCalls]
  split
  · rename_i hsign
    rw [h] at hsign
    cases hsign
    rfl
  · rename_i hsign
    rw [h] at hsign
    cases hsign

theorem writeCalls_bare (h : derivative? (p :: rest) = none) (hp : isBare p rest = true) :
    writeCalls position (p :: rest) =
      (p.head :: Piece.openParen :: ((writeCalls 0 (rest.take (operandLength 0 true rest))).1 ++
          Piece.closeParen :: (writeCalls (position + 1 + operandLength 0 true rest)
            (rest.drop (operandLength 0 true rest))).1),
        callNotes position p (rest.take (operandLength 0 true rest)) ++
          (writeCalls 0 (rest.take (operandLength 0 true rest))).2 ++
          (writeCalls (position + 1 + operandLength 0 true rest)
            (rest.drop (operandLength 0 true rest))).2) := by
  simp only [isBare, Bool.and_eq_true, Bool.not_eq_true'] at hp
  rw [writeCalls]
  split
  · rename_i hsign
    rw [h] at hsign
    cases hsign
  · rw [if_pos hp.1, hp.2]
    rfl

theorem writeCalls_written (h : derivative? (p :: rest) = none) (hp : isBare p rest = false) :
    writeCalls position (p :: rest) =
      (p.written :: (writeCalls (position + 1) rest).1, (writeCalls (position + 1) rest).2) := by
  rw [writeCalls]
  split
  · rename_i hsign
    rw [h] at hsign
    cases hsign
  · unfold Piece.written
    by_cases hcallable : isCallable p = true
    · simp only [isBare, hcallable, Bool.true_and, Bool.not_eq_false'] at hp
      rw [if_pos hcallable, if_pos hcallable, hp]
      rfl
    · rw [if_neg hcallable, if_neg hcallable]

end

/-- An operand ends before a piece, or goes on behind it. -/
theorem operandLength_cons (depth : Nat) (leading : Bool) (p : Piece) (row : List Piece) :
    operandLength depth leading (p :: row) = 0 ∨
      ∃ depth', operandLength depth leading (p :: row) = operandLength depth' false row + 1 := by
  rw [operandLength]
  split
  · exact Or.inr ⟨_, rfl⟩
  · split
    · exact Or.inl rfl
    · exact Or.inr ⟨_, rfl⟩
  · split
    · exact Or.inl rfl
    · exact Or.inr ⟨_, rfl⟩
  · split
    · exact Or.inl rfl
    · exact Or.inr ⟨_, rfl⟩
  · exact Or.inr ⟨_, rfl⟩

theorem operandLength_le (depth : Nat) (leading : Bool) (row : List Piece) :
    operandLength depth leading row ≤ row.length := by
  induction row generalizing depth leading with
  | nil => exact Nat.le_refl 0
  | cons p row ih =>
    rcases operandLength_cons depth leading p row with hlength | ⟨depth', hlength⟩
    · rw [hlength]
      exact Nat.zero_le _
    · rw [hlength]
      exact Nat.succ_le_succ (ih depth' false)

/-! ## Bare calls -/

/-- A function that is called without brackets: its place in a row, the place from which the part of
the row that is looked through with it is counted, and its operand. -/
structure BareCall where
  place : Nat
  origin : Nat
  piece : Piece
  operand : List Piece
deriving DecidableEq

namespace BareCall

/-- What is noted of a bare call. -/
def notes (b : BareCall) : List Warning := callNotes (b.place - b.origin) b.piece b.operand

/-- The place behind the operand of a bare call. -/
def stop (b : BareCall) : Nat := b.place + b.operand.length + 1

/-- Whether a bare call stands in the operand of another one. -/
def Within (b c : BareCall) : Prop := c.place < b.place ∧ b.place ≤ c.place + c.operand.length

instance (b c : BareCall) : Decidable (b.Within c) := inferInstanceAs (Decidable (_ ∧ _))

end BareCall

/-- The bare calls of the pieces from a place on, where positions are counted from an origin.  The
positions in an operand are counted from its start. -/
def bareCalls (origin place : Nat) (pieces : List Piece) : List BareCall :=
  match pieces with
  | [] => []
  | p :: rest =>
    match _h : derivative? (p :: rest) with
    | some (_, after) => bareCalls origin (place + 4) after
    | none =>
      if isBare p rest then
        let length := operandLength 0 true rest
        ⟨place, origin, p, rest.take length⟩ ::
          (bareCalls (place + 1) (place + 1) (rest.take length) ++
            bareCalls origin (place + 1 + length) (rest.drop length))
      else bareCalls origin (place + 1) rest
termination_by pieces.length
decreasing_by
  · exact derivative?_length _h
  · exact Nat.lt_succ_of_le (by simp only [List.length_take]; omega)
  · exact Nat.lt_succ_of_le (by simp only [List.length_drop]; omega)
  · exact Nat.lt_succ_self _

/-- **What is noted of the operands of a row** is what is noted of its bare calls, in order. -/
theorem notes_writeCalls {origin place : Nat} {pieces : List Piece} (h : origin ≤ place) :
    (writeCalls (place - origin) pieces).2 =
      (bareCalls origin place pieces).flatMap BareCall.notes := by
  fun_induction bareCalls origin place pieces with
  | case1 => rw [writeCalls]; rfl
  | case2 origin place p rest v after hsign ih =>
    rw [writeCalls_derivative hsign, ← ih (by omega), Nat.sub_add_comm h]
  | case3 origin place p rest hsign hp length ih ih' =>
    have hinner := ih (Nat.le_refl _)
    rw [Nat.sub_self] at hinner
    have hposition : place + 1 + length - origin = place - origin + 1 + length := by omega
    rw [writeCalls_bare hsign hp, List.flatMap_cons, List.flatMap_append, ← hinner,
      ← ih' (by omega), hposition]
    exact List.append_assoc _ _ _
  | case4 origin place p rest hsign hp ih =>
    rw [writeCalls_written hsign (by simpa using hp), ← ih (by omega), Nat.sub_add_comm h]

theorem stands_bareCalls {origin place : Nat} {pieces : List Piece} :
    ∀ b ∈ bareCalls origin place pieces, ∃ before after,
      pieces = before ++ b.piece :: (b.operand ++ after) ∧ b.place = place + before.length := by
  fun_induction bareCalls origin place pieces with
  | case1 => exact nofun
  | case2 origin place p rest v after hsign ih =>
    obtain ⟨d, slash, d', heq, -⟩ := derivative?_eq_some.1 hsign
    intro b hb
    obtain ⟨before, behind, rfl, hplace⟩ := ih b hb
    refine ⟨d :: slash :: d' :: v :: before, behind, by rw [heq]; rfl, ?_⟩
    simp only [List.length_cons]
    omega
  | case3 origin place p rest hsign hp length ih ih' =>
    intro b hb
    rcases List.mem_cons.1 hb with rfl | hb
    · exact ⟨[], rest.drop length, by simp, rfl⟩
    · rcases List.mem_append.1 hb with hb | hb
      · obtain ⟨before, behind, hoperand, hplace⟩ := ih b hb
        refine ⟨p :: before, behind ++ rest.drop length, ?_, ?_⟩
        · conv_lhs => rw [← List.take_append_drop length rest, hoperand]
          simp
        · rw [hplace, List.length_cons]
          omega
      · obtain ⟨before, behind, hrest, hplace⟩ := ih' b hb
        refine ⟨p :: (rest.take length ++ before), behind, ?_, ?_⟩
        · conv_lhs => rw [← List.take_append_drop length rest, hrest]
          simp
        · have hlength : length ≤ rest.length := operandLength_le 0 true rest
          rw [hplace, List.length_cons, List.length_append, List.length_take]
          omega
  | case4 origin place p rest hsign hp ih =>
    intro b hb
    obtain ⟨before, behind, rfl, hplace⟩ := ih b hb
    refine ⟨p :: before, behind, rfl, ?_⟩
    rw [hplace, List.length_cons]
    omega

theorem bounds_bareCalls {origin place : Nat} {pieces : List Piece} {b : BareCall}
    (hb : b ∈ bareCalls origin place pieces) :
    place ≤ b.place ∧ b.place + b.operand.length < place + pieces.length := by
  obtain ⟨before, after, rfl, hplace⟩ := stands_bareCalls b hb
  simp only [List.length_append, List.length_cons]
  omega

/-- A bare call is counted from the origin, or from the start of an operand in front of it. -/
theorem origin_bareCalls {origin place : Nat} {pieces : List Piece} (h : origin ≤ place) :
    ∀ b ∈ bareCalls origin place pieces,
      b.origin ≤ b.place ∧ (b.origin = origin ∨ place < b.origin) := by
  fun_induction bareCalls origin place pieces with
  | case1 => exact nofun
  | case2 origin place p rest v after hsign ih =>
    intro b hb
    have := ih (by omega) b hb
    omega
  | case3 origin place p rest hsign hp length ih ih' =>
    intro b hb
    rcases List.mem_cons.1 hb with rfl | hb
    · exact ⟨h, Or.inl rfl⟩
    · rcases List.mem_append.1 hb with hb | hb
      · have := ih (Nat.le_refl _) b hb
        omega
      · have := ih' (by omega) b hb
        omega
  | case4 origin place p rest hsign hp ih =>
    intro b hb
    have := ih (by omega) b hb
    omega

/-- **A bare call is counted from the origin** if it stands in the operand of no other one.  The
calls of an operand stand within the call of the operand, and the calls after it stand behind all of
these. -/
theorem origin_eq_iff {origin place : Nat} {pieces : List Piece} (h : origin ≤ place) :
    ∀ b ∈ bareCalls origin place pieces,
      (b.origin = origin ↔ ∀ c ∈ bareCalls origin place pieces, ¬ b.Within c) := by
  fun_induction bareCalls origin place pieces with
  | case1 => exact nofun
  | case2 origin place p rest v after hsign ih => exact ih (by omega)
  | case3 origin place p rest hsign hp length ih ih' =>
    have hlength : (rest.take length).length ≤ length := by
      rw [List.length_take]
      omega
    have hinner : ∀ b ∈ bareCalls (place + 1) (place + 1) (rest.take length),
        place + 1 ≤ b.place ∧ b.place + b.operand.length < place + 1 + (rest.take length).length :=
      fun b hb => bounds_bareCalls hb
    have hlater : ∀ b ∈ bareCalls origin (place + 1 + length) (rest.drop length),
        place + 1 + length ≤ b.place := fun b hb => (bounds_bareCalls hb).1
    intro b hb
    simp only [List.forall_mem_cons, List.forall_mem_append, BareCall.Within]
    rcases List.mem_cons.1 hb with rfl | hb
    · dsimp only
      refine ⟨fun _ => ⟨by omega, fun c hc => ?_, fun c hc => ?_⟩, fun _ => rfl⟩
      · have := hinner c hc
        omega
      · have := hlater c hc
        omega
    · rcases List.mem_append.1 hb with hb | hb
      · have horigin := origin_bareCalls (Nat.le_refl _) b hb
        have hplace := hinner b hb
        constructor
        · omega
        · rintro ⟨hout, -⟩
          omega
      · have hplace := hlater b hb
        have hiff := ih' (by omega) b hb
        simp only [BareCall.Within] at hiff
        rw [hiff]
        constructor
        · intro hnone
          refine ⟨by omega, fun c hc => ?_, hnone⟩
          have := hinner c hc
          omega
        · exact fun hnone => hnone.2.2
  | case4 origin place p rest hsign hp ih => exact ih (by omega)

/-! ## The notes of a line -/

/-- The text and the position that a note about an operand names. -/
def Warning.about? : Warning → Option (String × Nat)
  | .noArgumentList position => some ("lim", position)
  | .noOperand text position => some (text, position)
  | _ => none

theorem about_callNotes (position : Nat) (p : Piece) (operand : List Piece) :
    ∀ w ∈ callNotes position p operand, w.about? = some (p.text, position) := by
  unfold callNotes
  intro w hw
  rcases List.mem_append.1 hw with hw | hw
  · split at hw
    · rename_i htext
      rw [List.mem_singleton.1 hw, htext]
      rfl
    · cases hw
  · split at hw
    · rw [List.mem_singleton.1 hw]
      rfl
    · cases hw

/-- The notes of a line about operands are those of its calls. -/
theorem filter_warnings (config : Config) (symbols : List Symbol) :
    (linearize config symbols).warnings.filter (·.stage = .calls) =
      (writeCalls 0 (beforeCalls config (piecesOf (symbols.filter (isKept config)))).1).2 := by
  have hnone {notes : List Warning} {stage : Stage} (hnotes : ∀ w ∈ notes, w.stage = stage)
      (hstage : stage ≠ .calls) : notes.filter (·.stage = .calls) = [] := by
    rw [List.filter_eq_nil_iff]
    intro w hw
    simpa [hnotes w hw] using hstage
  have hselect := hnone (stage_select config symbols) (by decide)
  unfold linearize
  split
  · rename_i notes hselected
    rw [hselected] at hselect
    rw [filter_of_select hselected]
    simpa [piecesOf, sortByCenter, joinNames, beforeCalls, groupExponents, pairBars, barPairs,
      writeBars, writeCalls] using hselect
  · rename_i kept notes hselected
    rw [hselected] at hselect
    obtain rfl := kept_of_select hselected
    have hcalls (row : List Piece) :
        (writeCalls 0 row).2.filter (·.stage = .calls) = (writeCalls 0 row).2 := by
      rw [List.filter_eq_self]
      intro w hw
      simpa using stage_writeCalls 0 row w hw
    simp only [assemble, beforeRepair, beforeCalls, pairBars, List.filter_append, hselect, hcalls,
      hnone (stage_groupExponents config _) (by decide), hnone (stage_writeBars _ 0 _) (by decide),
      hnone (stage_repairBrackets _ _) (by decide), hnone (stage_balanceNotes _) (by decide),
      hnone (stage_insertMultiplication config _) (by decide), List.nil_append, List.append_nil]

/-- **Which notes about operands name the place of their function.**  Every bare call of a row
stands at its place, in front of its operand, and the notes of a line about operands are what is
noted of its bare calls, in order.  Each names the text of its function, and all of them name its
place if none of them is about a bare call that stands in the operand of another one, and only
then. -/
theorem operandNotes_linearize (config : Config) (symbols : List Symbol) :
    let row := (beforeCalls config (piecesOf (symbols.filter (isKept config)))).1
    let calls := bareCalls 0 0 row
    (∀ b ∈ calls, ∃ before after,
        row = before ++ b.piece :: (b.operand ++ after) ∧ before.length = b.place) ∧
      (linearize config symbols).warnings.filter (·.stage = .calls) =
        calls.flatMap BareCall.notes ∧
      (∀ b ∈ calls, ∀ w ∈ b.notes, (w.about?.map Prod.fst) = some b.piece.text) ∧
      ((∀ b ∈ calls, ∀ w ∈ b.notes, w.about? = some (b.piece.text, b.place)) ↔
        ∀ b ∈ calls, b.notes ≠ [] → ∀ c ∈ calls, ¬ b.Within c) := by
  intro row calls
  have habout : ∀ b : BareCall, ∀ w ∈ b.notes,
      w.about? = some (b.piece.text, b.place - b.origin) := fun b => about_callNotes _ _ _
  refine ⟨fun b hb => ?_, ?_, fun b _ w hw => by rw [habout b w hw]; rfl, ?_⟩
  · obtain ⟨before, after, hrow, hplace⟩ := stands_bareCalls b hb
    exact ⟨before, after, hrow, by omega⟩
  · rw [filter_warnings]
    exact notes_writeCalls (Nat.le_refl 0)
  · constructor
    · intro hnames b hb hnotes
      obtain ⟨w, hw⟩ := List.exists_mem_of_ne_nil _ hnotes
      have hplace := (habout b w hw).symm.trans (hnames b hb w hw)
      have horigin := (origin_bareCalls (Nat.le_refl 0) b hb).1
      have hzero : b.origin = 0 := by
        simp only [Option.some.injEq, Prod.mk.injEq, true_and] at hplace
        omega
      exact (origin_eq_iff (Nat.le_refl 0) b hb).1 hzero
    · intro hwithin b hb w hw
      have hzero := (origin_eq_iff (Nat.le_refl 0) b hb).2
        (hwithin b hb (List.ne_nil_of_mem hw))
      rw [habout b w hw, hzero, Nat.sub_zero]

/-- A letter, and a root in the operand of another root. -/
def stackedRoots : List Symbol :=
  [symbolAt "x" 0.0 0.0 10.0 20.0, symbolAt "√" 12.0 0.0 22.0 20.0,
    symbolAt "√" 24.0 0.0 34.0 20.0]

/-- **A note that names another piece**: the root without an operand stands at position 2, and at
the position that is noted stands the letter. -/
theorem linearize_misplaces_root :
    let row := (beforeCalls {} (piecesOf (stackedRoots.filter (isKept {})))).1
    (linearize {} stackedRoots).text = "x*sqrt(sqrt())" ∧
      (linearize {} stackedRoots).warnings = [.noOperand "√" 0] ∧
      row.map (·.text) = ["x", "√", "√"] ∧
      (bareCalls 0 0 row).map (fun b => (b.place, b.notes)) = [(1, []), (2, [.noOperand "√" 0])] := by
  decide +kernel

end GlyphMath.Line
