import GlyphMath.Proofs.Bars
import GlyphMath.Proofs.Calling
import GlyphMath.Proofs.Operands

/-!
# Exponents and what they stand at

* `powerSign` -- the sign in front of a raised run.
* `Kind.isBase` -- what an exponent can stand at: a number, a variable or a closing bracket.
* `Behind` -- every such sign of a row stands behind a piece that fits, by its place.
* `BehindBase` -- every such sign of a row stands at something, or at one of some places.
* `Opened` -- every such sign of a row stands before an opening bracket.
* `placeOf` -- where the pieces behind so many are written, when bars are written as calls.
* `CallStops` -- the places where the operands of bare calls end.

A raised run stands at a piece that ends a value.  Of these only a bar becomes something else, and a
bare call puts a closing bracket between the end of its operand and a sign behind it.

Principal results:

* `behind_groupExponents`, `behind_writeBars`, `behind_writeCalls`, `behind_insertMultiplication` --
  what power signs stand behind, from stage to stage.
* `opened_groupExponents`, `opened_writeBars`, `opened_writeCalls`, `opened_insertMultiplication` --
  every stage keeps the bracket of an exponent at its sign.
-/

set_option autoImplicit false

namespace GlyphMath.Line

/-- The sign in front of a raised run. -/
def powerSign : Piece := Piece.added "^" .operator

theorem ne_powerSign {p : Piece} (h : p.kind ≠ .operator) : p ≠ powerSign := by
  rintro rfl
  exact h rfl

/-- What an exponent can stand at. -/
def Kind.isBase : Kind → Bool
  | .number => true
  | .variable => true
  | .closing => true
  | _ => false

theorem isBase_of_endsValue {k : Kind} (h : k.endsValue = true) (hk : k ≠ .bar) :
    k.isBase = true := by
  cases k
  case bar => exact absurd rfl hk
  all_goals first
    | rfl
    | cases h

/-! ## What stands before a power sign -/

/-- Every power sign of a row stands behind a piece that fits.  The first piece of the row stands at
the given place. -/
def Behind (fits : Nat → Piece → Prop) : Nat → List Piece → Prop
  | _, [] => True
  | place, p :: rest =>
    (rest.head? = some powerSign → fits place p) ∧ Behind fits (place + 1) rest

instance decidableBehind (fits : Nat → Piece → Prop) [∀ i p, Decidable (fits i p)] :
    (place : Nat) → (row : List Piece) → Decidable (Behind fits place row)
  | _, [] => isTrue trivial
  | place, p :: rest =>
    have := decidableBehind fits (place + 1) rest
    inferInstanceAs (Decidable ((rest.head? = some powerSign → fits place p) ∧ _))

section

variable {fits fits' : Nat → Piece → Prop} {place place' : Nat} {row as bs : List Piece}

theorem behind_cons {p : Piece} (h : row.head? = some powerSign → fits place p) :
    Behind fits place (p :: row) ↔ Behind fits (place + 1) row :=
  and_iff_right h

theorem behind_iff : Behind fits place row ↔
    ∀ before p after, row = before ++ p :: powerSign :: after → fits (place + before.length) p := by
  induction row generalizing place with
  | nil => simp [Behind]
  | cons q row ih =>
    rw [Behind, ih]
    constructor
    · rintro ⟨hfront, hrow⟩ before p after heq
      cases before with
      | nil =>
        obtain ⟨rfl, rfl⟩ := List.cons.inj heq
        exact hfront rfl
      | cons q' before =>
        obtain ⟨rfl, rfl⟩ := List.cons.inj heq
        have := hrow before p after rfl
        rwa [Nat.add_right_comm] at this
    · intro h
      refine ⟨fun hhead => ?_, fun before p after heq => ?_⟩
      · obtain ⟨after, rfl⟩ := List.head?_eq_some_iff.1 hhead
        exact h [] q after rfl
      · have := h (q :: before) p after (by rw [heq]; rfl)
        rwa [List.length_cons, ← Nat.add_assoc, Nat.add_right_comm] at this

/-- Only the pieces of a row matter that others follow. -/
theorem behind_congr
    (h : ∀ i p, i + 1 < row.length → (fits (place + i) p ↔ fits' (place' + i) p)) :
    Behind fits place row ↔ Behind fits' place' row := by
  induction row generalizing place place' with
  | nil => exact Iff.rfl
  | cons q row ih =>
    have hrow := @ih (place + 1) (place' + 1) fun i p hi => by
      have := h (i + 1) p (by simpa using hi)
      rwa [← Nat.add_assoc, ← Nat.add_assoc, Nat.add_right_comm place,
        Nat.add_right_comm place'] at this
    rw [Behind, Behind, hrow]
    refine and_congr_left' (imp_congr_right fun hhead => h 0 q ?_)
    obtain ⟨rest, rfl⟩ := List.head?_eq_some_iff.1 hhead
    simp

/-- Between two rows a power sign may stand only behind a piece that fits. -/
theorem behind_append
    (hjoin : ∀ i p, as.length = i + 1 → bs.head? = some powerSign → fits (place + i) p) :
    Behind fits place (as ++ bs) ↔ Behind fits place as ∧ Behind fits (place + as.length) bs := by
  induction as generalizing place with
  | nil => simp [Behind]
  | cons p as ih =>
    have has := @ih (place + 1) fun i q hi hhead => by
      have := hjoin (i + 1) q (by simp [hi]) hhead
      rwa [← Nat.add_assoc, Nat.add_right_comm] at this
    rw [List.cons_append, Behind, Behind, has, and_assoc, List.length_cons, Nat.add_right_comm,
      Nat.add_assoc]
    refine and_congr_left' ?_
    cases as with
    | nil =>
      have hp := hjoin 0 p rfl
      simpa using hp
    | cons q as => rfl

theorem behind_of_notMem (h : powerSign ∉ row) : Behind fits place row := by
  rw [behind_iff]
  rintro before p after rfl
  simp at h

end

/-- Every power sign of a row stands behind what an exponent can stand at, or at a stop. -/
def BehindBase (stops : Nat → Prop) (place : Nat) (row : List Piece) : Prop :=
  Behind (fun i p => p.kind.isBase = true ∨ stops (i + 1)) place row

/-! ## What stands behind a power sign -/

/-- Every power sign of a row stands before an opening bracket. -/
def Opened : List Piece → Prop
  | [] => True
  | p :: rest => (p = powerSign → rest.head? = some Piece.openParen) ∧ Opened rest

section

variable {p : Piece} {row as bs : List Piece}

theorem Opened.append (has : Opened as) (hbs : Opened bs) : Opened (as ++ bs) := by
  induction as with
  | nil => exact hbs
  | cons p as ih =>
    refine ⟨fun hp => ?_, ih has.2⟩
    obtain ⟨rest, rfl⟩ := List.head?_eq_some_iff.1 (has.1 hp)
    rfl

theorem opened_cons (hp : p ≠ powerSign) (h : Opened row) : Opened (p :: row) :=
  ⟨fun heq => absurd heq hp, h⟩

theorem opened_of_notMem (h : powerSign ∉ row) : Opened row := by
  induction row with
  | nil => trivial
  | cons p row ih =>
    rw [List.mem_cons, not_or] at h
    exact opened_cons (Ne.symm h.1) (ih h.2)

theorem Opened.of_append (h : Opened (as ++ bs)) : Opened bs := by
  induction as with
  | nil => exact h
  | cons p as ih => exact ih h.2

theorem Opened.after (h : Opened (as ++ powerSign :: bs)) : bs.head? = some Piece.openParen :=
  h.of_append.1 rfl

end

/-! ## Exponents -/

theorem ne_powerSign_of_wasSeen {p : Piece} (h : wasSeen p = true) : p ≠ powerSign := by
  rintro rfl
  cases h

theorem endsValue_of_isSuperscript {config : Config} {base candidate : Piece}
    (h : isSuperscript config base candidate = true) : base.kind.endsValue = true := by
  unfold isSuperscript at h
  split at h
  · assumption
  · cases h

theorem powerSign_notMem_run {run : List Piece} (h : ∀ p ∈ run, wasSeen p = true) :
    powerSign ∉ Piece.openParen :: (sortByCenter run ++ [Piece.closeParen]) := by
  have hsorted : powerSign ∉ sortByCenter run := fun hmem =>
    ne_powerSign_of_wasSeen (h _ ((sortByCenter_perm run).subset hmem)) rfl
  simp only [List.mem_cons, List.mem_append, List.not_mem_nil, or_false, not_or]
  exact ⟨by decide, hsorted, by decide⟩

/-- **A raised run stands at a piece that ends a value**, and none in front of a row. -/
theorem behind_groupExponents (config : Config) {pieces : List Piece}
    (hseen : ∀ p ∈ pieces, wasSeen p = true) (place : Nat) :
    (groupExponents config pieces).1.head? ≠ some powerSign ∧
      Behind (fun _ p => p.kind.endsValue = true) place (groupExponents config pieces).1 := by
  fun_induction groupExponents config pieces generalizing place with
  | case1 => exact ⟨by simp, trivial⟩
  | case2 base rest run out notes hout =>
    rename_i ih
    rw [hout] at ih
    have hrest : ∀ p ∈ rest, wasSeen p = true := fun p hp => hseen p (List.mem_cons_of_mem _ hp)
    have hafter : ∀ p ∈ rest.dropWhile (isSuperscript config base), wasSeen p = true :=
      fun p hp => hrest p ((List.dropWhile_sublist _).subset hp)
    refine ⟨fun hhead => ?_, ?_⟩
    · exact ne_powerSign_of_wasSeen (hseen base List.mem_cons_self) (Option.some.inj hhead)
    · dsimp only
      cases hrun : run with
      | nil => exact ⟨fun hhead => absurd hhead (ih hafter 0).1, (ih hafter _).2⟩
      | cons q run' =>
        have hraised : isSuperscript config base q = true :=
          List.all_eq_true.1 List.all_takeWhile q (show q ∈ run by simp [hrun])
        have hnone : powerSign ∉ Piece.openParen :: (sortByCenter run ++ [Piece.closeParen]) :=
          powerSign_notMem_run fun p hp => hrest p ((List.takeWhile_sublist _).subset hp)
        rw [hrun] at hnone
        refine ⟨fun _ => endsValue_of_isSuperscript hraised, ?_⟩
        rw [behind_append fun _ _ _ hhead => absurd hhead (ih hafter 0).1]
        refine ⟨⟨fun hhead => ?_, behind_of_notMem hnone⟩, (ih hafter _).2⟩
        exact absurd (Option.some.inj hhead) (by decide)

theorem opened_groupExponents (config : Config) {pieces : List Piece}
    (hseen : ∀ p ∈ pieces, wasSeen p = true) : Opened (groupExponents config pieces).1 := by
  fun_induction groupExponents config pieces with
  | case1 => trivial
  | case2 base rest run out notes hout =>
    rename_i ih
    rw [hout] at ih
    have hrest : ∀ p ∈ rest, wasSeen p = true := fun p hp => hseen p (List.mem_cons_of_mem _ hp)
    have hafter := ih fun p hp => hrest p ((List.dropWhile_sublist _).subset hp)
    have hexponent : Opened (exponent run) := by
      unfold exponent
      split
      · trivial
      · refine ⟨fun _ => rfl, opened_of_notMem (powerSign_notMem_run fun p hp => ?_)⟩
        exact hrest p ((List.takeWhile_sublist _).subset hp)
    exact opened_cons (ne_powerSign_of_wasSeen (hseen base List.mem_cons_self))
      (hexponent.append hafter)

/-! ## Bars -/

section

variable {pairs : List (Nat × Nat)} {position : Nat} {row : List Piece}

/-- A piece that no bar is written as comes first if it came first. -/
theorem head?_writeBars (hpairs : Matching pairs) {q : Piece}
    (hbars : ∀ pair ∈ pairs, ∀ i p, row[i]? = some p →
      pair.1 = position + i ∨ pair.2 = position + i → p.kind = .bar)
    (hq : q.kind ≠ .bar ∧ q.kind ≠ .closing ∧ q.kind ≠ .function) :
    (writeBars pairs position row).1.head? = some q ↔ row.head? = some q := by
  cases row with
  | nil => rfl
  | cons p rest =>
    have hp (hkind : p.kind = .bar) : ¬ p = q := by
      rintro rfl
      exact hq.1 hkind
    rcases writeBars_cons hpairs rest (bars_cons hbars).1 with
      ⟨hkind, -, hrow⟩ | ⟨hkind, -, hrow⟩ | ⟨-, hrow⟩
    · have habs : ¬ (⟨"abs", .function, p.box⟩ : Piece) = q := by
        rintro rfl
        exact hq.2.2 rfl
      simp [hrow, habs, hp hkind]
    · have hclose : ¬ Piece.closeParen = q := by
        rintro rfl
        exact hq.2.1 rfl
      simp [hrow, hclose, hp hkind]
    · simp [hrow]

/-- The place of the piece behind so many pieces, once bars are written. -/
def placeOf (pairs : List (Nat × Nat)) : Nat → Nat
  | 0 => 0
  | i + 1 => placeOf pairs i + if pairs.any (·.1 == i) then 2 else 1

theorem length_writeBars (pairs : List (Nat × Nat)) (position : Nat) (row : List Piece) :
    placeOf pairs position + (writeBars pairs position row).1.length =
      placeOf pairs (position + row.length) := by
  induction row generalizing position with
  | nil => rfl
  | cons p row ih =>
    have hrow := ih (position + 1)
    rw [placeOf, Nat.add_right_comm] at hrow
    rw [List.length_cons, ← Nat.add_assoc, Nat.add_right_comm, writeBars]
    dsimp only
    split
    · rename_i hfirst
      rw [if_pos hfirst] at hrow
      simp only [List.length_cons]
      omega
    · rename_i hfirst
      rw [if_neg hfirst] at hrow
      split
      · simp only [List.length_cons]
        omega
      · simp only [List.length_cons]
        omega

/-- **Writing bars.**  A power sign behind a bar stands behind a closing bracket if the bar is the
second one of a pair, and behind an opening bracket or a bar otherwise. -/
theorem behind_writeBars (hpairs : Matching pairs) (stops : Nat → Prop)
    (hbars : ∀ pair ∈ pairs, ∀ i p, row[i]? = some p →
      pair.1 = position + i ∨ pair.2 = position + i → p.kind = .bar)
    (hends : Behind (fun _ p => p.kind.endsValue = true) position row) :
    BehindBase stops (placeOf pairs position) (writeBars pairs position row).1 ↔
      Behind (fun i p => p.kind = .bar →
        (∃ pair ∈ pairs, pair.2 = i) ∨ stops (placeOf pairs (i + 1))) position row := by
  unfold BehindBase
  induction row generalizing position with
  | nil => exact Iff.rfl
  | cons p rest ih =>
    obtain ⟨hbar, hrest⟩ := bars_cons hbars
    have hhead := head?_writeBars hpairs hrest (show powerSign.kind ≠ .bar ∧ _ by decide)
    have hout := ih hrest hends.2
    rw [placeOf] at hout
    rw [Behind, writeBars]
    dsimp only
    by_cases hfirst : pairs.any (·.1 == position) = true
    · -- The first bar of a pair is not the second bar of one, and a bracket follows its call.
      rw [if_pos hfirst] at hout ⊢
      obtain ⟨pair, hpair, heq⟩ := List.any_eq_true.1 hfirst
      obtain rfl := eq_of_beq heq
      have hsecond : ¬ ∃ pair' ∈ pairs, pair'.2 = pair.1 := by
        rintro ⟨pair', hpair', heq'⟩
        exact hpairs.apart pair hpair pair' hpair' heq'.symm
      have hopen : ¬ Piece.openParen.kind.isBase = true := by decide
      have hnext : Piece.openParen ≠ powerSign := by decide
      rw [Behind, Behind, hout, hhead, placeOf, if_pos hfirst]
      simp [hsecond, hopen, hnext, hbar pair hpair (Or.inl rfl)]
    · rw [if_neg hfirst] at hout ⊢
      by_cases hsecond : pairs.any (·.2 == position) = true
      · rw [if_pos hsecond, Behind, hout]
        obtain ⟨pair, hpair, heq⟩ := List.any_eq_true.1 hsecond
        have hpaired : ∃ pair ∈ pairs, pair.2 = position := ⟨pair, hpair, eq_of_beq heq⟩
        have hclose : Piece.closeParen.kind.isBase = true := by decide
        simp [hpaired, hclose]
      · rw [if_neg hsecond, Behind, hout, hhead, placeOf, if_neg hfirst]
        have hpaired : ¬ ∃ pair ∈ pairs, pair.2 = position := by
          rintro ⟨pair, hpair, heq⟩
          exact hsecond (List.any_eq_true.2 ⟨pair, hpair, beq_iff_eq.2 heq⟩)
        refine and_congr_left' (imp_congr_right fun hpower => ?_)
        have hkind := hends.1 hpower
        by_cases hbarKind : p.kind = .bar
        · simp [hbarKind, hpaired, Kind.isBase]
        · simp [hbarKind, isBase_of_endsValue hkind hbarKind]

/-- The bracket of an exponent is no bar. -/
theorem opened_writeBars (hpairs : Matching pairs)
    (hbars : ∀ pair ∈ pairs, ∀ i p, row[i]? = some p →
      pair.1 = position + i ∨ pair.2 = position + i → p.kind = .bar) (h : Opened row) :
    Opened (writeBars pairs position row).1 := by
  induction row generalizing position with
  | nil => trivial
  | cons p rest ih =>
    obtain ⟨hbar, hrest⟩ := bars_cons hbars
    have hout := ih hrest h.2
    rcases writeBars_cons hpairs rest hbar with ⟨-, -, hrow⟩ | ⟨-, -, hrow⟩ | ⟨-, hrow⟩
    · rw [hrow]
      exact opened_cons (ne_powerSign nofun)
        (opened_cons (by decide) hout)
    · rw [hrow]
      exact opened_cons (by decide) hout
    · have hhead := head?_writeBars hpairs hrest (show Piece.openParen.kind ≠ .bar ∧ _ by decide)
      rw [hrow]
      exact ⟨fun hpower => hhead.2 (h.1 hpower), hout⟩

end

/-! ## Calls -/

section

variable {row : List Piece}

/-- A sign that comes first if it came first, whatever is called. -/
theorem head?_writeCalls (position : Nat) {q : Piece} (hq : isCallable q = false)
    (htext : q.text ≠ "d") :
    (writeCalls position row).1.head? = some q ↔ row.head? = some q := by
  constructor
  · intro h
    obtain ⟨out, hout⟩ := List.head?_eq_some_iff.1 h
    have hkind : q.kind ≠ .function := by
      intro hfunction
      simp [isCallable, hfunction] at hq
    obtain ⟨rest, rfl, -⟩ := writeCalls_eq_cons hout hkind
    rfl
  · intro h
    obtain ⟨rest, rfl⟩ := List.head?_eq_some_iff.1 h
    rw [writeCalls_written (derivative?_of_text htext) (by simp [isBare, hq]), Piece.written, hq]
    rfl

theorem head?_writeCalls_powerSign (position : Nat) :
    (writeCalls position row).1.head? = some powerSign ↔ row.head? = some powerSign :=
  head?_writeCalls position (by decide) (by decide)

theorem head?_operand (row : List Piece) :
    (row.take (operandLength 0 true row)).head? ≠ some powerSign := by
  cases row with
  | nil => nofun
  | cons p rest =>
    intro h
    rcases operandLength_cons 0 true p rest with hlength | ⟨depth', hlength⟩
    · rw [hlength] at h
      cases h
    · have hp : p = powerSign := by simpa [hlength] using h
      rw [hp] at hlength
      cases hlength

theorem isBase_written (p : Piece) : p.written.kind.isBase = p.kind.isBase := by
  unfold Piece.written
  split
  · rename_i hp
    simp only [isCallable, Bool.or_eq_true, beq_iff_eq] at hp
    rcases hp with hp | hp
    · rw [hp]
      rfl
    · rw [hp]
      rfl
  · rfl

/-- Power signs of a row with a bare call in front: one of them may stand right behind the
operand, where the call stops, and the others stand in the operand or behind it. -/
theorem behindBase_operand {stops inner later : Nat → Prop} {place : Nat} {operand : List Piece}
    (p : Piece) (rest : List Piece) (hhead : operand.head? ≠ some powerSign)
    (hstops : ∀ i, stops i ↔ i = place + 1 + operand.length ∨ inner i ∨ later i)
    (hinner : ∀ i, inner i → i ≤ place + 1 + operand.length)
    (hlater : ∀ i, later i → place + 1 + operand.length < i) :
    BehindBase stops place (p :: (operand ++ rest)) ↔
      BehindBase inner (place + 1) operand ∧
        BehindBase later (place + 1 + operand.length) rest := by
  have hoperand : BehindBase stops (place + 1) operand ↔ BehindBase inner (place + 1) operand := by
    refine behind_congr fun i q hi => or_congr_right ?_
    have hbehind := hlater (place + 1 + i + 1)
    rw [hstops]
    constructor
    · rintro (heq | h | h)
      · omega
      · exact h
      · have := hbehind h
        omega
    · exact fun h => Or.inr (Or.inl h)
  have hrest : BehindBase stops (place + 1 + operand.length) rest ↔
      BehindBase later (place + 1 + operand.length) rest := by
    refine behind_congr fun i q hi => or_congr_right ?_
    have hbefore := hinner (place + 1 + operand.length + i + 1)
    rw [hstops]
    constructor
    · rintro (heq | h | h)
      · omega
      · have := hbefore h
        omega
      · exact h
    · exact fun h => Or.inr (Or.inr h)
  have hfront : BehindBase stops place (p :: operand) ↔ BehindBase stops (place + 1) operand :=
    behind_cons fun hpower => absurd hpower hhead
  rw [← hoperand, ← hrest, ← hfront, ← List.cons_append, BehindBase, behind_append]
  · rw [List.length_cons, ← Nat.add_assoc, Nat.add_right_comm]
    rfl
  · intro i q hi _
    obtain rfl : operand.length = i := by simpa using hi
    right
    rw [hstops]
    omega

/-- Power signs of a row with a call in front: none of them stands behind one of its brackets that
is no base. -/
theorem behind_call {head : Piece} {inner out : List Piece} {place : Nat}
    (hinner : inner.head? ≠ some powerSign) :
    Behind (fun _ p => p.kind.isBase = true) place
        (head :: Piece.openParen :: (inner ++ Piece.closeParen :: out)) ↔
      Behind (fun _ p => p.kind.isBase = true) (place + 2) inner ∧
        Behind (fun _ p => p.kind.isBase = true) (place + 2 + inner.length + 1) out := by
  have hopen : (Piece.openParen :: (inner ++ Piece.closeParen :: out)).head? ≠ some powerSign := by
    simp [show Piece.openParen ≠ powerSign by decide]
  have hclose : (Piece.closeParen :: out).head? ≠ some powerSign := by
    simp [show Piece.closeParen ≠ powerSign by decide]
  have hnext : (inner ++ Piece.closeParen :: out).head? ≠ some powerSign := by
    cases inner with
    | nil => exact hclose
    | cons q inner => exact hinner
  rw [behind_cons fun hhead => absurd hhead hopen, behind_cons fun hhead => absurd hhead hnext,
    behind_append fun _ _ _ hhead => absurd hhead hclose, behind_cons fun _ => rfl]

/-- The operand of a bare call ends right before a place. -/
def CallStops (origin place : Nat) (row : List Piece) (i : Nat) : Prop :=
  ∃ b ∈ bareCalls origin place row, b.stop = i

theorem bounds_callStops {origin place : Nat} {i : Nat} (h : CallStops origin place row i) :
    place < i ∧ i ≤ place + row.length := by
  obtain ⟨b, hb, rfl⟩ := h
  have := bounds_bareCalls hb
  unfold BareCall.stop
  omega

/-- **Writing calls.**  A power sign behind the operand of a bare call comes to stand behind its
closing bracket; before every other one stands what has stood there. -/
theorem behind_writeCalls (origin place place' position : Nat) :
    Behind (fun _ p => p.kind.isBase = true) place' (writeCalls position row).1 ↔
      BehindBase (CallStops origin place row) place row := by
  unfold BehindBase CallStops
  fun_induction bareCalls origin place row generalizing place' position with
  | case1 => rw [writeCalls]; exact Iff.rfl
  | case2 origin place p rest v after hsign ih =>
    obtain ⟨d, slash, d', heq, hd, hslash, hd', hv⟩ := derivative?_eq_some.1 hsign
    obtain ⟨rfl, rfl⟩ := List.cons.inj heq
    have hpower {q : Piece} (hq : q.text ≠ "^") : q ≠ powerSign := fun h => hq (by rw [h]; rfl)
    have hvPower : v ≠ powerSign := ne_powerSign (by simp [hv])
    have hslashPower : slash ≠ powerSign := hpower (by rw [hslash]; decide)
    have hdPower : d' ≠ powerSign := hpower (by rw [hd']; decide)
    have hopen : Piece.openParen ≠ powerSign := by decide
    have hclose : Piece.closeParen ≠ powerSign := by decide
    have hcloses : Piece.closeParen.kind.isBase = true := by decide
    have hvalue : v.kind.isBase = true := by rw [hv]; rfl
    rw [writeCalls_derivative hsign]
    simp [Behind, hvPower, hslashPower, hdPower, hopen, hclose, hcloses, hvalue, ih]
  | case3 origin place p rest hsign hp length ih ih' =>
    have hlength : (rest.take length).length = length := by
      have : length ≤ rest.length := operandLength_le 0 true rest
      rw [List.length_take]
      omega
    have hstop : ∀ i, (∃ b ∈ (⟨place, origin, p, rest.take length⟩ : BareCall) ::
        (bareCalls (place + 1) (place + 1) (rest.take length) ++
          bareCalls origin (place + 1 + length) (rest.drop length)), b.stop = i) ↔
        i = place + 1 + length ∨ CallStops (place + 1) (place + 1) (rest.take length) i ∨
          CallStops origin (place + 1 + length) (rest.drop length) i := by
      intro i
      simp only [List.mem_cons, List.mem_append, or_and_right, exists_or, exists_eq_left,
        BareCall.stop, hlength, CallStops, eq_comm, Nat.add_right_comm]
    have hrow := behindBase_operand p (rest.drop length) (head?_operand rest)
      (by rw [hlength]; exact hstop)
      (fun i h => by have := (bounds_callStops h).2; omega)
      (fun i h => by rw [hlength]; exact (bounds_callStops h).1)
    rw [List.take_append_drop, hlength] at hrow
    have hout : Behind (fun _ p => p.kind.isBase = true) place' (writeCalls position (p :: rest)).1 ↔
        Behind (fun _ p => p.kind.isBase = true) (place' + 2) (writeCalls 0 (rest.take length)).1 ∧
          Behind (fun _ p => p.kind.isBase = true)
            (place' + 2 + (writeCalls 0 (rest.take length)).1.length + 1)
            (writeCalls (position + 1 + length) (rest.drop length)).1 := by
      rw [writeCalls_bare hsign hp]
      exact behind_call (mt (head?_writeCalls_powerSign 0).1 (head?_operand rest))
    rw [hout, ih, ih']
    exact hrow.symm
  | case4 origin place p rest hsign hp ih =>
    have hnone : ¬ CallStops origin (place + 1) rest (place + 1) := fun hstop =>
      absurd (bounds_callStops hstop).1 (Nat.lt_irrefl _)
    unfold CallStops at hnone
    rw [writeCalls_written hsign (by simpa using hp)]
    simp only [Behind, head?_writeCalls_powerSign, isBase_written, hnone, or_false, ih (place' + 1)]

theorem opened_operand (depth : Nat) (leading : Bool) (h : Opened row) :
    Opened (row.take (operandLength depth leading row)) := by
  induction row generalizing depth leading with
  | nil => trivial
  | cons p rest ih =>
    rcases operandLength_cons depth leading p rest with hlength | ⟨depth', hlength⟩
    · rw [hlength]
      trivial
    · rw [hlength, List.take_succ_cons]
      refine ⟨fun hp => ?_, ih depth' false h.2⟩
      obtain ⟨after, rfl⟩ := List.head?_eq_some_iff.1 (h.1 hp)
      rfl

theorem opened_writeCalls (position : Nat) (h : Opened row) :
    Opened (writeCalls position row).1 := by
  fun_induction writeCalls position row with
  | case1 => trivial
  | case2 position p rest v after hsign out notes hout ih =>
    rw [hout] at ih
    obtain ⟨d, slash, d', heq, -, -, -, hv⟩ := derivative?_eq_some.1 hsign
    rw [heq] at h
    have hvariable : v ≠ powerSign := ne_powerSign (by simp [hv])
    exact opened_cons (by decide) (opened_cons (by decide)
      (opened_cons hvariable (opened_cons (by decide) (ih h.2.2.2.2))))
  | case3 position p rest hsign hp head hcalled out notes hout ih =>
    rw [hout] at ih
    exact opened_cons (ne_powerSign (show Kind.function ≠ .operator by decide)) (ih h.2)
  | case4 position p rest hsign hp head hbare length inner innerNotes hinner out notes hout =>
    rename_i ih ih'
    rw [hinner] at ih
    rw [hout] at ih'
    have hrest := h.2
    rw [← List.take_append_drop length rest] at hrest
    have hrow := (ih (opened_operand 0 true h.2)).append
      (opened_cons (show Piece.closeParen ≠ powerSign by decide) (ih' hrest.of_append))
    exact opened_cons (ne_powerSign (show Kind.function ≠ .operator by decide))
      (opened_cons (by decide) hrow)
  | case5 position p rest hsign hp out notes hout ih =>
    have hhead : (writeCalls (position + 1) rest).1.head? = some Piece.openParen ↔ _ :=
      head?_writeCalls (position + 1) (by decide) (by decide)
    rw [hout] at ih hhead
    exact ⟨fun hpower => hhead.2 (h.1 hpower), ih h.2⟩

end

/-! ## Multiplication signs -/

section

variable {row : List Piece} (config : Config)

/-- **Writing multiplication signs.**  None of them is put in front of a power sign. -/
theorem behind_insertMultiplication (place place' : Nat) :
    Behind (fun _ p => p.kind.isBase = true) place' (insertMultiplication config row).1 ↔
      Behind (fun _ p => p.kind.isBase = true) place row := by
  fun_induction insertMultiplication config row generalizing place place' with
  | case1 => exact Iff.rfl
  | case2 a => exact Iff.rfl
  | case3 a b rest out notes hout hnumbers ih =>
    have hhead := head?_insertMultiplication config (b :: rest)
    rw [hout] at ih hhead
    rw [Behind, Behind, hhead, ih (place + 1)]
  | case4 a b rest out notes hout hnumbers hvalues ih =>
    have hhead := head?_insertMultiplication config (b :: rest)
    rw [hout] at ih hhead
    rw [Bool.and_eq_true] at hvalues
    have hpower : b ≠ powerSign := by
      rintro rfl
      cases hvalues.2
    have hnext : (b :: rest).head? ≠ some powerSign := by simpa using hpower
    have htimes : (Piece.added "*" .operator :: out).head? ≠ some powerSign := by
      simp [show Piece.added "*" .operator ≠ powerSign by decide]
    rw [behind_cons fun h => absurd h htimes,
      behind_cons fun h => absurd (hhead.symm.trans h) hnext, behind_cons fun h => absurd h hnext,
      ih (place + 1)]
  | case5 a b rest out notes hout hnumbers hvalues ih =>
    have hhead := head?_insertMultiplication config (b :: rest)
    rw [hout] at ih hhead
    rw [Behind, Behind, hhead, ih (place + 1)]

theorem opened_insertMultiplication (h : Opened row) :
    Opened (insertMultiplication config row).1 := by
  fun_induction insertMultiplication config row with
  | case1 => exact h
  | case2 a => exact h
  | case3 a b rest out notes hout hnumbers ih =>
    have hhead := head?_insertMultiplication config (b :: rest)
    rw [hout] at ih hhead
    exact ⟨fun hpower => hhead.trans (h.1 hpower), ih h.2⟩
  | case4 a b rest out notes hout hnumbers hvalues ih =>
    rw [hout] at ih
    have hpower : a ≠ powerSign := by
      rintro rfl
      cases hvalues
    exact opened_cons hpower (opened_cons (by decide) (ih h.2))
  | case5 a b rest out notes hout hnumbers hvalues ih =>
    have hhead := head?_insertMultiplication config (b :: rest)
    rw [hout] at ih hhead
    exact ⟨fun hpower => hhead.trans (h.1 hpower), ih h.2⟩

end

end GlyphMath.Line
