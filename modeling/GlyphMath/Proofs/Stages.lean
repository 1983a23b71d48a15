import GlyphMath.Line.Reading
import Mathlib.Data.List.Sort

/-!
# What the stages of a line do to its pieces

* `Piece.IsRead` -- a piece has its kind from its text.
* `wasSeen` -- a piece has a box.
* `Ordered` -- pieces stand from left to right.
* `Calls` -- a row with its functions called, whatever the operands are.

Principal results:

* `kind_of_spelledName` -- the letters of a spelled name are variables.
* `filter_sortByCenter` -- sorting keeps the order of pieces that are in order already.
* `calls_writeCalls` -- the last stage before the repair calls the functions of a row.
* `forall_joinNames`, `forall_groupExponents`, `forall_writeBars`, `Calls.forall` -- what holds of
  the pieces that come in and of the pieces that a stage adds holds of the pieces that come out.
-/

set_option autoImplicit false

namespace GlyphMath.Line

open Layout (Symbol)

/-! ## Spelled names -/

/-- A piece that has its kind from its text. -/
def Piece.IsRead (p : Piece) : Prop := p.kind = Kind.of p.text

def wasSeen (p : Piece) : Bool := p.box.isSome

theorem Piece.isRead_detected (s : Symbol) : (Piece.detected s).IsRead := by
  simp only [Piece.IsRead, Piece.detected]

theorem spelledNames_letters : ∀ name ∈ spelledNames, name.toList ≠ [] ∧
    ∀ c ∈ name.toList, isLowerCase [c] = true := by
  have h : ∀ name ∈ spelledNames, name.toList ≠ [] ∧
      name.toList.all (fun c => isLowerCase [c]) = true := by decide
  exact fun name hname => ⟨(h name hname).1, List.all_eq_true.1 (h name hname).2⟩

theorem isNumeric_letter {c : Char} (hc : isLowerCase [c] = true) : isNumeric [c] = false := by
  have hlow : 97 ≤ c.toNat := by
    simp only [isLowerCase, Bool.and_eq_true, decide_eq_true_eq] at hc
    exact hc.1
  have hdigit : Decimal.isDigit c = false := by
    simp only [Decimal.isDigit, Bool.and_eq_false_iff, decide_eq_false_iff_not]
    right
    intro h
    have : c.toNat ≤ 57 := h
    omega
  have hpoint : (c == '.') = false := by
    rw [beq_eq_false_iff_ne]
    rintro rfl
    exact absurd hlow (by decide)
  simp [isNumeric, hdigit, hpoint]

theorem Kind.of_letter {text : String} {c : Char} (htext : text.toList = [c])
    (hc : isLowerCase [c] = true) : Kind.of text = .variable := by
  have hsign : isLowerCase text.toList = true := by rw [htext, hc]
  have hname : text ∉ spelledNames := by
    intro hmem
    have hlength : ∀ name ∈ spelledNames, name.toList.length ≠ 1 := by decide
    exact hlength text hmem (by rw [htext]; rfl)
  unfold Kind.of
  split
  all_goals first
    | exact absurd hsign (by decide)
    | rw [htext, isNumeric_letter hc, if_neg (by decide), if_neg hname, if_pos hc]

theorem spells_take {word : List Char} {pieces : List Piece} (h : spells word pieces = true) :
    word.length ≤ pieces.length ∧
      ∀ p ∈ pieces.take word.length, ∃ c ∈ word, p.text.toList = [c] := by
  induction word generalizing pieces with
  | nil => simp
  | cons c word ih =>
    cases pieces with
    | nil => cases h
    | cons p pieces =>
      rw [spells, Bool.and_eq_true, beq_iff_eq] at h
      obtain ⟨hlength, hrest⟩ := ih h.2
      refine ⟨Nat.succ_le_succ hlength, ?_⟩
      simp only [List.length_cons, List.take_succ_cons, List.mem_cons]
      rintro q (rfl | hq)
      · exact ⟨c, Or.inl rfl, h.1⟩
      · obtain ⟨d, hd, hq⟩ := hrest q hq
        exact ⟨d, Or.inr hd, hq⟩

/-- The letters that are joined are variables. -/
theorem kind_of_spelledName {pieces : List Piece} {name : String}
    (hread : ∀ p ∈ pieces, p.IsRead) (h : spelledName? pieces = some name) :
    ∀ p ∈ pieces.take name.length, p.kind = .variable := by
  intro p hp
  have hname := List.mem_of_find?_eq_some h
  have hspells : spells name.toList pieces = true := by simpa using List.find?_some h
  obtain ⟨c, hc, htext⟩ := (spells_take hspells).2 p hp
  rw [hread p (List.mem_of_mem_take hp)]
  exact Kind.of_letter htext ((spelledNames_letters name hname).2 c hc)

/-! ## Sorting -/

theorem sortByCenter_eq (pieces : List Piece) :
    sortByCenter pieces = pieces.insertionSort fun p q => centerKey p ≤ centerKey q := by
  have hinsert (p : Piece) (row : List Piece) :
      insertByCenter p row = row.orderedInsert (fun p q => centerKey p ≤ centerKey q) p := by
    induction row with
    | nil => rfl
    | cons q row ih => rw [insertByCenter, List.orderedInsert_cons, ih]
  induction pieces with
  | nil => rfl
  | cons p pieces ih =>
    rw [List.insertionSort_cons, ← ih, ← hinsert]
    rfl

theorem sortByCenter_perm (pieces : List Piece) : (sortByCenter pieces).Perm pieces := by
  rw [sortByCenter_eq]
  exact List.perm_insertionSort _ _

/-- Pieces from left to right. -/
def Ordered (pieces : List Piece) : Prop := pieces.Pairwise fun p q => centerKey p ≤ centerKey q

theorem ordered_sortByCenter (pieces : List Piece) : Ordered (sortByCenter pieces) := by
  rw [sortByCenter_eq]
  have : Std.Total fun p q : Piece => centerKey p ≤ centerKey q := ⟨fun p q => Int.le_total _ _⟩
  have : IsTrans Piece fun p q => centerKey p ≤ centerKey q :=
    ⟨fun _ _ _ h h' => Int.le_trans h h'⟩
  exact List.pairwise_insertionSort _ _

/-- **Sorting keeps the order of pieces that are in order already.** -/
theorem filter_sortByCenter {keep : Piece → Bool} {pieces : List Piece}
    (h : Ordered (pieces.filter keep)) :
    (sortByCenter pieces).filter keep = pieces.filter keep := by
  have hsub : (pieces.filter keep).Sublist (sortByCenter pieces) := by
    rw [sortByCenter_eq]
    exact List.sublist_insertionSort h List.filter_sublist
  have hsub := hsub.filter keep
  rw [List.filter_filter, List.filter_congr (q := keep) (by simp)] at hsub
  exact (hsub.eq_of_length ((sortByCenter_perm pieces).filter keep).length_eq.symm).symm

/-! ## Calls -/

/-- A function as it is called. -/
def Piece.head (p : Piece) : Piece := ⟨callName p.text, .function, p.box⟩

/-- `Calls pieces out`: the row `out` has the functions of the row `pieces` called, with some part
of the pieces after a bare function as its operand. -/
inductive Calls : List Piece → List Piece → Prop where
  | nil : Calls [] []
  | derivative {d slash d' v : Piece} {rest out : List Piece} (hd : d.text = "d")
      (hslash : slash.text = "/") (hd' : d'.text = "d") (hv : v.kind = .variable) :
      Calls rest out → Calls (d :: slash :: d' :: v :: rest)
        (Piece.added "diff" .function :: Piece.openParen :: v :: Piece.closeParen :: out)
  | called {p : Piece} {rest out : List Piece} (hp : p.kind = .function)
      (hopen : startsOpen rest = true) : Calls rest out → Calls (p :: rest) (p.head :: out)
  | bare {p : Piece} {operand rest inner out : List Piece} (hp : isCallable p = true) :
      Calls operand inner → Calls rest out →
      Calls (p :: (operand ++ rest))
        (p.head :: Piece.openParen :: (inner ++ Piece.closeParen :: out))
  | plain {p : Piece} {rest out : List Piece} (hp : isCallable p = false) :
      Calls rest out → Calls (p :: rest) (p :: out)

/-- A derivative sign and its variable. -/
theorem derivative?_eq_some {pieces rest : List Piece} {v : Piece} :
    derivative? pieces = some (v, rest) ↔ ∃ d slash d', pieces = d :: slash :: d' :: v :: rest ∧
      d.text = "d" ∧ slash.text = "/" ∧ d'.text = "d" ∧ v.kind = .variable := by
  constructor
  · intro h
    unfold derivative? at h
    split at h
    · split at h
      · rename_i htexts
        cases h
        exact ⟨_, _, _, rfl, htexts⟩
      · cases h
    · cases h
  · rintro ⟨d, slash, d', rfl, htexts⟩
    rw [derivative?, if_pos htexts]

/-- **Writing calls** calls the functions of a row. -/
theorem calls_writeCalls (position : Nat) (pieces : List Piece) :
    Calls pieces (writeCalls position pieces).1 := by
  fun_induction writeCalls position pieces with
  | case1 => exact .nil
  | case2 position p rest v after hsign out notes hout ih =>
    rw [hout] at ih
    obtain ⟨d, slash, d', heq, hd, hslash, hd', hv⟩ := derivative?_eq_some.1 hsign
    rw [heq]
    exact .derivative hd hslash hd' hv ih
  | case3 position p rest hsign hp head hcalled out notes hout ih =>
    rw [hout] at ih
    rw [Bool.and_eq_true, beq_iff_eq] at hcalled
    exact .called hcalled.1 hcalled.2 ih
  | case4 position p rest hsign hp head hbare length inner innerNotes hinner out notes hout =>
    rename_i ih ih'
    rw [hinner] at ih
    rw [hout] at ih'
    have hrow := Calls.bare hp ih ih'
    rwa [List.take_append_drop] at hrow
  | case5 position p rest hsign hp out notes hout ih =>
    rw [hout] at ih
    exact .plain (by simpa using hp) ih

/-! ## The pieces of every stage -/

section

variable {holds : Piece → Prop} {pieces : List Piece}

theorem forall_joinNames (h : ∀ p ∈ pieces, holds p)
    (hname : ∀ name ∈ spelledNames, ∀ box, holds ⟨name, .function, box⟩) :
    ∀ p ∈ joinNames pieces, holds p := by
  fun_induction joinNames pieces with
  | case1 => exact h
  | case2 p rest name hfound ih =>
    rintro q (_ | ⟨_, hq⟩)
    · exact hname name (List.mem_of_find?_eq_some hfound) _
    · exact ih (fun q hq => h q (List.mem_cons_of_mem _ (List.mem_of_mem_drop hq))) q hq
  | case3 p rest _ ih =>
    rintro q (_ | ⟨_, hq⟩)
    · exact h p List.mem_cons_self
    · exact ih (fun q hq => h q (List.mem_cons_of_mem _ hq)) q hq

theorem forall_exponent {run : List Piece} (h : ∀ p ∈ run, holds p)
    (hpower : holds (Piece.added "^" .operator)) (hopen : holds Piece.openParen)
    (hclose : holds Piece.closeParen) : ∀ p ∈ exponent run, holds p := by
  intro p hp
  unfold exponent at hp
  split at hp
  · cases hp
  · simp only [List.mem_cons, List.mem_append, List.not_mem_nil, or_false] at hp
    rcases hp with rfl | rfl | hp | rfl
    · exact hpower
    · exact hopen
    · exact h p ((sortByCenter_perm run).subset hp)
    · exact hclose

theorem forall_groupExponents (config : Config) (h : ∀ p ∈ pieces, holds p)
    (hpower : holds (Piece.added "^" .operator)) (hopen : holds Piece.openParen)
    (hclose : holds Piece.closeParen) : ∀ p ∈ (groupExponents config pieces).1, holds p := by
  fun_induction groupExponents config pieces with
  | case1 => exact h
  | case2 base rest run out notes hout =>
    rename_i ih
    rw [hout] at ih
    have hrest : ∀ p ∈ rest, holds p := fun p hp => h p (List.mem_cons_of_mem _ hp)
    intro p hp
    rcases List.mem_cons.1 hp with rfl | hp
    · exact h p List.mem_cons_self
    · rcases List.mem_append.1 hp with hp | hp
      · exact forall_exponent (fun q hq => hrest q ((List.takeWhile_sublist _).subset hq)) hpower
          hopen hclose p hp
      · exact ih (fun q hq => hrest q ((List.dropWhile_sublist _).subset hq)) p hp

theorem forall_writeBars (pairs : List (Nat × Nat)) (position : Nat) (h : ∀ p ∈ pieces, holds p)
    (habs : ∀ box, holds ⟨"abs", .function, box⟩) (hopen : holds Piece.openParen)
    (hclose : holds Piece.closeParen) : ∀ p ∈ (writeBars pairs position pieces).1, holds p := by
  induction pieces generalizing position with
  | nil => exact h
  | cons p rest ih =>
    have hrest := ih (position + 1) fun q hq => h q (List.mem_cons_of_mem _ hq)
    have hp := h p List.mem_cons_self
    rw [writeBars]
    dsimp only
    split
    · simp only [List.mem_cons]
      rintro q (rfl | rfl | hq)
      · exact habs _
      · exact hopen
      · exact hrest q hq
    · split <;> simp only [List.mem_cons]
      · rintro q (rfl | hq)
        · exact hclose
        · exact hrest q hq
      · rintro q (rfl | hq)
        · exact hp
        · exact hrest q hq

theorem forall_beforeCalls (config : Config) {symbols : List Symbol}
    (h : ∀ s ∈ symbols, holds (Piece.detected s))
    (hname : ∀ name ∈ spelledNames, ∀ box, holds ⟨name, .function, box⟩)
    (hpower : holds (Piece.added "^" .operator)) (hopen : holds Piece.openParen)
    (hclose : holds Piece.closeParen) :
    ∀ p ∈ (beforeCalls config (piecesOf symbols)).1, holds p := by
  have hjoined : ∀ p ∈ piecesOf symbols, holds p := by
    refine forall_joinNames (fun p hp => ?_) hname
    obtain ⟨s, hs, rfl⟩ := List.mem_map.1 ((sortByCenter_perm _).subset hp)
    exact h s hs
  exact forall_writeBars _ 0 (forall_groupExponents config hjoined hpower hopen hclose)
    (hname "abs" (by decide)) hopen hclose

theorem Calls.forall {holds' : Piece → Prop} {out : List Piece} (hcalls : Calls pieces out)
    (h : ∀ p ∈ pieces, holds p)
    (hhead : ∀ p, holds p → isCallable p = true → holds' p.head)
    (hplain : ∀ p, holds p → isCallable p = false → holds' p)
    (hdiff : holds' (Piece.added "diff" .function)) (hopen : holds' Piece.openParen)
    (hclose : holds' Piece.closeParen) : ∀ p ∈ out, holds' p := by
  induction hcalls with
  | nil => exact nofun
  | @derivative d slash d' v rest out _ _ _ hv _ ih =>
    have hout := ih fun p hp => h p (by simp [hp])
    simp only [List.mem_cons]
    rintro p (rfl | rfl | rfl | rfl | hp)
    · exact hdiff
    · exact hopen
    · exact hplain _ (h _ (by simp)) (by simp [isCallable, hv])
    · exact hclose
    · exact hout p hp
  | @called p rest out hp _ _ ih =>
    have hout := ih fun q hq => h q (List.mem_cons_of_mem _ hq)
    simp only [List.mem_cons]
    rintro q (rfl | hq)
    · exact hhead p (h p List.mem_cons_self) (by simp [isCallable, hp])
    · exact hout q hq
  | @bare p operand rest inner out hp _ _ ih ih' =>
    have hinner := ih fun q hq => h q (by simp [hq])
    have hout := ih' fun q hq => h q (by simp [hq])
    simp only [List.mem_cons, List.mem_append]
    rintro q (rfl | rfl | hq | rfl | hq)
    · exact hhead p (h p List.mem_cons_self) hp
    · exact hopen
    · exact hinner q hq
    · exact hclose
    · exact hout q hq
  | @plain p rest out hp _ ih =>
    have hout := ih fun q hq => h q (List.mem_cons_of_mem _ hq)
    simp only [List.mem_cons]
    rintro q (rfl | hq)
    · exact hplain q (h q List.mem_cons_self) hp
    · exact hout q hq

end

theorem isRead_sorted (symbols : List Symbol) :
    ∀ p ∈ sortByCenter (symbols.map Piece.detected), p.IsRead := by
  intro p hp
  obtain ⟨s, -, rfl⟩ := List.mem_map.1 ((sortByCenter_perm _).subset hp)
  exact Piece.isRead_detected s

theorem isRead_piecesOf (symbols : List Symbol) : ∀ p ∈ piecesOf symbols, p.IsRead := by
  have hname : ∀ name ∈ spelledNames, Kind.of name = .function := by decide
  exact forall_joinNames (isRead_sorted symbols) fun name hmem box => (hname name hmem).symm

theorem isRead_beforeCalls (config : Config) {pieces : List Piece} (h : ∀ p ∈ pieces, p.IsRead) :
    ∀ p ∈ (beforeCalls config pieces).1, p.IsRead := by
  have hraised : ∀ p ∈ (groupExponents config pieces).1, p.IsRead :=
    forall_groupExponents config h (show Kind.operator = Kind.of "^" by decide)
      (show Kind.opening = Kind.of "(" by decide) (show Kind.closing = Kind.of ")" by decide)
  exact forall_writeBars _ 0 hraised (fun _ => show Kind.function = Kind.of "abs" by decide)
    (show Kind.opening = Kind.of "(" by decide) (show Kind.closing = Kind.of ")" by decide)

/-! ## The text of a line -/

section

variable {config : Config} {symbols kept : List Symbol} {notes : List Warning}

theorem kept_of_select (h : select config symbols = (some kept, notes)) :
    kept = symbols.filter (isKept config) := by
  unfold select at h
  dsimp only at h
  split at h
  · cases h
  · split at h
    · cases h
    · cases h
      rfl

theorem filter_of_select (h : select config symbols = (none, notes)) :
    symbols.filter (isKept config) = [] := by
  unfold select at h
  dsimp only at h
  split at h
  · rename_i hempty
    rw [List.isEmpty_iff.1 hempty]
    rfl
  · split at h
    · rename_i hempty
      exact List.isEmpty_iff.1 hempty
    · cases h

theorem assemble_nil (config : Config) : assemble config [] = ([], []) := by
  have hrepair : repairBrackets config.maxRepairPasses [] = ([], []) := by
    unfold repairBrackets
    rfl
  simp [assemble, beforeRepair, beforeCalls, piecesOf, sortByCenter, joinNames, groupExponents,
    pairBars, barPairs, writeBars, writeCalls, hrepair, insertMultiplication]

theorem text_linearize (config : Config) (symbols : List Symbol) :
    (linearize config symbols).text =
      lineText (assemble config (symbols.filter (isKept config))).1 := by
  unfold linearize
  split
  · rename_i notes hselect
    rw [filter_of_select hselect, assemble_nil]
    rfl
  · rename_i kept notes hselect
    rw [kept_of_select hselect]

theorem mem_warnings {w : Warning}
    (hw : w ∈ (assemble config (symbols.filter (isKept config))).2) :
    w ∈ (linearize config symbols).warnings := by
  unfold linearize
  split
  · rename_i notes hselect
    rw [filter_of_select hselect, assemble_nil] at hw
    cases hw
  · rename_i kept notes hselect
    rw [kept_of_select hselect]
    exact List.mem_append_left _ (List.mem_append_right _ hw)

end

/-- A symbol of some confidence with the corners of its box. -/
def symbolAt (token : String) (x1 y1 x2 y2 : Float) : Symbol := ⟨"", token, 0.9, ⟨x1, y1, x2, y2⟩⟩

end GlyphMath.Line
