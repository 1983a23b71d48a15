import GlyphMath.Proofs.BracketRepair
import GlyphMath.Proofs.Words

/-!
# What becomes of every symbol

* `Joins` -- a row with the letters of names as one piece.
* `orderRuns` -- the pieces of a row, with every raised run in the order of its middles.
* `Barred` -- a row with some of its bars written as calls, and signs put in.
* `Stands` -- what may stand for a piece in a finished line.
* `Becomes` -- a finished row, piece by piece beside the pieces that have been seen.

`Barred` and `Becomes` count the pairs of bars that are open before and after their rows, so that a
bar that closes has one that opens.

Principal result:

* `becomes_assemble` -- no symbol is lost, written twice or moved out of its place.
-/

set_option autoImplicit false

namespace GlyphMath.Line

open Layout (Symbol)

/-! ## The pieces that have been seen -/

theorem seen_boxAround {pieces : List Piece} (hne : pieces ≠ [])
    (h : ∀ p ∈ pieces, wasSeen p = true) : (boxAround pieces).isSome = true := by
  cases pieces with
  | nil => exact absurd rfl hne
  | cons p pieces =>
    obtain ⟨box, hbox⟩ := Option.isSome_iff_exists.1 (h p List.mem_cons_self)
    simp [boxAround, hbox]

theorem seen_joinNames {pieces : List Piece} (h : ∀ p ∈ pieces, wasSeen p = true) :
    ∀ p ∈ joinNames pieces, wasSeen p = true := by
  fun_induction joinNames pieces with
  | case1 => exact h
  | case2 p rest name hname ih =>
    rintro q (_ | ⟨_, hq⟩)
    · apply seen_boxAround
      · have hletters := (spelledNames_letters name (List.mem_of_find?_eq_some hname)).1
        simpa using hletters
      · intro q hq
        exact h q (List.mem_of_mem_take hq)
    · exact ih (fun q hq => h q (List.mem_cons_of_mem _ (List.mem_of_mem_drop hq))) q hq
  | case3 p rest _ ih =>
    rintro q (_ | ⟨_, hq⟩)
    · exact h p List.mem_cons_self
    · exact ih (fun q hq => h q (List.mem_cons_of_mem _ hq)) q hq

theorem seen_piecesOf (symbols : List Symbol) : ∀ p ∈ piecesOf symbols, wasSeen p = true := by
  apply seen_joinNames
  intro p hp
  obtain ⟨s, -, rfl⟩ := List.mem_map.1 ((sortByCenter_perm _).subset hp)
  rfl

/-! ## Joined names -/

/-- `Joins row out`: the row `out` has the pieces `row`, the letters of some names as one piece. -/
inductive Joins : List Piece → List Piece → Prop where
  | nil : Joins [] []
  | piece {p : Piece} {row out : List Piece} : Joins row out → Joins (p :: row) (p :: out)
  | name {name : String} {letters row out : List Piece} (hname : name ∈ spelledNames)
      (hletters : letters.map (·.text.toList) = name.toList.map fun c => [c]) :
      Joins row out → Joins (letters ++ row) (⟨name, .function, boxAround letters⟩ :: out)

theorem map_text_of_spells {word : List Char} {pieces : List Piece}
    (h : spells word pieces = true) :
    (pieces.take word.length).map (·.text.toList) = word.map fun c => [c] := by
  induction word generalizing pieces with
  | nil => rfl
  | cons c word ih =>
    cases pieces with
    | nil => cases h
    | cons p pieces =>
      rw [spells, Bool.and_eq_true, beq_iff_eq] at h
      rw [List.length_cons, List.take_succ_cons, List.map_cons, List.map_cons, h.1, ih h.2]

/-- **Joining names** joins the letters of names. -/
theorem joins_joinNames (pieces : List Piece) : Joins pieces (joinNames pieces) := by
  fun_induction joinNames pieces with
  | case1 => exact .nil
  | case2 p rest name hname ih =>
    have hmem := List.mem_of_find?_eq_some hname
    have hspells : spells name.toList (p :: rest) = true := by simpa using List.find?_some hname
    obtain ⟨n, hn⟩ : ∃ n, name.length = n + 1 := by
      apply Nat.exists_eq_succ_of_ne_zero
      simpa using (spelledNames_letters name hmem).1
    have hrow := Joins.name hmem (map_text_of_spells hspells) ih
    rw [String.length_toList, hn, Nat.add_sub_cancel] at hrow
    rw [hn]
    rwa [List.take_succ_cons, List.cons_append, List.take_append_drop] at hrow
  | case3 p rest _ ih => exact .piece ih

/-! ## Raised runs -/

/-- A row with every raised run in the order of its middles. -/
def orderRuns (config : Config) (pieces : List Piece) : List Piece :=
  match pieces with
  | [] => []
  | base :: rest =>
    base :: (sortByCenter (rest.takeWhile (isSuperscript config base)) ++
      orderRuns config (rest.dropWhile (isSuperscript config base)))
termination_by pieces.length
decreasing_by
  exact Nat.lt_succ_of_le (List.Sublist.length_le (List.dropWhile_sublist _))

theorem orderRuns_perm (config : Config) (pieces : List Piece) :
    (orderRuns config pieces).Perm pieces := by
  fun_induction orderRuns config pieces with
  | case1 => exact .nil
  | case2 base rest ih =>
    apply List.Perm.cons
    have hruns := (sortByCenter_perm (rest.takeWhile (isSuperscript config base))).append ih
    rwa [List.takeWhile_append_dropWhile] at hruns

/-- The signs that are put in before functions are called. -/
def earlySigns : List Piece := [Piece.added "^" .operator, Piece.openParen, Piece.closeParen]

theorem box_of_mem_earlySigns : ∀ p ∈ earlySigns, p.box = none := by decide

theorem forall_seen_or_sign {pieces : List Piece} (config : Config)
    (h : ∀ p ∈ pieces, wasSeen p = true) :
    ∀ p ∈ (groupExponents config pieces).1, wasSeen p = true ∨ p ∈ earlySigns := by
  apply forall_groupExponents config (fun p hp => Or.inl (h p hp))
  · exact Or.inr (by decide)
  · exact Or.inr (by decide)
  · exact Or.inr (by decide)

theorem filter_exponent {run : List Piece} (h : ∀ p ∈ run, wasSeen p = true) :
    (exponent run).filter wasSeen = sortByCenter run := by
  have hsorted : (sortByCenter run).filter wasSeen = sortByCenter run :=
    List.filter_eq_self.2 fun p hp => h p ((sortByCenter_perm run).subset hp)
  unfold exponent
  split
  · rename_i hempty
    rw [List.isEmpty_iff.1 hempty]
    rfl
  · simp [hsorted, wasSeen, Piece.added, Piece.openParen, Piece.closeParen]

/-- **Writing exponents** keeps the pieces that have been seen, with the runs in order. -/
theorem filter_groupExponents {pieces : List Piece} (config : Config)
    (h : ∀ p ∈ pieces, wasSeen p = true) :
    (groupExponents config pieces).1.filter wasSeen = orderRuns config pieces := by
  fun_induction groupExponents config pieces with
  | case1 => rw [orderRuns]; rfl
  | case2 base rest run out notes hout =>
    rename_i ih
    rw [hout] at ih
    have hrest : ∀ p ∈ rest, wasSeen p = true := fun p hp => h p (List.mem_cons_of_mem _ hp)
    have hrun : (exponent run).filter wasSeen = sortByCenter run :=
      filter_exponent fun p hp => hrest p ((List.takeWhile_sublist _).subset hp)
    have hafter := ih fun p hp => hrest p ((List.dropWhile_sublist _).subset hp)
    rw [orderRuns, List.filter_cons_of_pos (h base List.mem_cons_self), List.filter_append, hrun,
      hafter]

/-! ## Bars -/

/-- `Barred n m row out`: the row `out` has the pieces `row`, some of the bars as functions and
closing brackets, and signs put in.  So many pairs of bars are open before and after. -/
inductive Barred : Nat → Nat → List Piece → List Piece → Prop where
  | nil (n : Nat) : Barred n n [] []
  | sign {n m : Nat} {p : Piece} {row out : List Piece} (hp : p ∈ earlySigns) :
      Barred n m row out → Barred n m row (p :: out)
  | same {n m : Nat} {p : Piece} {row out : List Piece} :
      Barred n m row out → Barred n m (p :: row) (p :: out)
  | opens {n m : Nat} {p : Piece} {row out : List Piece} (hp : p.kind = .bar) :
      Barred (n + 1) m row out → Barred n m (p :: row) (⟨"abs", .function, p.box⟩ :: out)
  | closes {n m : Nat} {p : Piece} {row out : List Piece} (hp : p.kind = .bar) :
      Barred n m row out → Barred (n + 1) m (p :: row) (Piece.closeParen :: out)

theorem Barred.append_inv {n m : Nat} {row as bs : List Piece} (h : Barred n m row (as ++ bs)) :
    ∃ k row₁ row₂, row = row₁ ++ row₂ ∧ Barred n k row₁ as ∧ Barred k m row₂ bs := by
  induction as generalizing n row with
  | nil => exact ⟨n, [], row, rfl, .nil n, h⟩
  | cons a as ih =>
    rw [List.cons_append] at h
    cases h with
    | sign ha h =>
      obtain ⟨k, row₁, row₂, rfl, h₁, h₂⟩ := ih h
      exact ⟨k, row₁, row₂, rfl, .sign ha h₁, h₂⟩
    | same h =>
      obtain ⟨k, row₁, row₂, rfl, h₁, h₂⟩ := ih h
      exact ⟨k, a :: row₁, row₂, rfl, .same h₁, h₂⟩
    | @opens _ _ p _ _ hp h =>
      obtain ⟨k, row₁, row₂, rfl, h₁, h₂⟩ := ih h
      exact ⟨k, p :: row₁, row₂, rfl, .opens hp h₁, h₂⟩
    | @closes _ _ p _ _ hp h =>
      obtain ⟨k, row₁, row₂, rfl, h₁, h₂⟩ := ih h
      exact ⟨k, p :: row₁, row₂, rfl, .closes hp h₁, h₂⟩

theorem kind_of_mem_earlySigns : ∀ p ∈ earlySigns, p.kind ≠ .bar ∧ isCallable p = false := by
  decide

/-- Writing the bars from a position on, where so many pairs are open. -/
theorem barred_writeBars {pairs : List (Nat × Nat)} (hpairs : Matching pairs) {position : Nat}
    {pieces : List Piece}
    (hbars : ∀ pair ∈ pairs, ∀ i p, pieces[i]? = some p →
      pair.1 = position + i ∨ pair.2 = position + i → p.kind = .bar)
    (h : ∀ p ∈ pieces, wasSeen p = true ∨ p ∈ earlySigns) :
    Barred (spanning pairs position) (spanning pairs (position + pieces.length))
      (pieces.filter wasSeen) (writeBars pairs position pieces).1 := by
  induction pieces generalizing position with
  | nil => exact .nil _
  | cons p rest ih =>
    obtain ⟨hbar, hrest⟩ := bars_cons hbars
    rw [List.forall_mem_cons] at h
    have hout := ih hrest h.2
    rw [Nat.add_assoc position, Nat.add_comm 1, ← List.length_cons] at hout
    -- the signs that are put in are no bars
    have hseen (hkind : p.kind = .bar) : wasSeen p = true := by
      apply h.1.resolve_right
      intro hsign
      exact (kind_of_mem_earlySigns p hsign).1 hkind
    rcases writeBars_cons hpairs rest hbar with
      ⟨hkind, hspan, hrow⟩ | ⟨hkind, hspan, hrow⟩ | ⟨hspan, hrow⟩
    · rw [hrow, List.filter_cons_of_pos (hseen hkind)]
      apply Barred.opens hkind
      apply Barred.sign (by decide)
      rwa [← hspan]
    · rw [hrow, hspan, List.filter_cons_of_pos (hseen hkind)]
      exact .closes hkind hout
    · rw [hrow]
      rw [hspan] at hout
      rcases h.1 with hseen | hsign
      · rw [List.filter_cons_of_pos hseen]
        exact .same hout
      · rw [List.filter_cons_of_neg (by simp [wasSeen, box_of_mem_earlySigns p hsign])]
        exact .sign hsign hout

/-- **Writing bars** makes functions and closing brackets of pairs of bars that were seen. -/
theorem barred_pairBars {pieces : List Piece}
    (h : ∀ p ∈ pieces, wasSeen p = true ∨ p ∈ earlySigns) :
    Barred 0 0 (pieces.filter wasSeen) (pairBars pieces).1 := by
  have hpaired : Paired 0 [] pieces (barPairs 0 false [] pieces) :=
    paired_barPairs List.nodup_nil nofun
  have hbars := barred_writeBars hpaired.toMatching hpaired.bars h
  rwa [spanning_zero, hpaired.spanning_length] at hbars

/-! ## The finished row -/

/-- `Stands n m p q`: the piece `q` stands for the piece `p` that was seen.  So many pairs of bars
are open before and after. -/
inductive Stands : Nat → Nat → Piece → Piece → Prop where
  | same {n : Nat} {p : Piece} (hroot : p.kind ≠ .root) (hlimit : p.text ≠ "lim") : Stands n n p p
  | flipped {n : Nat} {p : Piece} (hp : p.isBracket = true) : Stands n n p p.flip
  | root {n : Nat} {p : Piece} (hp : p.kind = .root) : Stands n n p ⟨"sqrt", .function, p.box⟩
  | limit {n : Nat} {p : Piece} (hp : p.text = "lim") : Stands n n p ⟨"limit", .function, p.box⟩
  | opens {n : Nat} {p : Piece} (hp : p.kind = .bar) :
      Stands n (n + 1) p ⟨"abs", .function, p.box⟩
  | closes {n : Nat} {p : Piece} (hp : p.kind = .bar) : Stands (n + 1) n p Piece.closeParen

/-- `Becomes n m row out`: the row `out` has what stands for the pieces `row`, in their order, but
for derivative signs, which are calls, and pieces put in that nobody has seen.  So many pairs of
bars are open before and after. -/
inductive Becomes : Nat → Nat → List Piece → List Piece → Prop where
  | nil (n : Nat) : Becomes n n [] []
  | added {n m : Nat} {p : Piece} {row out : List Piece} (hp : p.box = none) :
      Becomes n m row out → Becomes n m row (p :: out)
  | stands {n k m : Nat} {p q : Piece} {row out : List Piece} (hq : Stands n k p q) :
      Becomes k m row out → Becomes n m (p :: row) (q :: out)
  | derivative {n m : Nat} {d slash d' v : Piece} {row out : List Piece} (hd : d.text = "d")
      (hslash : slash.text = "/") (hd' : d'.text = "d") (hv : v.kind = .variable) :
      Becomes n m row out → Becomes n m (d :: slash :: d' :: v :: row)
        (Piece.added "diff" .function :: Piece.openParen :: v :: Piece.closeParen :: out)

/-- What stands for a piece has its box, unless it is the closing bracket of a pair of bars. -/
theorem Stands.box {n m : Nat} {p q : Piece} (h : Stands n m p q) :
    q.box = p.box ∨ q = Piece.closeParen := by
  cases h with
  | flipped hp => exact Or.inl (box_flip p)
  | closes hp => exact Or.inr rfl
  | _ => exact Or.inl rfl

namespace Becomes

variable {n m : Nat} {row out : List Piece}

theorem append {k : Nat} {row' out' : List Piece} (h : Becomes n k row out)
    (h' : Becomes k m row' out') : Becomes n m (row ++ row') (out ++ out') := by
  induction h with
  | nil => exact h'
  | added hp _ ih => exact .added hp (ih h')
  | stands hq _ ih => exact .stands hq (ih h')
  | derivative hd hslash hd' hv _ ih => exact .derivative hd hslash hd' hv (ih h')

theorem added_append {signs : List Piece} (hsigns : ∀ p ∈ signs, p.box = none)
    (h : Becomes n m row out) : Becomes n m row (signs ++ out) := by
  induction signs with
  | nil => exact h
  | cons p signs ih =>
    rw [List.forall_mem_cons] at hsigns
    exact .added hsigns.1 (ih hsigns.2)

/-- **No symbol is written twice or moved**: the boxes of the finished row are boxes of the row, in
their order. -/
theorem boxes_sublist (h : Becomes n m row out) :
    (out.filterMap (·.box)).Sublist (row.filterMap (·.box)) := by
  have hcons {p q : Piece} {row out : List Piece} (hbox : q.box = p.box)
      (h : (out.filterMap (·.box)).Sublist (row.filterMap (·.box))) :
      ((q :: out).filterMap (·.box)).Sublist ((p :: row).filterMap (·.box)) := by
    rw [List.filterMap_cons, List.filterMap_cons, hbox]
    split
    · exact h
    · exact h.cons_cons _
  have hskip (p : Piece) {row : List Piece} :
      (row.filterMap (·.box)).Sublist ((p :: row).filterMap (·.box)) :=
    (List.sublist_cons_self p row).filterMap _
  induction h with
  | nil => exact List.Sublist.refl _
  | added hp _ ih => rwa [List.filterMap_cons_none hp]
  | stands hq _ ih =>
    rcases hq.box with hbox | rfl
    · exact hcons hbox ih
    · rw [List.filterMap_cons_none rfl]
      exact ih.trans (hskip _)
  | derivative _ _ _ _ _ ih =>
    rw [List.filterMap_cons_none rfl, List.filterMap_cons_none rfl]
    refine (hcons rfl ?_).trans ((hskip _).trans ((hskip _).trans (hskip _)))
    rwa [List.filterMap_cons_none rfl]

end Becomes

/-! ## Calls -/

/-- A piece as it stands in a row with its functions called. -/
def Piece.written (p : Piece) : Piece := if isCallable p then p.head else p

theorem Stands.written {p : Piece} (hread : p.IsRead) (n : Nat) : Stands n n p p.written := by
  have htext := hread.has
  unfold Piece.written isCallable
  cases hkind : p.kind with
  | root =>
    rw [hkind] at htext
    have hname : callName p.text = "sqrt" := by
      rw [show p.text = "√" from htext]
      rfl
    rw [if_pos (by rfl), Piece.head, hname]
    exact .root hkind
  | function =>
    rw [if_pos (by rfl), Piece.head]
    by_cases hlimit : p.text = "lim"
    · rw [hlimit]
      exact .limit hlimit
    · have hname : callName p.text = p.text := by
        unfold callName
        split
        · rename_i hroot
          rw [Piece.IsRead, hroot, hkind] at hread
          exact absurd hread (by decide)
        · rename_i hlim
          exact absurd hlim hlimit
        · rfl
      rw [hname, ← hkind]
      exact .same (by simp [hkind]) hlimit
  | _ =>
    rw [if_neg (by decide)]
    refine .same (by simp [hkind]) ?_
    intro hlimit
    rw [Piece.IsRead, hlimit, hkind] at hread
    exact absurd hread (by decide)

/-- The first piece of a row with bars written out, as it is called. -/
theorem Barred.cons_inv {n m : Nat} {p : Piece} {row out : List Piece}
    (h : Barred n m row (p :: out)) (hread : ∀ q ∈ row, q.IsRead) :
    ∃ k rest, Barred k m rest out ∧ rest.Sublist row ∧
      ∀ out', Becomes k m rest out' → Becomes n m row (p.written :: out') := by
  cases h with
  | sign hp h =>
    refine ⟨n, row, h, List.Sublist.refl row, fun out' hout' => ?_⟩
    rw [Piece.written, (kind_of_mem_earlySigns p hp).2]
    exact .added (box_of_mem_earlySigns p hp) hout'
  | same h =>
    rename_i row
    exact ⟨n, row, h, List.sublist_cons_self p row, fun out' =>
      .stands (.written (hread p List.mem_cons_self) n)⟩
  | @opens _ _ q row _ hq h =>
    exact ⟨n + 1, row, h, List.sublist_cons_self q row, fun out' =>
      .stands (.opens hq)⟩
  | @closes n' _ q row _ hq h =>
    exact ⟨n', row, h, List.sublist_cons_self q row, fun out' =>
      .stands (.closes hq)⟩

/-- The pieces of a derivative sign are pieces of the row that was seen. -/
theorem Barred.same_inv {n m : Nat} {p : Piece} {row out : List Piece}
    (h : Barred n m row (p :: out)) (hp : p.text = "d" ∨ p.text = "/" ∨ p.kind = .variable) :
    ∃ rest, row = p :: rest ∧ Barred n m rest out := by
  cases h with
  | sign hsign h =>
    have hsigns : ∀ p ∈ earlySigns, ¬ (p.text = "d" ∨ p.text = "/" ∨ p.kind = .variable) := by
      decide
    exact absurd hp (hsigns p hsign)
  | same h => exact ⟨_, rfl, h⟩
  | opens hq h => exact absurd hp (by simp)
  | closes hq h => exact absurd hp (by decide)

/-- **Calling functions** makes the finished row but for the repair of brackets and the
multiplication signs. -/
theorem Calls.becomes {n m : Nat} {row pieces out : List Piece} (hcalls : Calls pieces out)
    (h : Barred n m row pieces) (hread : ∀ p ∈ row, p.IsRead) : Becomes n m row out := by
  induction hcalls generalizing n m row with
  | nil =>
    cases h
    exact .nil _
  | @derivative d slash d' v rest out hd hslash hd' hv _ ih =>
    obtain ⟨row₁, rfl, h₁⟩ := h.same_inv (Or.inl hd)
    obtain ⟨row₂, rfl, h₂⟩ := h₁.same_inv (Or.inr (Or.inl hslash))
    obtain ⟨row₃, rfl, h₃⟩ := h₂.same_inv (Or.inl hd')
    obtain ⟨row₄, rfl, h₄⟩ := h₃.same_inv (Or.inr (Or.inr hv))
    exact .derivative hd hslash hd' hv (ih h₄ fun p hp => hread p (by simp [hp]))
  | @called p rest out hp _ _ ih =>
    obtain ⟨k, row', h', hsub, hcons⟩ := h.cons_inv hread
    rw [Piece.written, if_pos (by simp [isCallable, hp])] at hcons
    exact hcons _ (ih h' fun q hq => hread q (hsub.subset hq))
  | @bare p operand rest inner out hp _ _ ih ih' =>
    obtain ⟨k, row', h', hsub, hcons⟩ := h.cons_inv hread
    rw [Piece.written, if_pos hp] at hcons
    obtain ⟨l, row₁, row₂, rfl, h₁, h₂⟩ := h'.append_inv
    have hinner := ih h₁ fun q hq => hread q (hsub.subset (List.mem_append_left _ hq))
    have hout := ih' h₂ fun q hq => hread q (hsub.subset (List.mem_append_right _ hq))
    apply hcons
    apply Becomes.added rfl
    exact hinner.append (.added rfl hout)
  | @plain p rest out hp _ ih =>
    obtain ⟨k, row', h', hsub, hcons⟩ := h.cons_inv hread
    rw [Piece.written, hp] at hcons
    exact hcons _ (ih h' fun q hq => hread q (hsub.subset hq))

/-! ## Changed brackets -/

theorem Piece.eq_of_isBracket {p : Piece} (hread : p.IsRead) (hp : p.isBracket = true) :
    p = ⟨"(", .opening, p.box⟩ ∨ p = ⟨")", .closing, p.box⟩ := by
  have htext := hread.has
  obtain ⟨text, kind, box⟩ := p
  cases kind with
  | opening =>
    obtain rfl : text = "(" := htext
    exact Or.inl rfl
  | closing =>
    obtain rfl : text = ")" := htext
    exact Or.inr rfl
  | _ => cases hp

theorem Piece.flip_flip {p : Piece} (hread : p.IsRead) (hp : p.isBracket = true) :
    p.flip.flip = p := by
  rcases Piece.eq_of_isBracket hread hp with heq | heq <;> rw [heq] <;> rfl

theorem Stands.flip {n m : Nat} {p q : Piece} (h : Stands n m p q) (hread : p.IsRead)
    (hbracket : q.isBracket = true) (hseen : wasSeen q = true) : Stands n m p q.flip := by
  cases h with
  | same hroot hlimit => exact .flipped hbracket
  | flipped hp =>
    rw [Piece.flip_flip hread hp]
    rcases Piece.eq_of_isBracket hread hp with heq | heq
    · exact .same (by rw [heq]; exact nofun) (by rw [heq]; simp)
    · exact .same (by rw [heq]; exact nofun) (by rw [heq]; simp)
  | closes hp => cases hseen
  | root hp => cases hbracket
  | limit hp => cases hbracket
  | opens hp => cases hbracket

theorem Becomes.flip {n m : Nat} {row out : List Piece} (h : Becomes n m row out)
    (hread : ∀ p ∈ row, p.IsRead) {i : Nat}
    (hi : ∀ q, out[i]? = some q → q.isBracket = true ∧ wasSeen q = true) :
    Becomes n m row (flipAt out i) := by
  unfold flipAt
  induction h generalizing i with
  | nil n =>
    rw [List.modify_nil]
    exact .nil n
  | @added n m p row out hp h ih =>
    cases i with
    | zero => exact absurd (hi p rfl).2 (by simp [wasSeen, hp])
    | succ i => exact .added hp (ih hread hi)
  | @stands n k m p q row out hq h ih =>
    rw [List.forall_mem_cons] at hread
    cases i with
    | zero => exact .stands (hq.flip hread.1 (hi q rfl).1 (hi q rfl).2) h
    | succ i => exact .stands hq (ih hread.2 hi)
  | @derivative n m d slash d' v row out hd hslash hd' hv h ih =>
    match i with
    | 0 => exact absurd (hi _ rfl).1 Bool.false_ne_true
    | 1 => exact absurd (hi _ rfl).2 Bool.false_ne_true
    | 2 => exact absurd (hi v rfl).1 (by simp [Piece.isBracket, Piece.step?, hv])
    | 3 => exact absurd (hi _ rfl).2 Bool.false_ne_true
    | i + 4 => exact .derivative hd hslash hd' hv (ih (fun q hq => hread q (by simp [hq])) hi)

/-- **The repair** changes brackets that have been seen. -/
theorem becomes_repairBrackets {n m : Nat} {row out : List Piece} (passes : Nat)
    (h : Becomes n m row out) (hread : ∀ p ∈ row, p.IsRead) :
    Becomes n m row (repairBrackets passes out).1 := by
  apply repairBrackets_keeps (Becomes n m row) ?_ passes h
  intro out i htarget hout
  apply hout.flip hread
  obtain ⟨before, p, after, hparts, hbracket, hseen⟩ := parts_of_repairTarget? htarget
  intro q hq
  obtain ⟨rfl, rfl⟩ := hparts
  rw [Nat.zero_add, List.getElem?_append_right (Nat.le_refl _), Nat.sub_self] at hq
  cases hq
  exact ⟨hbracket, hseen⟩

/-! ## Multiplication signs -/

/-- What follows a piece: a sign where a value ends before one that starts. -/
theorem insertMultiplication_cons (config : Config) (a : Piece) (row : List Piece) :
    ∃ signs, (insertMultiplication config (a :: row)).1 =
        a :: (signs ++ (insertMultiplication config row).1) ∧
      (∀ p ∈ signs, p.box = none) ∧
      ((a.kind.endsValue = false ∨ ∀ b ∈ row.head?, b.kind.startsValue = false) → signs = []) := by
  cases row with
  | nil => exact ⟨[], rfl, nofun, fun _ => rfl⟩
  | cons b rest =>
    rw [insertMultiplication]
    dsimp only
    split
    · exact ⟨[], rfl, nofun, fun _ => rfl⟩
    · split
      · rename_i hvalues
        rw [Bool.and_eq_true] at hvalues
        refine ⟨[Piece.added "*" .operator], rfl, by simp [Piece.added], ?_⟩
        rintro (hends | hstarts)
        · rw [hends] at hvalues
          cases hvalues.1
        · rw [hstarts b rfl] at hvalues
          cases hvalues.2
      · exact ⟨[], rfl, nofun, fun _ => rfl⟩

/-- No sign comes between two pieces of which the first ends no value or the second starts none. -/
theorem insertMultiplication_cons_cons (config : Config) {a b : Piece}
    (h : a.kind.endsValue = false ∨ b.kind.startsValue = false) (rest : List Piece) :
    (insertMultiplication config (a :: b :: rest)).1 =
      a :: (insertMultiplication config (b :: rest)).1 := by
  obtain ⟨signs, hrow, -, hnone⟩ := insertMultiplication_cons config a (b :: rest)
  rw [hrow, hnone (by simpa using h)]
  rfl

/-- **Multiplication signs** come between the pieces, and none into the call of a derivative. -/
theorem becomes_insertMultiplication (config : Config) {n m : Nat} {row out : List Piece}
    (h : Becomes n m row out) : Becomes n m row (insertMultiplication config out).1 := by
  induction h with
  | nil n => exact .nil n
  | @added n m p row out hp _ ih =>
    obtain ⟨signs, hrow, hsigns, -⟩ := insertMultiplication_cons config p out
    rw [hrow]
    exact .added hp (ih.added_append hsigns)
  | @stands n k m p q row out hq _ ih =>
    obtain ⟨signs, hrow, hsigns, -⟩ := insertMultiplication_cons config q out
    rw [hrow]
    exact .stands hq (ih.added_append hsigns)
  | @derivative n m d slash d' v row out hd hslash hd' hv _ ih =>
    obtain ⟨signs, hrow, hsigns, -⟩ := insertMultiplication_cons config Piece.closeParen out
    rw [insertMultiplication_cons_cons _ (Or.inl rfl),
      insertMultiplication_cons_cons _ (Or.inl rfl),
      insertMultiplication_cons_cons _ (Or.inr rfl), hrow]
    exact .derivative hd hslash hd' hv (ih.added_append hsigns)

/-! ## The whole line -/

/-- **No symbol is lost, written twice or moved out of its place.**  The kept symbols, each once and
in the order of their middles, are read into pieces that all have been seen, spelled names joined.
The line is what becomes of these pieces, with every raised run in the order of its middles: a bar
that is paired is a call and its closing bracket, a derivative sign is a call, roots and limits have
their names, some brackets are changed, and any other piece is itself. -/
theorem becomes_assemble (config : Config) (symbols : List Symbol) :
    let kept := (symbols.filter (isKept config)).map Piece.detected
    let row := piecesOf (symbols.filter (isKept config))
    let out := (assemble config (symbols.filter (isKept config))).1
    (linearize config symbols).text = lineText out ∧ (sortByCenter kept).Perm kept ∧
      Ordered (sortByCenter kept) ∧ Joins (sortByCenter kept) row ∧
      (∀ p ∈ row, wasSeen p = true) ∧ (orderRuns config row).Perm row ∧
      Becomes 0 0 (orderRuns config row) out ∧
      (out.filterMap (·.box)).Sublist ((orderRuns config row).filterMap (·.box)) := by
  intro kept row out
  have hseen : ∀ p ∈ row, wasSeen p = true := seen_piecesOf _
  have hread : ∀ p ∈ orderRuns config row, p.IsRead := by
    intro p hp
    exact isRead_piecesOf _ p ((orderRuns_perm config row).subset hp)
  have hbarred : Barred 0 0 (orderRuns config row) (beforeCalls config row).1 := by
    rw [← filter_groupExponents config hseen]
    exact barred_pairBars (forall_seen_or_sign config hseen)
  have hcalled : Becomes 0 0 (orderRuns config row) (beforeRepair config row).1 :=
    (calls_writeCalls 0 _).becomes hbarred hread
  have hout : Becomes 0 0 (orderRuns config row) out :=
    becomes_insertMultiplication config (becomes_repairBrackets _ hcalled hread)
  exact ⟨text_linearize config symbols, sortByCenter_perm kept, ordered_sortByCenter kept,
    joins_joinNames _, hseen, orderRuns_perm config row, hout, hout.boxes_sublist⟩

end GlyphMath.Line
