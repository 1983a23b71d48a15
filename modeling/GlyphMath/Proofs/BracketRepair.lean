import GlyphMath.Proofs.Stages
import GlyphMath.Proofs.Unmatched

/-!
# Well-nested brackets are not repaired

* `spanning` -- how many pairs of bars are open at a position.
* `Paired` -- what the pairs of bars of a row satisfy.
* `writeBars_cons` -- what is written for one piece of a row with bars.
* `Warning.stage` -- the stage that has something to note.

Every stage keeps the height after a row: an exponent, an operand and a pair of bars stand in
brackets of their own, so that the heights between these are raised and the others stay.

Principal results:

* `climbs_groupExponents`, `climbs_pairBars`, `Calls.climbs` -- the stages before the repair.
* `repairBrackets_of_wellNested` -- the repair changes nothing and has nothing to note.
-/

set_option autoImplicit false

namespace GlyphMath.Line

open Layout (Symbol)

/-! ## Spelled names -/

theorem filter_joinNames {pieces : List Piece} (h : ∀ p ∈ pieces, p.IsRead) :
    (joinNames pieces).filter Piece.isBracket = pieces.filter Piece.isBracket := by
  fun_induction joinNames pieces with
  | case1 => rfl
  | case2 p rest name hname ih =>
    have hne : name.length ≠ 0 := by
      have := (spelledNames_letters name (List.mem_of_find?_eq_some hname)).1
      simpa using this
    obtain ⟨n, hn⟩ := Nat.exists_eq_succ_of_ne_zero hne
    have hjoined : ((p :: rest).take name.length).filter Piece.isBracket = [] := by
      rw [List.filter_eq_nil_iff]
      intro q hq
      have hkind := kind_of_spelledName h hname q hq
      simp [isBracket_of_kind (p := q) (by simp [hkind]) (by simp [hkind])]
    rw [List.filter_cons_of_neg Bool.false_ne_true,
      ih fun q hq => h q (List.mem_cons_of_mem _ (List.mem_of_mem_drop hq))]
    conv_rhs => rw [← List.take_append_drop name.length (p :: rest), List.filter_append, hjoined]
    rw [hn]
    rfl
  | case3 p rest hname ih =>
    rw [List.filter_cons, List.filter_cons, ih fun q hq => h q (List.mem_cons_of_mem _ hq)]

/-! ## Exponents -/

theorem climbs_exponent {start stop : Nat} {run : List Piece}
    (hordered : Ordered (run.filter Piece.isBracket)) (h : Climbs start stop run) :
    Climbs start stop (exponent run) := by
  have hsorted : Climbs start stop (sortByCenter run) := by
    rw [Climbs, ← brackets_filter, filter_sortByCenter hordered, brackets_filter]
    exact h
  unfold exponent
  split
  · rename_i hnil
    rwa [List.isEmpty_iff.1 hnil] at h
  · rw [climbs_plain (by rfl)]
    exact hsorted.bracketed

/-- **Writing exponents** keeps the height after a row. -/
theorem climbs_groupExponents (config : Config) {start stop : Nat} {pieces : List Piece}
    (hordered : Ordered (pieces.filter Piece.isBracket)) (h : Climbs start stop pieces) :
    Climbs start stop (groupExponents config pieces).1 := by
  fun_induction groupExponents config pieces generalizing start with
  | case1 => exact h
  | case2 base rest run out notes hout =>
    rename_i ih
    have hrow : base :: rest = [base] ++ (run ++ rest.dropWhile (isSuperscript config base)) := by
      rw [List.takeWhile_append_dropWhile]
      rfl
    rw [hrow] at h
    obtain ⟨afterBase, hbase, h⟩ := climbs_append.1 h
    obtain ⟨afterRun, hrun, hrest⟩ := climbs_append.1 h
    have hsub : rest.Sublist (base :: rest) := List.sublist_cons_self base rest
    have hout' : Climbs afterRun stop out := by
      have := ih (hordered.sublist (((List.dropWhile_sublist _).trans hsub).filter _)) hrest
      rwa [hout] at this
    have hexponent : Climbs afterBase afterRun (exponent run) :=
      climbs_exponent (hordered.sublist (((List.takeWhile_sublist _).trans hsub).filter _)) hrun
    exact climbs_append.2 ⟨afterBase, hbase, climbs_append.2 ⟨afterRun, hexponent, hout'⟩⟩

/-! ## Bars -/

/-- How many pairs of bars are open at a position. -/
def spanning (pairs : List (Nat × Nat)) (position : Nat) : Nat :=
  pairs.countP fun pair => decide (pair.1 < position) && decide (position ≤ pair.2)

theorem spanning_succ {pairs : List (Nat × Nat)} (h : ∀ pair ∈ pairs, pair.1 < pair.2)
    (position : Nat) :
    spanning pairs (position + 1) + (pairs.map (·.2)).count position =
      spanning pairs position + (pairs.map (·.1)).count position := by
  induction pairs with
  | nil => rfl
  | cons pair pairs ih =>
    have hpair := h pair List.mem_cons_self
    have hpairs := ih fun p hp => h p (List.mem_cons_of_mem _ hp)
    unfold spanning at hpairs ⊢
    simp only [List.countP_cons, List.map_cons, List.count_cons, Bool.and_eq_true,
      decide_eq_true_eq, beq_iff_eq]
    split <;> split <;> split <;> split <;> omega

/-- Pairs of positions, each position in one pair at most. -/
structure Matching (pairs : List (Nat × Nat)) : Prop where
  lt : ∀ pair ∈ pairs, pair.1 < pair.2
  firsts : (pairs.map (·.1)).Nodup
  seconds : (pairs.map (·.2)).Nodup
  apart : ∀ pair ∈ pairs, ∀ pair' ∈ pairs, pair.1 ≠ pair'.2

/-- The pairs of bars of the pieces from a position on.  The first bar of a pair waits already or
stands in the pieces, and the second one stands in them. -/
structure Paired (position : Nat) (waiting : List Nat) (pieces : List Piece)
    (pairs : List (Nat × Nat)) : Prop extends Matching pairs where
  waits : ∀ pair ∈ pairs, pair.1 ∈ waiting ∨ position ≤ pair.1
  low : ∀ pair ∈ pairs, position ≤ pair.2
  high : ∀ pair ∈ pairs, pair.2 < position + pieces.length
  bars : ∀ pair ∈ pairs, ∀ i p, pieces[i]? = some p →
    pair.1 = position + i ∨ pair.2 = position + i → p.kind = .bar

/-- A piece in front of the pieces: no pair begins with it unless it is a bar that waits now. -/
theorem Paired.cons {position : Nat} {waiting waiting' : List Nat} {p : Piece} {rest : List Piece}
    {pairs : List (Nat × Nat)} (h : Paired (position + 1) waiting' rest pairs)
    (hbar : position ∈ waiting' → p.kind = .bar)
    (hwaits : ∀ w ∈ waiting', w ∈ waiting ∨ position ≤ w) :
    Paired position waiting (p :: rest) pairs := by
  refine ⟨h.toMatching, ?_, ?_, ?_, ?_⟩
  · intro pair hpair
    rcases h.waits pair hpair with hw | hle
    · exact hwaits _ hw
    · exact Or.inr (by omega)
  · intro pair hpair
    have := h.low pair hpair
    omega
  · intro pair hpair
    have := h.high pair hpair
    rw [List.length_cons]
    omega
  · intro pair hpair i q hq hi
    cases i with
    | zero =>
      cases hq
      have hlow := h.low pair hpair
      rcases h.waits pair hpair with hw | hle
      · exact hbar (by rwa [show position = pair.1 by omega])
      · omega
    | succ i => exact h.bars pair hpair i q hq (by omega)

theorem paired_barPairs {position : Nat} {afterValue : Bool} {waiting : List Nat}
    {pieces : List Piece} (hnodup : waiting.Nodup) (hlt : ∀ w ∈ waiting, w < position) :
    Paired position waiting pieces (barPairs position afterValue waiting pieces) := by
  fun_induction barPairs position afterValue waiting pieces with
  | case1 =>
    exact ⟨⟨nofun, List.nodup_nil, List.nodup_nil, nofun⟩, nofun, nofun, nofun, nofun⟩
  | case2 position p rest hp first others ih =>
    obtain ⟨hfirst, hothers⟩ := List.nodup_cons.1 hnodup
    have hbelow := hlt first List.mem_cons_self
    have h := ih hothers fun w hw => Nat.lt_succ_of_lt (hlt w (List.mem_cons_of_mem _ hw))
    have hnew : ∀ pair ∈ barPairs (position + 1) true others rest,
        pair.1 ≠ first ∧ pair.1 ≠ position := by
      intro pair hpair
      rcases h.waits pair hpair with hw | hle
      · have := hlt pair.1 (List.mem_cons_of_mem _ hw)
        exact ⟨fun heq => hfirst (heq ▸ hw), by omega⟩
      · omega
    have hcons : Paired position (first :: others) (p :: rest)
        (barPairs (position + 1) true others rest) :=
      h.cons (fun hw => hp) fun w hw => Or.inl (List.mem_cons_of_mem _ hw)
    refine ⟨⟨?_, ?_, ?_, ?_⟩, ?_, ?_, ?_, ?_⟩
    · rintro pair (_ | ⟨_, hpair⟩)
      · exact hbelow
      · exact h.lt pair hpair
    · rw [List.map_cons, List.nodup_cons]
      refine ⟨?_, h.firsts⟩
      intro hmem
      obtain ⟨pair, hpair, heq⟩ := List.mem_map.1 hmem
      exact (hnew pair hpair).1 heq
    · rw [List.map_cons, List.nodup_cons]
      refine ⟨?_, h.seconds⟩
      intro hmem
      obtain ⟨pair, hpair, heq⟩ := List.mem_map.1 hmem
      have := h.low pair hpair
      omega
    · rintro pair (_ | ⟨_, hpair⟩) pair' (_ | ⟨_, hpair'⟩)
      · exact Nat.ne_of_lt hbelow
      · have := h.low pair' hpair'
        omega
      · exact (hnew pair hpair).2
      · exact h.apart pair hpair pair' hpair'
    · rintro pair (_ | ⟨_, hpair⟩)
      · exact Or.inl List.mem_cons_self
      · exact hcons.waits pair hpair
    · rintro pair (_ | ⟨_, hpair⟩)
      · exact Nat.le_refl _
      · exact hcons.low pair hpair
    · rintro pair (_ | ⟨_, hpair⟩)
      · simp
      · exact hcons.high pair hpair
    · rintro pair (_ | ⟨_, hpair⟩) i q hq hi
      · obtain rfl : i = 0 := by simp at hi; omega
        cases hq
        exact hp
      · exact hcons.bars pair hpair i q hq hi
  | case3 position afterValue waiting p rest hp _ ih =>
    have hposition : position ∉ waiting := fun hmem => Nat.lt_irrefl _ (hlt position hmem)
    refine (ih (List.nodup_cons.2 ⟨hposition, hnodup⟩) ?_).cons (fun _ => hp) ?_
    · rintro w (_ | ⟨_, hw⟩)
      · exact Nat.lt_succ_self _
      · exact Nat.lt_succ_of_lt (hlt w hw)
    · rintro w (_ | ⟨_, hw⟩)
      · exact Or.inr (Nat.le_refl _)
      · exact Or.inl hw
  | case4 position afterValue waiting p rest hp ih =>
    refine (ih hnodup fun w hw => Nat.lt_succ_of_lt (hlt w hw)).cons ?_ fun w hw => Or.inl hw
    intro hmem
    exact absurd (hlt position hmem) (Nat.lt_irrefl _)

theorem Matching.count_first {pairs : List (Nat × Nat)} (h : Matching pairs) {position : Nat}
    (hany : pairs.any (·.1 == position) = true) :
    (pairs.map (·.1)).count position = 1 ∧ (pairs.map (·.2)).count position = 0 := by
  obtain ⟨pair, hpair, heq⟩ := List.any_eq_true.1 hany
  obtain rfl := eq_of_beq heq
  refine ⟨List.count_eq_one_of_mem h.firsts (List.mem_map_of_mem hpair), ?_⟩
  rw [List.count_eq_zero]
  intro hmem
  obtain ⟨pair', hpair', heq⟩ := List.mem_map.1 hmem
  exact h.apart pair hpair pair' hpair' heq.symm

theorem Matching.count_second {pairs : List (Nat × Nat)} (h : Matching pairs) {position : Nat}
    (hany : pairs.any (·.2 == position) = true) :
    (pairs.map (·.1)).count position = 0 ∧ (pairs.map (·.2)).count position = 1 := by
  obtain ⟨pair, hpair, heq⟩ := List.any_eq_true.1 hany
  obtain rfl := eq_of_beq heq
  refine ⟨?_, List.count_eq_one_of_mem h.seconds (List.mem_map_of_mem hpair)⟩
  rw [List.count_eq_zero]
  intro hmem
  obtain ⟨pair', hpair', heq⟩ := List.mem_map.1 hmem
  exact h.apart pair' hpair' pair hpair heq

theorem count_eq_zero_of_any {pairs : List (Nat × Nat)} {f : Nat × Nat → Nat} {position : Nat}
    (hany : ¬ pairs.any (f · == position) = true) : (pairs.map f).count position = 0 := by
  rw [List.count_eq_zero]
  intro hmem
  obtain ⟨pair, hpair, heq⟩ := List.mem_map.1 hmem
  exact hany (List.any_eq_true.2 ⟨pair, hpair, beq_iff_eq.2 heq⟩)

theorem step?_bar {p : Piece} (h : p.kind = .bar) : p.step? = none := by
  rw [Piece.step?, h]

/-- **A step of the bars**: a piece is the first bar of a pair, the second one, or stays. -/
theorem writeBars_cons {pairs : List (Nat × Nat)} (hpairs : Matching pairs) {position : Nat}
    {p : Piece} (rest : List Piece)
    (hbar : ∀ pair ∈ pairs, pair.1 = position ∨ pair.2 = position → p.kind = .bar) :
    (p.kind = .bar ∧ spanning pairs (position + 1) = spanning pairs position + 1 ∧
      (writeBars pairs position (p :: rest)).1 =
        ⟨"abs", .function, p.box⟩ :: Piece.openParen :: (writeBars pairs (position + 1) rest).1) ∨
    (p.kind = .bar ∧ spanning pairs position = spanning pairs (position + 1) + 1 ∧
      (writeBars pairs position (p :: rest)).1 =
        Piece.closeParen :: (writeBars pairs (position + 1) rest).1) ∨
    (spanning pairs (position + 1) = spanning pairs position ∧
      (writeBars pairs position (p :: rest)).1 = p :: (writeBars pairs (position + 1) rest).1) := by
  have hspan := spanning_succ hpairs.lt position
  rw [writeBars]
  dsimp only
  split
  · rename_i hany
    obtain ⟨hfirst, hsecond⟩ := hpairs.count_first hany
    obtain ⟨pair, hpair, heq⟩ := List.any_eq_true.1 hany
    exact Or.inl ⟨hbar pair hpair (Or.inl (eq_of_beq heq)), by omega, rfl⟩
  · rename_i hfirst
    split
    · rename_i hany
      obtain ⟨hfirst, hsecond⟩ := hpairs.count_second hany
      obtain ⟨pair, hpair, heq⟩ := List.any_eq_true.1 hany
      exact Or.inr (Or.inl ⟨hbar pair hpair (Or.inr (eq_of_beq heq)), by omega, rfl⟩)
    · rename_i hsecond
      have hfirst : (pairs.map (·.1)).count position = 0 := count_eq_zero_of_any hfirst
      have hsecond : (pairs.map (·.2)).count position = 0 := count_eq_zero_of_any hsecond
      exact Or.inr (Or.inr ⟨by omega, rfl⟩)

theorem bars_cons {pairs : List (Nat × Nat)} {position : Nat} {p : Piece} {rest : List Piece}
    (hbars : ∀ pair ∈ pairs, ∀ i q, (p :: rest)[i]? = some q →
      pair.1 = position + i ∨ pair.2 = position + i → q.kind = .bar) :
    (∀ pair ∈ pairs, pair.1 = position ∨ pair.2 = position → p.kind = .bar) ∧
      ∀ pair ∈ pairs, ∀ i q, rest[i]? = some q →
        pair.1 = position + 1 + i ∨ pair.2 = position + 1 + i → q.kind = .bar := by
  constructor
  · intro pair hpair hi
    exact hbars pair hpair 0 p rfl hi
  · intro pair hpair i q hq hi
    exact hbars pair hpair (i + 1) q hq (by omega)

theorem climbs_writeBars {pairs : List (Nat × Nat)} (hpairs : Matching pairs)
    {position start stop : Nat} {pieces : List Piece}
    (hbars : ∀ pair ∈ pairs, ∀ i p, pieces[i]? = some p →
      pair.1 = position + i ∨ pair.2 = position + i → p.kind = .bar)
    (h : Climbs start stop pieces) :
    Climbs (start + spanning pairs position) (stop + spanning pairs (position + pieces.length))
      (writeBars pairs position pieces).1 := by
  induction pieces generalizing position start with
  | nil =>
    rw [climbs_nil] at h
    subst h
    rfl
  | cons p rest ih =>
    obtain ⟨hbar, hrest⟩ := bars_cons hbars
    obtain ⟨middle, hp, hclimbs⟩ := climbs_cons.1 h
    have hout := ih hrest hclimbs
    rw [Nat.add_assoc position, Nat.add_comm 1, ← List.length_cons] at hout
    have hlevel (hkind : p.kind = .bar) : start = middle := by
      rwa [climbs_plain (step?_bar hkind), climbs_nil] at hp
    rcases writeBars_cons hpairs rest hbar with
      ⟨hkind, hspan, hrow⟩ | ⟨hkind, hspan, hrow⟩ | ⟨hspan, hrow⟩
    · obtain rfl := hlevel hkind
      rw [hrow, climbs_plain (by rfl), climbs_opening rfl, Nat.add_assoc, ← hspan]
      exact hout
    · obtain rfl := hlevel hkind
      rw [hrow, hspan, ← Nat.add_assoc, climbs_closing rfl]
      exact hout
    · rw [hrow]
      rw [hspan] at hout
      exact climbs_cons.2 ⟨_, hp.add _, hout⟩

theorem spanning_zero (pairs : List (Nat × Nat)) : spanning pairs 0 = 0 := by
  rw [spanning, List.countP_eq_zero]
  simp

/-- Every pair is closed at the end of a row. -/
theorem Paired.spanning_length {position : Nat} {waiting : List Nat} {pieces : List Piece}
    {pairs : List (Nat × Nat)} (h : Paired position waiting pieces pairs) :
    spanning pairs (position + pieces.length) = 0 := by
  rw [spanning, List.countP_eq_zero]
  intro pair hpair
  have := h.high pair hpair
  simp
  omega

/-- **Writing bars** keeps the height after a row: the brackets of a pair of bars raise what is
between them. -/
theorem climbs_pairBars {start stop : Nat} {pieces : List Piece} (h : Climbs start stop pieces) :
    Climbs start stop (pairBars pieces).1 := by
  have hpaired : Paired 0 [] pieces (barPairs 0 false [] pieces) :=
    paired_barPairs List.nodup_nil nofun
  have hbars := climbs_writeBars hpaired.toMatching hpaired.bars h
  rwa [spanning_zero, hpaired.spanning_length] at hbars

/-! ## Calls -/

theorem step?_callable {p : Piece} (h : isCallable p = true) : p.step? = none := by
  unfold isCallable at h
  rw [Bool.or_eq_true, beq_iff_eq, beq_iff_eq] at h
  rcases h with h | h <;> rw [Piece.step?, h]

theorem step?_read {p : Piece} (h : p.IsRead) {text : String} (htext : p.text = text)
    (hkind : Kind.of text = .variable ∨ Kind.of text = .operator) : p.step? = none := by
  unfold Piece.IsRead at h
  rw [htext] at h
  rcases hkind with hkind | hkind <;> rw [Piece.step?, h, hkind]

/-- Calling functions keeps the height after a row: an operand and its function stand in brackets of
their own. -/
theorem Calls.climbs {start stop : Nat} {pieces out : List Piece} (hcalls : Calls pieces out)
    (hread : ∀ p ∈ pieces, p.IsRead) (h : Climbs start stop pieces) : Climbs start stop out := by
  induction hcalls generalizing start stop with
  | nil => exact h
  | @derivative d slash d' v rest out hd hslash hd' hv _ ih =>
    have hvariable : Climbs start start [v] := by
      rw [climbs_plain (by rw [Piece.step?, hv]), climbs_nil]
    rw [climbs_plain (step?_read (hread d (by simp)) hd (Or.inl (by decide))),
      climbs_plain (step?_read (hread slash (by simp)) hslash (Or.inr (by decide))),
      climbs_plain (step?_read (hread d' (by simp)) hd' (Or.inl (by decide))),
      climbs_plain (by rw [Piece.step?, hv])] at h
    rw [climbs_plain (by rfl)]
    exact climbs_append.2 ⟨start, hvariable.bracketed,
      ih (fun p hp => hread p (by simp [hp])) h⟩
  | @called p rest out hp _ _ ih =>
    rw [climbs_plain (by rw [Piece.step?, hp])] at h
    rw [climbs_plain (by rfl)]
    exact ih (fun p hp => hread p (by simp [hp])) h
  | @bare p operand rest inner out hp _ _ ih ih' =>
    rw [climbs_plain (step?_callable hp)] at h
    obtain ⟨middle, hoperand, hrest⟩ := climbs_append.1 h
    have hinner := ih (fun p hp => hread p (by simp [hp])) hoperand
    have hout := ih' (fun p hp => hread p (by simp [hp])) hrest
    rw [climbs_plain (by rfl)]
    have hrow := climbs_append.2 ⟨middle, hinner.bracketed, hout⟩
    simpa using hrow
  | @plain p rest out _ _ ih =>
    obtain ⟨middle, hp, hrest⟩ := climbs_cons.1 h
    exact climbs_cons.2 ⟨middle, hp, ih (fun p hp => hread p (by simp [hp])) hrest⟩

/-- The stages before the repair lead from the height before a row to the height after it. -/
theorem climbs_beforeRepair (config : Config) {start stop : Nat} {pieces : List Piece}
    (hread : ∀ p ∈ pieces, p.IsRead) (hordered : Ordered (pieces.filter Piece.isBracket))
    (h : Climbs start stop pieces) : Climbs start stop (beforeRepair config pieces).1 :=
  (calls_writeCalls 0 _).climbs (isRead_beforeCalls config hread)
    (climbs_pairBars (climbs_groupExponents config hordered h))

/-! ## Repair -/

theorem repairBrackets_of_climbs (passes : Nat) {pieces : List Piece} (h : Climbs 0 0 pieces) :
    repairBrackets passes pieces = (pieces, []) := by
  unfold repairBrackets
  exact if_pos (Nesting.isValid_iff.2 (wellNested_iff.2 h))

/-! ## The notes of every stage -/

/-- The stages that have something to note. -/
inductive Stage where
  | selection
  | exponents
  | bars
  | calls
  | repair
  | multiplication
  | balance
deriving DecidableEq

/-- The stage that notes something. -/
def Warning.stage : Warning → Stage
  | .noSymbols => .selection
  | .dropped _ _ => .selection
  | .nothingLeft _ _ _ _ _ => .selection
  | .crowdedExponent _ _ => .exponents
  | .unpairedBar _ => .bars
  | .noArgumentList _ => .calls
  | .noOperand _ _ => .calls
  | .closedBracket _ => .repair
  | .openedBracket _ => .repair
  | .gaveUp _ => .repair
  | .wideGap _ _ _ => .multiplication
  | .unbalanced => .balance

theorem not_prefix_append {word first rest : String} {c d : Char} {cs ds : List Char}
    (hword : word.toList = c :: cs) (hfirst : first.toList = d :: ds) (h : c ≠ d) :
    ¬ word.toList <+: (first ++ rest).toList := by
  rw [String.toList_append, hword, hfirst]
  intro hprefix
  exact h (List.cons_prefix_cons.1 hprefix).1

theorem not_prefix_message {w : Warning} (h : w.stage ≠ .repair) :
    ¬ "bracket repair".toList <+: w.message.toList := by
  unfold Warning.message
  cases w with
  | closedBracket position => exact absurd rfl h
  | openedBracket position => exact absurd rfl h
  | gaveUp unmatched => exact absurd rfl h
  | noSymbols => decide +kernel
  | unbalanced => decide +kernel
  | dropped count threshold =>
    simp only [String.append_assoc]
    exact not_prefix_append rfl rfl (by decide)
  | nothingLeft detected lowest highest mean threshold =>
    simp only [String.append_assoc]
    exact not_prefix_append rfl rfl (by decide)
  | crowdedExponent base count =>
    simp only [String.append_assoc]
    exact not_prefix_append rfl rfl (by decide)
  | unpairedBar position => exact not_prefix_append rfl rfl (by decide)
  | noArgumentList position =>
    simp only [String.append_assoc]
    exact not_prefix_append rfl rfl (by decide)
  | noOperand text position =>
    simp only [String.append_assoc]
    exact not_prefix_append rfl rfl (by decide)
  | wideGap left right gap =>
    simp only [String.append_assoc]
    exact not_prefix_append rfl rfl (by decide)

theorem stage_select (config : Config) (symbols : List Symbol) :
    ∀ w ∈ (select config symbols).2, w.stage = .selection := by
  unfold select
  dsimp only
  split
  · simp [Warning.stage]
  · split <;> split <;> simp [Warning.stage]

theorem stage_groupExponents (config : Config) (pieces : List Piece) :
    ∀ w ∈ (groupExponents config pieces).2, w.stage = .exponents := by
  intro w hw
  fun_induction groupExponents config pieces with
  | case1 => cases hw
  | case2 base rest run out notes hout =>
    rename_i ih
    rw [hout] at ih
    rcases List.mem_append.1 hw with hw | hw
    · unfold crowding at hw
      split at hw
      · rw [List.mem_singleton.1 hw]
        rfl
      · cases hw
    · exact ih hw

theorem stage_writeBars (pairs : List (Nat × Nat)) (position : Nat) (pieces : List Piece) :
    ∀ w ∈ (writeBars pairs position pieces).2, w.stage = .bars := by
  induction pieces generalizing position with
  | nil => exact nofun
  | cons p rest ih =>
    rw [writeBars]
    dsimp only
    split
    · exact ih (position + 1)
    · split
      · exact ih (position + 1)
      · dsimp only
        split
        · rintro w (_ | ⟨_, hw⟩)
          · rfl
          · exact ih (position + 1) w hw
        · exact ih (position + 1)

theorem stage_callNotes (position : Nat) (p : Piece) (operand : List Piece) :
    ∀ w ∈ callNotes position p operand, w.stage = .calls := by
  intro w hw
  unfold callNotes at hw
  split at hw <;> split at hw <;> simp at hw
  · rcases hw with rfl | rfl <;> rfl
  · rw [hw]; rfl
  · rw [hw]; rfl

theorem stage_writeCalls (position : Nat) (pieces : List Piece) :
    ∀ w ∈ (writeCalls position pieces).2, w.stage = .calls := by
  fun_induction writeCalls position pieces with
  | case1 => exact List.forall_mem_nil _
  | case2 position p rest v after hsign out notes hout ih =>
    rwa [hout] at ih
  | case3 position p rest hsign hp head hcalled out notes hout ih =>
    rwa [hout] at ih
  | case4 position p rest hsign hp head hbare length inner innerNotes hinner out notes hout ih ih' =>
    rw [hinner] at ih
    rw [hout] at ih'
    intro w hw
    simp only [List.mem_append] at hw
    rcases hw with (hw | hw) | hw
    · exact stage_callNotes position p _ w hw
    · exact ih w hw
    · exact ih' w hw
  | case5 position p rest hsign hp out notes hout ih =>
    rwa [hout] at ih

theorem stage_gapNotes (config : Config) (a b : Piece) :
    ∀ w ∈ gapNotes config a b, w.stage = .multiplication := by
  intro w hw
  unfold gapNotes at hw
  split at hw
  · dsimp only at hw
    split at hw
    · rw [List.mem_singleton.1 hw]
      rfl
    · cases hw
  · cases hw

theorem stage_insertMultiplication (config : Config) (pieces : List Piece) :
    ∀ w ∈ (insertMultiplication config pieces).2, w.stage = .multiplication := by
  fun_induction insertMultiplication config pieces with
  | case1 => exact nofun
  | case2 => exact nofun
  | case3 a b rest out notes hout hnumbers ih =>
    rw [hout] at ih
    intro w hw
    rcases List.mem_append.1 hw with hw | hw
    · exact stage_gapNotes config a b w hw
    · exact ih w hw
  | case4 a b rest out notes hout hnumbers hvalues ih =>
    rwa [hout] at ih
  | case5 a b rest out notes hout hnumbers hvalues ih =>
    rwa [hout] at ih

theorem stage_repairBrackets (passes : Nat) (pieces : List Piece) :
    ∀ w ∈ (repairBrackets passes pieces).2, w.stage = .repair := by
  fun_induction repairBrackets passes pieces with
  | case1 => simp
  | case2 => simp [Warning.stage]
  | case3 => simp [Warning.stage]
  | case4 pieces n hvalid passes position htarget out notes hout ih =>
    rw [hout] at ih
    rintro w (_ | ⟨_, hw⟩)
    · unfold flipNote
      split <;> rfl
    · exact ih w hw

theorem stage_balanceNotes (text : String) : ∀ w ∈ balanceNotes text, w.stage = .balance := by
  unfold balanceNotes
  split <;> simp [Warning.stage]

/-- The notes about the row before its functions are called. -/
theorem stage_beforeCalls (config : Config) (pieces : List Piece) :
    ∀ w ∈ (beforeCalls config pieces).2, w.stage = .exponents ∨ w.stage = .bars := by
  intro w hw
  rcases List.mem_append.1 hw with hw | hw
  · exact Or.inl (stage_groupExponents config pieces w hw)
  · exact Or.inr (stage_writeBars _ 0 _ w hw)

theorem stage_beforeRepair (config : Config) (pieces : List Piece) :
    ∀ w ∈ (beforeRepair config pieces).2, w.stage ≠ .repair := by
  intro w hw
  rcases List.mem_append.1 hw with hw | hw
  · rcases stage_beforeCalls config pieces w hw with hstage | hstage <;> simp [hstage]
  · simp [stage_writeCalls 0 _ w hw]

/-- The row of well-nested symbols before the repair is well nested. -/
theorem climbs_beforeRepair_piecesOf (config : Config) {symbols : List Symbol}
    (h : WellNested (sortByCenter (symbols.map Piece.detected))) :
    Climbs 0 0 (beforeRepair config (piecesOf symbols)).1 := by
  have hread : ∀ p ∈ sortByCenter (symbols.map Piece.detected), p.IsRead := isRead_sorted symbols
  have hjoined : (piecesOf symbols).filter Piece.isBracket =
      (sortByCenter (symbols.map Piece.detected)).filter Piece.isBracket := filter_joinNames hread
  refine climbs_beforeRepair config (isRead_piecesOf symbols) ?_ ?_
  · rw [hjoined]
    exact (ordered_sortByCenter _).sublist List.filter_sublist
  · rw [wellNested_iff, Climbs, ← brackets_filter, ← hjoined, brackets_filter] at h
    exact h

/-- **Well-nested brackets are never changed**: where the brackets among the kept symbols are well
nested from left to right, the repair leaves the row as it is and has nothing to note, wherever
exponents, bars, roots and calls put their own brackets. -/
theorem repairBrackets_of_wellNested (config : Config) (symbols : List Symbol)
    (h : WellNested (sortByCenter ((symbols.filter (isKept config)).map Piece.detected))) :
    repairBrackets config.maxRepairPasses
        (beforeRepair config (piecesOf (symbols.filter (isKept config)))).1 =
      ((beforeRepair config (piecesOf (symbols.filter (isKept config)))).1, []) ∧
    ∀ w ∈ (linearize config symbols).warnings, ¬ "bracket repair".toList <+: w.message.toList := by
  have hrepair := repairBrackets_of_climbs config.maxRepairPasses
    (climbs_beforeRepair_piecesOf config h)
  refine ⟨hrepair, fun w hw => not_prefix_message ?_⟩
  have hselect := stage_select config symbols
  unfold linearize at hw
  split at hw
  · rename_i notes hselected
    rw [hselected] at hselect
    simp [hselect w hw]
  · rename_i kept notes hselected
    rw [hselected] at hselect
    obtain rfl := kept_of_select hselected
    simp only [assemble, hrepair, List.append_nil, List.mem_append] at hw
    rcases hw with (hw | hw | hw) | hw
    · simp [hselect w hw]
    · exact stage_beforeRepair config _ w hw
    · simp [stage_insertMultiplication config _ w hw]
    · simp [stage_balanceNotes _ w hw]

/-- A root over a pair of bars that takes in two of three closing brackets, with an exponent that
takes in one of three opening ones. -/
def straddled : List Symbol :=
  [symbolAt "√" 0.0 0.0 10.0 20.0, symbolAt "(" 11.0 0.0 14.0 20.0,
    symbolAt "|" 15.0 0.0 16.0 20.0, symbolAt "[" 17.0 0.0 20.0 20.0,
    symbolAt "x" 22.0 0.0 32.0 20.0, symbolAt "(" 33.0 0.0 36.0 8.0,
    symbolAt "2" 37.0 0.0 42.0 8.0, symbolAt "\x7d" 46.0 0.0 50.0 20.0,
    symbolAt ")" 51.0 0.0 54.0 20.0, symbolAt "|" 55.0 0.0 57.0 20.0,
    symbolAt ")" 58.0 0.0 60.0 20.0]

theorem repairBrackets_of_wellNested_straddled :
    (linearize {} straddled).text = "sqrt((abs((x^((2))))))" ∧
    ∀ w ∈ (linearize {} straddled).warnings, ¬ "bracket repair".toList <+: w.message.toList :=
  ⟨by decide +kernel,
    (repairBrackets_of_wellNested {} straddled (by decide +kernel)).2⟩

end GlyphMath.Line
