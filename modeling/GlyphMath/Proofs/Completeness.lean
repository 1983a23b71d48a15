import GlyphMath.Proofs.Stacks

/-!
# The parser reads every phrase of the grammar

* `Builds` -- applying the waiting operators leaves one new operand, the tree, or finds it too
  tall.
* `Reads` -- what reading a phrase does to a state: the operators of the phrase that still wait
  yield to every operator that can follow it, and applying them builds its tree.
* `reads_of_derives` -- a phrase is read so from every state whose topmost entry does not yield to
  the operators of the phrase.

Principal result: `parseTokens_of_derives`.  The tokens of a sentence have the tree of its
derivation, whatever their places are, unless that tree is too tall.
-/

set_option autoImplicit false

namespace GlyphMath.Formula

/-! ## Building a tree -/

/-- The result is the operand of the tree `t` on top of the operands below, or the error that `t`
is too tall. -/
def Builds (t : Expr) (below : List Operand) (r : Except ParseError (List Operand)) : Prop :=
  ∃ offset, r = (Operand.made t offset).map (· :: below)

theorem Operand.made_of_le {t : Expr} {offset : Nat} (h : t.height ≤ maxHeight) :
    made t offset = .ok (.ofExpr t) := if_neg (Nat.not_lt.2 h)

theorem Operand.made_of_lt {t : Expr} {offset : Nat} (h : maxHeight < t.height) :
    made t offset = .error (.tooDeep offset maxHeight) := if_pos h

/-- A tree that is built from a tree that is too tall is too tall itself. -/
theorem Builds.bind {t t' : Expr} {below below' : List Operand}
    {r : Except ParseError (List Operand)}
    {next : List Operand → Except ParseError (List Operand)} (h : Builds t below r)
    (hle : t.height ≤ t'.height) (hnext : Builds t' below' (next (.ofExpr t :: below))) :
    Builds t' below' (r.bind next) := by
  obtain ⟨offset, rfl⟩ := h
  by_cases ht : t.height ≤ maxHeight
  · rw [Operand.made_of_le ht]
    exact hnext
  · refine ⟨offset, ?_⟩
    rw [Operand.made_of_lt (by omega), Operand.made_of_lt (by omega)]
    rfl

/-! ## Entries around a phrase -/

/-- The entry is applied before every operator that can follow a phrase of the level. -/
def Entry.ClosesFor (l : Level) (entry : Entry) : Prop :=
  ∀ op : Operator, op.lhsLevel.rank ≤ l.rank → entry.yieldsTo op = true

/-- The entry waits while a phrase of the level is read on top of it. -/
def Entry.Admits (l : Level) (entry : Entry) : Prop :=
  ∀ op : Operator, l.rank ≤ op.level.rank → entry.yieldsTo op = false

theorem Entry.ClosesFor.mono {l l' : Level} {entry : Entry} (h : entry.ClosesFor l)
    (hle : l'.rank ≤ l.rank) : entry.ClosesFor l' :=
  fun op hop => h op (Nat.le_trans hop hle)

theorem Entry.Admits.mono {l l' : Level} {entry : Entry} (h : entry.Admits l)
    (hle : l.rank ≤ l'.rank) : entry.Admits l' :=
  fun op hop => h op (Nat.le_trans hle hop)

theorem Entry.ClosesFor.isParen {l : Level} {entry : Entry} (h : entry.ClosesFor l) :
    entry.isParen = false :=
  Entry.isParen_of_yieldsTo (h .add (Nat.zero_le _))

theorem Entry.admits_paren (offset base : Nat) (isCall : Bool) (l : Level) :
    (Entry.paren offset base isCall).Admits l := fun _ _ => rfl

theorem Entry.closesFor_negate (offset base : Nat) (l : Level) :
    (Entry.negate offset base).ClosesFor l := fun _ _ => rfl

theorem Entry.admits_negate (offset base : Nat) : (Entry.negate offset base).Admits .unary :=
  fun op hop => absurd op.level_lt_unary (Nat.not_lt.2 hop)

theorem Entry.closesFor_binary (op : Operator) (offset base : Nat) :
    (Entry.binary op offset base).ClosesFor op.level := by
  intro next hnext
  revert hnext
  show _ → op.yieldsTo next = true
  cases op <;> cases next <;> decide

theorem Entry.admits_binary (op : Operator) (offset base : Nat) :
    (Entry.binary op offset base).Admits op.rhsLevel := by
  intro next hnext
  revert hnext
  show _ → op.yieldsTo next = false
  cases op <;> cases next <;> decide

/-! ## Reading a phrase -/

/-- What comes of reading a phrase of the level `l` with the tree `t` from the state `s`. -/
inductive Reads (l : Level) (t : Expr) (s : State) : Except ParseError State → Prop where
  | read (pending : List Entry) (operands : List Operand) (last : Token)
      (hlast : last.endsValue = true) (hpending : ∀ entry ∈ pending, entry.ClosesFor l)
      (hbuilds : Builds t s.operands (reduceAll pending operands)) :
      Reads l t s (.ok ⟨pending ++ s.entries, s.frames, operands, none, some last⟩)
  | tooDeep (offset : Nat) (h : maxHeight < t.height) :
      Reads l t s (.error (.tooDeep offset maxHeight))

namespace Reads

variable {l : Level} {t a b : Expr} {s : State} {r : Except ParseError State}

theorem loosen {l' : Level} (h : Reads l t s r) (hle : l'.rank ≤ l.rank) : Reads l' t s r := by
  cases h with
  | read pending operands last hlast hpending hbuilds =>
    exact .read pending operands last hlast (fun e he => (hpending e he).mono hle) hbuilds
  | tooDeep offset h => exact .tooDeep offset h

theorem leaf (ht : t.height = 1) {last : Token} (hlast : last.endsValue = true) :
    Reads .atom t s (.ok ⟨s.entries, s.frames, .leaf t :: s.operands, none, some last⟩) := by
  refine .read [] _ last hlast (by simp) ⟨0, ?_⟩
  rw [Operand.made_of_le (by rw [ht]; decide), Operand.ofExpr, ht]
  rfl

/-- An operator after a value applies the operators of the phrase on its left. -/
theorem step_operator {op : Operator} {l : Lexeme} (hl : l.token = .operator op)
    {pending : List Entry} {operands : List Operand} {last : Token}
    (hlast : last.endsValue = true) (hpending : ∀ entry ∈ pending, entry.ClosesFor op.lhsLevel)
    (hs : ∀ entry ∈ s.entries.head?, entry.Admits op.level) :
    step ⟨pending ++ s.entries, s.frames, operands, none, some last⟩ l =
      (reduceAll pending operands).map fun operands =>
        ⟨.binary op l.offset operands.length :: s.entries, s.frames, operands, none,
          some (.operator op)⟩ := by
  have hfor := reduceFor_append op s.entries operands
    fun entry he => hpending entry he op (Nat.le_refl _)
  have hstop : ∀ operands, reduceFor op s.entries operands = .ok (s.entries, operands) :=
    fun operands => reduceFor_stop op operands fun entry he => hs entry he op (Nat.le_refl _)
  simp only [step, hl, takeToken, State.afterValue, hlast, if_true]
  rw [hfor]
  cases reduceAll pending operands with
  | error e => rfl
  | ok operands =>
    simp only [Except.bind, hstop]
    rfl

/-- A phrase, an operator, and a phrase on its right. -/
theorem binary {op : Operator} {l : Lexeme} (hl : l.token = .operator op) {ls : List Lexeme}
    (ha : Reads op.lhsLevel a s r) (hs : ∀ entry ∈ s.entries.head?, entry.Admits op.level)
    (hb : ∀ s' : State, s'.entries.head? = some (.binary op l.offset (s.operands.length + 1)) →
      s'.pending = none → s'.afterValue = false → Reads op.rhsLevel b s' (steps s' ls)) :
    Reads op.level (op.tree a b) s (r.bind (steps · (l :: ls))) := by
  cases ha with
  | tooDeep offset h => exact .tooDeep offset (Nat.lt_of_lt_of_le h (height_lt_tree_left op a b))
  | read pending operands last hlast hpending hbuilds =>
    obtain ⟨offset, hbuilds⟩ := hbuilds
    simp only [Except.bind, steps, step_operator hl hlast hpending hs, hbuilds]
    by_cases hh : a.height ≤ maxHeight
    · rw [Operand.made_of_le hh]
      have hb := hb ⟨.binary op l.offset (s.operands.length + 1) :: s.entries, s.frames,
        .ofExpr a :: s.operands, none, some (.operator op)⟩ rfl rfl rfl
      simp only [Except.map, List.length_cons]
      generalize steps _ ls = r at hb
      cases hb with
      | tooDeep offset h =>
        exact .tooDeep offset (Nat.lt_trans h (height_lt_tree_right op a b))
      | read pending' operands' last' hlast' hpending' hbuilds' =>
        -- The operator itself waits below those of the phrase on its right.
        have := Reads.read (l := op.level) (t := op.tree a b) (s := s)
          (pending' ++ [.binary op l.offset (s.operands.length + 1)]) operands' last' hlast' ?_ ?_
        · simpa using this
        · intro entry he
          rcases List.mem_append.1 he with he | he
          · exact (hpending' entry he).mono op.level_le_rhsLevel
          · rw [List.mem_singleton.1 he]
            exact Entry.closesFor_binary op _ _
        · rw [reduceAll_append]
          refine hbuilds'.bind (Nat.le_of_lt (height_lt_tree_right op a b)) ⟨l.offset, ?_⟩
          rw [reduceAll_singleton, reduce_binary op l.offset a b (Nat.le_refl _)]
    · rw [Operand.made_of_lt (by omega)]
      exact .tooDeep offset
        (Nat.lt_of_lt_of_le (by omega) (height_lt_tree_left op a b))

theorem negate {offset base : Nat} (hbase : base ≤ s.operands.length) {previous : Option Token}
    (h : Reads .unary t
      ⟨.negate offset base :: s.entries, s.frames, s.operands, none, previous⟩ r) :
    Reads .unary (.call "neg" [t]) s r := by
  have hheight : (Expr.call "neg" [t]).height = t.height + 1 := by
    rw [Expr.height, tallest_singleton]
  cases h with
  | tooDeep offset h => exact .tooDeep offset (by omega)
  | read pending operands last hlast hpending hbuilds =>
    have := Reads.read (l := .unary) (t := .call "neg" [t]) (s := s)
      (pending ++ [.negate offset base]) operands last hlast ?_ ?_
    · simpa using this
    · intro entry he
      rcases List.mem_append.1 he with he | he
      · exact hpending entry he
      · rw [List.mem_singleton.1 he]
        exact Entry.closesFor_negate _ _ _
    · rw [reduceAll_append]
      refine hbuilds.bind (by omega) ⟨offset, ?_⟩
      rw [reduceAll_singleton, reduce_negate offset t hbase]

/-- At a comma or a closing bracket the operators of a bracketed phrase are applied. -/
theorem reduceGroup {pending : List Entry} {operands : List Operand}
    (hpending : ∀ entry ∈ pending, entry.ClosesFor .sum)
    (hs : ∀ entry ∈ s.entries.head?, entry.isParen = true)
    (h : Builds t s.operands (reduceAll pending operands)) :
    ∃ offset, Formula.reduceGroup (pending ++ s.entries) operands =
      (Operand.made t offset).map fun operand => (s.entries, operand :: s.operands) := by
  obtain ⟨offset, h⟩ := h
  refine ⟨offset, ?_⟩
  rw [reduceGroup_append operands (fun e he => (hpending e he).isParen) hs, h]
  cases Operand.made t offset <;> rfl

theorem ne_comma_of_endsValue {last : Token} (h : last.endsValue = true) :
    (some last : Option Token) ≠ some .comma := by
  intro hcomma
  rw [Option.some.inj hcomma] at h
  cases h

theorem group {close : Lexeme} (hclose : close.token = .closeParen) {opened : Nat}
    {previous : Option Token}
    (h : Reads .sum t ⟨.paren opened s.operands.length false :: s.entries, s.frames, s.operands,
      none, previous⟩ r) :
    Reads .atom t s (r.bind (step · close)) := by
  cases h with
  | tooDeep offset h => exact .tooDeep offset h
  | read pending operands last hlast hpending hbuilds =>
    obtain ⟨offset, hgroup⟩ := reduceGroup hpending (by simp [Entry.isParen]) hbuilds
    simp only [Except.bind, step, hclose, takeToken, closeGroup,
      if_neg (ne_comma_of_endsValue hlast), hgroup]
    by_cases hh : t.height ≤ maxHeight
    · rw [Operand.made_of_le hh]
      simp only [Except.map, List.length_cons, Nat.add_sub_cancel_left]
      refine .read [] _ .closeParen rfl (by simp) ⟨0, ?_⟩
      rw [Operand.made_of_le hh]
      rfl
    · rw [Operand.made_of_lt (by omega)]
      exact .tooDeep offset (by omega)

end Reads

/-! ## Calls -/

/-- The state inside the brackets of a function, after some arguments. -/
def State.inCall (s : State) (f : String) (place opened : Nat) (args : List Expr) (last : Token) :
    State :=
  ⟨.paren opened s.operands.length true :: s.entries, ⟨f, place, s.operands.length⟩ :: s.frames,
    (args.map .ofExpr).reverse ++ s.operands, none, some last⟩

namespace Reads

variable {t : Expr} {s : State} {r : Except ParseError State} {f : String} {place opened : Nat}
  {args : List Expr} {last : Token}

theorem comma {l : Lexeme} (hl : l.token = .comma)
    (h : Reads .sum t (s.inCall f place opened args last) r) :
    r.bind (step · l) = .ok (s.inCall f place opened (args ++ [t]) .comma) ∨
      maxHeight < t.height ∧ ∃ offset, r.bind (step · l) = .error (.tooDeep offset maxHeight) := by
  cases h with
  | tooDeep offset h => exact .inr ⟨h, offset, rfl⟩
  | read pending operands last hlast hpending hbuilds =>
    obtain ⟨offset, hgroup⟩ := reduceGroup hpending (by simp [State.inCall, Entry.isParen]) hbuilds
    simp only [Except.bind, step, hl, takeToken, State.afterValue, hlast, if_true, hgroup]
    by_cases hh : t.height ≤ maxHeight
    · rw [Operand.made_of_le hh]
      left
      simp [Except.map, State.inCall]
    · rw [Operand.made_of_lt (by omega)]
      exact .inr ⟨by omega, offset, rfl⟩

theorem closeCall {close : Lexeme} (hclose : close.token = .closeParen)
    (hargs : takesArgs f (args.length + 1) = true)
    (h : Reads .sum t (s.inCall f place opened args last) r) :
    Reads .atom (.call f (args ++ [t])) s (r.bind (step · close)) := by
  have hheight : t.height < (Expr.call f (args ++ [t])).height := by
    rw [Expr.height, tallest_append, tallest_singleton]
    omega
  cases h with
  | tooDeep offset h => exact .tooDeep offset (by omega)
  | read pending operands last hlast hpending hbuilds =>
    obtain ⟨offset, hgroup⟩ := reduceGroup hpending (by simp [State.inCall, Entry.isParen]) hbuilds
    simp only [Except.bind, step, hclose, takeToken, State.inCall, closeGroup,
      if_neg (ne_comma_of_endsValue hlast)] at hgroup ⊢
    rw [hgroup]
    by_cases hh : t.height ≤ maxHeight
    · have hcall := applyCall_eq f place (args ++ [t]) s.operands
      rw [if_pos (by simpa using hargs)] at hcall
      simp only [List.map_append, List.map_cons, List.map_nil, List.reverse_append,
        List.reverse_cons, List.reverse_nil, List.nil_append, List.cons_append] at hcall
      rw [Operand.made_of_le hh]
      simp only [Except.map, hcall]
      by_cases hh' : (Expr.call f (args ++ [t])).height ≤ maxHeight
      · rw [Operand.made_of_le hh']
        refine .read [] _ .closeParen rfl (by simp) ⟨0, ?_⟩
        rw [Operand.made_of_le hh']
        rfl
      · rw [Operand.made_of_lt (by omega)]
        exact .tooDeep place (by omega)
    · rw [Operand.made_of_lt (by omega)]
      exact .tooDeep offset (by omega)

end Reads

/-! ## Every phrase -/

section

variable {s : State} {l : Lexeme}

theorem step_negate (hl : l.token = .operator .sub) (hp : s.pending = none)
    (ha : s.afterValue = false) :
    step s l = .ok ⟨.negate l.offset s.operands.length :: s.entries, s.frames, s.operands, none,
      some (.operator .sub)⟩ := by
  simp [step, hp, hl, takeToken, ha]

theorem step_number {v : Float} (hl : l.token = .number v) (hp : s.pending = none) :
    step s l = .ok ⟨s.entries, s.frames, .leaf (.number v) :: s.operands, none,
      some (.number v)⟩ := by
  simp [step, hp, hl, takeToken]

theorem step_name {text : String} (hl : l.token = .name text) (hp : s.pending = none) :
    step s l = .ok ⟨s.entries, s.frames, .leaf (.variable text) :: s.operands, none,
      some (.name text)⟩ := by
  simp [step, hp, hl, takeToken]

theorem step_openParen (hl : l.token = .openParen) (hp : s.pending = none) :
    step s l = .ok ⟨.paren l.offset s.operands.length false :: s.entries, s.frames, s.operands,
      none, some .openParen⟩ := by
  simp [step, hp, hl, takeToken]

theorem steps_function {f : String} {l' : Lexeme} (hl : l.token = .function f)
    (hl' : l'.token = .openParen) (hp : s.pending = none) (ls : List Lexeme) :
    steps s (l :: l' :: ls) =
      steps (s.inCall f l.offset l'.offset [] .openParen) ls := by
  simp [steps, step, hp, hl, hl', takeToken, State.inCall]

end

/-- The tokens of a bracketed phrase with the tree `t` are read as they should be. -/
def ReadsSum (ts : List Token) (t : Expr) : Prop :=
  ∀ (s : State) (ls : List Lexeme), ls.map (·.token) = ts → s.pending = none →
    s.afterValue = false → (∀ entry ∈ s.entries.head?, entry.Admits .sum) →
    Reads .sum t s (steps s ls)

section

variable {s : State} {ts : List Token} {t e : Expr} {ls rest : List Lexeme} {l : Lexeme}
  {f : String} {place opened : Nat} {last : Token}

theorem ReadsSum.inCall (args : List Expr) (h : ReadsSum ts t) (hls : ls.map (·.token) = ts)
    (hlast : last.endsValue = false) :
    Reads .sum t (s.inCall f place opened args last)
      (steps (s.inCall f place opened args last) ls) := by
  refine h _ ls hls rfl hlast fun e he => ?_
  rw [← Option.some.inj he]
  exact Entry.admits_paren _ _ _ _

/-- An argument before a comma: what is read after it decides, unless it is too tall itself. -/
theorem ReadsSum.argument (args : List Expr) (h : ReadsSum ts t) (hls : ls.map (·.token) = ts)
    (hlast : last.endsValue = false) (hl : l.token = .comma) (hle : t.height ≤ e.height)
    (hrest : Reads .atom e s (steps (s.inCall f place opened (args ++ [t]) .comma) rest)) :
    Reads .atom e s (steps (s.inCall f place opened args last) (ls ++ l :: rest)) := by
  have hsplit : ls ++ l :: rest = (ls ++ [l]) ++ rest := by simp
  have hcall : Reads .sum t (s.inCall f place opened args last)
      (steps (s.inCall f place opened args last) ls) := h.inCall args hls hlast
  rw [hsplit, steps_append, steps_append]
  simp only [steps_singleton]
  rcases hcall.comma hl with hcomma | ⟨htall, offset, hcomma⟩
  · rw [hcomma]
    exact hrest
  · rw [hcomma]
    exact .tooDeep offset (by omega)

/-- The last argument before the closing bracket. -/
theorem ReadsSum.lastArgument (args : List Expr) (h : ReadsSum ts t) (hls : ls.map (·.token) = ts)
    (hlast : last.endsValue = false) (hl : l.token = .closeParen)
    (hargs : takesArgs f (args.length + 1) = true) :
    Reads .atom (.call f (args ++ [t])) s
      (steps (s.inCall f place opened args last) (ls ++ [l])) := by
  rw [steps_append]
  simp only [steps_singleton]
  exact (h.inCall args hls hlast).closeCall hl hargs

end

/-- **A phrase is read.**  The topmost entry must not yield to the operators of the phrase. -/
theorem reads_of_derives {l : Level} {ts : List Token} {t : Expr} (h : Derives l ts t) :
    ∀ (s : State) (ls : List Lexeme), ls.map (·.token) = ts → s.pending = none →
      s.afterValue = false → (∀ entry ∈ s.entries.head?, entry.Admits l) →
      Reads l t s (steps s ls) := by
  induction h with
  | term _ ih | factor _ ih | base _ ih | plain _ ih =>
    intro s ls hls hp ha hs
    exact (ih s ls hls hp ha fun e he => (hs e he).mono (by decide)).loosen (by decide)
  | binary op _ _ iha ihb =>
    intro s ls hls hp ha hs
    obtain ⟨ls₁, ls₂, rfl, hls₁, hls₂⟩ := List.map_eq_append_iff.1 hls
    obtain ⟨l, ls₃, rfl, hl, hls₃⟩ := List.map_eq_cons_iff.1 hls₂
    rw [steps_append]
    refine (iha s ls₁ hls₁ hp ha fun e he => (hs e he).mono op.level_le_lhsLevel).binary hl hs ?_
    intro s' hs' hp' ha'
    refine ihb s' ls₃ hls₃ hp' ha' fun e he => ?_
    rw [hs', Option.mem_some_iff] at he
    exact he ▸ Entry.admits_binary op _ _
  | negate _ ih =>
    intro s ls hls hp ha hs
    obtain ⟨l, ls₁, rfl, hl, hls₁⟩ := List.map_eq_cons_iff.1 hls
    rw [steps, step_negate hl hp ha]
    refine Reads.negate (Nat.le_refl _) (ih _ ls₁ hls₁ rfl rfl fun e he => ?_)
    rw [← Option.some.inj he]
    exact Entry.admits_negate _ _
  | number v =>
    intro s ls hls hp ha hs
    obtain ⟨l, ls₁, rfl, hl, hls₁⟩ := List.map_eq_cons_iff.1 hls
    rw [List.map_eq_nil_iff.1 hls₁, steps, step_number hl hp]
    exact .leaf rfl rfl
  | name text =>
    intro s ls hls hp ha hs
    obtain ⟨l, ls₁, rfl, hl, hls₁⟩ := List.map_eq_cons_iff.1 hls
    rw [List.map_eq_nil_iff.1 hls₁, steps, step_name hl hp]
    exact .leaf rfl rfl
  | group _ ih =>
    intro s ls hls hp ha hs
    obtain ⟨l, ls₁, rfl, hl, hls₁⟩ := List.map_eq_cons_iff.1 hls
    obtain ⟨ls₂, ls₃, rfl, hls₂, hls₃⟩ := List.map_eq_append_iff.1 hls₁
    obtain ⟨close, rfl, hclose⟩ := List.map_eq_singleton_iff.1 hls₃
    rw [steps, step_openParen hl hp]
    simp only [steps_append, steps_singleton]
    refine Reads.group hclose (ih _ ls₂ hls₂ rfl rfl fun e he => ?_)
    rw [← Option.some.inj he]
    exact Entry.admits_paren _ _ _ _
  | call hf _ ih =>
    intro s ls hls hp ha hs
    obtain ⟨name, ls₁, rfl, hname, hls₁⟩ := List.map_eq_cons_iff.1 hls
    obtain ⟨opening, ls₂, rfl, hopening, hls₂⟩ := List.map_eq_cons_iff.1 hls₁
    obtain ⟨ls₃, ls₄, rfl, hls₃, hls₄⟩ := List.map_eq_append_iff.1 hls₂
    obtain ⟨close, rfl, hclose⟩ := List.map_eq_singleton_iff.1 hls₄
    rw [steps_function hname hopening hp]
    exact ReadsSum.lastArgument [] ih hls₃ rfl hclose (by simp [takesArgs, hf])
  | @limitOfTwo ts us a b _ _ iha ihb =>
    intro s ls hls hp ha hs
    obtain ⟨name, ls₁, rfl, hname, hls₁⟩ := List.map_eq_cons_iff.1 hls
    obtain ⟨opening, ls₂, rfl, hopening, hls₂⟩ := List.map_eq_cons_iff.1 hls₁
    obtain ⟨as, ls₃, rfl, has, hls₃⟩ := List.map_eq_append_iff.1 hls₂
    obtain ⟨c, ls₄, rfl, hc, hls₄⟩ := List.map_eq_cons_iff.1 hls₃
    obtain ⟨bs, ls₅, rfl, hbs, hls₅⟩ := List.map_eq_append_iff.1 hls₄
    obtain ⟨close, rfl, hclose⟩ := List.map_eq_singleton_iff.1 hls₅
    have hheight : a.height ≤ (Expr.call "limit" [a, b]).height := by
      simp only [Expr.height, Expr.tallest]
      omega
    rw [steps_function hname hopening hp]
    refine ReadsSum.argument [] iha has rfl hc hheight ?_
    exact ReadsSum.lastArgument [a] ihb hbs rfl hclose rfl
  | @limitOfThree ts us ws a b c _ _ _ iha ihb ihc =>
    intro s ls hls hp ha hs
    obtain ⟨name, ls₁, rfl, hname, hls₁⟩ := List.map_eq_cons_iff.1 hls
    obtain ⟨opening, ls₂, rfl, hopening, hls₂⟩ := List.map_eq_cons_iff.1 hls₁
    obtain ⟨as, ls₃, rfl, has, hls₃⟩ := List.map_eq_append_iff.1 hls₂
    obtain ⟨comma, ls₄, rfl, hcomma, hls₄⟩ := List.map_eq_cons_iff.1 hls₃
    obtain ⟨bs, ls₅, rfl, hbs, hls₅⟩ := List.map_eq_append_iff.1 hls₄
    obtain ⟨comma', ls₆, rfl, hcomma', hls₆⟩ := List.map_eq_cons_iff.1 hls₅
    obtain ⟨cs, ls₇, rfl, hcs, hls₇⟩ := List.map_eq_append_iff.1 hls₆
    obtain ⟨close, rfl, hclose⟩ := List.map_eq_singleton_iff.1 hls₇
    have hheights : a.height ≤ (Expr.call "limit" [a, b, c]).height ∧
        b.height ≤ (Expr.call "limit" [a, b, c]).height := by
      simp only [Expr.height, Expr.tallest]
      omega
    rw [steps_function hname hopening hp]
    refine ReadsSum.argument [] iha has rfl hcomma hheights.1 ?_
    refine ReadsSum.argument [a] ihb hbs rfl hcomma' hheights.2 ?_
    exact ReadsSum.lastArgument [a, b] ihc hcs rfl hclose rfl

/-! ## Sentences -/

/-- A sentence has the tree of its derivation, or a tree that is too tall. -/
theorem finish_of_reads {t : Expr} {ls : List Lexeme}
    (h : Reads .sum t State.start (steps State.start ls)) :
    ∃ offset, parseTokens ls = (Operand.made t offset).map (·.expr) := by
  unfold parseTokens
  generalize steps State.start ls = r at h
  cases h with
  | tooDeep offset h => exact ⟨offset, by rw [Operand.made_of_lt h]; rfl⟩
  | read pending operands last _ _ hbuilds =>
    obtain ⟨offset, hbuilds⟩ := hbuilds
    refine ⟨offset, ?_⟩
    simp only [finish, State.start, List.append_nil, hbuilds]
    by_cases hh : t.height ≤ maxHeight
    · rw [Operand.made_of_le hh]
      rfl
    · rw [Operand.made_of_lt (by omega)]
      rfl

theorem parseTokens_eq_made {ls : List Lexeme} {t : Expr}
    (h : Derives .sum (ls.map (·.token)) t) :
    ∃ offset, parseTokens ls = (Operand.made t offset).map (·.expr) :=
  finish_of_reads (reads_of_derives h State.start ls rfl rfl rfl (by simp [State.start]))

/-- **Completeness.**  The tokens of a sentence, at any places, have the tree of their derivation
where it is at most 256 levels high, and are refused as too deep where it is taller. -/
theorem parseTokens_of_derives {ls : List Lexeme} {t : Expr}
    (h : Derives .sum (ls.map (·.token)) t) :
    (t.height ≤ maxHeight → parseTokens ls = .ok t) ∧
      (maxHeight < t.height → ∃ offset, parseTokens ls = .error (.tooDeep offset maxHeight)) := by
  obtain ⟨offset, hmade⟩ := parseTokens_eq_made h
  refine ⟨fun hle => ?_, fun hlt => ⟨offset, ?_⟩⟩
  · rw [hmade, Operand.made_of_le hle]
    rfl
  · rw [hmade, Operand.made_of_lt hlt]
    rfl

/-- The sentence `(1+2)+3*-y^2`, at scattered places. -/
def scatteredSentence : List Lexeme :=
  [⟨.openParen, 7⟩, ⟨.number 1, 7⟩, ⟨.operator .add, 0⟩, ⟨.number 2, 3⟩, ⟨.closeParen, 9⟩,
    ⟨.operator .add, 1⟩, ⟨.number 3, 1⟩, ⟨.operator .mul, 2⟩, ⟨.operator .sub, 8⟩, ⟨.name "y", 5⟩,
    ⟨.operator .pow, 5⟩, ⟨.number 2, 4⟩]

/-- The bracketed sum is extended, and the minus sign binds tighter than the power. -/
def scatteredTree : Expr :=
  .sum [.number 1, .number 2,
    .product [.number 3, .power (.call "neg" [.variable "y"]) (.number 2)]]

theorem parseTokens_of_derives_scattered :
    Derives .sum (scatteredSentence.map (·.token)) scatteredTree ∧
      parseTokens scatteredSentence = .ok scatteredTree := by
  have hleft : Derives .atom [.openParen, .number 1, .operator .add, .number 2, .closeParen]
      (.sum [.number 1, .number 2]) :=
    .group (.binary .add ((Derives.number 1).loosen (by decide))
      ((Derives.number 2).loosen (by decide)))
  have hpower : Derives .power [.operator .sub, .name "y", .operator .pow, .number 2]
      (.power (.call "neg" [.variable "y"]) (.number 2)) :=
    .binary .pow (Derives.name "y").plain.negate ((Derives.number 2).loosen (by decide))
  have hright : Derives .product
      [.number 3, .operator .mul, .operator .sub, .name "y", .operator .pow, .number 2]
      (.product [.number 3, .power (.call "neg" [.variable "y"]) (.number 2)]) :=
    .binary .mul ((Derives.number 3).loosen (by decide)) hpower
  have h : Derives .sum (scatteredSentence.map (·.token)) scatteredTree :=
    .binary .add (hleft.loosen (by decide)) hright
  exact ⟨h, (parseTokens_of_derives h).1 (by decide)⟩

end GlyphMath.Formula
