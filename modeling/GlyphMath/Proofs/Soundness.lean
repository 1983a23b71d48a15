import GlyphMath.Proofs.Stacks

/-!
# What the parser accepts

* `Token.startsValue`, `valuesApart` -- no value stands right before another one.
* `Arguments`, `Open` -- the stacks as the part of a sentence that has been read: `Open` describes
  a place where a phrase of a level is to come.
* `Open.pop` -- applying the topmost operator finishes the phrase that it makes.
* `Stands`, `stands_of_step` -- every token keeps the stacks so, where values stand apart.

Principal result: `derives_iff_valuesApart`.  Accepted tokens are a sentence, and the result is its
tree, exactly where values stand apart and no comma stands at the end.  Elsewhere the parser
accepts what is no sentence: `limit(1 2)` for `limit(1,2)`, and `1,` for `1`.
-/

set_option autoImplicit false

namespace GlyphMath.Formula

/-! ## Values that stand apart -/

/-- Whether a value may start with a token. -/
def Token.startsValue : Token → Bool
  | .number _ => true
  | .name _ => true
  | .function _ => true
  | .openParen => true
  | _ => false

/-- Whether no value stands right before another one. -/
def valuesApart : List Token → Bool
  | x :: y :: ts => !(x.endsValue && y.startsValue) && valuesApart (y :: ts)
  | _ => true

theorem valuesApart_cons {x : Token} {ts : List Token}
    (hx : ∀ y ∈ ts.head?, x.endsValue = true → y.startsValue = false)
    (h : valuesApart ts = true) : valuesApart (x :: ts) = true := by
  cases ts with
  | nil => rfl
  | cons y ts =>
    rw [valuesApart, h, Bool.and_true]
    cases hend : x.endsValue with
    | false => rfl
    | true => rw [hx y rfl hend]; rfl

theorem valuesApart_append {ts us : List Token} (hts : valuesApart ts = true)
    (hus : valuesApart us = true) (h : ∀ y ∈ us.head?, y.startsValue = false) :
    valuesApart (ts ++ us) = true := by
  induction ts with
  | nil => exact hus
  | cons x ts ih =>
    cases ts with
    | nil => exact valuesApart_cons (fun y hy _ => h y hy) hus
    | cons y ts =>
      rw [valuesApart, Bool.and_eq_true] at hts
      rw [List.cons_append, List.cons_append, valuesApart, hts.1, Bool.true_and]
      exact ih hts.2

theorem startsValue_of_valuesApart {ts us : List Token} {x y : Token}
    (h : valuesApart (ts ++ y :: us) = true) (hx : ts.getLast? = some x)
    (hend : x.endsValue = true) : y.startsValue = false := by
  induction ts with
  | nil => cases hx
  | cons z ts ih =>
    cases ts with
    | nil =>
      have hzx : z = x := Option.some.inj hx
      rw [List.cons_append, List.nil_append, valuesApart, hzx, hend, Bool.true_and,
        Bool.and_eq_true, Bool.not_eq_true'] at h
      exact h.1
    | cons w ts =>
      rw [List.getLast?_cons_cons] at hx
      rw [List.cons_append, List.cons_append, valuesApart, Bool.and_eq_true] at h
      exact ih h.2 hx

/-- A phrase ends with the end of a value. -/
theorem Derives.getLast? {l : Level} {ts : List Token} {t : Expr} (h : Derives l ts t) :
    ∃ x, ts.getLast? = some x ∧ x.endsValue = true := by
  induction h with
  | term _ ih | factor _ ih | base _ ih | plain _ ih => exact ih
  | @binary op ts us a b _ _ _ ih =>
    obtain ⟨x, hx, hend⟩ := ih
    refine ⟨x, ?_, hend⟩
    rw [List.getLast?_append, List.getLast?_cons, hx]
    rfl
  | negate _ ih =>
    obtain ⟨x, hx, hend⟩ := ih
    exact ⟨x, by rw [List.getLast?_cons, hx]; rfl, hend⟩
  | number v => exact ⟨_, rfl, rfl⟩
  | name text => exact ⟨_, rfl, rfl⟩
  | group | call | limitOfTwo | limitOfThree =>
    exact ⟨.closeParen, by simp [List.getLast?_cons, List.getLast?_append], rfl⟩

theorem Derives.valuesApart {l : Level} {ts : List Token} {t : Expr} (h : Derives l ts t) :
    Formula.valuesApart ts = true := by
  -- Every mark around a phrase neither ends a value before it nor starts one after it.
  have hmark : ∀ {x : Token} {us : List Token}, x.endsValue = false →
      Formula.valuesApart us = true → Formula.valuesApart (x :: us) = true :=
    fun hx h => valuesApart_cons (fun _ _ hend => by simp [hx] at hend) h
  have hclose : ∀ {us : List Token}, Formula.valuesApart us = true →
      Formula.valuesApart (us ++ [.closeParen]) = true :=
    fun h => valuesApart_append h rfl (by simp [Token.startsValue])
  have hcomma : ∀ {us ws : List Token}, Formula.valuesApart us = true →
      Formula.valuesApart ws = true → Formula.valuesApart (us ++ .comma :: ws) = true :=
    fun h h' => valuesApart_append h (hmark rfl h') (by simp [Token.startsValue])
  induction h with
  | term _ ih | factor _ ih | base _ ih | plain _ ih => exact ih
  | binary op _ _ iha ihb =>
    exact valuesApart_append iha (hmark rfl ihb) (by simp [Token.startsValue])
  | negate _ ih => exact hmark rfl ih
  | number v => rfl
  | name text => rfl
  | group _ ih => exact hmark rfl (hclose ih)
  | call hf _ ih => exact hmark rfl (hmark rfl (hclose ih))
  | limitOfTwo _ _ iha ihb => exact hmark rfl (hmark rfl (hcomma iha (hclose ihb)))
  | limitOfThree _ _ _ iha ihb ihc =>
    exact hmark rfl (hmark rfl (hcomma iha (hcomma ihb (hclose ihc))))

/-! ## The part of a sentence that has been read -/

/-- Finished arguments, each with a comma after it. -/
inductive Arguments : List Token → List Expr → Prop where
  | nil : Arguments [] []
  | snoc {ts us : List Token} {args : List Expr} {a : Expr} :
      Arguments ts args → Derives .sum us a → Arguments (ts ++ (us ++ [.comma])) (args ++ [a])

/-- `Open ts entries frames operands l`: the tokens `ts` have been read, the stacks are as given,
and a phrase of the level `l` is to come. -/
inductive Open : List Token → List Entry → List CallFrame → List Operand → Level → Prop where
  | start {us : List Token} {args : List Expr} : Arguments us args →
      Open us [] [] (args.map .ofExpr).reverse .sum
  | binary (op : Operator) (offset : Nat) {ts us : List Token} {entries : List Entry}
      {frames : List CallFrame} {operands : List Operand} {l : Level} {a : Expr} :
      Open ts entries frames operands l → l.rank ≤ op.level.rank → Derives op.lhsLevel us a →
      Open (ts ++ (us ++ [.operator op])) (.binary op offset (operands.length + 1) :: entries)
        frames (.ofExpr a :: operands) op.rhsLevel
  | negate (offset : Nat) {ts : List Token} {entries : List Entry} {frames : List CallFrame}
      {operands : List Operand} {l : Level} : Open ts entries frames operands l →
      Open (ts ++ [.operator .sub]) (.negate offset operands.length :: entries) frames operands
        .unary
  | group (offset : Nat) {ts us : List Token} {entries : List Entry} {frames : List CallFrame}
      {operands : List Operand} {l : Level} {args : List Expr} :
      Open ts entries frames operands l → Arguments us args →
      Open (ts ++ .openParen :: us) (.paren offset operands.length false :: entries) frames
        ((args.map .ofExpr).reverse ++ operands) .sum
  | call (f : String) (place offset : Nat) {ts us : List Token} {entries : List Entry}
      {frames : List CallFrame} {operands : List Operand} {l : Level} {args : List Expr} :
      Open ts entries frames operands l → Arguments us args →
      Open (ts ++ .function f :: .openParen :: us) (.paren offset operands.length true :: entries)
        (⟨f, place, operands.length⟩ :: frames) ((args.map .ofExpr).reverse ++ operands) .sum

theorem Arguments.getLast? {ts : List Token} {args : List Expr} (h : Arguments ts args)
    (hne : args ≠ []) : ts.getLast? = some .comma := by
  cases h with
  | nil => exact absurd rfl hne
  | snoc => simp

/-- The arguments of a function that takes so many make a call. -/
theorem Arguments.call {f : String} {ts us : List Token} {args : List Expr} {a : Expr}
    (h : Arguments ts args) (ha : Derives .sum us a)
    (hargs : takesArgs f (args.length + 1) = true) :
    Derives .atom (.function f :: .openParen :: (ts ++ (us ++ [.closeParen])))
      (.call f (args ++ [a])) := by
  by_cases hf : f = "limit"
  · subst hf
    cases h with
    | nil => simp [takesArgs] at hargs
    | snoc h hb =>
      cases h with
      | nil => simpa using Derives.limitOfTwo hb ha
      | snoc h hc =>
        cases h with
        | nil => simpa using Derives.limitOfThree hc hb ha
        | snoc => simp [takesArgs] at hargs
  · cases h with
    | nil => exact .call hf ha
    | snoc => simp [takesArgs, hf] at hargs

section

variable {ts us : List Token} {entries : List Entry} {frames : List CallFrame}
  {operands operands' : List Operand} {l : Level} {a : Expr}

theorem Open.rank_le (h : Open ts entries frames operands l) : l.rank ≤ Level.unary.rank := by
  cases h with
  | binary op => cases op <;> decide
  | start | negate | group | call => decide

/-- No value has just ended where one is to come. -/
theorem Open.endsValue_getLast? (h : Open ts entries frames operands l) :
    ∀ x ∈ ts.getLast?, x.endsValue = false := by
  have hargs : ∀ {us : List Token} {args : List Expr} {x y : Token}, Arguments us args →
      y.endsValue = false → x ∈ (y :: us).getLast? → x.endsValue = false := by
    intro us args x y h hy hx
    cases h with
    | nil => rwa [← Option.some.inj hx]
    | snoc =>
      simp [List.getLast?_cons] at hx
      rw [← hx]; rfl
  intro x hx
  cases h with
  | start h =>
    cases h with
    | nil => simp at hx
    | snoc => simp at hx; rw [← hx]; rfl
  | binary | negate => simp at hx; rw [← hx]; rfl
  | group offset _ h =>
    rw [List.getLast?_append] at hx
    exact hargs h rfl (by simpa using hx)
  | call f place offset _ h =>
    rw [List.getLast?_append] at hx
    exact hargs (y := .openParen) h rfl (by simpa using hx)

/-- The kind of phrase that an operator makes. -/
def Entry.level : Entry → Level
  | .binary op _ _ => op.level
  | _ => .unary

/-- A phrase of a level has just ended, where one of that level or a looser one was to come.  Its
tree is the topmost operand. -/
inductive Ended : List Token → List Entry → List CallFrame → List Operand → Level → Prop where
  | intro {ts us : List Token} {entries : List Entry} {frames : List CallFrame}
      {operands : List Operand} {l m : Level} {a : Expr} : Open ts entries frames operands l →
      l.rank ≤ m.rank → Derives m us a → Ended (ts ++ us) entries frames (.ofExpr a :: operands) m

namespace Ended

variable {m : Level} {op : Operator} {entries' : List Entry}

theorem pop {entry : Entry} (h : Ended ts (entry :: entries) frames operands m)
    (hentry : entry.isParen = false) (hreduce : reduce entry operands = .ok operands') :
    Ended ts entries frames operands' entry.level := by
  obtain ⟨hopen, hlm, ha⟩ := h
  have ha := ha.loosen hlm
  cases hopen with
  | group | call => simp [Entry.isParen] at hentry
  | binary op offset hopen hle hb =>
    rw [reduce_binary op offset _ _ (Nat.le_refl _)] at hreduce
    unfold Operand.made at hreduce
    split at hreduce
    · cases hreduce
    · cases hreduce
      simpa [Entry.level] using Ended.intro hopen hle (.binary op hb ha)
  | negate offset hopen =>
    rw [reduce_negate offset _ (Nat.le_refl _)] at hreduce
    unfold Operand.made at hreduce
    split at hreduce
    · cases hreduce
    · cases hreduce
      simpa [Entry.level] using Ended.intro hopen hopen.rank_le ha.negate

theorem endsValue_getLast? (h : Ended ts entries frames operands m) :
    ∃ x, ts.getLast? = some x ∧ x.endsValue = true := by
  obtain ⟨_, _, ha⟩ := h
  obtain ⟨x, hx, hend⟩ := ha.getLast?
  exact ⟨x, by rw [List.getLast?_append, hx]; rfl, hend⟩

/-- An operator that an entry does not yield to is part of the phrase to come on top of it. -/
theorem level_le_of_stops (h : Open ts entries frames operands l)
    (hstop : ∀ entry ∈ entries.head?, entry.yieldsTo op = false) : l.rank ≤ op.level.rank := by
  cases h with
  | start | group | call => exact Nat.zero_le _
  | negate => simp [Entry.yieldsTo] at hstop
  | binary waiting =>
    have : waiting.yieldsTo op = false := by simpa [Entry.yieldsTo] using hstop
    revert this
    cases waiting <;> cases op <;> decide

/-- An operator that an entry yields to can follow the phrase of that entry. -/
theorem lhsLevel_le_of_yieldsTo {entry : Entry} (h : entry.yieldsTo op = true) :
    op.lhsLevel.rank ≤ entry.level.rank := by
  cases entry with
  | paren => simp [Entry.yieldsTo] at h
  | negate =>
    show op.lhsLevel.rank ≤ Level.unary.rank
    cases op <;> decide
  | binary waiting =>
    revert h
    show waiting.yieldsTo op = true → op.lhsLevel.rank ≤ waiting.level.rank
    cases waiting <;> cases op <;> decide

theorem operator (h : Ended ts entries frames operands m) (hle : op.lhsLevel.rank ≤ m.rank)
    (hreduce : reduceFor op entries operands = .ok (entries', operands')) (offset : Nat) :
    Open (ts ++ [.operator op]) (.binary op offset operands'.length :: entries') frames operands'
      op.rhsLevel := by
  induction entries generalizing operands m with
  | nil =>
    obtain ⟨hopen, hlm, ha⟩ := h
    cases hreduce
    simpa using Open.binary op offset hopen (level_le_of_stops hopen (by simp)) (ha.loosen hle)
  | cons entry entries ih =>
    rw [reduceFor] at hreduce
    split at hreduce
    · rename_i hyields
      split at hreduce
      · cases hreduce
      · rename_i hone
        exact ih (h.pop (Entry.isParen_of_yieldsTo hyields) hone) (lhsLevel_le_of_yieldsTo hyields)
          hreduce
    · rename_i hstop
      obtain ⟨hopen, hlm, ha⟩ := h
      cases hreduce
      have hlevel : _ ≤ op.level.rank := level_le_of_stops hopen (by simpa using hstop)
      simpa using Open.binary op offset hopen hlevel (ha.loosen hle)

theorem group (h : Ended ts entries frames operands m)
    (hreduce : reduceGroup entries operands = .ok (entries', operands')) :
    Ended ts entries' frames operands' .sum ∧
      ∀ entry ∈ entries'.head?, entry.isParen = true := by
  induction entries generalizing operands m with
  | nil =>
    obtain ⟨hopen, hlm, ha⟩ := h
    cases hreduce
    cases hopen with
    | start hargs => exact ⟨.intro (.start hargs) (Nat.le_refl _) (ha.loosen hlm), by simp⟩
  | cons entry entries ih =>
    cases hparen : entry.isParen with
    | true =>
      obtain ⟨hopen, hlm, ha⟩ := h
      cases hopen with
      | binary | negate => simp [Entry.isParen] at hparen
      | group offset hopen hargs =>
        cases hreduce
        exact ⟨.intro (.group offset hopen hargs) (Nat.le_refl _) (ha.loosen hlm),
          by simp [Entry.isParen]⟩
      | call f place offset hopen hargs =>
        cases hreduce
        exact ⟨.intro (.call f place offset hopen hargs) (Nat.le_refl _) (ha.loosen hlm),
          by simp [Entry.isParen]⟩
    | false =>
      rw [reduceGroup_cons _ _ hparen] at hreduce
      cases hone : reduce entry operands with
      | error e => rw [hone] at hreduce; cases hreduce
      | ok operands =>
        rw [hone] at hreduce
        exact ih (h.pop hparen hone) hreduce

theorem all {operand : Operand} (h : Ended ts entries frames operands m)
    (hreduce : reduceAll entries operands = .ok [operand]) : Derives .sum ts operand.expr := by
  induction entries generalizing operands m with
  | nil =>
    obtain ⟨hopen, hlm, ha⟩ := h
    cases hopen with
    | start hargs =>
      cases hargs with
      | nil =>
        cases hreduce
        exact ha.loosen hlm
      | snoc => simp [reduceAll] at hreduce
  | cons entry entries ih =>
    rw [reduceAll] at hreduce
    split at hreduce
    · cases hreduce
    · rename_i hone
      refine ih (h.pop ?_ hone) hreduce
      cases entry with
      | paren => cases hone
      | negate | binary => rfl

theorem comma (h : Ended ts entries frames operands .sum)
    (hparen : ∀ entry ∈ entries.head?, entry.isParen = true) :
    Open (ts ++ [.comma]) entries frames operands .sum := by
  obtain ⟨hopen, hlm, ha⟩ := h
  have ha := ha.loosen hlm
  cases hopen with
  | binary | negate => simp [Entry.isParen] at hparen
  | start hargs => simpa using Open.start (hargs.snoc ha)
  | group offset hopen hargs => simpa using Open.group offset hopen (hargs.snoc ha)
  | call f place offset hopen hargs => simpa using Open.call f place offset hopen (hargs.snoc ha)

theorem closeGroup {opened base : Nat}
    (h : Ended ts (.paren opened base false :: entries) frames operands .sum)
    (hone : operands.length - base = 1) :
    Ended (ts ++ [.closeParen]) entries frames operands .atom := by
  obtain ⟨hopen, hlm, ha⟩ := h
  cases hopen with
  | group offset hopen hargs =>
    cases hargs with
    | snoc => simp at hone; omega
    | nil =>
      have hrank := hopen.rank_le
      simpa using Ended.intro hopen (m := .atom) (by simp [Level.rank] at hrank ⊢; omega)
        (.group (ha.loosen hlm))

theorem closeCall {opened base : Nat} {frame : CallFrame}
    (h : Ended ts (.paren opened base true :: entries) (frame :: frames) operands .sum)
    (hcall : applyCall frame operands = .ok operands') :
    Ended (ts ++ [.closeParen]) entries frames operands' .atom := by
  obtain @⟨_, ws, _, _, _, _, _, a, hopen, hlm, ha⟩ := h
  cases hopen with
  | @call f place offset ts us _ _ below l args hopen hargs =>
    have heq := applyCall_eq f place (args ++ [a]) below
    simp only [List.map_append, List.map_cons, List.map_nil, List.reverse_append,
      List.reverse_cons, List.reverse_nil, List.nil_append, List.cons_append] at heq
    rw [heq] at hcall
    split at hcall
    · rename_i htakes
      rw [List.length_append] at htakes
      unfold Operand.made at hcall
      split at hcall
      · cases hcall
      · cases hcall
        have hrank := hopen.rank_le
        simpa using Ended.intro hopen (m := .atom) (by simp [Level.rank] at hrank ⊢; omega)
          (hargs.call (ha.loosen hlm) htakes)
    · cases hcall

end Ended

/-! ## Taking tokens -/

/-- The state after the tokens `ts`: a phrase is to come, a value has just ended, or a function
name waits for its bracket. -/
inductive Stands : List Token → State → Prop where
  | expecting {ts : List Token} {entries : List Entry} {frames : List CallFrame}
      {operands : List Operand} {l : Level} : Open ts entries frames operands l →
      Stands ts ⟨entries, frames, operands, none, ts.getLast?⟩
  | value {ts : List Token} {entries : List Entry} {frames : List CallFrame}
      {operands : List Operand} : Ended ts entries frames operands .atom →
      Stands ts ⟨entries, frames, operands, none, ts.getLast?⟩
  | named (f : String) (place : Nat) {ts : List Token} {entries : List Entry}
      {frames : List CallFrame} {operands : List Operand} {l : Level} :
      Open ts entries frames operands l →
      Stands (ts ++ [.function f]) ⟨entries, frames, operands, some (f, place),
        some (.function f)⟩

/-- No entry can be applied where a value is to come. -/
theorem Open.reduce_eq_error {entry : Entry} (h : Open ts (entry :: entries) frames operands l) :
    ∃ e, reduce entry operands = .error e := by
  cases h with
  | binary | negate | group | call => exact ⟨_, by simp [reduce]; rfl⟩

theorem Open.afterValue (h : Open ts entries frames operands l) :
    State.afterValue ⟨entries, frames, operands, none, ts.getLast?⟩ = false := by
  have hend := h.endsValue_getLast?
  unfold State.afterValue
  cases hlast : ts.getLast? with
  | none => rfl
  | some x => exact hend x hlast

theorem Ended.afterValue {m : Level} (h : Ended ts entries frames operands m) :
    State.afterValue ⟨entries, frames, operands, none, ts.getLast?⟩ = true := by
  obtain ⟨x, hx, hend⟩ := h.endsValue_getLast?
  unfold State.afterValue
  rw [hx]
  exact hend

/-- Nothing can be closed where a value is to come. -/
theorem Open.closeGroup_eq_error (h : Open ts entries frames operands l) (offset : Nat) :
    ∃ e, Formula.closeGroup ⟨entries, frames, operands, none, ts.getLast?⟩ offset = .error e := by
  have hargs : ∀ (before : List Token) {us : List Token} {args : List Expr}, Arguments us args →
      (before ++ us).getLast? ≠ some .comma → args = [] := by
    intro before us args hargs hlast
    by_cases hne : args = []
    · exact hne
    · exact absurd (by rw [List.getLast?_append, hargs.getLast? hne]; rfl) hlast
  unfold Formula.closeGroup
  by_cases hcomma : ts.getLast? = some .comma
  · exact ⟨_, if_pos hcomma⟩
  rw [if_neg hcomma]
  cases entries with
  | nil => exact ⟨_, rfl⟩
  | cons entry entries =>
    cases hparen : entry.isParen with
    | false =>
      obtain ⟨e, he⟩ := h.reduce_eq_error
      simp only [reduceGroup_cons _ _ hparen, he]
      exact ⟨e, rfl⟩
    | true =>
      cases h with
      | binary | negate => simp [Entry.isParen] at hparen
      | @group opened ts us _ _ below _ args hopen h =>
        have hnil : args = [] := hargs (ts ++ [.openParen]) h (by simpa using hcomma)
        subst hnil
        simp only [reduceGroup, List.map_nil, List.reverse_nil, List.nil_append, Nat.sub_self]
        exact ⟨_, rfl⟩
      | @call f place opened ts us _ frames below _ args hopen h =>
        have hnil : args = [] :=
          hargs (ts ++ [.function f, .openParen]) h (by simpa using hcomma)
        subst hnil
        have hcall := applyCall_eq f place [] below
        simp only [List.length_nil, takesArgs_zero] at hcall
        simp only [reduceGroup, hcall]
        exact ⟨_, rfl⟩

theorem Stands.expecting_snoc {x : Token} (h : Open (ts ++ [x]) entries frames operands l) :
    Stands (ts ++ [x]) ⟨entries, frames, operands, none, some x⟩ := by
  simpa only [List.getLast?_concat] using Stands.expecting h

theorem Stands.value_snoc {x : Token} (h : Ended (ts ++ [x]) entries frames operands .atom) :
    Stands (ts ++ [x]) ⟨entries, frames, operands, none, some x⟩ := by
  simpa only [List.getLast?_concat] using Stands.value h

/-- A closing bracket after a value. -/
theorem Ended.stands_of_closeGroup {s' : State} {offset : Nat}
    (h : Ended ts entries frames operands .atom)
    (hclose : Formula.closeGroup ⟨entries, frames, operands, none, ts.getLast?⟩ offset = .ok s') :
    Stands (ts ++ [.closeParen]) s' := by
  unfold Formula.closeGroup at hclose
  split at hclose
  · cases hclose
  split at hclose
  · cases hclose
  · rename_i hgroup
    have hended := (h.group hgroup).1
    split at hclose
    · cases hclose
    · rename_i hframes
      dsimp only at hframes
      subst hframes
      split at hclose
      · cases hclose
      · rename_i hcall
        cases hclose
        exact .value_snoc (hended.closeCall hcall)
  · rename_i hgroup
    have hended := (h.group hgroup).1
    split at hclose
    · cases hclose
    · rename_i hone
      cases hclose
      exact .value_snoc (hended.closeGroup hone)
    · cases hclose
  · cases hclose

/-- **One token.**  Where values stand apart, a token leads from a part of a sentence to a part of
a sentence. -/
theorem stands_of_step {s s' : State} {lexeme : Lexeme} (h : Stands ts s)
    (hapart : s.afterValue = true → lexeme.token.startsValue = false)
    (hstep : step s lexeme = .ok s') : Stands (ts ++ [lexeme.token]) s' := by
  obtain ⟨token, offset⟩ := lexeme
  cases h with
  | named f place hopen =>
    simp only [step] at hstep
    split at hstep
    · rename_i htoken
      subst htoken
      cases hstep
      have := Stands.expecting (Open.call f place offset hopen .nil)
      simpa [List.getLast?_append, List.getLast?_cons] using this
    · cases hstep
  | expecting hopen =>
    have hafter := hopen.afterValue
    simp only [step] at hstep
    cases token with
    | number v =>
      cases hstep
      exact .value_snoc (.intro hopen (Nat.le_succ_of_le hopen.rank_le) (.number v))
    | name text =>
      cases hstep
      exact .value_snoc (.intro hopen (Nat.le_succ_of_le hopen.rank_le) (.name text))
    | function f =>
      cases hstep
      exact .named f offset hopen
    | openParen =>
      cases hstep
      exact .expecting_snoc (.group offset hopen .nil)
    | comma => simp [takeToken, hafter] at hstep
    | closeParen =>
      obtain ⟨e, he⟩ := hopen.closeGroup_eq_error offset
      rw [takeToken, he] at hstep
      cases hstep
    | operator op =>
      rw [takeToken, hafter, if_neg (by decide)] at hstep
      split at hstep
      · rename_i hop
        subst hop
        cases hstep
        exact .expecting_snoc (.negate offset hopen)
      · cases hstep
  | value hended =>
    have hafter := hended.afterValue
    have hstarts := hapart hafter
    simp only [step] at hstep
    cases token with
    | number | name | function | openParen => simp [Token.startsValue] at hstarts
    | comma =>
      rw [takeToken, hafter, if_pos rfl] at hstep
      split at hstep
      · cases hstep
      · rename_i hgroup
        cases hstep
        exact .expecting_snoc ((hended.group hgroup).1.comma (hended.group hgroup).2)
    | closeParen => exact hended.stands_of_closeGroup hstep
    | operator op =>
      rw [takeToken, hafter, if_pos rfl] at hstep
      split at hstep
      · cases hstep
      · rename_i hfor
        cases hstep
        exact .expecting_snoc (hended.operator (by cases op <;> decide) hfor offset)

theorem Stands.previous_eq {s : State} (h : Stands ts s) : s.previous = ts.getLast? := by
  cases h with
  | expecting | value => rfl
  | named => rw [List.getLast?_concat]

/-- **Any number of tokens.**  By induction on the tokens. -/
theorem stands_of_steps {s s' : State} {ls : List Lexeme} (h : Stands ts s)
    (hapart : valuesApart (ts ++ ls.map (·.token)) = true) (hsteps : steps s ls = .ok s') :
    Stands (ts ++ ls.map (·.token)) s' := by
  induction ls generalizing ts s with
  | nil =>
    cases hsteps
    simpa using h
  | cons lexeme ls ih =>
    rw [steps] at hsteps
    split at hsteps
    · cases hsteps
    · rename_i hstep
      have hnext := stands_of_step h (fun hafter => ?_) hstep
      · rw [List.map_cons, List.append_cons] at hapart ⊢
        exact ih hnext hapart hsteps
      · unfold State.afterValue at hafter
        rw [h.previous_eq] at hafter
        split at hafter
        · rename_i x hx
          exact startsValue_of_valuesApart hapart hx hafter
        · cases hafter

/-- Where the tokens may end, they are a sentence. -/
theorem Stands.derives_of_finish {s : State} {t : Expr} (h : Stands ts s)
    (hcomma : ts.getLast? ≠ some .comma) (hfinish : finish s = .ok t) : Derives .sum ts t := by
  cases h with
  | named => cases hfinish
  | value hended =>
    simp only [finish] at hfinish
    split at hfinish
    · cases hfinish
    · cases hfinish
    · rename_i hall
      cases hfinish
      exact hended.all hall
    · cases hfinish
  | @expecting ts entries frames operands l hopen =>
    simp only [finish] at hfinish
    cases entries with
    | nil =>
      cases hopen with
      | start hargs =>
        cases hargs with
        | nil => cases hfinish
        | snoc => simp at hcomma
    | cons entry entries =>
      obtain ⟨e, he⟩ := hopen.reduce_eq_error
      rw [reduceAll, he] at hfinish
      cases hfinish

end

/-! ## Accepted tokens -/

/-- Accepted tokens are a sentence, if values stand apart and no comma stands at the end. -/
theorem derives_of_parseTokens {ls : List Lexeme} {t : Expr} (h : parseTokens ls = .ok t)
    (hapart : valuesApart (ls.map (·.token)) = true)
    (hcomma : (ls.map (·.token)).getLast? ≠ some .comma) : Derives .sum (ls.map (·.token)) t := by
  unfold parseTokens at h
  split at h
  · cases h
  · rename_i s hsteps
    have hstart : Stands [] State.start := .expecting (.start .nil)
    have hstands := stands_of_steps hstart (by simpa using hapart) hsteps
    exact hstands.derives_of_finish (by simpa using hcomma) h

/-- **Soundness.**  Accepted tokens are a sentence and the result is its tree, exactly where no
value stands right before another one and no comma stands at the end. -/
theorem derives_iff_valuesApart {ls : List Lexeme} {t : Expr} (h : parseTokens ls = .ok t) :
    Derives .sum (ls.map (·.token)) t ↔
      valuesApart (ls.map (·.token)) = true ∧ (ls.map (·.token)).getLast? ≠ some .comma := by
  constructor
  · intro hderives
    obtain ⟨x, hx, hend⟩ := hderives.getLast?
    refine ⟨hderives.valuesApart, fun hcomma => ?_⟩
    rw [hx] at hcomma
    cases hcomma
    cases hend
  · rintro ⟨hapart, hcomma⟩
    exact derives_of_parseTokens h hapart hcomma

/-- The sentence `limit(x,0,-x/2)`. -/
def limitSentence : List Lexeme :=
  [⟨.function "limit", 0⟩, ⟨.openParen, 5⟩, ⟨.name "x", 6⟩, ⟨.comma, 7⟩, ⟨.number 0, 8⟩,
    ⟨.comma, 9⟩, ⟨.operator .sub, 10⟩, ⟨.name "x", 11⟩, ⟨.operator .div, 12⟩, ⟨.number 2, 13⟩,
    ⟨.closeParen, 14⟩]

theorem derives_iff_valuesApart_limit :
    parseTokens limitSentence =
        .ok (.call "limit"
          [.variable "x", .number 0, .quotient (.call "neg" [.variable "x"]) (.number 2)]) ∧
      Derives .sum (limitSentence.map (·.token))
        (.call "limit"
          [.variable "x", .number 0, .quotient (.call "neg" [.variable "x"]) (.number 2)]) :=
  ⟨by rfl, (derives_iff_valuesApart (by rfl)).2 (by decide)⟩

/-- Two arguments without a comma between them, and a comma after the last value, are accepted and
are no sentences. -/
theorem accepts_no_sentence :
    (parseTokens [⟨.function "limit", 0⟩, ⟨.openParen, 5⟩, ⟨.number 1, 6⟩, ⟨.number 2, 8⟩,
          ⟨.closeParen, 9⟩] = .ok (.call "limit" [.number 1, .number 2]) ∧
        ∀ t, ¬ Derives .sum
          [.function "limit", .openParen, .number 1, .number 2, .closeParen] t) ∧
      (parseTokens [⟨.number 1, 0⟩, ⟨.comma, 1⟩] = .ok (.number 1) ∧
        ∀ t, ¬ Derives .sum [.number 1, .comma] t) := by
  refine ⟨⟨by rfl, fun t h => ?_⟩, by rfl, fun t h => ?_⟩
  · exact absurd h.valuesApart (by decide)
  · obtain ⟨x, hx, hend⟩ := h.getLast?
    cases hx
    cases hend

end GlyphMath.Formula
