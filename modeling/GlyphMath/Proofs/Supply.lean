import GlyphMath.Proofs.Shape

/-!
# Operators that find their operands

* `ParseError.Misses` -- an operator at a place has too few operands.
* `Spares` -- an outcome of the parser is no such error, and something holds of its result.
* `Supplied` -- whenever the operators at a place are applied, they will find their operands.
* `State.Supplies` -- the stacks do not leave the operators at a place without operands.

An operator that waits under an open bracket finds its right operand: the bracket is closed around
one operand, which then stands above the operands that the operator has found.

Principal results:

* `spares_step`, `spares_steps` -- tokens at other places keep it so.
* `spares_parseTokens` -- an operator between the end of a value and an opening bracket has both
  of its operands, whatever stands around it.
-/

set_option autoImplicit false

namespace GlyphMath.Formula

/-- An operator at a place has too few operands. -/
def ParseError.Misses (e : ParseError) (place : Nat) : Prop := ∃ c, e = .missingOperand c place

/-- An outcome that is no error about an operator at a place, and of whose result something holds. -/
def Spares {α : Type} (place : Nat) (good : α → Prop) : Except ParseError α → Prop
  | .ok a => good a
  | .error e => ¬ e.Misses place

section

variable {α β : Type} {place : Nat} {good : α → Prop} {good' : β → Prop}

theorem Spares.bind {r : Except ParseError α} {f : α → Except ParseError β}
    (h : Spares place good r) (hf : ∀ a, r = .ok a → good a → Spares place good' (f a)) :
    Spares place good' (r.bind f) := by
  cases r with
  | error e => exact h
  | ok a => exact hf a rfl h

theorem Spares.map {r : Except ParseError α} {f : α → β} (h : Spares place good r)
    (hf : ∀ a, r = .ok a → good a → good' (f a)) : Spares place good' (r.map f) := by
  cases r with
  | error e => exact h
  | ok a => exact hf a rfl h

end

/-! ## Applying operators -/

theorem spares_node (place : Nat) (expr : Expr) (childHeight offset : Nat) :
    Spares place (fun _ => True) (Operand.node expr childHeight offset) := by
  unfold Operand.node
  split
  · simp [Spares, ParseError.Misses]
  · trivial

/-- `Supplied place entries count`: with so many operands or more, the operators at a place find
their operands when they are applied.  An operator leaves one operand at least above its base, and
a bracket exactly one. -/
def Supplied (place : Nat) : List Entry → Nat → Prop
  | [], _ => True
  | .paren _ base _ :: entries, _ => Supplied place entries (base + 1)
  | .negate offset base :: entries, count =>
    (offset = place → base < count) ∧ Supplied place entries count
  | .binary _ offset base :: entries, count =>
    (offset = place → base < count ∧ 2 ≤ count) ∧
      Supplied place entries (max base (count - 1))

section

variable {place : Nat} {entry : Entry} {entries pending after : List Entry} {count : Nat}
  {operands operands' : List Operand}

theorem Supplied.mono {count' : Nat} (h : Supplied place entries count) (hle : count ≤ count') :
    Supplied place entries count' := by
  induction entries generalizing count count' with
  | nil => trivial
  | cons entry entries ih =>
    cases entry with
    | paren => exact h
    | negate offset base =>
      refine ⟨fun hplace => ?_, ih h.2 hle⟩
      have := h.1 hplace
      omega
    | binary op offset base =>
      refine ⟨fun hplace => ?_, ih h.2 (by omega)⟩
      have := h.1 hplace
      omega

/-- **One operator** that is applied finds its operands and leaves enough for the ones below. -/
theorem Supplied.reduce (h : Supplied place (entry :: entries) operands.length) :
    Spares place
      (fun operands' => Supplied place entries operands'.length ∧ 0 < operands'.length)
      (reduce entry operands) := by
  cases entry with
  | paren offset base isCall =>
    rintro ⟨c, hc⟩
    cases hc
  | negate offset base =>
    rcases reduce_negate_cases offset base operands with ⟨hfew, heq⟩ | ⟨-, only, rest, rfl, heq⟩
    · rw [heq]
      rintro ⟨c, hc⟩
      cases hc
      have := h.1 rfl
      omega
    · rw [heq]
      exact (spares_node ..).map fun operand _ _ => ⟨h.2, Nat.succ_pos _⟩
  | binary op offset base =>
    rcases reduce_binary_cases op offset base operands with
      ⟨hfew, heq⟩ | ⟨hbase, rhs, lhs, rest, rfl, heq⟩
    · rw [heq]
      rintro ⟨c, hc⟩
      cases hc
      have := h.1 rfl
      omega
    · rw [heq]
      refine (spares_node ..).map fun operand _ _ => ⟨h.2.mono ?_, Nat.succ_pos _⟩
      simp only [List.length_cons] at hbase ⊢
      omega

/-- **Operators that are applied one after the other** find their operands, and leave one where
there was one. -/
theorem Supplied.reduceAll (h : Supplied place (pending ++ after) operands.length) :
    Spares place
      (fun operands' => Supplied place after operands'.length ∧
        (0 < operands.length → 0 < operands'.length))
      (reduceAll pending operands) := by
  induction pending generalizing operands with
  | nil => exact ⟨h, id⟩
  | cons entry pending ih =>
    have hone := h.reduce
    rw [Formula.reduceAll]
    split
    · rename_i hr
      rw [hr] at hone
      exact hone
    · rename_i operands' hr
      rw [hr] at hone
      have hmore := ih hone.1
      cases hall : Formula.reduceAll pending operands' with
      | error e =>
        rw [hall] at hmore
        exact hmore
      | ok operands'' =>
        rw [hall] at hmore
        exact ⟨hmore.1, fun _ => hmore.2 hone.2⟩

end

/-! ## Calls -/

/-- The base of an open bracket of a call. -/
def Entry.callBase? : Entry → Option Nat
  | .paren _ base true => some base
  | _ => none

/-- The bases of the open calls. -/
def callBases (entries : List Entry) : List Nat := entries.filterMap Entry.callBase?

/-- Operators that are applied leave the open calls as they are. -/
theorem callBases_dropWhile (entries : List Entry) {sort : Entry → Bool}
    (hsort : ∀ entry, sort entry = true → entry.isParen = false) :
    callBases (entries.dropWhile sort) = callBases entries := by
  have hnone : callBases (entries.takeWhile sort) = [] := by
    rw [callBases, List.filterMap_eq_nil_iff]
    intro entry hentry
    have hparen := hsort entry (List.all_eq_true.1 List.all_takeWhile entry hentry)
    cases entry with
    | paren => cases hparen
    | negate => rfl
    | binary => rfl
  unfold callBases at hnone ⊢
  conv => rhs; rw [← @List.takeWhile_append_dropWhile _ sort entries]
  rw [List.filterMap_append, hnone, List.nil_append]

theorem spares_applyCall (place : Nat) (frame : CallFrame) (operands : List Operand) :
    Spares place (fun operands' => operands'.length = frame.base + 1)
      (applyCall frame operands) := by
  unfold applyCall
  dsimp only
  split
  · rename_i htakes
    have hfound : operands.length - frame.base ≠ 0 := by
      intro hzero
      rw [hzero, takesArgs_zero] at htakes
      cases htakes
    split
    · rename_i e hnode
      have hspares : Spares place (fun _ => True) (.error e) := hnode ▸ spares_node place _ _ _
      exact hspares
    · show (_ :: List.drop _ _).length = _
      simp only [List.length_cons, List.length_drop]
      omega
  · simp [Spares, ParseError.Misses]

/-! ## Taking tokens -/

/-- The stacks do not leave the operators at a place without operands: these are supplied, every
open call keeps the base of its bracket, and after a value there is an operand. -/
structure State.Supplies (place : Nat) (s : State) : Prop where
  supplied : Supplied place s.entries s.operands.length
  calls : callBases s.entries = s.frames.map (·.base)
  value : s.afterValue = true → 0 < s.operands.length

section

variable {s : State} {place : Nat}

theorem supplies_start (place : Nat) : State.start.Supplies place := ⟨trivial, rfl, nofun⟩

theorem State.Supplies.reduceWhile (h : s.Supplies place) {sort : Entry → Bool}
    (hsort : ∀ entry, sort entry = true → entry.isParen = false) :
    Spares place
      (fun r => Supplied place r.1 r.2.length ∧ callBases r.1 = s.frames.map (·.base) ∧
        (0 < s.operands.length → 0 < r.2.length))
      ((reduceAll (s.entries.takeWhile sort) s.operands).map (s.entries.dropWhile sort, ·)) := by
  have hsupplied := h.supplied
  rw [← @List.takeWhile_append_dropWhile _ sort s.entries] at hsupplied
  refine hsupplied.reduceAll.map fun operands _ hleft => ⟨hleft.1, ?_, hleft.2⟩
  rw [callBases_dropWhile _ hsort, h.calls]

theorem State.Supplies.reduceGroup (h : s.Supplies place) :
    Spares place
      (fun r => Supplied place r.1 r.2.length ∧ callBases r.1 = s.frames.map (·.base) ∧
        (0 < s.operands.length → 0 < r.2.length))
      (reduceGroup s.entries s.operands) := by
  rw [reduceGroup_eq]
  exact h.reduceWhile (by simp)

theorem State.Supplies.reduceFor (h : s.Supplies place) (op : Operator) :
    Spares place
      (fun r => Supplied place r.1 r.2.length ∧ callBases r.1 = s.frames.map (·.base) ∧
        (0 < s.operands.length → 0 < r.2.length))
      (reduceFor op s.entries s.operands) := by
  rw [reduceFor_eq]
  exact h.reduceWhile fun _ => Entry.isParen_of_yieldsTo

/-- A closing bracket leaves one operand above the base of its bracket. -/
theorem spares_closeGroup (h : s.Supplies place) (offset : Nat) :
    Spares place (State.Supplies place) (closeGroup s offset) := by
  have hreduce := h.reduceGroup
  unfold closeGroup
  split
  · simp [Spares, ParseError.Misses]
  split
  · rename_i hgroup
    rw [hgroup] at hreduce
    exact hreduce
  · rename_i hgroup
    rw [hgroup] at hreduce
    obtain ⟨hsupplied, hcalls, -⟩ := hreduce
    split
    · simp [Spares, ParseError.Misses]
    · rename_i operands _ frame frames hframes
      rw [hframes] at hcalls
      obtain ⟨hbase, hcalls⟩ := List.cons.inj hcalls
      have hcall := spares_applyCall place frame operands
      split
      · rename_i hr
        rw [hr] at hcall
        exact hcall
      · rename_i hr
        rw [hr] at hcall
        dsimp only [Spares] at hcall hbase
        refine ⟨?_, hcalls, fun _ => by dsimp only; omega⟩
        dsimp only
        rw [hcall, ← hbase]
        exact hsupplied
  · rename_i hgroup
    rw [hgroup] at hreduce
    obtain ⟨hsupplied, hcalls, -⟩ := hreduce
    split
    · simp [Spares, ParseError.Misses]
    · have hsupplied : Supplied place _ (_ + 1) := hsupplied
      exact ⟨hsupplied.mono (by dsimp only; omega), hcalls, fun _ => by dsimp only; omega⟩
    · simp [Spares, ParseError.Misses]
  · simp [Spares, ParseError.Misses]

/-- **One token** at another place leaves no operator at a place without operands. -/
theorem spares_step {l : Lexeme} (h : s.Supplies place) (hl : l.offset ≠ place) :
    Spares place (State.Supplies place) (step s l) := by
  obtain ⟨token, offset⟩ := l
  have hpush : Supplied place s.entries (s.operands.length + 1) := h.supplied.mono (Nat.le_succ _)
  unfold step
  split
  · dsimp only at hl ⊢
    cases token with
    | number v => exact ⟨hpush, h.calls, fun _ => Nat.succ_pos _⟩
    | name text => exact ⟨hpush, h.calls, fun _ => Nat.succ_pos _⟩
    | function f => exact ⟨h.supplied, h.calls, nofun⟩
    | openParen => exact ⟨hpush, h.calls, nofun⟩
    | closeParen => exact spares_closeGroup h offset
    | comma =>
      have hreduce := h.reduceGroup
      rw [takeToken]
      split
      · split
        · rename_i hgroup
          rw [hgroup] at hreduce
          exact hreduce
        · rename_i hgroup
          rw [hgroup] at hreduce
          exact ⟨hreduce.1, hreduce.2.1, nofun⟩
      · simp [Spares, ParseError.Misses]
    | operator op =>
      have hreduce := h.reduceFor op
      rw [takeToken]
      split
      · split
        · rename_i hfor
          rw [hfor] at hreduce
          exact hreduce
        · rename_i hfor
          rw [hfor] at hreduce
          obtain ⟨hsupplied, hcalls, -⟩ := hreduce
          refine ⟨⟨fun hplace => absurd hplace hl, hsupplied.mono ?_⟩, hcalls, nofun⟩
          exact Nat.le_max_left _ _
      · split
        · exact ⟨⟨fun hplace => absurd hplace hl, h.supplied⟩, h.calls, nofun⟩
        · simp [Spares, ParseError.Misses, hl]
  · split
    · rename_i htoken
      dsimp only at htoken
      subst htoken
      exact ⟨hpush, congrArg (_ :: ·) h.calls, nofun⟩
    · simp [Spares, ParseError.Misses]

/-- **Any number of tokens** at other places. -/
theorem spares_steps {ls : List Lexeme} (h : s.Supplies place)
    (hls : ∀ l ∈ ls, l.offset ≠ place) : Spares place (State.Supplies place) (steps s ls) := by
  induction ls generalizing s with
  | nil => exact h
  | cons l ls ih =>
    have hone := spares_step h (hls l List.mem_cons_self)
    rw [steps]
    split
    · rename_i hr
      rw [hr] at hone
      exact hone
    · rename_i hr
      rw [hr] at hone
      exact ih hone fun l' hl' => hls l' (List.mem_cons_of_mem _ hl')

theorem spares_finish (h : s.Supplies place) : Spares place (fun _ => True) (finish s) := by
  have hsupplied := h.supplied
  rw [← List.append_nil s.entries] at hsupplied
  have hall := hsupplied.reduceAll
  unfold finish
  split
  · simp [Spares, ParseError.Misses]
  · split
    · rename_i hr
      rw [hr] at hall
      exact hall
    · simp [Spares, ParseError.Misses]
    · trivial
    · simp [Spares, ParseError.Misses]

/-! ## An operator and an opening bracket -/

theorem previous_of_closeGroup {s' : State} {offset : Nat} (h : closeGroup s offset = .ok s') :
    s'.previous = some .closeParen := by
  unfold closeGroup at h
  split at h
  · cases h
  split at h
  · cases h
  · split at h
    · cases h
    · split at h
      · cases h
      · cases h
        rfl
  · split at h
    · cases h
    · cases h
      rfl
    · cases h
  · cases h

/-- What the token before is, and that a function name waits for its bracket. -/
theorem previous_of_step {s' : State} {l : Lexeme} (hr : step s l = .ok s') :
    s'.previous = some l.token ∧ ∀ f, l.token = .function f → s'.pending.isSome = true := by
  obtain ⟨token, offset⟩ := l
  unfold step at hr
  split at hr
  · dsimp only at hr ⊢
    cases token with
    | number | name | openParen =>
      cases hr
      exact ⟨rfl, nofun⟩
    | function f =>
      cases hr
      exact ⟨rfl, fun _ _ => rfl⟩
    | closeParen => exact ⟨previous_of_closeGroup hr, nofun⟩
    | comma =>
      refine ⟨?_, nofun⟩
      rw [takeToken] at hr
      split at hr
      · split at hr
        · cases hr
        · cases hr
          rfl
      · cases hr
    | operator op =>
      refine ⟨?_, nofun⟩
      rw [takeToken] at hr
      split at hr
      · split at hr
        · cases hr
        · cases hr
          rfl
      · split at hr
        · cases hr
          rfl
        · cases hr
  · split at hr
    · rename_i htoken
      cases hr
      exact ⟨rfl, fun f hf => by rw [htoken] at hf; cases hf⟩
    · cases hr

/-- After a value there is an operand that an operator can take, and a bracket behind the operator
is closed around another one. -/
theorem spares_opening {op : Operator} {opened : Nat} (h : s.Supplies place)
    (hvalue : s.afterValue = true ∨ s.pending.isSome = true) :
    Spares place (State.Supplies place)
      (steps s [⟨.operator op, place⟩, ⟨.openParen, opened⟩]) := by
  have hreduce := h.reduceFor op
  rw [steps, step]
  cases hpending : s.pending with
  | some waiting => simp [Spares, ParseError.Misses]
  | none =>
    have hvalue : s.afterValue = true := by simpa [hpending] using hvalue
    dsimp only
    rw [takeToken, if_pos hvalue]
    cases hfor : reduceFor op s.entries s.operands with
    | error e =>
      rw [hfor] at hreduce
      exact hreduce
    | ok r =>
      rw [hfor] at hreduce
      obtain ⟨hsupplied, hcalls, hleft⟩ := hreduce
      have hpos := hleft (h.value hvalue)
      dsimp only
      rw [steps, step, hpending]
      dsimp only [takeToken]
      rw [steps]
      refine ⟨⟨fun _ => ?_, hsupplied.mono ?_⟩, hcalls, fun hafter => ?_⟩
      · omega
      · omega
      · cases hafter

theorem parseTokens_eq (ls : List Lexeme) :
    parseTokens ls = (steps State.start ls).bind finish := by
  unfold parseTokens
  cases steps State.start ls <;> rfl

/-- **An operator between the end of a value and an opening bracket** finds its operands.  A
function name in place of the value is refused before the operator is taken. -/
theorem spares_parseTokens {before back : List Lexeme} {last : Lexeme} {op : Operator}
    {opened : Nat} (hvalue : last.token.endsValue = true ∨ ∃ f, last.token = .function f)
    (hfront : ∀ l ∈ before ++ [last], l.offset ≠ place) (hback : ∀ l ∈ back, l.offset ≠ place) :
    Spares place (fun _ => True)
      (parseTokens (before ++ [last] ++
        ([⟨.operator op, place⟩, ⟨.openParen, opened⟩] ++ back))) := by
  have hlast : ∀ s, steps State.start (before ++ [last]) = .ok s →
      s.afterValue = true ∨ s.pending.isSome = true := by
    intro s hs
    rw [steps_append] at hs
    cases hbefore : steps State.start before with
    | error e =>
      rw [hbefore] at hs
      cases hs
    | ok s₀ =>
      rw [hbefore] at hs
      obtain ⟨hprevious, hpending⟩ := previous_of_step ((steps_singleton s₀ last).symm.trans hs)
      rw [State.afterValue, hprevious]
      exact hvalue.imp_right fun ⟨f, hf⟩ => hpending f hf
  have hall : Spares place (State.Supplies place) (steps State.start (before ++ [last] ++
      ([⟨.operator op, place⟩, ⟨.openParen, opened⟩] ++ back))) := by
    rw [steps_append]
    refine (spares_steps (supplies_start place) hfront).bind fun s hs h => ?_
    rw [steps_append]
    exact (spares_opening h (hlast s hs)).bind fun s _ h => spares_steps h hback
  rw [parseTokens_eq]
  exact hall.bind fun s _ h => spares_finish h

end

end GlyphMath.Formula
