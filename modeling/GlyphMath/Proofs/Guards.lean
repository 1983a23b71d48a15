import GlyphMath.Proofs.Marks

/-!
# A parser that checks its stacks

* `Fault` -- what the stacks must never come to.
* `Halt` -- a fault, or an error about the tokens.
* `Checked.reduce`, `Checked.reduceWhile`, `Checked.applyCall`, `Checked.closeGroup`,
  `Checked.finish` -- the moves of the parser, where everything that is taken from a stack has to be
  there and no difference may be negative.
* `Checked.parseTokens` -- the parser with these moves.

The parser itself has an answer where the checked one comes to a fault: an error that says something
else, a difference cut off at nought.

Principal results:

* `checked_parseTokens` -- both parsers have the same answers, so that there is no fault.
* `parseTokens_safe` -- what the stacks are like after every token, that no fault is hidden, and that
  nothing is found only where there are no tokens.
-/

set_option autoImplicit false

namespace GlyphMath.Formula

/-- What the stacks must never come to. -/
inductive Fault where
  /-- An open bracket is applied as if it were an operator. -/
  | appliedBracket
  /-- More operands are counted than the base of an operator, and yet one of its own is missing. -/
  | missingOperand
  /-- The bracket of a call is closed where no call is open. -/
  | missingCall
  /-- There are fewer operands than stood below a bracket. -/
  | missingBase
  /-- A sum or product that takes one more child has the height nought. -/
  | missingHeight
deriving DecidableEq, Repr

/-- How the checked parser stops. -/
inductive Halt where
  | fault (what : Fault)
  | refused (error : ParseError)
deriving DecidableEq, Repr

/-- An outcome of the parser as one of the checked parser. -/
def refusing {α : Type} (r : Except ParseError α) : Except Halt α := r.mapError .refused

/-- Whether an operator adds a child to the tree on its left. -/
def Operator.prolongs : Operator → Expr → Bool
  | .add, .sum _ => true
  | .mul, .product _ => true
  | _, _ => false

/-! ## The checked parser -/

namespace Checked

/-- How many operands stand above a base. -/
def above (count base : Nat) : Except Halt Nat :=
  if count < base then .error (.fault .missingBase) else .ok (count - base)

def pop : List Operand → Except Halt (Operand × List Operand)
  | [] => .error (.fault .missingOperand)
  | operand :: operands => .ok (operand, operands)

/-- The tree of a binary operator and the height of its tallest child. -/
def joined (op : Operator) (lhs rhs : Operand) : Except Halt (Expr × Nat) :=
  if op.prolongs lhs.expr && lhs.height == 0 then .error (.fault .missingHeight)
  else .ok (Formula.joined op lhs rhs)

def reduce (entry : Entry) (operands : List Operand) : Except Halt (List Operand) :=
  match entry with
  | .paren _ _ _ => .error (.fault .appliedBracket)
  | .negate offset base =>
    if operands.length ≤ base then .error (.refused (.missingOperand '-' offset))
    else do
      let (only, operands) ← pop operands
      let operand ← refusing (Operand.node (.call "neg" [only.expr]) only.height offset)
      return operand :: operands
  | .binary op offset base =>
    if operands.length ≤ base then .error (.refused (.missingOperand op.symbol offset))
    else do
      let (rhs, operands) ← pop operands
      let (lhs, operands) ← pop operands
      let (tree, childHeight) ← joined op lhs rhs
      let operand ← refusing (Operand.node tree childHeight offset)
      return operand :: operands

/-- Applies the entries on top that are of some sort. -/
def reduceWhile (sort : Entry → Bool) :
    List Entry → List Operand → Except Halt (List Entry × List Operand)
  | [], operands => .ok ([], operands)
  | entry :: entries, operands =>
    if sort entry then do
      let operands ← reduce entry operands
      reduceWhile sort entries operands
    else .ok (entry :: entries, operands)

def reduceGroup (s : State) : Except Halt (List Entry × List Operand) :=
  reduceWhile (!·.isParen) s.entries s.operands

def applyCall (frame : CallFrame) (operands : List Operand) : Except Halt (List Operand) := do
  let found ← above operands.length frame.base
  if takesArgs frame.name found then
    let args := (operands.take found).reverse
    let operand ← refusing (Operand.node (.call frame.name (args.map (·.expr)))
      (tallestOperand args) frame.offset)
    return operand :: operands.drop found
  else .error (.refused (.arity frame.name (expectedArgs frame.name) found))

def closeGroup (s : State) (offset : Nat) : Except Halt State :=
  if s.previous = some .comma then .error (.refused (.unexpectedComma (offset - 1)))
  else do
    match ← reduceGroup s with
    | (.paren _ _ true :: entries, operands) =>
      match s.frames with
      | [] => .error (.fault .missingCall)
      | frame :: frames =>
        let operands ← applyCall frame operands
        return ⟨entries, frames, operands, none, some .closeParen⟩
    | (.paren opened base false :: entries, operands) =>
      match ← above operands.length base with
      | 0 => .error (.refused (.emptyGroup opened))
      | 1 => return ⟨entries, s.frames, operands, none, some .closeParen⟩
      | count => .error (.refused (.leftoverOperands count))
    | _ => .error (.refused (.unmatchedClose offset))

def takeToken (s : State) (token : Token) (offset : Nat) : Except Halt State :=
  match token with
  | .closeParen => closeGroup s offset
  | .comma =>
    if s.afterValue then do
      let (entries, operands) ← reduceGroup s
      return { s with entries := entries, operands := operands, previous := some token }
    else .error (.refused (.unexpectedComma offset))
  | .operator op =>
    if s.afterValue then do
      let (entries, operands) ← reduceWhile (·.yieldsTo op) s.entries s.operands
      return { s with
        entries := .binary op offset operands.length :: entries
        operands := operands
        previous := some token }
    else refusing (Formula.takeToken s token offset)
  | _ => refusing (Formula.takeToken s token offset)

def step (s : State) (l : Lexeme) : Except Halt State :=
  match s.pending with
  | none => takeToken s l.token l.offset
  | some _ => refusing (Formula.step s l)

def steps (s : State) : List Lexeme → Except Halt State
  | [] => .ok s
  | l :: ls => do
    let s ← step s l
    steps s ls

def finish (s : State) : Except Halt Expr :=
  match s.pending with
  | some (name, offset) => .error (.refused (.misplacedFunction name offset))
  | none => do
    match ← reduceGroup s with
    | (.paren offset _ _ :: _, _) => .error (.refused (.unmatchedOpen offset))
    | (_, []) => .error (.refused .empty)
    | (_, [operand]) => return operand.expr
    | (_, operands) => .error (.refused (.leftoverOperands operands.length))

def parseTokens (ls : List Lexeme) : Except Halt Expr := do
  let s ← steps State.start ls
  finish s

end Checked

/-! ## No fault -/

section

variable {α β : Type} {r : Except ParseError α}

theorem refusing_bind {f : α → Except Halt β} {g : α → Except ParseError β}
    (h : ∀ a, r = .ok a → f a = refusing (g a)) : (refusing r >>= f) = refusing (r.bind g) := by
  cases r with
  | error e => rfl
  | ok a => exact h a rfl

theorem refusing_map (f : α → β) :
    (refusing r >>= fun a => pure (f a)) = refusing (r.map f) := by
  cases r <;> rfl

end

section

variable {entry : Entry} {entries : List Entry} {operands : List Operand}

theorem above_eq {count base : Nat} (h : base ≤ count) :
    Checked.above count base = .ok (count - base) :=
  if_neg (Nat.not_lt.2 h)

theorem checked_joined (op : Operator) {lhs : Operand} (rhs : Operand) (h : 1 ≤ lhs.height) :
    Checked.joined op lhs rhs = .ok (joined op lhs rhs) := by
  have hheight : (lhs.height == 0) = false := beq_eq_false_iff_ne.2 (Nat.ne_of_gt h)
  rw [Checked.joined, hheight, Bool.and_false, if_neg Bool.false_ne_true]

/-- **An operator** above its base has all of its operands. -/
theorem checked_reduce (h : Marked (entry :: entries) operands) (hentry : entry.isParen = false) :
    Checked.reduce entry operands = refusing (reduce entry operands) := by
  cases entry with
  | paren => cases hentry
  | negate offset base =>
    rcases reduce_negate_cases offset base operands with
      ⟨hfew, heq⟩ | ⟨hbase, only, rest, rfl, heq⟩
    · rw [heq, Checked.reduce, if_pos hfew]
      rfl
    · rw [heq, Checked.reduce, if_neg (Nat.not_le.2 hbase)]
      exact refusing_map (· :: rest)
  | binary op offset base =>
    have hbelow : 0 < base := h.supplied op offset base List.mem_cons_self
    rcases reduce_binary_cases op offset base operands with
      ⟨hfew, heq⟩ | ⟨hbase, rhs, lhs, rest, rfl, heq⟩
    · rw [heq, Checked.reduce, if_pos (by omega)]
      rfl
    · have hlhs := (h.measured lhs (by simp)).one_le
      rw [heq, Checked.reduce, if_neg (Nat.not_le.2 hbase), ← refusing_map]
      show (Checked.joined op lhs rhs >>= _) = _
      rw [checked_joined op rhs hlhs]
      rfl

/-- **The operators on top** that are of some sort. -/
theorem checked_reduceWhile (h : Marked entries operands) {sort : Entry → Bool}
    (hsort : ∀ entry, sort entry = true → entry.isParen = false) :
    Checked.reduceWhile sort entries operands =
      refusing ((reduceAll (entries.takeWhile sort) operands).map
        (entries.dropWhile sort, ·)) := by
  induction entries generalizing operands with
  | nil => rfl
  | cons entry entries ih =>
    rw [Checked.reduceWhile]
    split
    · rename_i hentry
      rw [List.takeWhile_cons_of_pos hentry, List.dropWhile_cons_of_pos hentry, reduceAll,
        checked_reduce h (hsort entry hentry)]
      cases hone : reduce entry operands with
      | error e => rfl
      | ok operands' => exact ih (h.of_reduce hone).1
    · rename_i hentry
      rw [List.takeWhile_cons_of_neg hentry, List.dropWhile_cons_of_neg hentry]
      rfl

/-- **A call** finds at least the operands below its base. -/
theorem checked_applyCall {frame : CallFrame} (h : frame.base ≤ operands.length) :
    Checked.applyCall frame operands = refusing (applyCall frame operands) := by
  rw [Checked.applyCall, above_eq h, applyCall]
  dsimp only [bind, Except.bind]
  split
  · cases Operand.node (.call frame.name _) _ frame.offset <;> rfl
  · rfl

-- one operand where there must be two already, which the parser counts as no argument
example : Checked.applyCall ⟨"sin", 0, 2⟩ [.leaf (.variable "x")] = .error (.fault .missingBase) :=
  rfl

end

section

variable {s : State} {place offset : Nat} {l : Lexeme} {ls : List Lexeme}

theorem checked_reduceGroup (h : s.Marked) :
    Checked.reduceGroup s = refusing (reduceGroup s.entries s.operands) := by
  rw [reduceGroup_eq]
  exact checked_reduceWhile h.fits (by simp)

theorem checked_reduceFor (h : s.Marked) (op : Operator) :
    Checked.reduceWhile (·.yieldsTo op) s.entries s.operands =
      refusing (reduceFor op s.entries s.operands) := by
  rw [reduceFor_eq]
  exact checked_reduceWhile h.fits fun _ => Entry.isParen_of_yieldsTo

/-- **A closing bracket** finds the operands below its own bracket, and the call that this one
belongs to. -/
theorem checked_closeGroup (h : s.Marked) (hs : s.Supplies place) :
    Checked.closeGroup s offset = refusing (closeGroup s offset) := by
  unfold Checked.closeGroup closeGroup
  split
  · rfl
  rw [checked_reduceGroup h]
  cases hgroup : reduceGroup s.entries s.operands with
  | error e => rfl
  | ok r =>
    obtain ⟨entries, operands⟩ := r
    obtain ⟨hentries, hfits, -⟩ := h.fits.of_reduceGroup hgroup
    rcases entries with _ | ⟨_ | _ | ⟨opened, base, _ | _⟩, entries⟩
    · rfl
    · rfl
    · rfl
    · have habove : Checked.above operands.length base = .ok (operands.length - base) :=
        above_eq hfits.base_le
      show (Checked.above operands.length base >>= _) = _
      rw [habove]
      dsimp only [bind, Except.bind]
      rcases operands.length - base with _ | _ | count <;> rfl
    · have hcalls := hs.calls
      rw [← @callBases_dropWhile s.entries (!·.isParen) (by simp), ← hentries] at hcalls
      dsimp only [bind, Except.bind, refusing, Except.mapError]
      cases hframes : s.frames with
      | nil =>
        rw [hframes] at hcalls
        cases hcalls
      | cons frame frames =>
        rw [hframes] at hcalls
        have hbase : base = frame.base := (List.cons.inj hcalls).1
        dsimp only
        rw [checked_applyCall (hbase ▸ hfits.base_le)]
        cases applyCall frame operands <;> rfl

theorem checked_takeToken (h : s.Marked) (hs : s.Supplies place) (token : Token) :
    Checked.takeToken s token offset = refusing (takeToken s token offset) := by
  cases token with
  | number | name | function | openParen => rfl
  | closeParen => exact checked_closeGroup h hs
  | comma =>
    rw [Checked.takeToken, takeToken]
    split
    · rw [checked_reduceGroup h]
      cases reduceGroup s.entries s.operands <;> rfl
    · rfl
  | operator op =>
    rw [Checked.takeToken]
    split
    · rename_i hvalue
      rw [takeToken, if_pos hvalue, checked_reduceFor h]
      cases reduceFor op s.entries s.operands <;> rfl
    · rfl

/-- **One token.** -/
theorem checked_step (h : s.Marked) (hs : s.Supplies place) :
    Checked.step s l = refusing (step s l) := by
  unfold Checked.step
  split
  · rename_i hpending
    rw [checked_takeToken h hs, step, hpending]
  · rfl

/-- **Any number of tokens.** -/
theorem checked_steps (h : s.Marked) (hs : s.Supplies place) (hls : ∀ l ∈ ls, l.offset ≠ place) :
    Checked.steps s ls = refusing (steps s ls) := by
  induction ls generalizing s with
  | nil => rfl
  | cons l ls ih =>
    obtain ⟨hl, hls⟩ := List.forall_mem_cons.1 hls
    have hsupplies := spares_step hs hl
    rw [Checked.steps, steps, checked_step h hs]
    cases hone : step s l with
    | error e => rfl
    | ok s' =>
      rw [hone] at hsupplies
      exact ih (marked_step h hs hone) hsupplies hls

/-- What is left at the end is applied down to the innermost open bracket, which is refused. -/
theorem reduceAll_eq (entries : List Entry) (operands : List Operand) :
    reduceAll entries operands =
      (reduceGroup entries operands).bind fun r => reduceAll r.1 r.2 := by
  conv => lhs; rw [← @List.takeWhile_append_dropWhile _ (!·.isParen) entries, reduceAll_append]
  rw [reduceGroup_eq]
  cases reduceAll (entries.takeWhile (!·.isParen)) operands <;> rfl

/-- **The end of the tokens.** -/
theorem checked_finish (h : s.Marked) : Checked.finish s = refusing (finish s) := by
  unfold Checked.finish finish
  cases s.pending with
  | some waiting => rfl
  | none =>
    dsimp only
    rw [checked_reduceGroup h, reduceAll_eq]
    cases hgroup : reduceGroup s.entries s.operands with
    | error e => rfl
    | ok r =>
      obtain ⟨entries, operands⟩ := r
      have hentries := (h.fits.of_reduceGroup hgroup).1
      have hstop := List.head?_dropWhile_not (fun entry : Entry => !entry.isParen) s.entries
      rw [← hentries] at hstop
      rcases entries with _ | ⟨_ | _ | ⟨opened, base, isCall⟩, entries⟩
      · rcases operands with _ | ⟨_, _ | _⟩ <;> rfl
      · cases hstop
      · cases hstop
      · rfl

/-- **The checked parser comes to no fault**, and it has the answers of the parser. -/
theorem checked_parseTokens (ls : List Lexeme) :
    Checked.parseTokens ls = refusing (parseTokens ls) := by
  obtain ⟨place, hplace⟩ := exists_free_place ls
  rw [parseTokens_eq, Checked.parseTokens,
    checked_steps marked_start (supplies_start place) hplace]
  exact refusing_bind fun s hs => checked_finish (marked_of_steps hs).1

/-- **The stacks fit together** after every token that is taken: the bases never decrease from the
bottom to the top and never exceed the number of operands, the brackets of calls are the calls that
are open, with the same bases, and the height of an operand is that of its tree.  So nothing is
taken from a stack that is not there, and no difference of bases or heights falls below nought: the
parser that stops at these has the answers of the one that does not.  And nothing is found only
where there are no tokens. -/
theorem parseTokens_safe (ls : List Lexeme) :
    (∀ taken s, taken <+: ls → steps State.start taken = .ok s →
      Marked s.entries s.operands ∧ callBases s.entries = s.frames.map (·.base)) ∧
    (∀ what, Checked.parseTokens ls ≠ .error (.fault what)) ∧
    Checked.parseTokens ls = refusing (parseTokens ls) ∧
    (parseTokens ls = .error .empty ↔ ls = []) := by
  refine ⟨fun taken s _ hs => ?_, fun what hfault => ?_, checked_parseTokens ls,
    parseTokens_eq_empty⟩
  · obtain ⟨hmarked, place, hsupplies⟩ := marked_of_steps hs
    exact ⟨hmarked.fits, hsupplies.calls⟩
  · rw [checked_parseTokens] at hfault
    cases hparse : parseTokens ls with
    | error e =>
      rw [hparse] at hfault
      cases hfault
    | ok e =>
      rw [hparse] at hfault
      cases hfault

/-- `x y limit(z - w, x` and a closing bracket: the two operands in front lie below the call, and
they are left over. -/
theorem parseTokens_safe_piled :
    let taken : List Lexeme := [⟨.name "x", 0⟩, ⟨.name "y", 2⟩, ⟨.function "limit", 4⟩,
      ⟨.openParen, 9⟩, ⟨.name "z", 10⟩, ⟨.operator .sub, 12⟩, ⟨.name "w", 14⟩]
    let s : State := {
      entries := [.binary .sub 12 3, .paren 9 2 true]
      frames := [⟨"limit", 4, 2⟩]
      operands := [.leaf (.variable "w"), .leaf (.variable "z"), .leaf (.variable "y"),
        .leaf (.variable "x")]
      pending := none
      previous := some (.name "w") }
    let ls := taken ++ [⟨.comma, 15⟩, ⟨.name "x", 17⟩, ⟨.closeParen, 18⟩]
    steps State.start taken = .ok s ∧ Marked s.entries s.operands ∧
      callBases s.entries = [2] ∧ Checked.parseTokens ls = .error (.refused (.leftoverOperands 3)) :=
  have hsafe := parseTokens_safe _
  have hfits := hsafe.1 _ _ (List.prefix_append _ _) rfl
  ⟨rfl, hfits.1, hfits.2, hsafe.2.2.1.trans rfl⟩

end

end GlyphMath.Formula
