import GlyphMath.Proofs.Grammar

/-!
# What the moves of the parser do

* `Operand.ofExpr` -- a tree with its own height.
* `reduce_binary`, `reduce_negate`, `applyCall_eq` -- applying an operator or a function to such
  operands makes the operand of the new tree, or finds it too tall.
* `reduceAll_append`, `reduceGroup_append`, `reduceFor_append` -- the three loops over waiting
  operators do the same to operators that stand on top of others.
* `reduceGroup_eq`, `reduceFor_eq` -- the operators that two of them apply.
* `ParseError.isApplied` -- the errors of applying an operator or a function; the loops have no
  other, but for an open bracket that is left at the end.
-/

set_option autoImplicit false

namespace GlyphMath.Formula

/-! ## Heights -/

theorem tallest_append (as bs : List Expr) :
    Expr.tallest (as ++ bs) = max (Expr.tallest as) (Expr.tallest bs) := by
  induction as with
  | nil => simp [Expr.tallest]
  | cons a as ih => rw [List.cons_append, Expr.tallest, Expr.tallest, ih, Nat.max_assoc]

theorem tallest_singleton (e : Expr) : Expr.tallest [e] = e.height := by
  simp [Expr.tallest]

/-- A tree with its own height. -/
def Operand.ofExpr (e : Expr) : Operand := ⟨e, e.height⟩

/-- The result of making a tree: its operand, or an error where it is too tall. -/
def Operand.made (e : Expr) (offset : Nat) : Except ParseError Operand :=
  if maxHeight < e.height then .error (.tooDeep offset maxHeight) else .ok (.ofExpr e)

theorem Operand.node_eq {e : Expr} {childHeight : Nat} (offset : Nat)
    (h : childHeight + 1 = e.height) : Operand.node e childHeight offset = made e offset := by
  unfold Operand.node Operand.made Operand.ofExpr
  rw [h]

theorem joined_ofExpr (op : Operator) (a b : Expr) :
    (joined op (.ofExpr a) (.ofExpr b)).1 = op.tree a b ∧
      (joined op (.ofExpr a) (.ofExpr b)).2 + 1 = (op.tree a b).height := by
  have hpair : ∀ x y : Expr, Expr.tallest [x, y] = max x.height y.height := fun x y => by
    simp [Expr.tallest]
  cases op <;> cases a <;>
    simp only [joined, Operand.ofExpr, Operator.tree, Expr.height, hpair, tallest_append,
      tallest_singleton, Nat.add_sub_cancel, and_self]

theorem height_lt_tree_left (op : Operator) (a b : Expr) : a.height ≤ (op.tree a b).height := by
  rw [← (joined_ofExpr op a b).2]
  cases op <;> cases a <;> simp only [joined, Operand.ofExpr, Expr.height] <;> omega

theorem height_lt_tree_right (op : Operator) (a b : Expr) : b.height < (op.tree a b).height := by
  rw [← (joined_ofExpr op a b).2]
  cases op <;> cases a <;> simp only [joined, Operand.ofExpr] <;> omega

theorem tallestOperand_ofExpr (es : List Expr) :
    tallestOperand (es.map .ofExpr) = Expr.tallest es := by
  induction es with
  | nil => rfl
  | cons e es ih =>
    show max e.height (tallestOperand (es.map .ofExpr)) = _
    rw [ih, Expr.tallest]

/-! ## Applying an operator or a function -/

theorem reduce_binary (op : Operator) (offset : Nat) {base : Nat} (a b : Expr)
    {below : List Operand} (h : base ≤ below.length + 1) :
    reduce (.binary op offset base) (.ofExpr b :: .ofExpr a :: below) =
      (Operand.made (op.tree a b) offset).map (· :: below) := by
  have hj := joined_ofExpr op a b
  have hlen : ¬ (Operand.ofExpr b :: .ofExpr a :: below).length ≤ base := by
    simp only [List.length_cons]; omega
  simp only [reduce, if_neg hlen]
  rw [hj.1, Operand.node_eq offset hj.2]
  cases Operand.made (op.tree a b) offset <;> rfl

theorem reduce_negate (offset : Nat) {base : Nat} (t : Expr) {below : List Operand}
    (h : base ≤ below.length) :
    reduce (.negate offset base) (.ofExpr t :: below) =
      (Operand.made (.call "neg" [t]) offset).map (· :: below) := by
  have hlen : ¬ (Operand.ofExpr t :: below).length ≤ base := by
    simp only [List.length_cons]; omega
  simp only [reduce, if_neg hlen]
  rw [show (Operand.ofExpr t).expr = t from rfl,
    Operand.node_eq offset (by simp [Operand.ofExpr, Expr.height, tallest_singleton])]
  cases Operand.made (.call "neg" [t]) offset <;> rfl

theorem map_eq_error {α β : Type} {r : Except ParseError α} {f : α → β} {e : ParseError}
    (h : r.map f = .error e) : r = .error e := by
  cases r with
  | error e' =>
    cases h
    rfl
  | ok a => cases h

/-- **A sign** finds no operand above its base, or takes the topmost one. -/
theorem reduce_negate_cases (offset base : Nat) (operands : List Operand) :
    operands.length ≤ base ∧
        reduce (.negate offset base) operands = .error (.missingOperand '-' offset) ∨
      base < operands.length ∧ ∃ only rest, operands = only :: rest ∧
        reduce (.negate offset base) operands =
          (Operand.node (.call "neg" [only.expr]) only.height offset).map (· :: rest) := by
  by_cases hbase : operands.length ≤ base
  · exact Or.inl ⟨hbase, by simp only [reduce, if_pos hbase]⟩
  · refine Or.inr ⟨by omega, ?_⟩
    cases operands with
    | nil => exact absurd (Nat.zero_le base) hbase
    | cons only rest =>
      refine ⟨only, rest, rfl, ?_⟩
      simp only [reduce, if_neg hbase]
      cases Operand.node (.call "neg" [only.expr]) only.height offset <;> rfl

/-- **A binary operator** finds no operand above its base, or less than two at all, or takes the
topmost two. -/
theorem reduce_binary_cases (op : Operator) (offset base : Nat) (operands : List Operand) :
    (operands.length ≤ base ∨ operands.length < 2) ∧
        reduce (.binary op offset base) operands = .error (.missingOperand op.symbol offset) ∨
      base < operands.length ∧ ∃ rhs lhs rest, operands = rhs :: lhs :: rest ∧
        reduce (.binary op offset base) operands =
          (Operand.node (joined op lhs rhs).1 (joined op lhs rhs).2 offset).map (· :: rest) := by
  by_cases hbase : operands.length ≤ base
  · exact Or.inl ⟨Or.inl hbase, by simp only [reduce, if_pos hbase]⟩
  · rcases operands with _ | ⟨rhs, _ | ⟨lhs, rest⟩⟩
    · exact absurd (Nat.zero_le base) hbase
    · exact Or.inl ⟨Or.inr Nat.one_lt_two, by simp only [reduce, if_neg hbase]⟩
    · refine Or.inr ⟨by omega, rhs, lhs, rest, rfl, ?_⟩
      simp only [reduce, if_neg hbase]
      cases Operand.node (joined op lhs rhs).1 (joined op lhs rhs).2 offset <;> rfl

theorem takesArgs_zero (f : String) : takesArgs f 0 = false := by
  unfold takesArgs
  split <;> rfl

/-- A function takes the operands above its base, the last one on top. -/
theorem applyCall_eq (f : String) (offset : Nat) (args : List Expr) (below : List Operand) :
    applyCall ⟨f, offset, below.length⟩ ((args.map .ofExpr).reverse ++ below) =
      if takesArgs f args.length then (Operand.made (.call f args) offset).map (· :: below)
      else .error (.arity f (expectedArgs f) args.length) := by
  have hlen : ((args.map Operand.ofExpr).reverse ++ below).length - below.length =
      args.length := by simp
  have htake : ((args.map Operand.ofExpr).reverse ++ below).take args.length =
      (args.map Operand.ofExpr).reverse := List.take_left' (by simp)
  have hdrop : ((args.map Operand.ofExpr).reverse ++ below).drop args.length = below :=
    List.drop_left' (by simp)
  have hexprs : (args.map Operand.ofExpr).map (·.expr) = args := by
    simp [List.map_map, Function.comp_def, Operand.ofExpr]
  unfold applyCall
  dsimp only
  rw [hlen, htake, hdrop, List.reverse_reverse, hexprs, tallestOperand_ofExpr,
    Operand.node_eq offset (by simp [Expr.height])]
  cases Operand.made (.call f args) offset <;> rfl

/-! ## Waiting operators -/

theorem reduceAll_append (pending entries : List Entry) (operands : List Operand) :
    reduceAll (pending ++ entries) operands =
      (reduceAll pending operands).bind (reduceAll entries) := by
  induction pending generalizing operands with
  | nil => rfl
  | cons entry pending ih =>
    rw [List.cons_append, reduceAll, reduceAll]
    cases reduce entry operands with
    | error e => rfl
    | ok operands => exact ih operands

theorem reduceAll_singleton (entry : Entry) (operands : List Operand) :
    reduceAll [entry] operands = reduce entry operands := by
  rw [reduceAll]
  cases reduce entry operands <;> rfl

/-- Whether an entry is an open bracket. -/
def Entry.isParen : Entry → Bool
  | .paren _ _ _ => true
  | _ => false

theorem Entry.isParen_of_yieldsTo {entry : Entry} {op : Operator}
    (h : entry.yieldsTo op = true) : entry.isParen = false := by
  cases entry with
  | paren => simp [Entry.yieldsTo] at h
  | negate => rfl
  | binary => rfl

theorem reduceGroup_cons {entry : Entry} (entries : List Entry) (operands : List Operand)
    (h : entry.isParen = false) :
    reduceGroup (entry :: entries) operands =
      (reduce entry operands).bind (reduceGroup entries) := by
  cases entry with
  | paren => simp [Entry.isParen] at h
  | negate | binary =>
    rw [reduceGroup]
    · split <;> simp_all [Except.bind]
    · simp

/-- Operators above an open bracket, or above nothing, are all applied. -/
theorem reduceGroup_append {pending entries : List Entry} (operands : List Operand)
    (hp : ∀ entry ∈ pending, entry.isParen = false)
    (he : ∀ entry ∈ entries.head?, entry.isParen = true) :
    reduceGroup (pending ++ entries) operands =
      (reduceAll pending operands).map (entries, ·) := by
  induction pending generalizing operands with
  | nil =>
    cases entries with
    | nil => rfl
    | cons entry entries =>
      cases entry with
      | paren => rfl
      | negate | binary => simp [Entry.isParen] at he
  | cons entry pending ih =>
    rw [List.cons_append, reduceGroup_cons _ _ (hp entry (List.mem_cons_self ..)), reduceAll]
    cases reduce entry operands with
    | error e => rfl
    | ok operands => exact ih operands fun e h => hp e (List.mem_cons_of_mem _ h)

/-- Operators that yield to the one that comes next are all applied. -/
theorem reduceFor_append (op : Operator) {pending : List Entry} (entries : List Entry)
    (operands : List Operand) (h : ∀ entry ∈ pending, entry.yieldsTo op = true) :
    reduceFor op (pending ++ entries) operands =
      (reduceAll pending operands).bind (reduceFor op entries) := by
  induction pending generalizing operands with
  | nil => rfl
  | cons entry pending ih =>
    rw [List.cons_append, reduceFor, if_pos (h entry (List.mem_cons_self ..)), reduceAll]
    split
    · rfl
    · exact ih _ fun e he => h e (List.mem_cons_of_mem _ he)

theorem reduceFor_stop (op : Operator) {entries : List Entry} (operands : List Operand)
    (h : ∀ entry ∈ entries.head?, entry.yieldsTo op = false) :
    reduceFor op entries operands = .ok (entries, operands) := by
  cases entries with
  | nil => rfl
  | cons entry entries =>
    rw [reduceFor, if_neg]
    simp [h entry rfl]

/-- The operators above the innermost open bracket are applied. -/
theorem reduceGroup_eq (entries : List Entry) (operands : List Operand) :
    reduceGroup entries operands =
      (reduceAll (entries.takeWhile fun entry => !entry.isParen) operands).map
        (entries.dropWhile (fun entry => !entry.isParen), ·) := by
  conv => lhs; rw [← @List.takeWhile_append_dropWhile _ (fun entry => !entry.isParen) entries]
  refine reduceGroup_append operands (fun entry hentry => ?_) fun entry hentry => ?_
  · simpa using List.all_eq_true.1 List.all_takeWhile entry hentry
  · have hstop := List.head?_dropWhile_not (fun entry : Entry => !entry.isParen) entries
    rw [Option.mem_def.1 hentry] at hstop
    simpa using hstop

/-- The operators that yield to the one that comes next are applied. -/
theorem reduceFor_eq (op : Operator) (entries : List Entry) (operands : List Operand) :
    reduceFor op entries operands =
      (reduceAll (entries.takeWhile (·.yieldsTo op)) operands).map
        (entries.dropWhile (·.yieldsTo op), ·) := by
  conv => lhs; rw [← @List.takeWhile_append_dropWhile _ (·.yieldsTo op) entries]
  have hstop : ∀ entry ∈ (entries.dropWhile (·.yieldsTo op)).head?,
      entry.yieldsTo op = false := by
    intro entry hentry
    have hstop := List.head?_dropWhile_not (fun entry : Entry => entry.yieldsTo op) entries
    rw [Option.mem_def.1 hentry] at hstop
    exact hstop
  rw [reduceFor_append op _ operands fun entry hentry =>
    List.all_eq_true.1 List.all_takeWhile entry hentry]
  cases reduceAll (entries.takeWhile (·.yieldsTo op)) operands with
  | error e => rfl
  | ok operands => exact reduceFor_stop op operands hstop

/-! ## Errors of operators and calls -/

/-- Whether an error is about applying an operator or a function. -/
def ParseError.isApplied : ParseError → Bool
  | .missingOperand _ _ => true
  | .arity _ _ _ => true
  | .tooDeep _ _ => true
  | _ => false

section

variable {entry : Entry} {entries : List Entry} {operands : List Operand} {e : ParseError}

theorem isApplied_node {expr : Expr} {childHeight offset : Nat}
    (h : Operand.node expr childHeight offset = .error e) : e.isApplied = true := by
  unfold Operand.node at h
  split at h
  · cases h
    rfl
  · cases h

theorem isApplied_reduce (hentry : entry.isParen = false)
    (h : reduce entry operands = .error e) : e.isApplied = true := by
  cases entry with
  | paren => cases hentry
  | negate offset base =>
    rcases reduce_negate_cases offset base operands with ⟨-, heq⟩ | ⟨-, only, rest, -, heq⟩
    · rw [heq] at h
      cases h
      rfl
    · exact isApplied_node (map_eq_error (heq.symm.trans h))
  | binary op offset base =>
    rcases reduce_binary_cases op offset base operands with ⟨-, heq⟩ | ⟨-, rhs, lhs, rest, -, heq⟩
    · rw [heq] at h
      cases h
      rfl
    · exact isApplied_node (map_eq_error (heq.symm.trans h))

theorem isApplied_reduceGroup (h : reduceGroup entries operands = .error e) :
    e.isApplied = true := by
  induction entries generalizing operands with
  | nil => cases h
  | cons entry entries ih =>
    cases hparen : entry.isParen with
    | true =>
      cases entry with
      | paren => cases h
      | binary | negate => cases hparen
    | false =>
      rw [reduceGroup_cons _ _ hparen] at h
      cases hone : reduce entry operands with
      | error e' =>
        rw [hone] at h
        cases h
        exact isApplied_reduce hparen hone
      | ok operands =>
        rw [hone] at h
        exact ih h

theorem isApplied_reduceFor {op : Operator} (h : reduceFor op entries operands = .error e) :
    e.isApplied = true := by
  induction entries generalizing operands with
  | nil => cases h
  | cons entry entries ih =>
    rw [reduceFor] at h
    split at h
    · rename_i hyields
      split at h
      · rename_i hone
        cases h
        exact isApplied_reduce (Entry.isParen_of_yieldsTo hyields) hone
      · exact ih h
    · cases h

/-- At the end an open bracket may be left as well. -/
theorem isApplied_reduceAll (h : reduceAll entries operands = .error e) :
    e.isApplied = true ∨
      ∃ offset, e = .unmatchedOpen offset ∧ ∃ entry ∈ entries, entry.isParen = true := by
  induction entries generalizing operands with
  | nil => cases h
  | cons entry entries ih =>
    rw [reduceAll] at h
    split at h
    · rename_i hone
      cases h
      cases hparen : entry.isParen with
      | true =>
        cases entry with
        | paren offset =>
          cases hone
          exact Or.inr ⟨offset, rfl, _, List.mem_cons_self, rfl⟩
        | binary | negate => cases hparen
      | false => exact Or.inl (isApplied_reduce hparen hone)
    · refine (ih h).imp_right ?_
      rintro ⟨offset, he, left, hleft, hparen⟩
      exact ⟨offset, he, left, List.mem_cons_of_mem _ hleft, hparen⟩

theorem isApplied_applyCall {frame : CallFrame} (h : applyCall frame operands = .error e) :
    e.isApplied = true := by
  unfold applyCall at h
  dsimp only at h
  split at h
  · split at h
    · rename_i hnode
      cases h
      exact isApplied_node hnode
    · cases h
  · cases h
    rfl

end

/-! ## Taking tokens one after the other -/

theorem steps_append (s : State) (ls ls' : List Lexeme) :
    steps s (ls ++ ls') = (steps s ls).bind (steps · ls') := by
  induction ls generalizing s with
  | nil => rfl
  | cons l ls ih =>
    rw [List.cons_append, steps, steps]
    cases step s l with
    | error e => rfl
    | ok s => exact ih s

theorem steps_singleton (s : State) (l : Lexeme) : steps s [l] = step s l := by
  rw [steps]
  cases step s l <;> rfl

end GlyphMath.Formula
