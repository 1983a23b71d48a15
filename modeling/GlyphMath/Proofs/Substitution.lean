import GlyphMath.Proofs.Agreement

/-!
# Binding a letter and putting a number in its place

* `limitPoint_cases` -- where a limit is taken.
* `Expr.binds` -- whether a call is a limit that binds a letter: one of two arguments binds `x`, one
  of three the letter that its first argument is.
* `Expr.subst` -- a tree with a number in the place of a letter, but for the bodies of the limits
  that bind the letter and for the names of their letters.

Principal results:

* `limitPoint_bounds`, `limitPoint_eq_self_iff` -- a limit is taken neither at an infinity nor next
  to zero, and at its target wherever that is neither.
* `Expr.eval_subst` -- a tree with the number in it has the value that the tree has where the letter
  is bound to the number.
* `Expr.eval_set_eq_eval_subst` -- the same, and what it says of a limit: its body is evaluated with
  the point near the target in the place of the letter.
-/

set_option autoImplicit false

namespace GlyphMath

/-! ## The point of a limit -/

section

open Decimal (isSignSet)

theorem withSignOf_cases (m x : Float) :
    (isSignSet x = false ∧ withSignOf m x = m) ∨ (isSignSet x = true ∧ withSignOf m x = -m) := by
  unfold withSignOf
  cases isSignSet x with
  | false => exact Or.inl ⟨rfl, rfl⟩
  | true => exact Or.inr ⟨rfl, rfl⟩

/-- Where the body of a limit is evaluated: far out for an infinite target, close to zero for one
that is closer, and at any other target itself. -/
theorem limitPoint_cases (x : Float) :
    (x.isInf = true ∧ limitPoint x = withSignOf limitFar x) ∨
    (x.isInf = false ∧ x.abs < limitNear ∧ limitPoint x = withSignOf limitNear x) ∨
    (x.isInf = false ∧ ¬ x.abs < limitNear ∧ limitPoint x = x) := by
  unfold limitPoint
  cases hinf : x.isInf with
  | true => exact Or.inl ⟨rfl, rfl⟩
  | false =>
    rw [if_neg (by decide)]
    by_cases hnear : x.abs < limitNear
    · exact Or.inr (Or.inl ⟨rfl, hnear, if_pos hnear⟩)
    · exact Or.inr (Or.inr ⟨rfl, hnear, if_neg hnear⟩)

/-- A limit is never taken at an infinity, nor closer to zero than `limitNear`, and always on the
side of its target. -/
theorem limitPoint_bounds (x : Float) :
    (limitPoint x).isInf = false ∧ ¬ (limitPoint x).abs < limitNear ∧
      isSignSet (limitPoint x) = isSignSet x := by
  rcases limitPoint_cases x with ⟨-, hpoint⟩ | ⟨-, -, hpoint⟩ | ⟨hinf, hnear, hpoint⟩
  · rw [hpoint]
    rcases withSignOf_cases limitFar x with ⟨hsign, heq⟩ | ⟨hsign, heq⟩ <;> rw [heq, hsign] <;>
      decide +kernel
  · rw [hpoint]
    rcases withSignOf_cases limitNear x with ⟨hsign, heq⟩ | ⟨hsign, heq⟩ <;> rw [heq, hsign] <;>
      decide +kernel
  · rw [hpoint]
    exact ⟨hinf, hnear, rfl⟩

/-- The targets that are their own point. -/
theorem limitPoint_eq_self_iff {x : Float} :
    limitPoint x = x ↔ x.isInf = false ∧ ¬ x.abs < limitNear := by
  constructor
  · intro h
    obtain ⟨hinf, hnear, -⟩ := limitPoint_bounds x
    rw [h] at hinf hnear
    exact ⟨hinf, hnear⟩
  · rintro ⟨hinf, hnear⟩
    rcases limitPoint_cases x with ⟨hfar, -⟩ | ⟨-, hclose, -⟩ | ⟨-, -, hpoint⟩
    · rw [hinf] at hfar
      cases hfar
    · exact absurd hclose hnear
    · exact hpoint

theorem limitPoint_limitPoint (x : Float) : limitPoint (limitPoint x) = limitPoint x := by
  obtain ⟨hinf, hnear, -⟩ := limitPoint_bounds x
  exact limitPoint_eq_self_iff.2 ⟨hinf, hnear⟩

end

namespace Expr

/-! ## Substitution -/

/-- Whether a call is a limit that binds the letter. -/
def binds (c : Char) (name : String) (args : List Expr) : Bool :=
  decide (name = "limit") &&
    match args with
    | [_, _] => decide (c = 'x')
    | [.variable letter, _, _] => decide (letter = String.singleton c)
    | _ => false

mutual

/-- A tree with a number in the place of a letter. -/
def subst (c : Char) (v : Float) : Expr → Expr
  | .number w => .number w
  | .variable name => if name = String.singleton c then .number v else .variable name
  | .sum terms => .sum (substAll c v terms)
  | .product factors => .product (substAll c v factors)
  | .quotient n d => .quotient (subst c v n) (subst c v d)
  | .power base exponent => .power (subst c v base) (subst c v exponent)
  | .call name args =>
    .call name (if binds c name args then substTarget c v args else substAll c v args)

def substAll (c : Char) (v : Float) : List Expr → List Expr
  | [] => []
  | e :: es => subst c v e :: substAll c v es

/-- The arguments of a limit that binds the letter: only its target lies outside the scope. -/
def substTarget (c : Char) (v : Float) : List Expr → List Expr
  | [target, body] => [subst c v target, body]
  | [letter, target, body] => [letter, subst c v target, body]
  | args => args

end

theorem substAll_eq (c : Char) (v : Float) (es : List Expr) :
    substAll c v es = es.map (subst c v) := by
  induction es with
  | nil => rfl
  | cons e es ih => rw [substAll, ih, List.map_cons]

/-! ## Names -/

theorem bindableLetter?_eq_some_iff {name : String} {c : Char} :
    bindableLetter? name = some c ↔ c ∈ alphabet ∧ name = String.singleton c := by
  constructor
  · intro h
    unfold bindableLetter? at h
    split at h
    · rename_i d hname
      split at h
      · rename_i hmem
        cases h
        exact ⟨hmem, by rw [← String.toList_inj, hname, String.toList_singleton]⟩
      · cases h
    · cases h
  · rintro ⟨hmem, rfl⟩
    rw [bindableLetter?, String.toList_singleton]
    exact if_pos hmem

/-- A bindable letter is no constant. -/
theorem constant?_singleton {c : Char} (hc : c ∈ alphabet) :
    constant? (String.singleton c) = none := by
  have hall : alphabet.all (fun c => (constant? (String.singleton c)).isNone) = true := by decide
  exact Option.isNone_iff_eq_none.1 (List.all_eq_true.1 hall c hc)

/-! ## Values -/

section

variable {c d : Char} {v p : Float} {b : Bindings} {e : Expr}

theorem eval_set_comm (hne : c ≠ d) :
    e.eval ((b.set d p).set c v) = e.eval ((b.set c v).set d p) := by
  apply eval_congr
  intro x _
  rw [Bindings.get_set, Bindings.get_set, Bindings.get_set, Bindings.get_set]
  by_cases hc : c = x
  · rw [if_pos hc, if_neg (fun hd => hne (hc.trans hd.symm)), if_pos hc]
  · rw [if_neg hc, if_neg hc]

/-- A letter that is bound again has lost its value. -/
theorem eval_set_set : e.eval ((b.set c v).set c p) = e.eval (b.set c p) := by
  apply eval_congr
  intro x _
  rw [Bindings.get_set, Bindings.get_set, Bindings.get_set]
  by_cases hc : c = x
  · rw [if_pos hc, if_pos hc]
  · rw [if_neg hc, if_neg hc, if_neg hc]

theorem eval_subst_variable (hc : c ∈ alphabet) (name : String) :
    (subst c v (.variable name)).eval b = valueOf (b.set c v) name := by
  rw [subst]
  by_cases hname : name = String.singleton c
  · rw [if_pos hname, hname, valueOf, constant?_singleton hc,
      bindableLetter?_eq_some_iff.2 ⟨hc, rfl⟩]
    simp only [Bindings.get_set, if_true]
    rfl
  · rw [if_neg hname]
    refine valueOf_congr fun d hd => ?_
    have hletter : isLetter d name = true := (List.mem_filter.1 hd).2
    have hd : name = String.singleton d :=
      (bindableLetter?_eq_some_iff.1 (eq_of_beq hletter)).2
    have hne : c ≠ d := by
      rintro rfl
      exact hname hd
    rw [Bindings.get_set, if_neg hne]

/-- A limit whose first argument of three is no variable has no value. -/
theorem apply_limit_of_ne {name : String} {first target body : Expr}
    (hfirst : ∀ letter, first ≠ .variable letter) :
    apply b name .limit [first, target, body] = .error .limitVariable := by
  cases first with
  | «variable» letter => exact absurd rfl (hfirst letter)
  | _ => rfl

theorem subst_ne_variable (hfirst : ∀ letter, e ≠ .variable letter) :
    ∀ letter, subst c v e ≠ .variable letter := by
  intro letter
  cases e with
  | «variable» name => exact absurd rfl (hfirst name)
  | _ => simp [subst]

theorem binds_of_ne {name : String} (hname : name ≠ "limit") (args : List Expr) :
    binds c name args = false := by
  unfold binds
  rw [decide_eq_false hname, Bool.false_and]

/-- **One limit.**  Where it binds the letter, its body has lost the value of the letter; where it
binds another one, the two are bound in either order.  What cannot be bound stays so. -/
theorem apply_subst_limit (hc : c ∈ alphabet) {args : List Expr}
    (ih : ∀ a ∈ args, ∀ b, (subst c v a).eval b = a.eval (b.set c v)) :
    apply b "limit" .limit
        (if binds c "limit" args then substTarget c v args else substAll c v args) =
      apply (b.set c v) "limit" .limit args := by
  rcases args with _ | ⟨first, _ | ⟨second, _ | ⟨third, _ | ⟨a, rest⟩⟩⟩⟩
  · rfl
  · rfl
  · -- a limit of two arguments binds `x`
    have htarget := ih first (by simp) b
    have hbody := ih second (by simp)
    by_cases hx : c = 'x'
    · subst hx
      rw [if_pos (by rfl), substTarget, apply, apply, htarget]
      cases first.eval (b.set 'x' v) with
      | error err => rfl
      | ok t => exact eval_set_set.symm
    · rw [if_neg (by simp [binds, hx]), substAll_eq, List.map_cons, List.map_singleton, apply,
        apply, htarget]
      cases first.eval (b.set c v) with
      | error err => rfl
      | ok t => exact (hbody _).trans (eval_set_comm hx)
  · have htarget := ih second (by simp) b
    have hbody := ih third (by simp)
    by_cases hfirst : ∃ letter, first = .variable letter
    · obtain ⟨letter, rfl⟩ := hfirst
      by_cases hletter : letter = String.singleton c
      · rw [if_pos (by simp [binds, hletter]), substTarget, apply, apply, htarget, hletter,
          bindableLetter?_eq_some_iff.2 ⟨hc, rfl⟩]
        cases second.eval (b.set c v) with
        | error err => rfl
        | ok t => exact eval_set_set.symm
      · rw [if_neg (by simp [binds, hletter]), substAll_eq, List.map_cons, List.map_cons,
          List.map_singleton, subst, if_neg hletter, apply, apply, htarget]
        cases hbound : bindableLetter? letter with
        | none => rfl
        | some d =>
          have hne : c ≠ d := by
            rintro rfl
            exact hletter (bindableLetter?_eq_some_iff.1 hbound).2
          cases second.eval (b.set c v) with
          | error err => rfl
          | ok t => exact (hbody _).trans (eval_set_comm hne)
    · have hfirst : ∀ letter, first ≠ .variable letter := fun letter h => hfirst ⟨letter, h⟩
      have hbinds : binds c "limit" [first, second, third] = false := by
        cases first with
        | «variable» letter => exact absurd rfl (hfirst letter)
        | _ => rfl
      rw [hbinds, if_neg (by decide), substAll_eq, List.map_cons, List.map_cons,
        List.map_singleton, apply_limit_of_ne hfirst, apply_limit_of_ne (subst_ne_variable hfirst)]
  · rw [if_neg (by simp [binds]), substAll_eq]
    simp only [List.map_cons, apply, List.length_cons, List.length_map]

/-- **A number in the place of a letter** stands for a binding of the letter.  By induction on the
tree, with the bindings open: the body of a limit is evaluated under others. -/
theorem eval_subst (hc : c ∈ alphabet) (v : Float) (e : Expr) (b : Bindings) :
    (subst c v e).eval b = e.eval (b.set c v) := by
  induction e using induction_children generalizing b with
  | step e ih =>
    have heval : ∀ d ∈ e.children, (subst c v d).eval b = d.eval (b.set c v) :=
      fun d hd => ih d hd b
    cases e with
    | number w => rfl
    | «variable» name => exact eval_subst_variable hc name
    | sum terms =>
      rw [subst, substAll_eq, eval, eval]
      exact addAll_map heval
    | product factors =>
      rw [subst, substAll_eq, eval, eval]
      exact multiplyAll_map heval
    | quotient n d =>
      rw [subst, eval, eval, heval n (by simp [children]), heval d (by simp [children])]
    | power base exponent =>
      rw [subst, eval, eval, heval base (by simp [children]), heval exponent (by simp [children])]
    | call name args =>
      rw [subst, eval, eval]
      cases hname : Function.ofName? name with
      | none => rfl
      | some f =>
        by_cases hf : f = .limit
        · rw [hf] at hname ⊢
          obtain rfl := eq_limit_of_ofName? hname
          exact apply_subst_limit hc ih
        · have hlimit : name ≠ "limit" := by
            rintro rfl
            exact hf (Option.some.inj hname).symm
          rw [binds_of_ne hlimit, if_neg (by decide), substAll_eq]
          exact apply_map name hf heval

end

/-- **Binding a letter is substitution**: a tree with a number in the place of a letter has the
value, or the error, that the tree has where the letter is bound to the number.  So a limit has the
value of its body with the point near its target in the place of the letter that it binds, and the
target is evaluated outside. -/
theorem eval_set_eq_eval_subst {c : Char} (hc : c ∈ alphabet) (v : Float) (e : Expr)
    (b : Bindings) :
    (subst c v e).eval b = e.eval (b.set c v) ∧
      ∀ target body,
        (Expr.call "limit" [.variable (String.singleton c), target, body]).eval b =
            ((target.eval b).bind fun t => (subst c (limitPoint t) body).eval b) ∧
          (Expr.call "limit" [target, body]).eval b =
            ((target.eval b).bind fun t => (subst 'x' (limitPoint t) body).eval b) := by
  refine ⟨eval_subst hc v e b, fun target body => ⟨?_, ?_⟩⟩
  · have hlimit : Function.ofName? "limit" = some .limit := rfl
    rw [eval, hlimit]
    simp only [apply, bindableLetter?_eq_some_iff.2 ⟨hc, rfl⟩]
    cases target.eval b with
    | error err => rfl
    | ok t => exact (eval_subst hc _ body b).symm
  · have hlimit : Function.ofName? "limit" = some .limit := rfl
    rw [eval, hlimit]
    simp only [apply]
    cases target.eval b with
    | error err => rfl
    | ok t => exact (eval_subst (by decide) _ body b).symm

/-- The tree of `x+limit(x,x,x*limit(x,x+y,x*y))+limit(x,limit(y,x,x-y))`. -/
def shadowedLimits : Expr :=
  .sum [.variable "x",
    .call "limit" [.variable "x", .variable "x", .product [.variable "x",
      .call "limit" [.variable "x", .sum [.variable "x", .variable "y"],
        .product [.variable "x", .variable "y"]]]],
    .call "limit" [.variable "x",
      .call "limit" [.variable "y", .variable "x", .call "sub" [.variable "x", .variable "y"]]]]

/-- A product that is out of range. -/
def infiniteProduct : Expr := .product [.number 1e200, .number 1e200]

/-- The letter `x` is replaced where it stands by itself and in the targets of the two outer limits,
and nowhere in their bodies.  A limit toward minus infinity is taken at `-1e10`, one toward zero at
`1e-10`. -/
theorem eval_set_eq_eval_subst_shadowed :
    'x' ∈ alphabet ∧
      subst 'x' 3 shadowedLimits = .sum [.number 3,
        .call "limit" [.variable "x", .number 3, .product [.variable "x",
          .call "limit" [.variable "x", .sum [.variable "x", .variable "y"],
            .product [.variable "x", .variable "y"]]]],
        .call "limit" [.number 3,
          .call "limit" [.variable "y", .variable "x",
            .call "sub" [.variable "x", .variable "y"]]]] ∧
      shadowedLimits.eval ((Bindings.ofList [('y', 2)]).set 'x' 3) = .ok 33 ∧
      (subst 'x' 3 shadowedLimits).eval (.ofList [('y', 2)]) = .ok 33 ∧
      (Expr.call "limit" [.variable "x", .call "neg" [infiniteProduct],
        .quotient (.number 1) (.variable "x")]).eval .empty = .ok (-1e-10) ∧
      (Expr.call "limit" [.number 0, .quotient (.number 1) (.variable "x")]).eval .empty =
        .ok 1e10 := by
  have hx : 'x' ∈ alphabet := by decide
  have heval : shadowedLimits.eval ((Bindings.ofList [('y', 2)]).set 'x' 3) = .ok 33 := by
    decide +kernel
  refine ⟨hx, by decide +kernel, heval, ?_, ?_, ?_⟩
  · rw [(eval_set_eq_eval_subst hx 3 shadowedLimits (.ofList [('y', 2)])).1, heval]
  · rw [show "x" = String.singleton 'x' by decide,
      ((eval_set_eq_eval_subst hx 3 shadowedLimits .empty).2 _ _).1]
    decide +kernel
  · rw [((eval_set_eq_eval_subst hx 3 shadowedLimits .empty).2 _ _).2]
    decide +kernel

end Expr

end GlyphMath
