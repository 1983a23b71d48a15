import GlyphMath.Expr.Eval
import GlyphMath.Proofs.ReadBack

/-!
# Values of parsed trees

* `Expr.children`, `Part` -- the trees right below a tree, and the trees anywhere in it.
* `Function.takes` -- how many arguments a function takes.
* `Excused` -- the errors that a tree may have: a division by zero, a name in it that has no value,
  and the first argument of a limit in it that is no variable.

Principal results:

* `function_of_callable` -- the calls that the parser makes name a function and have as many
  arguments as it takes.
* `excused_of_eval` -- a tree of the parser's shape has no other error.
* `eval_of_parse` -- a parsed tree has a value or one of these errors.
-/

set_option autoImplicit false

namespace GlyphMath

open Formula (Token Callable Canonical yield yieldAll functionNames takesArgs)

/-! ## Parts of trees -/

/-- The trees right below a tree. -/
def Expr.children : Expr → List Expr
  | .number _ => []
  | .variable _ => []
  | .sum terms => terms
  | .product factors => factors
  | .quotient a b => [a, b]
  | .power a b => [a, b]
  | .call _ args => args

/-- `Part e t`: the tree `e` stands somewhere in the tree `t`. -/
inductive Part (e : Expr) : Expr → Prop where
  | whole : Part e e
  | within {c t : Expr} (hc : c ∈ t.children) : Part e c → Part e t

theorem mem_yield_of_child {c t : Expr} {x : Token} (hc : c ∈ t.children) (hx : x ∈ yield c) :
    x ∈ yield t := by
  cases t with
  | number v => cases hc
  | «variable» name => cases hc
  | sum terms => exact Formula.mem_yieldAll hc hx
  | product factors => exact Formula.mem_yieldAll hc hx
  | quotient a b =>
    rcases List.mem_pair.1 hc with rfl | rfl
    · exact List.mem_append_left _ hx
    · exact List.mem_append_right _ hx
  | power a b =>
    rcases List.mem_pair.1 hc with rfl | rfl
    · exact List.mem_append_left _ hx
    · exact List.mem_append_right _ hx
  | call f args => exact Formula.mem_yieldAll hc hx

theorem Part.mem_yield {name : String} {t : Expr} (h : Part (.variable name) t) :
    .name name ∈ yield t := by
  induction h with
  | whole => exact List.mem_singleton.2 rfl
  | within hc _ ih => exact mem_yield_of_child hc ih

/-! ## Functions and their arguments -/

/-- Whether a function takes that many arguments. -/
def Function.takes : Function → Nat → Bool
  | .unary _, count => count == 1
  | .sub, count => count == 2
  | .diff, count => count == 1
  | .limit, count => count == 2 || count == 3

/-- **Parser and evaluator agree on functions.**  A call that the parser makes names a function, and
has as many arguments as that one takes. -/
theorem function_of_callable {f : String} {count : Nat} (h : Callable f count) :
    ∃ g, Function.ofName? f = some g ∧ g.takes count = true := by
  rcases h with ⟨rfl, rfl⟩ | ⟨hf, hargs⟩
  · exact ⟨.sub, rfl, rfl⟩
  · have hunary : ∀ {name : String}, name ≠ "limit" → takesArgs name count = true →
        (count == 1) = true := by
      intro name hname hargs
      rwa [takesArgs, if_neg hname] at hargs
    simp only [functionNames, List.mem_cons, List.not_mem_nil, or_false] at hf
    rcases hf with rfl | rfl | rfl | rfl | rfl | rfl | rfl | rfl | rfl | rfl | rfl | rfl | rfl | rfl
    case inr.inr.inr.inr.inr.inr.inr.inr.inr.inr.inr.inr.inr.inr => exact ⟨.limit, rfl, hargs⟩
    all_goals exact ⟨_, rfl, hunary (by decide) hargs⟩

theorem eq_limit_of_ofName? {f : String} (h : Function.ofName? f = some .limit) : f = "limit" := by
  unfold Function.ofName? at h
  split at h <;> first | rfl | cases h

/-! ## Errors -/

/-- The errors that a tree may have. -/
inductive Excused (t : Expr) : EvalError → Prop where
  | divisionByZero : Excused t .divisionByZero
  | unknownSymbol {name : String} (hpart : Part (.variable name) t)
      (hconstant : Expr.constant? name = none) (hletter : Expr.bindableLetter? name = none) :
      Excused t (.unknownSymbol name)
  | limitVariable {first target body : Expr} (hpart : Part (.call "limit" [first, target, body]) t)
      (hfirst : ∀ name, first = .variable name → Expr.bindableLetter? name = none) :
      Excused t .limitVariable

section

variable {b : Bindings} {e : EvalError}

theorem Excused.of_child {c t : Expr} (hc : c ∈ t.children) (h : Excused c e) : Excused t e := by
  cases h with
  | divisionByZero => exact .divisionByZero
  | unknownSymbol hpart hconstant hletter =>
    exact .unknownSymbol (.within hc hpart) hconstant hletter
  | limitVariable hpart hfirst => exact .limitVariable (.within hc hpart) hfirst

theorem excused_of_valueOf {name : String} (h : Expr.valueOf b name = .error e) :
    Excused (.variable name) e := by
  unfold Expr.valueOf at h
  split at h
  · cases h
  · rename_i hconstant
    split at h
    · cases h
    · rename_i hletter
      cases h
      exact .unknownSymbol .whole hconstant hletter

theorem error_of_addAll {total : Float} {es : List Expr} (h : Expr.addAll b total es = .error e) :
    ∃ c ∈ es, c.eval b = .error e := by
  induction es generalizing total with
  | nil => cases h
  | cons c es ih =>
    rw [Expr.addAll] at h
    split at h
    · rename_i hc
      cases h
      exact ⟨c, List.mem_cons_self, hc⟩
    · obtain ⟨d, hd, herror⟩ := ih h
      exact ⟨d, List.mem_cons_of_mem _ hd, herror⟩

theorem error_of_multiplyAll {total : Float} {es : List Expr}
    (h : Expr.multiplyAll b total es = .error e) : ∃ c ∈ es, c.eval b = .error e := by
  induction es generalizing total with
  | nil => cases h
  | cons c es ih =>
    rw [Expr.multiplyAll] at h
    split at h
    · rename_i hc
      cases h
      exact ⟨c, List.mem_cons_self, hc⟩
    · obtain ⟨d, hd, herror⟩ := ih h
      exact ⟨d, List.mem_cons_of_mem _ hd, herror⟩

/-- The first argument of a limit of three, which is no variable. -/
def Unbound (args : List Expr) : Prop :=
  ∃ first target body, args = [first, target, body] ∧
    ∀ name, first = .variable name → Expr.bindableLetter? name = none

/-- **One call.**  A function that has as many arguments as it takes fails only where an argument
does, under some bindings, or where it is a limit whose first argument of three is no variable. -/
theorem error_of_apply {f : String} {g : Function} {args : List Expr}
    (htakes : g.takes args.length = true) (h : Expr.apply b f g args = .error e) :
    (∃ c ∈ args, ∃ b' : Bindings, c.eval b' = .error e) ∨
      g = .limit ∧ e = .limitVariable ∧ Unbound args := by
  cases g with
  | unary u =>
    obtain ⟨a, rfl⟩ := List.length_eq_one_iff.1 (eq_of_beq htakes)
    rw [Expr.apply] at h
    split at h
    · rename_i ha
      cases h
      exact Or.inl ⟨a, List.mem_cons_self, b, ha⟩
    · cases h
  | sub =>
    obtain ⟨l, r, rfl⟩ := List.length_eq_two.1 (eq_of_beq htakes)
    rw [Expr.apply] at h
    split at h
    · rename_i hl
      cases h
      exact Or.inl ⟨l, List.mem_cons_self, b, hl⟩
    · split at h
      · rename_i hr
        cases h
        exact Or.inl ⟨r, by simp, b, hr⟩
      · cases h
  | diff =>
    obtain ⟨a, rfl⟩ := List.length_eq_one_iff.1 (eq_of_beq htakes)
    cases h
  | limit =>
    rw [Function.takes, Bool.or_eq_true, beq_iff_eq, beq_iff_eq] at htakes
    rcases htakes with htwo | hthree
    · obtain ⟨target, body, rfl⟩ := List.length_eq_two.1 htwo
      rw [Expr.apply] at h
      split at h
      · rename_i htarget
        cases h
        exact Or.inl ⟨target, List.mem_cons_self, b, htarget⟩
      · exact Or.inl ⟨body, by simp, _, h⟩
    · obtain ⟨first, target, body, rfl⟩ := List.length_eq_three.1 hthree
      cases first with
      | «variable» letter =>
        rw [Expr.apply] at h
        split at h
        · rename_i hletter
          cases h
          refine Or.inr ⟨rfl, rfl, _, target, body, rfl, fun name hname => ?_⟩
          cases hname
          exact hletter
        · split at h
          · rename_i htarget
            cases h
            exact Or.inl ⟨target, by simp, b, htarget⟩
          · exact Or.inl ⟨body, by simp, _, h⟩
      | _ =>
        cases h
        exact Or.inr ⟨rfl, rfl, _, target, body, rfl, nofun⟩

end

/-- **A tree of the parser's shape has no other error**, whatever the bindings.  By induction on its
shape: an error of a sum, product, quotient, power or call is its own or that of a child. -/
theorem excused_of_eval {t : Expr} (h : Canonical t) {b : Bindings} {e : EvalError}
    (heval : t.eval b = .error e) : Excused t e := by
  induction h generalizing b with
  | number v => cases heval
  | name text =>
    rw [Expr.eval] at heval
    exact excused_of_valueOf heval
  | sum _ _ _ ih =>
    rw [Expr.eval] at heval
    obtain ⟨c, hc, herror⟩ := error_of_addAll heval
    exact (ih c hc herror).of_child hc
  | product _ _ _ ih =>
    rw [Expr.eval] at heval
    obtain ⟨c, hc, herror⟩ := error_of_multiplyAll heval
    exact (ih c hc herror).of_child hc
  | @quotient n d _ _ ihn ihd =>
    rw [Expr.eval] at heval
    split at heval
    · rename_i hn
      cases heval
      exact (ihn hn).of_child (by simp [Expr.children])
    · split at heval
      · rename_i hd
        cases heval
        exact (ihd hd).of_child (by simp [Expr.children])
      · split at heval
        · cases heval
          exact .divisionByZero
        · cases heval
  | @power base exponent _ _ ihbase ihexponent =>
    rw [Expr.eval] at heval
    split at heval
    · rename_i hbase
      cases heval
      exact (ihbase hbase).of_child (by simp [Expr.children])
    · split at heval
      · rename_i hexponent
        cases heval
        exact (ihexponent hexponent).of_child (by simp [Expr.children])
      · cases heval
  | @call f args hf _ ih =>
    obtain ⟨g, hg, htakes⟩ := function_of_callable hf
    rw [Expr.eval, hg] at heval
    rcases error_of_apply htakes heval with ⟨c, hc, b', herror⟩ | ⟨rfl, rfl, hunbound⟩
    · exact (ih c hc herror).of_child hc
    · obtain ⟨first, target, body, rfl, hfirst⟩ := hunbound
      rw [eq_limit_of_ofName? hg]
      exact .limitVariable .whole hfirst

/-- A name that is one lower-case letter. -/
def IsLetterName (name : String) : Prop := ∃ c, name.toList = [c] ∧ 'a' ≤ c ∧ c ≤ 'z'

theorem letter_cases {c : Char} (hfirst : 'a' ≤ c) (hlast : c ≤ 'z') :
    c = 'e' ∨ c ∈ Expr.alphabet := by
  have hall : ∀ n < 26, Char.ofNat (97 + n) = 'e' ∨ Char.ofNat (97 + n) ∈ Expr.alphabet := by decide
  have hfirst : 97 ≤ c.toNat := hfirst
  have hlast : c.toNat ≤ 122 := hlast
  have hc := hall (c.toNat - 97) (by omega)
  rwa [Nat.add_sub_cancel' hfirst, Char.ofNat_toNat] at hc

/-- A name without a value is neither a letter nor `pi`. -/
theorem not_isLetterName {name : String} (hconstant : Expr.constant? name = none)
    (hletter : Expr.bindableLetter? name = none) : ¬ IsLetterName name ∧ name ≠ "pi" := by
  constructor
  · rintro ⟨c, hname, hfirst, hlast⟩
    rcases letter_cases hfirst hlast with rfl | hmem
    · have heq : name = "e" := by rw [← String.ofList_toList (s := name), hname]
      rw [heq] at hconstant
      cases hconstant
    · rw [Expr.bindableLetter?, hname] at hletter
      simp [hmem] at hletter
  · rintro rfl
    cases hconstant

/-- **Parsed trees cannot go wrong.**  Under every binding a parsed tree has a value, divides by
zero, has a name from its text that is neither a letter nor `pi`, or contains a limit of three
arguments whose first one is no variable that can be bound. -/
theorem eval_of_parse {text : String} {t : Expr} (h : Formula.parse text = .ok t) (b : Bindings) :
    (∃ v, t.eval b = .ok v) ∨ t.eval b = .error .divisionByZero ∨
      (∃ name ls, t.eval b = .error (.unknownSymbol name) ∧
        Formula.tokenize text = .ok ls ∧ .name name ∈ ls.map (·.token) ∧
          ¬ IsLetterName name ∧ name ≠ "pi") ∨
      t.eval b = .error .limitVariable ∧ ∃ first target body,
        Part (.call "limit" [first, target, body]) t ∧
          ∀ name, first = .variable name → Expr.bindableLetter? name = none := by
  obtain ⟨ls, htokens, hsound, hyield⟩ := Formula.shape_of_parse h
  cases heval : t.eval b with
  | ok v => exact Or.inl ⟨v, rfl⟩
  | error e =>
    refine Or.inr ?_
    cases excused_of_eval hsound.shape heval with
    | divisionByZero => exact Or.inl rfl
    | @unknownSymbol name hpart hconstant hletter =>
      have hname := hpart.mem_yield
      rw [hyield, List.mem_filter] at hname
      exact Or.inr (Or.inl ⟨name, ls, rfl, htokens, hname.1, not_isLetterName hconstant hletter⟩)
    | limitVariable hpart hfirst => exact Or.inr (Or.inr ⟨rfl, _, _, _, hpart, hfirst⟩)

/-- The tree of `limit(2,x,1/x)+limit(y,0,Z)`. -/
def strayLimits : Expr :=
  .sum [.call "limit" [.number 2, .variable "x", .quotient (.number 1) (.variable "x")],
    .call "limit" [.variable "y", .number 0, .variable "Z"]]

/-- The first limit names no variable, and the capital letter after it is not reached. -/
theorem eval_of_parse_strayLimits :
    Formula.parse "limit(2,x,1/x)+limit(y,0,Z)" = .ok strayLimits ∧
      strayLimits.eval .empty = .error .limitVariable ∧
        ∃ first target body, Part (.call "limit" [first, target, body]) strayLimits ∧
          ∀ name, first = .variable name → Expr.bindableLetter? name = none := by
  have hparse : Formula.parse "limit(2,x,1/x)+limit(y,0,Z)" = .ok strayLimits := by decide +kernel
  have heval : strayLimits.eval .empty = .error .limitVariable := by decide +kernel
  refine ⟨hparse, heval, ?_⟩
  rcases eval_of_parse hparse .empty with ⟨v, hv⟩ | hzero | ⟨name, ls, hname, -⟩ | ⟨-, hlimit⟩
  · rw [heval] at hv
    cases hv
  · rw [heval] at hzero
    cases hzero
  · rw [heval] at hname
    cases hname
  · exact hlimit

end GlyphMath
