import GlyphMath.Proofs.Evaluation

/-!
# Values and the letters that a tree names

* `Expr.induction_children` -- induction over a tree from the trees right below it.
* `Bindings.get_set` -- the value of a letter after one has been bound.
* `Expr.Agree` -- two bindings give every letter that a tree names the same value.

Principal results:

* `Expr.eval_congr` -- bindings that agree give a tree the same value or the same error.
* `Expr.eval_of_variableNames` -- a tree can be evaluated for a letter that it does not name, and
  the letter makes no difference.
-/

set_option autoImplicit false

namespace GlyphMath

/-! ## Bindings -/

namespace Bindings

theorem find?_place (c d : Char) (v : Float) (entries : List (Char × Float)) :
    (place c v entries).find? (fun p => p.1 == d) =
      if c = d then some (c, v) else entries.find? fun p => p.1 == d := by
  fun_induction place c v entries with
  | case1 => by_cases h : c = d <;> simp [h]
  | case2 => by_cases h : c = d <;> simp [h]
  | case3 => by_cases h : c = d <;> simp [h]
  | case4 e w rest _ hne ih =>
    rw [List.find?_cons, List.find?_cons, ih]
    by_cases h : c = d
    · have hed : (e == d) = false := by
        rw [beq_eq_false_iff_ne]
        rintro rfl
        exact hne h
      simp [h, hed]
    · simp [h]

theorem get_set (b : Bindings) (c d : Char) (v : Float) :
    (b.set c v).get d = if c = d then v else b.get d := by
  unfold get get? set
  rw [find?_place]
  by_cases h : c = d <;> simp [h]

end Bindings

namespace Expr

/-! ## Trees and the trees right below -/

mutual

/-- Induction over a tree: what holds of a tree once it holds of the trees right below it. -/
theorem induction_children {motive : Expr → Prop}
    (step : ∀ e, (∀ c ∈ e.children, motive c) → motive e) (e : Expr) : motive e := by
  match e with
  | .number v => exact step _ nofun
  | .variable name => exact step _ nofun
  | .sum terms => exact step _ (forall_of_children step terms)
  | .product factors => exact step _ (forall_of_children step factors)
  | .quotient a b =>
    have ha := induction_children step a
    have hb := induction_children step b
    exact step _ (List.forall_mem_cons.2 ⟨ha, List.forall_mem_singleton.2 hb⟩)
  | .power a b =>
    have ha := induction_children step a
    have hb := induction_children step b
    exact step _ (List.forall_mem_cons.2 ⟨ha, List.forall_mem_singleton.2 hb⟩)
  | .call name args => exact step _ (forall_of_children step args)

theorem forall_of_children {motive : Expr → Prop}
    (step : ∀ e, (∀ c ∈ e.children, motive c) → motive e) (es : List Expr) :
    ∀ e ∈ es, motive e := by
  match es with
  | [] => exact nofun
  | e :: es =>
    exact List.forall_mem_cons.2 ⟨induction_children step e, forall_of_children step es⟩

end

theorem namesAny_of_mem {c : Char} {e : Expr} {es : List Expr} (he : e ∈ es)
    (h : names c e = true) : namesAny c es = true := by
  induction es with
  | nil => cases he
  | cons d es ih =>
    rw [namesAny, Bool.or_eq_true]
    rcases List.mem_cons.1 he with rfl | he
    · exact Or.inl h
    · exact Or.inr (ih he)

/-- A letter that a child names is named by the tree, whatever the tree does with the child. -/
theorem names_of_child {c : Char} {d e : Expr} (hd : d ∈ e.children) (h : names c d = true) :
    names c e = true := by
  cases e with
  | number v => cases hd
  | «variable» name => cases hd
  | sum terms => exact namesAny_of_mem hd h
  | product factors => exact namesAny_of_mem hd h
  | quotient a b =>
    rw [names, Bool.or_eq_true]
    rcases List.mem_pair.1 hd with rfl | rfl
    · exact Or.inl h
    · exact Or.inr h
  | power a b =>
    rw [names, Bool.or_eq_true]
    rcases List.mem_pair.1 hd with rfl | rfl
    · exact Or.inl h
    · exact Or.inr h
  | call name args => exact namesAny_of_mem hd h

/-! ## Bindings that agree -/

/-- Two bindings give every letter that a tree names the same value. -/
def Agree (e : Expr) (b b' : Bindings) : Prop := ∀ c ∈ e.variableNames, b.get c = b'.get c

section

variable {e : Expr} {b b' : Bindings}

theorem Agree.child {d : Expr} (h : Agree e b b') (hd : d ∈ e.children) : Agree d b b' := by
  intro c hc
  unfold variableNames at hc
  rw [List.mem_filter] at hc
  exact h c (List.mem_filter.2 ⟨hc.1, names_of_child hd hc.2⟩)

/-- Inside a limit the bound letter has one value, whatever it had outside. -/
theorem Agree.set (h : Agree e b b') (c : Char) (v : Float) : Agree e (b.set c v) (b'.set c v) := by
  intro d hd
  rw [Bindings.get_set, Bindings.get_set, h d hd]

theorem valueOf_congr {name : String} (h : Agree (.variable name) b b') :
    valueOf b name = valueOf b' name := by
  unfold valueOf
  cases constant? name with
  | some v => rfl
  | none =>
    cases hletter : bindableLetter? name with
    | none => rfl
    | some c =>
      have hmem : c ∈ alphabet := by
        unfold bindableLetter? at hletter
        split at hletter
        · split at hletter
          · rename_i hmem
            cases hletter
            exact hmem
          · cases hletter
        · cases hletter
      have hname : c ∈ (Expr.variable name).variableNames := by
        refine List.mem_filter.2 ⟨hmem, ?_⟩
        rw [names, isLetter, hletter, beq_self_eq_true]
      show Except.ok (b.get c) = Except.ok (b'.get c)
      rw [h c hname]

/-- Trees that are changed one by one add up to the same, where the changes make no difference to
their values. -/
theorem addAll_map {f : Expr → Expr} {total : Float} {es : List Expr}
    (h : ∀ e ∈ es, (f e).eval b = e.eval b') : addAll b total (es.map f) = addAll b' total es := by
  induction es generalizing total with
  | nil => rfl
  | cons e es ih =>
    rw [List.forall_mem_cons] at h
    rw [List.map_cons, addAll, addAll, h.1]
    cases e.eval b' with
    | error err => rfl
    | ok v => exact ih h.2

theorem multiplyAll_map {f : Expr → Expr} {total : Float} {es : List Expr}
    (h : ∀ e ∈ es, (f e).eval b = e.eval b') :
    multiplyAll b total (es.map f) = multiplyAll b' total es := by
  induction es generalizing total with
  | nil => rfl
  | cons e es ih =>
    rw [List.forall_mem_cons] at h
    rw [List.map_cons, multiplyAll, multiplyAll, h.1]
    cases e.eval b' with
    | error err => rfl
    | ok v => exact ih h.2

/-- A function that binds no letter depends on the values of its arguments only. -/
theorem apply_map {f : Expr → Expr} (name : String) {g : Function} (hg : g ≠ .limit)
    {args : List Expr} (h : ∀ a ∈ args, (f a).eval b = a.eval b') :
    apply b name g (args.map f) = apply b' name g args := by
  cases g with
  | unary u =>
    rcases args with _ | ⟨a, _ | ⟨a', rest⟩⟩
    · rfl
    · rw [List.map_singleton, apply, apply, h a (by simp)]
    · simp only [List.map_cons, apply, List.length_cons, List.length_map]
  | sub =>
    rcases args with _ | ⟨l, _ | ⟨r, _ | ⟨a, rest⟩⟩⟩
    · rfl
    · rfl
    · rw [List.map_cons, List.map_singleton, apply, apply, h l (by simp), h r (by simp)]
    · simp only [List.map_cons, apply, List.length_cons, List.length_map]
  | diff =>
    rcases args with _ | ⟨a, _ | ⟨a', rest⟩⟩
    · rfl
    · rfl
    · simp only [List.map_cons, apply, List.length_cons, List.length_map]
  | limit => exact absurd rfl hg

/-- **One call.**  The target of a limit is evaluated outside of its scope, the body inside. -/
theorem apply_congr (name : String) (f : Function) {args : List Expr}
    (hargs : ∀ a ∈ args, Agree a b b')
    (ih : ∀ a ∈ args, ∀ {b b' : Bindings}, Agree a b b' → a.eval b = a.eval b') :
    apply b name f args = apply b' name f args := by
  have heval : ∀ a ∈ args, a.eval b = a.eval b' := fun a ha => ih a ha (hargs a ha)
  have hbody : ∀ a ∈ args, ∀ c v, a.eval (b.set c v) = a.eval (b'.set c v) := fun a ha c v =>
    ih a ha ((hargs a ha).set c v)
  by_cases hf : f = .limit
  · subst hf
    rcases args with _ | ⟨first, _ | ⟨second, _ | ⟨third, _ | ⟨a, rest⟩⟩⟩⟩
    · rfl
    · rfl
    · rw [apply, apply, heval first (by simp)]
      cases first.eval b' with
      | error err => rfl
      | ok t => exact hbody second (by simp) 'x' (limitPoint t)
    · cases first with
      | «variable» letter =>
        rw [apply, apply, heval second (by simp)]
        cases bindableLetter? letter with
        | none => rfl
        | some c =>
          cases second.eval b' with
          | error err => rfl
          | ok t => exact hbody third (by simp) c (limitPoint t)
      | _ => rfl
    · rfl
  · simpa using apply_map name hf (f := id) heval

/-- **Bindings that agree** on the letters of a tree give it the same value or the same error.  By
induction on the tree, with the bindings open: a limit rebinds a letter in both of them alike. -/
theorem eval_congr (h : Agree e b b') : e.eval b = e.eval b' := by
  induction e using induction_children generalizing b b' with
  | step e ih =>
    have heval : ∀ c ∈ e.children, c.eval b = c.eval b' := fun c hc => ih c hc (h.child hc)
    cases e with
    | number v => rfl
    | «variable» name => exact valueOf_congr h
    | sum terms =>
      have hterms : ∀ e ∈ terms, e.eval b = e.eval b' := heval
      rw [eval, eval, ← addAll_map (f := id) hterms, List.map_id]
    | product factors =>
      have hfactors : ∀ e ∈ factors, e.eval b = e.eval b' := heval
      rw [eval, eval, ← multiplyAll_map (f := id) hfactors, List.map_id]
    | quotient n d =>
      rw [eval, eval, heval n (by simp [children]), heval d (by simp [children])]
    | power base exponent =>
      rw [eval, eval, heval base (by simp [children]), heval exponent (by simp [children])]
    | call name args =>
      rw [eval, eval]
      cases Function.ofName? name with
      | none => rfl
      | some f => exact apply_congr name f (fun a ha => h.child ha) ih

end

/-- **A value depends on the letters that a tree names**, and on no other.  Bindings that give these
the same values give the tree the same value or the same error; where a letter that it does not
name runs through a list, every result is the plain one. -/
theorem eval_of_variableNames {e : Expr} {b b' : Bindings}
    (h : ∀ c ∈ e.variableNames, b.get c = b'.get c) :
    e.eval b = e.eval b' ∧
      ∀ c ∉ e.variableNames, ∀ values : List Float,
        e.evalOver c values b = values.map fun _ => e.eval b := by
  refine ⟨eval_congr h, fun c hc values => ?_⟩
  unfold evalOver
  apply List.map_congr_left
  intro v _
  apply eval_congr
  intro d hd
  have hne : c ≠ d := by
    rintro rfl
    exact hc hd
  rw [Bindings.get_set, if_neg hne]

/-- The tree of `limit(0,limit(x,y,x*y)/x)+diff(w)*sin(pi)+e`. -/
def nestedLimits : Expr :=
  .sum [.call "limit" [.number 0, .quotient
      (.call "limit" [.variable "x", .variable "y", .product [.variable "x", .variable "y"]])
      (.variable "x")],
    .product [.call "diff" [.variable "w"], .call "sin" [.variable "pi"]], .variable "e"]

/-- The letter `w` is named though its value is never read; `z` and `e` are not. -/
theorem eval_of_variableNames_nested :
    nestedLimits.variableNames = ['w', 'x', 'y'] ∧
      nestedLimits.eval (.ofList [('y', 3), ('z', 5), ('e', 7)]) =
        nestedLimits.eval (.ofList [('x', 1), ('y', 3)]) ∧
      nestedLimits.evalOver 'z' [0, 2] (.ofList [('y', 3), ('z', 5), ('e', 7)]) =
        [nestedLimits.eval (.ofList [('y', 3), ('z', 5), ('e', 7)]),
          nestedLimits.eval (.ofList [('y', 3), ('z', 5), ('e', 7)])] := by
  have hnames : nestedLimits.variableNames = ['w', 'x', 'y'] := by decide +kernel
  have hvalues : ∀ c ∈ nestedLimits.variableNames,
      (Bindings.ofList [('y', 3), ('z', 5), ('e', 7)]).get c =
        (Bindings.ofList [('x', 1), ('y', 3)]).get c := by
    rw [hnames]
    simp only [List.forall_mem_cons]
    exact ⟨rfl, rfl, rfl, nofun⟩
  have hline := eval_of_variableNames hvalues
  exact ⟨hnames, hline.1, hline.2 'z' (by rw [hnames]; decide) [0, 2]⟩

end Expr

end GlyphMath
