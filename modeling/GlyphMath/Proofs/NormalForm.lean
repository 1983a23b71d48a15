import GlyphMath.Proofs.ReadBack

/-!
# Normal forms of trees

* `terms?`, `factors?` -- the children of a sum and of a product.
* `spliced` -- children as one tree: an only child stands for itself, and a first child of the same
  kind has its own children in its place.
* `normal` -- the normal form of a tree: numbers without a sign, and no sum or product that has one
  child or starts with one of its kind.

Printing loses brackets that make no difference, and the sign of a number becomes a negation.  The
normal form says what is lost without the operators that the parser applies (`norm`).

Principal result:

* `parse_toText_eq_normal` -- the text of a tree is read as its normal form, or refused where that
  is too tall.
-/

set_option autoImplicit false

namespace GlyphMath.Formula

open GlyphMath.Decimal

/-! ## Splicing -/

def terms? : Expr → Option (List Expr)
  | .sum terms => some terms
  | _ => none

def factors? : Expr → Option (List Expr)
  | .product factors => some factors
  | _ => none

/-- Children as one tree.  An only child stands for itself, and a first child of the same kind has
its own children in its place. -/
def spliced (node : List Expr → Expr) (parts? : Expr → Option (List Expr)) : List Expr → Expr
  | [] => node []
  | [e] => e
  | first :: second :: rest =>
    match parts? first with
    | some parts => node (parts ++ second :: rest)
    | none => node (first :: second :: rest)

/-- Children that an operator puts together from the left are spliced. -/
theorem gathered_eq_spliced {op : Operator} {node : List Expr → Expr}
    {parts? : Expr → Option (List Expr)}
    (hnode : ∀ es e, op.tree (node es) e = node (es ++ [e]))
    (hparts : ∀ e parts, parts? e = some parts → e = node parts)
    (hother : ∀ first e, parts? first = none → op.tree first e = node [first, e])
    {es : List Expr} (hne : es ≠ []) : gathered op es = spliced node parts? es := by
  obtain ⟨first, rest, rfl⟩ := List.exists_cons_of_ne_nil hne
  cases rest with
  | nil => rfl
  | cons second rest =>
    rw [spliced]
    cases hfirst : parts? first with
    | none => exact gathered_eq hnode (List.cons_ne_nil _ _) fun e => hother first e hfirst
    | some parts =>
      rw [hparts first parts hfirst, gathered, foldl_tree hnode]

theorem gathered_add {es : List Expr} (hne : es ≠ []) :
    gathered .add es = spliced .sum terms? es := by
  refine gathered_eq_spliced (fun _ _ => rfl) (fun e parts h => ?_) (fun first e h => ?_) hne
  · cases e with
    | sum terms => exact congrArg Expr.sum (Option.some.inj h)
    | _ => cases h
  · refine tree_add e ?_
    rintro terms rfl
    cases h

theorem gathered_mul {es : List Expr} (hne : es ≠ []) :
    gathered .mul es = spliced .product factors? es := by
  refine gathered_eq_spliced (fun _ _ => rfl) (fun e parts h => ?_) (fun first e h => ?_) hne
  · cases e with
    | product factors => exact congrArg Expr.product (Option.some.inj h)
    | _ => cases h
  · refine tree_mul e ?_
    rintro factors rfl
    cases h

/-! ## Normal forms -/

mutual

/-- The normal form of a tree, from its leaves up: a number with a sign is the negation of its
absolute value, and the children of sums and products are spliced. -/
def normal : Expr → Expr
  | .number v => if isSignSet v then .call "neg" [.number v.abs] else .number v
  | .variable text => .variable text
  | .sum terms => spliced .sum terms? (normalAll terms)
  | .product factors => spliced .product factors? (normalAll factors)
  | .quotient a b => .quotient (normal a) (normal b)
  | .power a b => .power (normal a) (normal b)
  | .call f args => .call f (normalAll args)

def normalAll : List Expr → List Expr
  | [] => []
  | e :: es => normal e :: normalAll es

end

theorem normalAll_eq (es : List Expr) : normalAll es = es.map normal := by
  induction es with
  | nil => rfl
  | cons e es ih => rw [normalAll, ih, List.map_cons]

/-- **The normal form is the tree that the operators of the text put together.** -/
theorem norm_eq_normal {t : Expr} (h : Printable t) : norm t = normal t := by
  induction h with
  | number => rfl
  | name => rfl
  | @sum terms hne _ ih =>
    rw [norm, normal, normAll_eq, normalAll_eq, List.map_congr_left ih]
    exact gathered_add (by simpa using hne)
  | @product factors hne _ ih =>
    rw [norm, normal, normAll_eq, normalAll_eq, List.map_congr_left ih]
    exact gathered_mul (by simpa using hne)
  | quotient _ _ iha ihb => rw [norm, normal, iha, ihb]
  | power _ _ iha ihb => rw [norm, normal, iha, ihb]
  | call _ _ ih => rw [norm, normal, normAll_eq, normalAll_eq, List.map_congr_left ih]

/-- **The text of a tree is read as its normal form**, or refused where that is too tall, and
nothing else can happen: negative numbers, lists of one child and lists that start with one of
their kind are printed without a loss but for these. -/
theorem parse_toText_eq_normal {t : Expr} (h : Printable t) :
    ((normal t).height ≤ maxHeight → parse t.toText = .ok (normal t)) ∧
      (maxHeight < (normal t).height →
        ∃ offset, parse t.toText = .error (.tooDeep offset maxHeight)) := by
  obtain ⟨offset, hparse⟩ := parse_print h
  rw [norm_eq_normal h] at hparse
  constructor
  · intro hle
    rw [hparse, Operand.made_of_le hle]
    rfl
  · intro hlt
    refine ⟨offset, ?_⟩
    rw [hparse, Operand.made_of_lt hlt]
    rfl

/-- A tree with signs, lists of one child and lists that start with one of their kind. -/
def signedTree : Expr :=
  .sum [.sum [.sum [.number (-1.5), .variable "x"], .variable "y"],
    .product [.product [.power (.number (-2)) (.number (-0.0)), .variable "z"], .variable "pi"],
    .call "sub" [.sum [.variable "x"], .number (-2)]]

/-- The normal form of that tree. -/
def signedNormal : Expr :=
  .sum [.call "neg" [.number 1.5], .variable "x", .variable "y",
    .product [.power (.call "neg" [.number 2]) (.call "neg" [.number 0]), .variable "z",
      .variable "pi"],
    .call "sub" [.variable "x", .call "neg" [.number 2]]]

theorem printable_signedTree : Printable signedTree := by
  have hpair : ∀ {a b : Expr}, Printable a → Printable b → ∀ e ∈ [a, b], Printable e :=
    fun ha hb => List.forall_mem_cons.2 ⟨ha, List.forall_mem_singleton.2 hb⟩
  have hname : ∀ name ∈ ["x", "y", "z", "pi"], Printable (.variable name) := by
    intro name hname
    refine .name ?_
    simp only [List.mem_cons, List.not_mem_nil, or_false] at hname
    rcases hname with rfl | rfl | rfl | rfl
    all_goals exact ⟨by decide, List.all_eq_true.1 (by decide), by decide⟩
  have hhalves : Printable (.number (-1.5)) :=
    .number (by decide +kernel : Binary.ofFloat (-1.5) = .finite true 6755399441055744 1022)
  have htwo : Printable (.number (-2)) :=
    .number (by decide +kernel : Binary.ofFloat (-2) = .finite true 4503599627370496 1023)
  have hzero : Printable (.number (-0.0)) :=
    .number (by decide +kernel : Binary.ofFloat (-0.0) = .finite true 0 0)
  have hsums : Printable (.sum [.sum [.number (-1.5), .variable "x"], .variable "y"]) :=
    .sum (by simp) (hpair (.sum (by simp) (hpair hhalves (hname "x" (by simp))))
      (hname "y" (by simp)))
  have hproducts : Printable (.product [.product [.power (.number (-2)) (.number (-0.0)),
      .variable "z"], .variable "pi"]) :=
    .product (by simp) (hpair (.product (by simp) (hpair (.power htwo hzero)
      (hname "z" (by simp)))) (hname "pi" (by simp)))
  have hdifference : Printable (.call "sub" [.sum [.variable "x"], .number (-2)]) :=
    .call (Or.inl ⟨rfl, rfl⟩)
      (hpair (.sum (by simp) (List.forall_mem_singleton.2 (hname "x" (by simp)))) htwo)
  exact .sum (by simp) (List.forall_mem_cons.2 ⟨hsums, hpair hproducts hdifference⟩)

theorem parse_toText_eq_normal_signed :
    Printable signedTree ∧ normal signedTree = signedNormal ∧
      signedTree.toText = "(((-1.5+x)+y)+(((-2^-0)*z)*pi)+((x)--2))" ∧
      parse signedTree.toText = .ok signedNormal := by
  have hnormal : normal signedTree = signedNormal := by decide +kernel
  refine ⟨printable_signedTree, hnormal, by decide +kernel, ?_⟩
  rw [← hnormal]
  exact (parse_toText_eq_normal printable_signedTree).1 (by decide +kernel)

end GlyphMath.Formula
