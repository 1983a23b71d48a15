import GlyphMath.Proofs.Agreement

/-!
# Every node of a parsed tree

* `Formed` -- what holds of a single node: sums and products have at least two children, the first
  one of another kind, and a call has as many arguments as its function takes.
* `canonical_iff` -- a tree has the parser's shape when all of its nodes are formed.

Principal result:

* `formed_of_parseTokens` -- the nodes, the height and the leaves of a parsed tree.
-/

set_option autoImplicit false

namespace GlyphMath.Formula

/-! ## Nodes -/

/-- What holds of a single node. -/
def Formed : Expr → Prop
  | .sum terms => 2 ≤ terms.length ∧ ∀ inner, terms.head? ≠ some (.sum inner)
  | .product factors => 2 ≤ factors.length ∧ ∀ inner, factors.head? ≠ some (.product inner)
  | .call f args =>
    f = "sub" ∧ args.length = 2 ∨
      f = "limit" ∧ (args.length = 2 ∨ args.length = 3) ∨
        f ∈ functionNames ∧ f ≠ "limit" ∧ args.length = 1
  | _ => True

theorem callable_iff {f : String} {count : Nat} :
    Callable f count ↔
      f = "sub" ∧ count = 2 ∨ f = "limit" ∧ (count = 2 ∨ count = 3) ∨
        f ∈ functionNames ∧ f ≠ "limit" ∧ count = 1 := by
  have hlimit : "limit" ∈ functionNames := by decide
  unfold Callable takesArgs
  by_cases hf : f = "limit"
  · subst hf
    simp [hlimit]
  · simp [hf]

section

variable {e t : Expr} {first : Expr} {rest : List Expr}

theorem formed_cons {kind : List Expr → Expr} :
    2 ≤ (first :: rest).length ∧ (∀ inner, (first :: rest).head? ≠ some (kind inner)) ↔
      rest ≠ [] ∧ ∀ inner, first ≠ kind inner := by
  cases rest <;> simp

theorem Canonical.formed (h : Canonical t) : Formed t := by
  cases h with
  | sum hne hfirst => exact formed_cons.2 ⟨hne, hfirst⟩
  | product hne hfirst => exact formed_cons.2 ⟨hne, hfirst⟩
  | call hf => exact callable_iff.1 hf
  | number | name | quotient | power => trivial

theorem Canonical.child (h : Canonical t) : ∀ c ∈ t.children, Canonical c := by
  cases h with
  | number | name =>
    intro c hc
    cases hc
  | sum _ _ hs | product _ _ hs | call _ hs => exact hs
  | quotient ha hb | power ha hb => exact ha.pair hb

/-- A tree has the shape when its node is formed and the trees below have the shape. -/
theorem canonical_of_children (hnode : Formed t) (h : ∀ c ∈ t.children, Canonical c) :
    Canonical t := by
  cases t with
  | number v => exact .number v
  | «variable» name => exact .name name
  | sum terms =>
    cases terms with
    | nil => exact absurd hnode.1 (by decide)
    | cons first rest =>
      have hcons := formed_cons.1 hnode
      exact .sum hcons.1 hcons.2 h
  | product factors =>
    cases factors with
    | nil => exact absurd hnode.1 (by decide)
    | cons first rest =>
      have hcons := formed_cons.1 hnode
      exact .product hcons.1 hcons.2 h
  | quotient a b => exact .quotient (h a List.mem_cons_self) (h b (by simp [Expr.children]))
  | power a b => exact .power (h a List.mem_cons_self) (h b (by simp [Expr.children]))
  | call f args => exact .call (callable_iff.2 hnode) h

theorem Canonical.part (hpart : Part e t) (h : Canonical t) : Canonical e := by
  induction hpart with
  | whole => exact h
  | within hc _ ih => exact ih (h.child _ hc)

/-- **The shape of a tree is that of its nodes.** -/
theorem canonical_iff : Canonical t ↔ ∀ e, Part e t → Formed e := by
  constructor
  · exact fun h e hpart => (h.part hpart).formed
  · intro h
    induction t using Expr.induction_children with
    | step t ih =>
      refine canonical_of_children (h t .whole) fun c hc => ih c hc fun e hpart => ?_
      exact h e (.within hc hpart)

end

/-! ## Parsed trees -/

/-- **Every node of a parsed tree is formed**, the tree is no taller than allowed, and its leaves,
from left to right, are the numbers and names among the tokens.  The tokens need not be a sentence:
nothing is asked of them but that the functions among them exist. -/
theorem formed_of_parseTokens {ls : List Lexeme} {t : Expr}
    (hls : ∀ l ∈ ls, ∀ f, l.token = .function f → f ∈ functionNames)
    (h : parseTokens ls = .ok t) :
    t.height ≤ maxHeight ∧ (∀ e, Part e t → Formed e) ∧
      yield t = (ls.map (·.token)).filter Token.isLeaf := by
  obtain ⟨hsound, hyield⟩ := shape_of_parseTokens hls h
  exact ⟨hsound.height, canonical_iff.1 hsound.shape, hyield⟩

/-- Values without a comma between them, in a call whose last factor is signed, and a comma that
nothing follows. -/
theorem formed_of_parseTokens_scattered :
    let ls : List Lexeme := [⟨.function "limit", 0⟩, ⟨.openParen, 5⟩, ⟨.name "x", 6⟩,
      ⟨.number 2, 8⟩, ⟨.operator .mul, 9⟩, ⟨.operator .sub, 10⟩, ⟨.name "pi", 11⟩,
      ⟨.operator .mul, 12⟩, ⟨.number 2, 13⟩, ⟨.closeParen, 14⟩, ⟨.comma, 15⟩]
    let t : Expr := .call "limit" [.variable "x",
      .product [.number 2, .call "neg" [.variable "pi"], .number 2]]
    (∀ l ∈ ls, ∀ f, l.token = .function f → f ∈ functionNames) ∧ parseTokens ls = .ok t ∧
      t.height ≤ maxHeight ∧ (∀ e, Part e t → Formed e) ∧
      yield t = [.name "x", .number 2, .name "pi", .number 2] := by
  intro ls t
  have hls : ∀ l ∈ ls, ∀ f, l.token = .function f → f ∈ functionNames := by
    simp [ls, functionNames]
  have hparse : parseTokens ls = .ok t := by decide +kernel
  exact ⟨hls, hparse, formed_of_parseTokens hls hparse⟩

end GlyphMath.Formula
