import GlyphMath.Formula.Parser

/-!
# The grammar of infix text

* `Level` -- the five kinds of phrases, from sums down to atoms.
* `Operator.level`, `Operator.lhsLevel`, `Operator.rhsLevel` -- the kind of phrase that an operator
  makes, and the kinds of its operands.
* `Operator.tree` -- the tree that an operator makes.  A further term of a sum, or factor of a
  product, joins the terms that are there.
* `Derives` -- the phrases of a level with their trees.

In full, with `limit` the only function that takes more than one argument:

    sum     ::= product | sum + product | sum - product
    product ::= power | product * power | product / power
    power   ::= unary | unary ^ power
    unary   ::= atom | - unary
    atom    ::= number | name | ( sum ) | function ( sum )
              | limit ( sum , sum ) | limit ( sum , sum , sum )
-/

set_option autoImplicit false

namespace GlyphMath.Formula

/-- The kinds of phrases, the loosest first. -/
inductive Level where
  | sum
  | product
  | power
  | unary
  | atom
  deriving DecidableEq, Repr

/-- A greater rank binds tighter. -/
def Level.rank : Level → Nat
  | sum => 0
  | product => 1
  | power => 2
  | unary => 3
  | atom => 4

namespace Operator

/-- The kind of phrase that an operator makes. -/
def level : Operator → Level
  | add => .sum
  | sub => .sum
  | mul => .product
  | div => .product
  | pow => .power

def lhsLevel : Operator → Level
  | add => .sum
  | sub => .sum
  | mul => .product
  | div => .product
  | pow => .unary

def rhsLevel : Operator → Level
  | add => .product
  | sub => .product
  | mul => .power
  | div => .power
  | pow => .power

/-- The tree of an operator between two trees. -/
def tree (op : Operator) (a b : Expr) : Expr :=
  match op, a with
  | add, .sum terms => .sum (terms ++ [b])
  | add, a => .sum [a, b]
  | mul, .product factors => .product (factors ++ [b])
  | mul, a => .product [a, b]
  | sub, a => .call "sub" [a, b]
  | div, a => .quotient a b
  | pow, a => .power a b

theorem level_le_lhsLevel (op : Operator) : op.level.rank ≤ op.lhsLevel.rank := by
  cases op <;> decide

theorem level_le_rhsLevel (op : Operator) : op.level.rank ≤ op.rhsLevel.rank := by
  cases op <;> decide

theorem level_lt_unary (op : Operator) : op.level.rank < Level.unary.rank := by
  cases op <;> decide

end Operator

/-- `Derives l ts t`: the tokens `ts` are a phrase of the level `l`, and `t` is its tree. -/
inductive Derives : Level → List Token → Expr → Prop where
  | term {ts : List Token} {t : Expr} : Derives .product ts t → Derives .sum ts t
  | factor {ts : List Token} {t : Expr} : Derives .power ts t → Derives .product ts t
  | base {ts : List Token} {t : Expr} : Derives .unary ts t → Derives .power ts t
  | plain {ts : List Token} {t : Expr} : Derives .atom ts t → Derives .unary ts t
  | binary (op : Operator) {ts us : List Token} {a b : Expr} :
      Derives op.lhsLevel ts a → Derives op.rhsLevel us b →
      Derives op.level (ts ++ .operator op :: us) (op.tree a b)
  | negate {ts : List Token} {t : Expr} :
      Derives .unary ts t → Derives .unary (.operator .sub :: ts) (.call "neg" [t])
  | number (v : Float) : Derives .atom [.number v] (.number v)
  | name (text : String) : Derives .atom [.name text] (.variable text)
  | group {ts : List Token} {t : Expr} :
      Derives .sum ts t → Derives .atom (.openParen :: (ts ++ [.closeParen])) t
  | call {f : String} {ts : List Token} {t : Expr} (hf : f ≠ "limit") :
      Derives .sum ts t →
      Derives .atom (.function f :: .openParen :: (ts ++ [.closeParen])) (.call f [t])
  | limitOfTwo {ts us : List Token} {a b : Expr} :
      Derives .sum ts a → Derives .sum us b →
      Derives .atom
        (.function "limit" :: .openParen :: (ts ++ .comma :: (us ++ [.closeParen])))
        (.call "limit" [a, b])
  | limitOfThree {ts us ws : List Token} {a b c : Expr} :
      Derives .sum ts a → Derives .sum us b → Derives .sum ws c →
      Derives .atom
        (.function "limit" :: .openParen ::
          (ts ++ .comma :: (us ++ .comma :: (ws ++ [.closeParen]))))
        (.call "limit" [a, b, c])

/-- A phrase is a phrase of every looser level. -/
theorem Derives.loosen {l l' : Level} {ts : List Token} {t : Expr} (h : Derives l ts t)
    (hle : l'.rank ≤ l.rank) : Derives l' ts t := by
  cases l <;> cases l' <;> first
    | exact h
    | exact absurd hle (by decide)
    | exact h.plain
    | exact h.plain.base
    | exact h.plain.base.factor
    | exact h.plain.base.factor.term
    | exact h.base
    | exact h.base.factor
    | exact h.base.factor.term
    | exact h.factor
    | exact h.factor.term
    | exact h.term

end GlyphMath.Formula
