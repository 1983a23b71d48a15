/-!
# Expression trees

* `Expr` -- a real-valued expression: numbers, names, sums and products of any length, quotients,
  powers and calls.
* `Expr.height` -- the levels of a tree; a number or a name has one.
* `constant?` -- the values of the names `pi` and `e`.
* `bindableLetter?` -- the letter of a name that is looked up in bindings.
* `Expr.variableNames` -- the bindable letters that a tree names, in alphabetical order.

Trees have decidable equality, doubles in them compared bit by bit.
-/

set_option autoImplicit false

namespace GlyphMath

/-- A real-valued expression. -/
inductive Expr where
  | number (value : Float)
  | variable (name : String)
  | sum (terms : List Expr)
  | product (factors : List Expr)
  | quotient (numerator denominator : Expr)
  | power (base exponent : Expr)
  | call (name : String) (args : List Expr)
deriving Repr, Inhabited

namespace Expr

/-! ## Equality -/

mutual

def same : Expr → Expr → Bool
  | .number a, .number b => a = b
  | .variable m, .variable n => m = n
  | .sum as, .sum bs => sameList as bs
  | .product as, .product bs => sameList as bs
  | .quotient a b, .quotient c d => same a c && same b d
  | .power a b, .power c d => same a c && same b d
  | .call f as, .call g bs => f = g && sameList as bs
  | _, _ => false

def sameList : List Expr → List Expr → Bool
  | [], [] => true
  | a :: as, b :: bs => same a b && sameList as bs
  | _, _ => false

end

mutual

theorem eq_of_same {a b : Expr} (h : same a b = true) : a = b := by
  match a, b with
  | .number a, .number b =>
    have h : decide (a = b) = true := by simpa only [same] using h
    rw [of_decide_eq_true h]
  | .variable m, .variable n =>
    have h : decide (m = n) = true := by simpa only [same] using h
    rw [of_decide_eq_true h]
  | .sum as, .sum bs =>
    have h : sameList as bs = true := by simpa [same] using h
    rw [eq_of_sameList h]
  | .product as, .product bs =>
    have h : sameList as bs = true := by simpa [same] using h
    rw [eq_of_sameList h]
  | .quotient a b, .quotient c d =>
    have h := Bool.and_eq_true_iff.1 (by simpa [same] using h : (same a c && same b d) = true)
    rw [eq_of_same h.1, eq_of_same h.2]
  | .power a b, .power c d =>
    have h := Bool.and_eq_true_iff.1 (by simpa [same] using h : (same a c && same b d) = true)
    rw [eq_of_same h.1, eq_of_same h.2]
  | .call f as, .call g bs =>
    have h := Bool.and_eq_true_iff.1
      (by simpa [same] using h : (decide (f = g) && sameList as bs) = true)
    rw [of_decide_eq_true h.1, eq_of_sameList h.2]

theorem eq_of_sameList {as bs : List Expr} (h : sameList as bs = true) : as = bs := by
  match as, bs with
  | [], [] => rfl
  | a :: as, b :: bs =>
    have h := Bool.and_eq_true_iff.1
      (by simpa [sameList] using h : (same a b && sameList as bs) = true)
    rw [eq_of_same h.1, eq_of_sameList h.2]

end

mutual

theorem same_self (a : Expr) : same a a = true := by
  match a with
  | .number _ => simp [same]
  | .variable _ => simp [same]
  | .sum as => simp [same, sameList_self as]
  | .product as => simp [same, sameList_self as]
  | .quotient a b => simp [same, same_self a, same_self b]
  | .power a b => simp [same, same_self a, same_self b]
  | .call _ as => simp [same, sameList_self as]

theorem sameList_self (as : List Expr) : sameList as as = true := by
  match as with
  | [] => simp [sameList]
  | a :: as => simp [sameList, same_self a, sameList_self as]

end

instance : DecidableEq Expr := fun a b =>
  if h : same a b = true then .isTrue (eq_of_same h)
  else .isFalse fun heq => h (heq ▸ same_self a)

/-! ## Measures -/

mutual

def height : Expr → Nat
  | .number _ => 1
  | .variable _ => 1
  | .sum terms => tallest terms + 1
  | .product factors => tallest factors + 1
  | .quotient a b => max (height a) (height b) + 1
  | .power a b => max (height a) (height b) + 1
  | .call _ args => tallest args + 1

/-- The height of the tallest tree of a list. -/
def tallest : List Expr → Nat
  | [] => 0
  | e :: es => max (height e) (tallest es)

end

/-! ## Names -/

/-- The names that stand for a number of their own. -/
def constant? (name : String) : Option Float :=
  if name = "pi" then some 3.141592653589793
  else if name = "e" then some 2.718281828459045
  else none

/-- The letters that a binding can be read for: the lower-case ones but for `e`. -/
def alphabet : List Char :=
  ['a', 'b', 'c', 'd', 'f', 'g', 'h', 'i', 'j', 'k', 'l', 'm', 'n', 'o', 'p', 'q', 'r', 's', 't',
    'u', 'v', 'w', 'x', 'y', 'z']

/-- The letter that a name is looked up under: the name is that letter alone. -/
def bindableLetter? (name : String) : Option Char :=
  match name.toList with
  | [c] => if c ∈ alphabet then some c else none
  | _ => none

/-- Whether a name is the bindable letter. -/
def isLetter (c : Char) (name : String) : Bool := bindableLetter? name == some c

mutual

/-- Whether a tree names a bindable letter. -/
def names (c : Char) : Expr → Bool
  | .number _ => false
  | .variable name => isLetter c name
  | .sum terms => namesAny c terms
  | .product factors => namesAny c factors
  | .quotient a b => names c a || names c b
  | .power a b => names c a || names c b
  | .call _ args => namesAny c args

/-- Whether some tree of a list names a bindable letter. -/
def namesAny (c : Char) : List Expr → Bool
  | [] => false
  | e :: es => names c e || namesAny c es

end

/-- The bindable letters that a tree names, in alphabetical order. -/
def variableNames (e : Expr) : List Char := alphabet.filter fun c => names c e

end Expr

end GlyphMath
