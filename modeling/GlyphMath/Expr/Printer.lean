import GlyphMath.Decimal.Plain
import GlyphMath.Expr.Basic

/-!
# Expressions as text

* `Expr.print` -- infix text with brackets around every sum, product, quotient, power, negation
  and difference, and with function names in front of bracketed arguments.
* `Expr.toText` -- the same as a string.
-/

set_option autoImplicit false

namespace GlyphMath.Expr

mutual

/-- The text of an expression. -/
def print : Expr → List Char
  | .number v => Decimal.plain v
  | .variable name => name.toList
  | .sum terms => '(' :: printJoined '+' terms
  | .product factors => '(' :: printJoined '*' factors
  | .quotient n d => '(' :: (print n ++ '/' :: (print d ++ [')']))
  | .power base exponent => '(' :: (print base ++ '^' :: (print exponent ++ [')']))
  | .call name args =>
    if name = "neg" ∧ args.length = 1 then '(' :: '-' :: printJoined ',' args
    else if name = "sub" ∧ args.length = 2 then '(' :: printJoined '-' args
    else name.toList ++ '(' :: printJoined ',' args

/-- The texts of expressions with a separator between them and a closing bracket after them. -/
def printJoined (separator : Char) : List Expr → List Char
  | [] => [')']
  | [e] => print e ++ [')']
  | e :: e' :: es => print e ++ separator :: printJoined separator (e' :: es)

end

def toText (e : Expr) : String := String.ofList (print e)

end GlyphMath.Expr
