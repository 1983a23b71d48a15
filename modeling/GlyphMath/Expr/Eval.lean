import GlyphMath.Decimal.Binary
import GlyphMath.Expr.Bindings

/-!
# Values of expressions

* `EvalError` -- why an expression has no value.
* `Function` -- the functions that a call can name.
* `limitPoint` -- where the body of a limit is evaluated.
* `Expr.eval` -- the value of an expression under bindings.
* `Expr.evalOver` -- its values as one letter runs through a list.

A limit is no symbolic limit: its body is evaluated once, at a point near the target.  A derivative
is always zero.  A division by either zero is an error, and no other operation is.
-/

set_option autoImplicit false

namespace GlyphMath

/-- Why an expression has no value. -/
inductive EvalError where
  | unknownSymbol (name : String)
  | unknownFunction (name : String)
  | divisionByZero
  | arity (name : String) (found : Nat)
  | limitVariable
deriving DecidableEq, Repr

def EvalError.message : EvalError → String
  | .unknownSymbol name => "unknown symbol: " ++ name
  | .unknownFunction name => "unknown function: " ++ name
  | .divisionByZero => "division by zero"
  | .arity name found =>
    "wrong argument count for " ++ name ++ ": found " ++ toString found
  | .limitVariable => "limit variable must be a single lowercase letter"

/-! ## Functions -/

/-- A function of one number. -/
inductive Unary where
  | sqrt
  | sin
  | cos
  | tan
  | sec
  | csc
  | cot
  | log
  | exp
  | abs
  | neg
deriving DecidableEq, Repr

def Unary.apply (u : Unary) (x : Float) : Float :=
  match u with
  | .sqrt => x.sqrt
  | .sin => x.sin
  | .cos => x.cos
  | .tan => x.tan
  | .sec => 1.0 / x.cos
  | .csc => 1.0 / x.sin
  | .cot => 1.0 / x.tan
  | .log => x.log
  | .exp => x.exp
  | .abs => x.abs
  | .neg => -x

/-- A function that a call can name. -/
inductive Function where
  | unary (u : Unary)
  | sub
  | diff
  | limit
deriving DecidableEq, Repr

/-- The function of a name.  The logarithm has two names and is the natural one. -/
def Function.ofName? (name : String) : Option Function :=
  match name with
  | "sqrt" => some (.unary .sqrt)
  | "sin" => some (.unary .sin)
  | "cos" => some (.unary .cos)
  | "tan" => some (.unary .tan)
  | "sec" => some (.unary .sec)
  | "csc" => some (.unary .csc)
  | "cot" => some (.unary .cot)
  | "ln" => some (.unary .log)
  | "log" => some (.unary .log)
  | "exp" => some (.unary .exp)
  | "abs" => some (.unary .abs)
  | "neg" => some (.unary .neg)
  | "sub" => some .sub
  | "diff" => some .diff
  | "limit" => some .limit
  | _ => none

/-! ## Limits -/

/-- Stands for an infinite target. -/
def limitFar : Float := 1e10

/-- Stands for a target at zero, and bounds what counts as zero. -/
def limitNear : Float := 1e-10

/-- A magnitude with the sign of another double. -/
def withSignOf (magnitude x : Float) : Float :=
  if Decimal.isSignSet x then -magnitude else magnitude

/-- Where the body of a limit is evaluated for a target. -/
def limitPoint (target : Float) : Float :=
  if target.isInf then withSignOf limitFar target
  else if target.abs < limitNear then withSignOf limitNear target
  else target

/-! ## Evaluation -/

namespace Expr

def valueOf (b : Bindings) (name : String) : Except EvalError Float :=
  match constant? name with
  | some v => .ok v
  | none =>
    match bindableLetter? name with
    | some c => .ok (b.get c)
    | none => .error (.unknownSymbol name)

mutual

/-- The value of an expression.  Operands are evaluated left to right, and the first error is the
result. -/
def eval (b : Bindings) : Expr → Except EvalError Float
  | .number v => .ok v
  | .variable name => valueOf b name
  | .sum terms => addAll b 0.0 terms
  | .product factors => multiplyAll b 1.0 factors
  | .quotient n d =>
    match eval b n with
    | .error e => .error e
    | .ok x =>
      match eval b d with
      | .error e => .error e
      | .ok y => if y == 0.0 then .error .divisionByZero else .ok (x / y)
  | .power base exponent =>
    match eval b base with
    | .error e => .error e
    | .ok x =>
      match eval b exponent with
      | .error e => .error e
      | .ok y => .ok (x.pow y)
  | .call name args =>
    match Function.ofName? name with
    | none => .error (.unknownFunction name)
    | some f => apply b name f args

/-- Adds the values of the terms to `total`, from the left. -/
def addAll (b : Bindings) (total : Float) : List Expr → Except EvalError Float
  | [] => .ok total
  | e :: es =>
    match eval b e with
    | .error err => .error err
    | .ok v => addAll b (total + v) es

/-- Multiplies `total` by the values of the factors, from the left. -/
def multiplyAll (b : Bindings) (total : Float) : List Expr → Except EvalError Float
  | [] => .ok total
  | e :: es =>
    match eval b e with
    | .error err => .error err
    | .ok v => multiplyAll b (total * v) es

/-- The value of a call.  A limit of two arguments binds `x`, one of three binds the letter that
its first argument names; the target is evaluated outside that binding. -/
def apply (b : Bindings) (name : String) : Function → List Expr → Except EvalError Float
  | .unary u, [a] =>
    match eval b a with
    | .error e => .error e
    | .ok x => .ok (u.apply x)
  | .sub, [l, r] =>
    match eval b l with
    | .error e => .error e
    | .ok x =>
      match eval b r with
      | .error e => .error e
      | .ok y => .ok (x - y)
  | .diff, [_] => .ok 0.0
  | .limit, [target, body] =>
    match eval b target with
    | .error e => .error e
    | .ok t => eval (b.set 'x' (limitPoint t)) body
  | .limit, [.variable letter, target, body] =>
    match bindableLetter? letter with
    | none => .error .limitVariable
    | some c =>
      match eval b target with
      | .error e => .error e
      | .ok t => eval (b.set c (limitPoint t)) body
  | .limit, [_, _, _] => .error .limitVariable
  | _, args => .error (.arity name args.length)

end

/-- The values of an expression as a letter takes the values of a list, other letters keeping
theirs. -/
def evalOver (e : Expr) (c : Char) (values : List Float) (b : Bindings) :
    List (Except EvalError Float) :=
  values.map fun v => e.eval (b.set c v)

end Expr

end GlyphMath
