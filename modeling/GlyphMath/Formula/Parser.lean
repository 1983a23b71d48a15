import GlyphMath.Expr.Basic
import GlyphMath.Formula.Lexer

/-!
# Parsing infix text

The parser keeps a stack of operators and open brackets, a stack of calls whose arguments are
being read, and a stack of finished operands.  Every operator and bracket remembers how many
operands stood below it, so that it takes no operand of an enclosing bracket.

* `Entry`, `CallFrame`, `Operand`, `State` -- the stacks.
* `reduce` -- applies one operator to the topmost operands.
* `applyCall` -- applies a function to the operands of its brackets.
* `step` -- takes one token.
* `parseTokens`, `parse` -- the tree of a list of tokens and of a text.

Powers bind tightest and to the right, products and quotients next, sums and differences last; a
negation binds tighter than them all.  A sum that is extended by a further term stays one node, and
so does a product.  No tree is taller than `maxHeight`.
-/

set_option autoImplicit false

namespace GlyphMath.Formula

/-- The greatest height of a tree that is built. -/
def maxHeight : Nat := 256

/-- Why a list of tokens has no tree. -/
inductive ParseError where
  | lex (error : LexError)
  | unmatchedClose (offset : Nat)
  | unmatchedOpen (offset : Nat)
  | missingOperand (operator : Char) (offset : Nat)
  | leftoverOperands (count : Nat)
  | empty
  | emptyGroup (offset : Nat)
  | unexpectedComma (offset : Nat)
  | misplacedFunction (name : String) (offset : Nat)
  | arity (name expected : String) (found : Nat)
  | tooDeep (offset limit : Nat)
deriving DecidableEq, Repr

def ParseError.message : ParseError → String
  | .lex e => e.message
  | .unmatchedClose offset => "mismatched ')' at " ++ toString offset
  | .unmatchedOpen offset => "mismatched '(' at " ++ toString offset
  | .missingOperand operator offset =>
    "operator '" ++ operator.toString ++ "' at " ++ toString offset ++ " is missing an operand"
  | .leftoverOperands count =>
    "bad expression, " ++ toString count ++ " values remain after parsing"
  | .empty => "empty expression"
  | .emptyGroup offset => "empty parentheses at " ++ toString offset
  | .unexpectedComma offset => "unexpected ',' at " ++ toString offset
  | .misplacedFunction name offset =>
    "function '" ++ name ++ "' at " ++ toString offset ++ " must be followed by '('"
  | .arity name expected found =>
    "wrong argument count for " ++ name ++ ": expected " ++ expected ++ ", found " ++
      toString found
  | .tooDeep offset limit =>
    "expression at " ++ toString offset ++ " nests deeper than " ++ toString limit ++ " levels"

/-! ## The stacks -/

/-- An operator or an open bracket that waits for its operands.  `base` is the number of operands
below it. -/
inductive Entry where
  | binary (op : Operator) (offset base : Nat)
  | negate (offset base : Nat)
  | paren (offset base : Nat) (isCall : Bool)
deriving DecidableEq, Repr

/-- A function whose arguments are being read. -/
structure CallFrame where
  name : String
  offset : Nat
  base : Nat
deriving DecidableEq, Repr

/-- A finished tree and its height. -/
structure Operand where
  expr : Expr
  height : Nat
deriving DecidableEq, Repr

/-- A number or a name as an operand. -/
def Operand.leaf (expr : Expr) : Operand := ⟨expr, 1⟩

/-- A tree whose tallest child has the given height, refused where it would be too tall. -/
def Operand.node (expr : Expr) (childHeight offset : Nat) : Except ParseError Operand :=
  if maxHeight < childHeight + 1 then .error (.tooDeep offset maxHeight)
  else .ok ⟨expr, childHeight + 1⟩

/-- The stacks, the topmost entry of each first; a function name that waits for its bracket; and
the token before. -/
structure State where
  entries : List Entry
  frames : List CallFrame
  operands : List Operand
  pending : Option (String × Nat)
  previous : Option Token
deriving DecidableEq, Repr

def State.start : State := ⟨[], [], [], none, none⟩

/-! ## Applying operators and functions -/

/-- The tree of a binary operator and the height of its tallest child.  A further term of a sum,
or factor of a product, joins the terms that are there. -/
def joined (op : Operator) (lhs rhs : Operand) : Expr × Nat :=
  match op, lhs.expr with
  | .add, .sum terms => (.sum (terms ++ [rhs.expr]), max (lhs.height - 1) rhs.height)
  | .add, l => (.sum [l, rhs.expr], max lhs.height rhs.height)
  | .mul, .product factors => (.product (factors ++ [rhs.expr]), max (lhs.height - 1) rhs.height)
  | .mul, l => (.product [l, rhs.expr], max lhs.height rhs.height)
  | .sub, l => (.call "sub" [l, rhs.expr], max lhs.height rhs.height)
  | .div, l => (.quotient l rhs.expr, max lhs.height rhs.height)
  | .pow, l => (.power l rhs.expr, max lhs.height rhs.height)

/-- Applies an operator to the topmost operands. -/
def reduce (entry : Entry) (operands : List Operand) : Except ParseError (List Operand) :=
  match entry with
  | .paren offset _ _ => .error (.unmatchedOpen offset)
  | .negate offset base =>
    if operands.length ≤ base then .error (.missingOperand '-' offset)
    else
      match operands with
      | only :: rest =>
        match Operand.node (.call "neg" [only.expr]) only.height offset with
        | .error e => .error e
        | .ok operand => .ok (operand :: rest)
      | [] => .error (.missingOperand '-' offset)
  | .binary op offset base =>
    if operands.length ≤ base then .error (.missingOperand op.symbol offset)
    else
      match operands with
      | rhs :: lhs :: rest =>
        match Operand.node (joined op lhs rhs).1 (joined op lhs rhs).2 offset with
        | .error e => .error e
        | .ok operand => .ok (operand :: rest)
      | _ => .error (.missingOperand op.symbol offset)

/-- Applies the operators down to the innermost open bracket. -/
def reduceGroup : List Entry → List Operand → Except ParseError (List Entry × List Operand)
  | [], operands => .ok ([], operands)
  | .paren offset base isCall :: entries, operands =>
    .ok (.paren offset base isCall :: entries, operands)
  | entry :: entries, operands =>
    match reduce entry operands with
    | .error e => .error e
    | .ok operands => reduceGroup entries operands

/-- Whether a waiting entry is applied before the operator that comes next is taken. -/
def Entry.yieldsTo (entry : Entry) (op : Operator) : Bool :=
  match entry with
  | .paren _ _ _ => false
  | .negate _ _ => true
  | .binary waiting _ _ => waiting.yieldsTo op

/-- Applies the operators that bind at least as tight as the one that comes next. -/
def reduceFor (op : Operator) :
    List Entry → List Operand → Except ParseError (List Entry × List Operand)
  | [], operands => .ok ([], operands)
  | entry :: entries, operands =>
    if entry.yieldsTo op then
      match reduce entry operands with
      | .error e => .error e
      | .ok operands => reduceFor op entries operands
    else .ok (entry :: entries, operands)

/-- How many arguments a function takes, in words. -/
def expectedArgs (name : String) : String := if name = "limit" then "2 or 3" else "1"

/-- Whether a function takes that many arguments. -/
def takesArgs (name : String) (count : Nat) : Bool :=
  if name = "limit" then count == 2 || count == 3 else count == 1

/-- The height of the tallest operand. -/
def tallestOperand (operands : List Operand) : Nat :=
  operands.foldr (fun operand tallest => max operand.height tallest) 0

/-- Applies a function to the operands above its base. -/
def applyCall (frame : CallFrame) (operands : List Operand) : Except ParseError (List Operand) :=
  let found := operands.length - frame.base
  if takesArgs frame.name found then
    let args := (operands.take found).reverse
    match Operand.node (.call frame.name (args.map (·.expr))) (tallestOperand args)
        frame.offset with
    | .error e => .error e
    | .ok operand => .ok (operand :: operands.drop found)
  else .error (.arity frame.name (expectedArgs frame.name) found)

/-! ## Taking tokens -/

/-- Whether a value may end with a token. -/
def Token.endsValue : Token → Bool
  | .number _ => true
  | .name _ => true
  | .closeParen => true
  | _ => false

/-- Whether the token before ends a value. -/
def State.afterValue (s : State) : Bool :=
  match s.previous with
  | some token => token.endsValue
  | none => false

/-- Takes a closing bracket. -/
def closeGroup (s : State) (offset : Nat) : Except ParseError State :=
  if s.previous = some .comma then .error (.unexpectedComma (offset - 1))
  else
    match reduceGroup s.entries s.operands with
    | .error e => .error e
    | .ok (.paren _ _ true :: entries, operands) =>
      match s.frames with
      | [] => .error (.unmatchedClose offset)
      | frame :: frames =>
        match applyCall frame operands with
        | .error e => .error e
        | .ok operands => .ok ⟨entries, frames, operands, none, some .closeParen⟩
    | .ok (.paren opened base false :: entries, operands) =>
      match operands.length - base with
      | 0 => .error (.emptyGroup opened)
      | 1 => .ok ⟨entries, s.frames, operands, none, some .closeParen⟩
      | count => .error (.leftoverOperands count)
    | .ok _ => .error (.unmatchedClose offset)

/-- Takes a token with no function name waiting. -/
def takeToken (s : State) (token : Token) (offset : Nat) : Except ParseError State :=
  let base := s.operands.length
  match token with
  | .number v =>
    .ok { s with operands := .leaf (.number v) :: s.operands, previous := some token }
  | .name text =>
    .ok { s with operands := .leaf (.variable text) :: s.operands, previous := some token }
  | .function text => .ok { s with pending := some (text, offset), previous := some token }
  | .openParen =>
    .ok { s with entries := .paren offset base false :: s.entries, previous := some token }
  | .comma =>
    if s.afterValue then
      match reduceGroup s.entries s.operands with
      | .error e => .error e
      | .ok (entries, operands) =>
        .ok { s with entries := entries, operands := operands, previous := some token }
    else .error (.unexpectedComma offset)
  | .closeParen => closeGroup s offset
  | .operator op =>
    if s.afterValue then
      match reduceFor op s.entries s.operands with
      | .error e => .error e
      | .ok (entries, operands) =>
        .ok { s with
          entries := .binary op offset operands.length :: entries
          operands := operands
          previous := some token }
    else if op = .sub then
      .ok { s with entries := .negate offset base :: s.entries, previous := some token }
    else .error (.missingOperand op.symbol offset)

/-- Takes one token.  A function name must be followed by an opening bracket. -/
def step (s : State) (l : Lexeme) : Except ParseError State :=
  match s.pending with
  | none => takeToken s l.token l.offset
  | some (name, offset) =>
    if l.token = .openParen then
      .ok {
        entries := .paren l.offset s.operands.length true :: s.entries
        frames := ⟨name, offset, s.operands.length⟩ :: s.frames
        operands := s.operands
        pending := none
        previous := some l.token }
    else .error (.misplacedFunction name offset)

/-- Takes tokens up to the first that is refused. -/
def steps (s : State) : List Lexeme → Except ParseError State
  | [] => .ok s
  | l :: ls =>
    match step s l with
    | .error e => .error e
    | .ok s => steps s ls

/-- Applies the operators that are left.  An open bracket is an error. -/
def reduceAll : List Entry → List Operand → Except ParseError (List Operand)
  | [], operands => .ok operands
  | entry :: entries, operands =>
    match reduce entry operands with
    | .error e => .error e
    | .ok operands => reduceAll entries operands

/-- The tree after the last token. -/
def finish (s : State) : Except ParseError Expr :=
  match s.pending with
  | some (name, offset) => .error (.misplacedFunction name offset)
  | none =>
    match reduceAll s.entries s.operands with
    | .error e => .error e
    | .ok [] => .error .empty
    | .ok [operand] => .ok operand.expr
    | .ok operands => .error (.leftoverOperands operands.length)

/-- The tree of a list of tokens. -/
def parseTokens (lexemes : List Lexeme) : Except ParseError Expr :=
  match steps State.start lexemes with
  | .error e => .error e
  | .ok s => finish s

/-- The tree of a text. -/
def parse (text : String) : Except ParseError Expr :=
  match tokenize text with
  | .error e => .error (.lex e)
  | .ok lexemes => parseTokens lexemes

end GlyphMath.Formula
