import GlyphMath.Expr.Document
import GlyphMath.Expr.Eval
import GlyphMath.Folder
import GlyphMath.Table.Case

/-!
# Running the cases of a table

* `CaseError` -- why the tree of a case has no value.
* `Finding` -- what running a case has shown.
* `ValueCase.run`, `ErrorCase.run` -- the finding of a case, given the content of its file.
* `Verdict` -- a finding with its case.
* `Summary` -- how many cases passed and how many did not.
-/

set_option autoImplicit false

namespace GlyphMath.Table

/-- Why the tree of a case has no value. -/
inductive CaseError where
  | unreadable (path : String) (error : ReadError)
  | document (error : JsonError)
  | evaluation (error : EvalError)
deriving DecidableEq, Repr

def CaseError.message : CaseError → String
  | .unreadable path e => "cannot read " ++ path ++ ": " ++ e.message
  | .document e => e.message
  | .evaluation e => e.message

/-- The value at `x` of the tree in a file with the given content. -/
def evaluateFile (path : String) (content : Except ReadError String) (x : Float) :
    Except CaseError Float :=
  match content with
  | .error e => .error (.unreadable path e)
  | .ok text =>
    match Expr.ofJson text with
    | .error e => .error (.document e)
    | .ok tree =>
      match tree.eval (Bindings.empty.set 'x' x) with
      | .error e => .error (.evaluation e)
      | .ok v => .ok v

/-- What running a case has shown. -/
inductive Finding where
  | within (x actual expected tolerance : Float)
  | outside (x actual expected tolerance difference : Float)
  | failed (error : CaseError)
  | rightError (x : Float) (expected : String)
  | wrongError (x : Float) (expected found : String)
  | noError (x : Float) (expected : String) (actual : Float)
deriving DecidableEq, Repr

/-- How a case ended. -/
inductive Status where
  | ok
  | ng
  | err
deriving DecidableEq, Repr

def Status.tag : Status → String
  | ok => "OK"
  | ng => "NG"
  | err => "ERR"

namespace Finding

def status : Finding → Status
  | .within _ _ _ _ => .ok
  | .outside _ _ _ _ _ => .ng
  | .failed _ => .err
  | .rightError _ _ => .ok
  | .wrongError _ _ _ => .ng
  | .noError _ _ _ => .ng

/-- How many places results are reported with. -/
def places : Nat := 15

/-- A result and what it was compared with. -/
def comparison (x actual expected tolerance : Float) : String :=
  "x=" ++ Decimal.plainText x ++ " actual=" ++ Decimal.fixedText places actual ++ " expected=" ++
    Decimal.fixedText places expected ++ " tol=" ++ Decimal.plainText tolerance

/-- The wording of a finding. -/
def detail : Finding → String
  | .within x actual expected tolerance => comparison x actual expected tolerance
  | .outside x actual expected tolerance difference =>
    comparison x actual expected tolerance ++ " diff=" ++ Decimal.plainText difference
  | .failed e => ": " ++ e.message
  | .rightError x expected =>
    "x=" ++ Decimal.plainText x ++ " : got expected error '" ++ expected ++ "'"
  | .wrongError x expected found =>
    "x=" ++ Decimal.plainText x ++ " : expected error '" ++ expected ++ "' but got '" ++ found ++
      "'"
  | .noError x expected actual =>
    "x=" ++ Decimal.plainText x ++ " : expected error '" ++ expected ++ "' but got result=" ++
      Decimal.fixedText places actual

end Finding

/-- Whether a text occurs in another one. -/
def occursIn (part : List Char) : List Char → Bool
  | [] => part.isEmpty
  | c :: rest => part.isPrefixOf (c :: rest) || occursIn part rest

/-- The finding of a value case whose file has the given content. -/
def ValueCase.run (c : ValueCase) (content : Except ReadError String) : Finding :=
  match evaluateFile c.file content c.x with
  | .error e => .failed e
  | .ok actual =>
    let difference := (actual - c.expected).abs
    if difference ≤ c.tolerance then .within c.x actual c.expected c.tolerance
    else .outside c.x actual c.expected c.tolerance difference

/-- The finding of an error case whose file has the given content. -/
def ErrorCase.run (c : ErrorCase) (content : Except ReadError String) : Finding :=
  match evaluateFile c.file content c.x with
  | .ok actual => .noError c.x c.expected actual
  | .error e =>
    if occursIn c.expected.toList e.message.toList then .rightError c.x c.expected
    else .wrongError c.x c.expected e.message

/-! ## Verdicts -/

/-- A finding with the line and the file of its case. -/
structure Verdict where
  line : Nat
  file : String
  finding : Finding
deriving DecidableEq, Repr

namespace Verdict

def passed (v : Verdict) : Bool := v.finding.status == .ok

/-- The report of a case. -/
def toText (v : Verdict) : String :=
  "[" ++ v.finding.status.tag ++ "] line=" ++ toString v.line ++ " file=" ++ v.file ++ " " ++
    v.finding.detail

end Verdict

/-- The verdict of a value case whose file has the given content. -/
def ValueCase.verdict (c : ValueCase) (content : Except ReadError String) : Verdict :=
  ⟨c.line, c.file, c.run content⟩

/-- The verdict of an error case whose file has the given content. -/
def ErrorCase.verdict (c : ErrorCase) (content : Except ReadError String) : Verdict :=
  ⟨c.line, c.file, c.run content⟩

/-- How many cases passed and how many did not. -/
structure Summary where
  ok : Nat
  ng : Nat
deriving DecidableEq, Repr

namespace Summary

/-- The summary of verdicts. -/
def ofVerdicts (verdicts : List Verdict) : Summary :=
  ⟨verdicts.countP Verdict.passed, verdicts.countP fun v => !v.passed⟩

def total (s : Summary) : Nat := s.ok + s.ng

def allPassed (s : Summary) : Bool := s.ng == 0

/-- The report of a summary. -/
def toText (s : Summary) : String :=
  "RESULT: ok=" ++ toString s.ok ++ " ng=" ++ toString s.ng ++ " total=" ++ toString s.total

end Summary

end GlyphMath.Table
