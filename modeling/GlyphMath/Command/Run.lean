import GlyphMath.Command.Arguments
import GlyphMath.Detection.File
import GlyphMath.Expr.Document
import GlyphMath.Expr.Printer
import GlyphMath.Line.Reading
import GlyphMath.Table.Verdict

/-!
# Commands

* `Command` -- what can be asked for.
* `Command.ofWords?` -- the command of a command line.
* `Failure` -- why a command failed, with what caused it.
* `Outcome` -- an exit code, the printed lines and the error report.
* `Command.run` -- the outcome of a command, given how files are read.
* `runWords` -- the outcome of a command line.  One that is no command has the exit code two.
-/

set_option autoImplicit false

namespace GlyphMath

/-- What can be asked for. -/
inductive Command where
  | linearize (path : String) (x : Option Float) (threshold : Float)
  | eval (text : String) (bindings : List (Char × Float))
  | toJson (text : String)
  | load (path : String) (x : Option Float)
  | tabulate (text : String) (first last : Float) (steps : Nat) (letter : Char)
  | batch (path : String)
  | batchErrors (path : String)
deriving DecidableEq, Repr

namespace Command

/-! ## Command lines -/

/-- An optional number. -/
def optional? (word : String) : Option (Option Float) := (number? word).map some

/-- The command of its name and arguments. -/
def ofName? (name : String) (words : List String) : Option Command :=
  match name with
  | "linearize" =>
    match Arguments.scan ["in", "x", "score-threshold"] words with
    | none => none
    | some a =>
      match a.positionals, a.exactlyOnce "in" path?, a.atMostOnce "x" optional? none,
        a.atMostOnce "score-threshold" number? ({} : Line.Config).scoreThreshold with
      | [], some path, some x, some threshold => some (.linearize path x threshold)
      | _, _, _, _ => none
  | "eval" =>
    match Arguments.scan ["var"] words with
    | none => none
    | some a =>
      match a.only, allValues binding? (a.valuesOf "var") with
      | some text, some bindings => some (.eval text bindings)
      | _, _ => none
  | "to-json" =>
    match Arguments.scan [] words with
    | none => none
    | some a => a.only.map .toJson
  | "load" =>
    match Arguments.scan ["x"] words with
    | none => none
    | some a =>
      match a.only.bind path?, a.atMostOnce "x" optional? none with
      | some path, some x => some (.load path x)
      | _, _ => none
  | "table" =>
    match Arguments.scan ["from", "to", "steps", "var"] words with
    | none => none
    | some a =>
      match a.only, a.exactlyOnce "from" number?, a.exactlyOnce "to" number?,
        a.atMostOnce "steps" count? 10, a.atMostOnce "var" letter? 'x' with
      | some text, some first, some last, some steps, some letter =>
        some (.tabulate text first last steps letter)
      | _, _, _, _, _ => none
  | "batch" =>
    match Arguments.scan [] words with
    | none => none
    | some a => (a.only.bind path?).map .batch
  | "batch-errors" =>
    match Arguments.scan [] words with
    | none => none
    | some a => (a.only.bind path?).map .batchErrors
  | _ => none

/-- The command of a command line. -/
def ofWords? : List String → Option Command
  | [] => none
  | name :: words => ofName? name words

end Command

/-! ## Outcomes -/

/-- Why a command failed, and what caused it, the nearest cause first. -/
structure Failure where
  message : String
  causes : List String
deriving DecidableEq, Repr

namespace Failure

/-- A text with its lines after the first one indented. -/
def indentLines (indent : List Char) : List Char → List Char
  | [] => []
  | c :: rest =>
    if c == '\n' then '\n' :: (indent ++ indentLines indent rest)
    else c :: indentLines indent rest

/-- A cause on lines of its own, after what stands in front of it. -/
def causeText (lead indent cause : String) : String :=
  "\n" ++ lead ++ String.ofList (indentLines indent.toList cause.toList)

def numberedCauses (number : Nat) : List String → String
  | [] => ""
  | cause :: causes =>
    causeText ("    " ++ toString number ++ ": ") "       " cause ++
      numberedCauses (number + 1) causes

/-- The causes, numbered where there is more than one. -/
def causesText : List String → String
  | [] => ""
  | [cause] => "\n\nCaused by:" ++ causeText "    " "    " cause
  | causes => "\n\nCaused by:" ++ numberedCauses 0 causes

/-- The report of a failure. -/
def toText (f : Failure) : String := "Error: " ++ f.message ++ causesText f.causes

end Failure

/-- An exit code, the printed texts, each ended by a line end, and the error report. -/
structure Outcome where
  code : Nat
  printed : List String
  report : Option String
deriving DecidableEq, Repr

namespace Outcome

/-- A command that went well. -/
def success (printed : List String) : Outcome := ⟨0, printed, none⟩

/-- A command that failed after it had printed something. -/
def failure (printed : List String) (message : String) (causes : List String) : Outcome :=
  ⟨1, printed, some (Failure.toText ⟨message, causes⟩)⟩

/-- A command line that is no command. -/
def usage : Outcome := ⟨2, [], none⟩

end Outcome

namespace Command

/-! ## Causes -/

def inQuotes (text : String) : String := "'" ++ text ++ "'"

def loadCauses (e : Detection.LoadError) : List String :=
  match e with
  | .malformed => [e.message, Detection.LoadError.malformedDetail]
  | .badBox _ inner => [e.message, inner.message]

def documentCauses (e : JsonError) : List String :=
  match e with
  | .malformed => [e.message, JsonError.malformedDetail]
  | _ => [e.message]

def tableCauses (e : Table.TableError) : List String :=
  match e with
  | .unreadable => [e.message, Table.TableError.unreadableDetail]
  | .badRow _ _ => [e.message]

/-! ## Pure commands -/

/-- The bindings of a value for `x`. -/
def bindX (x : Option Float) : Bindings :=
  match x with
  | some x => Bindings.empty.set 'x' x
  | none => Bindings.empty

/-- The line that reports a value. -/
def valueLine (b : Bindings) (v : Float) : String :=
  "[eval] x=" ++ Decimal.plainText (b.get 'x') ++ " => " ++ Decimal.plainText v

/-- The line of a file of detections, its tree and its value. -/
def linearizeText (path : String) (x : Option Float) (threshold : Float) (json : String) :
    Outcome :=
  match Detection.load .standard json with
  | .error e => .failure [] ("load detections " ++ inQuotes path) (loadCauses e)
  | .ok (set, loadWarnings) =>
    let reading := Line.linearize { scoreThreshold := threshold } set.symbols
    let warnings := loadWarnings.map (·.message) ++ reading.warnings.map (·.message)
    let printed := warnings.map ("[warn] " ++ ·) ++ ["[expr] " ++ reading.text]
    match Formula.parse reading.text with
    | .error e => .failure printed ("parse " ++ inQuotes reading.text) [e.message]
    | .ok tree =>
      match tree.eval (bindX x) with
      | .error e => .failure printed "evaluate" [e.message]
      | .ok v =>
        .success (printed ++ [valueLine (bindX x) v, "[ast-json] " ++ tree.toJson])

def evalText (text : String) (bindings : List (Char × Float)) : Outcome :=
  match Formula.parse text with
  | .error e => .failure [] ("parse " ++ inQuotes text) [e.message]
  | .ok tree =>
    match tree.eval (Bindings.ofList bindings) with
    | .error e => .failure [] e.message []
    | .ok v => .success [Decimal.plainText v]

def toJsonText (text : String) : Outcome :=
  match Formula.parse text with
  | .error e => .failure [] ("parse " ++ inQuotes text) [e.message]
  | .ok tree => .success [tree.toJsonPretty]

/-- The tree of a document and its value. -/
def loadText (path : String) (x : Option Float) (json : String) : Outcome :=
  match Expr.ofJson json with
  | .error e => .failure [] ("decode tree " ++ inQuotes path) (documentCauses e)
  | .ok tree =>
    let printed := ["[expr] " ++ tree.toText]
    match tree.eval (bindX x) with
    | .error e => .failure printed e.message []
    | .ok v => .success (printed ++ [valueLine (bindX x) v])

def tableLine (x : Float) (result : Except EvalError Float) : String :=
  match result with
  | .ok y => Decimal.plainText x ++ "\t" ++ Decimal.plainText y
  | .error e => Decimal.plainText x ++ "\terror: " ++ e.message

/-- The values from the first to the last in a number of equal steps. -/
def samples (first last : Float) (steps : Nat) : List Float :=
  let width := (last - first) / Float.ofNat steps
  (List.range (steps + 1)).map fun i => first + width * Float.ofNat i

/-- The values of a text in a range of a letter. -/
def tabulateText (text : String) (first last : Float) (steps : Nat) (letter : Char) : Outcome :=
  if steps = 0 then .failure [] "--steps must be at least 1" []
  else
    match Formula.parse text with
    | .error e => .failure [] ("parse " ++ inQuotes text) [e.message]
    | .ok tree =>
      let values := samples first last steps
      let results := tree.evalOver letter values .empty
      .success (List.zipWith tableLine values results)

/-- The report of verdicts. -/
def report (verdicts : List Table.Verdict) : Outcome :=
  let summary := Table.Summary.ofVerdicts verdicts
  { code := if summary.allPassed then 0 else 1
    printed := verdicts.map (·.toText) ++ ["", summary.toText]
    report := if summary.allPassed then none else some "" }

/-! ## Commands on files -/

section

variable {m : Type → Type} [Monad m]

/-- Goes on with the text of a file. -/
def withText (read : String → m (Except ReadError ByteArray)) (action path : String)
    (next : String → Outcome) : m Outcome := do
  match textOf (← read path) with
  | .error e => return .failure [] (action ++ " " ++ inQuotes path) [e.message]
  | .ok text => return next text

def runCases {α : Type} (read : String → m (Except ReadError ByteArray)) (path : String)
    (cases : List UInt8 → Except Table.TableError (List α)) (file : α → String)
    (verdict : α → Except ReadError String → Table.Verdict) : m Outcome := do
  let found : Except Table.TableError (List α) :=
    match ← read path with
    | .error _ => .error .unreadable
    | .ok bytes => cases bytes.toList
  match found with
  | .error e => return .failure [] ("read table " ++ inQuotes path) (tableCauses e)
  | .ok cs => return report (← cs.mapM fun c => return verdict c (textOf (← read (file c))))

/-- The outcome of a command, given how files are read. -/
def run (read : String → m (Except ReadError ByteArray)) (command : Command) : m Outcome :=
  match command with
  | .linearize path x threshold =>
    withText read "read detections" path (linearizeText path x threshold)
  | .eval text bindings => return evalText text bindings
  | .toJson text => return toJsonText text
  | .load path x => withText read "read tree" path (loadText path x)
  | .tabulate text first last steps letter => return tabulateText text first last steps letter
  | .batch path =>
    runCases read path Table.valueCases Table.ValueCase.file Table.ValueCase.verdict
  | .batchErrors path =>
    runCases read path Table.errorCases Table.ErrorCase.file Table.ErrorCase.verdict

def runWords (read : String → m (Except ReadError ByteArray)) (words : List String) :
    m Outcome :=
  match ofWords? words with
  | none => return .usage
  | some command => run read command

end

end Command

end GlyphMath
