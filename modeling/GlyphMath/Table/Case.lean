import GlyphMath.Decimal.Reader
import GlyphMath.Table.Record
import GlyphMath.Text.Blank

/-!
# The rows of a test table

* `Row` -- a record that is neither a header nor empty, its fields without blanks around them.
* `RowProblem`, `TableError` -- what is wrong with a row, and why a table cannot be read.
* `rows` -- the rows of records.  A row that is too short is an error.
* `ValueCase`, `ErrorCase` -- a tree with the value, or the error, that it must have.
* `valueCases`, `errorCases` -- the cases of a table.
-/

set_option autoImplicit false

namespace GlyphMath.Table

/-- A row of a table and the line it is reported under. -/
structure Row where
  line : Nat
  fields : List String
deriving DecidableEq, Repr

/-- What is wrong with a row. -/
inductive RowProblem where
  | tooShort (expected found : Nat)
  | notNumber (column : Nat) (field : String)
deriving DecidableEq, Repr

def RowProblem.message : RowProblem → String
  | .tooShort expected found =>
    "expected " ++ toString expected ++ " columns, found " ++ toString found
  | .notNumber column field =>
    "column " ++ toString column ++ " is not a number: '" ++ field ++ "'"

/-- Why a table cannot be read. -/
inductive TableError where
  | unreadable
  | badRow (line : Nat) (problem : RowProblem)
deriving DecidableEq, Repr

/-- What is known of a table whose bytes cannot be read as records of text. -/
def TableError.unreadableDetail : String := "unreadable file"

def TableError.message : TableError → String
  | .unreadable => "cannot read table: " ++ unreadableDetail
  | .badRow line problem => "bad row at line " ++ toString line ++ ": " ++ problem.message

/-! ## Rows -/

/-- The texts of fields, without blanks around them. -/
def fieldTexts? : List (List UInt8) → Option (List String)
  | [] => some []
  | field :: fields =>
    match String.fromUTF8? ⟨field.toArray⟩ with
    | none => none
    | some text =>
      match fieldTexts? fields with
      | none => none
      | some texts => some (Text.trim text :: texts)

/-- Whether fields are those of a header: the first one starts with `file`, in any case. -/
def isHeader (fields : List String) : Bool :=
  match fields with
  | [] => false
  | first :: _ => (first.toList.take 4).map Char.toLower == ['f', 'i', 'l', 'e']

def isBlankRow (fields : List String) : Bool := fields.all (·.isEmpty)

/-- The rows of records that need a number of columns.  Only the first record of a table can be a
header. -/
def rowsFrom (columns : Nat) (first : Bool) : List Record → Except TableError (List Row)
  | [] => .ok []
  | r :: rs =>
    match fieldTexts? r.fields with
    | none => .error .unreadable
    | some fields =>
      if (first && isHeader fields) || isBlankRow fields then rowsFrom columns false rs
      else if fields.length < columns then
        .error (.badRow r.line (.tooShort columns fields.length))
      else
        match rowsFrom columns false rs with
        | .error e => .error e
        | .ok rows => .ok (⟨r.line, fields⟩ :: rows)

/-- The rows of a table. -/
def rows (columns : Nat) (records : List Record) : Except TableError (List Row) :=
  rowsFrom columns true records

/-- The field of a row in a column, counted from one. -/
def Row.field (row : Row) (column : Nat) : String := row.fields.getD (column - 1) ""

/-- The number in a column. -/
def Row.number (row : Row) (column : Nat) : Except TableError Float :=
  match Decimal.read? (row.field column).toList with
  | some v => .ok v
  | none => .error (.badRow row.line (.notNumber column (row.field column)))

/-! ## Cases -/

/-- A tree and the value it must have at `x`, within a tolerance. -/
structure ValueCase where
  line : Nat
  file : String
  x : Float
  expected : Float
  tolerance : Float
deriving DecidableEq, Repr

/-- A tree and a part of the error it must have at `x`. -/
structure ErrorCase where
  line : Nat
  file : String
  x : Float
  expected : String
deriving DecidableEq, Repr

def valueCase (row : Row) : Except TableError ValueCase :=
  match row.number 2 with
  | .error e => .error e
  | .ok x =>
    match row.number 3 with
    | .error e => .error e
    | .ok expected =>
      match row.number 4 with
      | .error e => .error e
      | .ok tolerance => .ok ⟨row.line, row.field 1, x, expected, tolerance⟩

def errorCase (row : Row) : Except TableError ErrorCase :=
  match row.number 2 with
  | .error e => .error e
  | .ok x => .ok ⟨row.line, row.field 1, x, row.field 3⟩

/-- The cases of rows, up to the first row that has none. -/
def casesOf {α : Type} (read : Row → Except TableError α) :
    List Row → Except TableError (List α)
  | [] => .ok []
  | row :: rows =>
    match read row with
    | .error e => .error e
    | .ok c =>
      match casesOf read rows with
      | .error e => .error e
      | .ok cs => .ok (c :: cs)

/-- The value cases of a table. -/
def valueCases (bytes : List UInt8) : Except TableError (List ValueCase) :=
  match rows 4 (records bytes) with
  | .error e => .error e
  | .ok rows => casesOf valueCase rows

/-- The error cases of a table. -/
def errorCases (bytes : List UInt8) : Except TableError (List ErrorCase) :=
  match rows 3 (records bytes) with
  | .error e => .error e
  | .ok rows => casesOf errorCase rows

end GlyphMath.Table
