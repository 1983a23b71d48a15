/-!
# Records of a table

A table is text in lines, its fields separated by commas.  It is read byte by byte.

* `Record` -- the fields of a record, and the number of the line after which the record before
  ended.
* `Scan` -- what is known after part of a table.
* `records` -- the records of a table.

A line feed or a carriage return ends a record, and so does the end of the table.  Empty lines and
lines that start with `#` hold no record.  A field that starts with a quote runs to the next quote,
two quotes in it standing for one; what follows the closing quote belongs to the field.  A byte
order mark in front of the table is dropped.
-/

set_option autoImplicit false

namespace GlyphMath.Table

/-- A record.  `line` is one more than the number of line feeds that were read before the record
before it had ended. -/
structure Record where
  line : Nat
  fields : List (List UInt8)
deriving DecidableEq, Repr

/-- Where in a table the scan stands. -/
inductive Place where
  | betweenRecords
  | comment
  | fieldStart
  | bare
  | quoted
  | quoteInQuoted
deriving DecidableEq, Repr

/-- What is known after part of a table: the place, the line feeds read, those read when the last
record had ended, and the bytes, fields and records read, the newest first. -/
structure Scan where
  place : Place
  lineFeeds : Nat
  mark : Nat
  field : List UInt8
  fields : List (List UInt8)
  records : List Record
deriving DecidableEq, Repr

def lineFeed : UInt8 := 0x0A

def carriageReturn : UInt8 := 0x0D

def quote : UInt8 := 0x22

def hash : UInt8 := 0x23

def comma : UInt8 := 0x2C

/-- Whether a byte ends a line. -/
def endsLine (b : UInt8) : Bool := b == lineFeed || b == carriageReturn

namespace Scan

def start : Scan := ⟨.betweenRecords, 0, 0, [], [], []⟩

def endField (s : Scan) : Scan :=
  { s with place := .fieldStart, field := [], fields := s.field.reverse :: s.fields }

/-- Ends a record with its last field. -/
def endRecord (s : Scan) : Scan :=
  { s with
    place := .betweenRecords
    mark := s.lineFeeds
    field := []
    fields := []
    records := ⟨s.mark + 1, (s.field.reverse :: s.fields).reverse⟩ :: s.records }

/-- Adds a byte to the field. -/
def push (s : Scan) (place : Place) (b : UInt8) : Scan :=
  { s with place := place, field := b :: s.field }

/-- Takes a byte of a field outside of quotes. -/
def takeBare (s : Scan) (b : UInt8) : Scan :=
  if b == comma then s.endField
  else if endsLine b then s.endRecord
  else s.push .bare b

/-- Takes the first byte of a field. -/
def takeFirst (s : Scan) (b : UInt8) : Scan :=
  if b == quote then { s with place := .quoted } else s.takeBare b

/-- Takes a byte that has been counted. -/
def take (s : Scan) (b : UInt8) : Scan :=
  match s.place with
  | .betweenRecords =>
    if endsLine b then s
    else if b == hash then { s with place := .comment }
    else s.takeFirst b
  | .comment => if b == lineFeed then { s with place := .betweenRecords } else s
  | .fieldStart => s.takeFirst b
  | .bare => s.takeBare b
  | .quoted => if b == quote then { s with place := .quoteInQuoted } else s.push .quoted b
  | .quoteInQuoted => if b == quote then s.push .quoted b else s.takeBare b

def count (s : Scan) (b : UInt8) : Scan :=
  if b == lineFeed then { s with lineFeeds := s.lineFeeds + 1 } else s

def step (s : Scan) (b : UInt8) : Scan := (s.count b).take b

/-- The records at the end of the table, where a record that is not ended ends. -/
def finish (s : Scan) : List Record :=
  match s.place with
  | .betweenRecords => s.records.reverse
  | .comment => s.records.reverse
  | _ => s.endRecord.records.reverse

end Scan

/-- Drops a byte order mark in front. -/
def dropMark (bytes : List UInt8) : List UInt8 :=
  match bytes with
  | 0xEF :: 0xBB :: 0xBF :: rest => rest
  | bytes => bytes

/-- The records of a table. -/
def records (bytes : List UInt8) : List Record :=
  ((dropMark bytes).foldl Scan.step Scan.start).finish

end GlyphMath.Table
