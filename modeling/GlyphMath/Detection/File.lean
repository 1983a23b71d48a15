import GlyphMath.Detection.Labels
import GlyphMath.Json.Decode
import GlyphMath.Layout.Symbol

/-!
# The files of detectors

A file is an object with the `imageSize` and the `detections`.  A detection has a class label
`cls`, a confidence `score`, which is one where it is missing, and a rectangle `bbox`.  Lists may
stand for objects, their items being the fields in order.

* `Record` -- one detection as it stands in the file.
* `File.ofDocument?` -- the content of a document.
* `LoadWarning` -- a detection that is passed over.
* `resolve` -- the symbols of detections, and a warning for each one whose label is not known.
* `load` -- the symbols of a text.
-/

set_option autoImplicit false

namespace GlyphMath.Detection

open Json (Source)
open Layout (Box BoxError Symbol SymbolSet)

/-- One detection as it stands in the file. -/
structure Record where
  label : String
  score : Float
  x1 : Float
  y1 : Float
  x2 : Float
  y2 : Float
deriving DecidableEq, Repr

/-- The content of a file. -/
structure File where
  width : Nat
  height : Nat
  records : List Record
deriving DecidableEq, Repr

/-- Why a text has no symbols. -/
inductive LoadError where
  | malformed
  | badBox (index : Nat) (error : BoxError)
deriving DecidableEq, Repr

/-- What is known of a text that is no file of a detector. -/
def LoadError.malformedDetail : String := "invalid document"

def LoadError.message : LoadError → String
  | .malformed => "malformed detections JSON: " ++ malformedDetail
  | .badBox index e => "detection " ++ toString index ++ ": " ++ e.message

/-- A detection that is passed over. -/
inductive LoadWarning where
  | unknownLabel (record : Record)
deriving DecidableEq, Repr

def LoadWarning.message : LoadWarning → String
  | .unknownLabel r =>
    "unknown class label: '" ++ r.label ++ "' (score=" ++ Decimal.fixedText 2 r.score ++
      ", bbox=[" ++ Decimal.fixedText 0 r.x1 ++ "," ++ Decimal.fixedText 0 r.y1 ++ "," ++
      Decimal.fixedText 0 r.x2 ++ "," ++ Decimal.fixedText 0 r.y2 ++ "]), skipped"

/-! ## Reading -/

def float? (d : Source) : Option Float := d.number?.map (·.toFloat)

/-- The confidence of a detection that has none written. -/
def fullScore : Float := 1.0

/-- A natural number of 32 bits. -/
def size? (d : Source) : Option Nat :=
  match d.number? with
  | some (.integer n) => if 0 ≤ n ∧ n < Decimal.twoTo 32 then some n.toNat else none
  | _ => none

def imageSize? (d : Source) : Option (Nat × Nat) :=
  match d with
  | .list [w, h] =>
    match size? w, size? h with
    | some w, some h => some (w, h)
    | _, _ => none
  | _ =>
    match d.fields? with
    | none => none
    | some fields =>
      match (Json.single? "w" fields).bind size?, (Json.single? "h" fields).bind size? with
      | some w, some h => some (w, h)
      | _, _ => none

/-- The confidence that is written, or the one of a detection without any. -/
def score? : Option Source → Option Float
  | none => some fullScore
  | some d => float? d

/-- A detection of its three fields. -/
def record? (label : Source) (score : Option Source) (box : Source) : Option Record :=
  match label.string?, score? score, box with
  | some label, some score, .list [x1, y1, x2, y2] =>
    match float? x1, float? y1, float? x2, float? y2 with
    | some x1, some y1, some x2, some y2 => some ⟨label, score, x1, y1, x2, y2⟩
    | _, _, _, _ => none
  | _, _, _ => none

def Record.ofDocument? (d : Source) : Option Record :=
  match d with
  | .list [label, score, box] => record? label (some score) box
  | _ =>
    match d.fields? with
    | none => none
    | some fields =>
      match Json.single? "cls" fields, Json.atMostOne? "score" fields,
        Json.single? "bbox" fields with
      | some label, some score, some box => record? label score box
      | _, _, _ => none

def recordList? : List Source → Option (List Record)
  | [] => some []
  | d :: ds =>
    match Record.ofDocument? d with
    | none => none
    | some r =>
      match recordList? ds with
      | none => none
      | some rs => some (r :: rs)

/-- The detections of a document that is a list of them. -/
def records? : Source → Option (List Record)
  | .list items => recordList? items
  | _ => none

/-- A file of its two fields. -/
def file? (size records : Source) : Option File :=
  match imageSize? size, records? records with
  | some (w, h), some rs => some ⟨w, h, rs⟩
  | _, _ => none

def File.ofDocument? (d : Source) : Option File :=
  match d with
  | .list [size, records] => file? size records
  | _ =>
    match d.fields? with
    | none => none
    | some fields =>
      match Json.single? "imageSize" fields, Json.single? "detections" fields with
      | some size, some records => file? size records
      | _, _ => none

/-! ## Resolving labels -/

/-- The symbols of detections from the given index on, and a warning for each detection whose label
is not known.  The first bad rectangle is an error, also under an unknown label. -/
def resolve (labels : LabelMap) (index : Nat) :
    List Record → Except LoadError (List Symbol × List LoadWarning)
  | [] => .ok ([], [])
  | r :: rs =>
    match Box.ofCorners r.x1 r.y1 r.x2 r.y2 with
    | .error e => .error (.badBox index e)
    | .ok box =>
      match resolve labels (index + 1) rs with
      | .error e => .error e
      | .ok (symbols, warnings) =>
        match labels.token? r.label with
        | some token => .ok (⟨r.label, token, r.score, box⟩ :: symbols, warnings)
        | none => .ok (symbols, .unknownLabel r :: warnings)

/-- The symbols of a text. -/
def load (labels : LabelMap) (text : String) :
    Except LoadError (SymbolSet × List LoadWarning) :=
  match (Source.ofText? text.toList).bind File.ofDocument? with
  | none => .error .malformed
  | some file =>
    match resolve labels 0 file.records with
    | .error e => .error e
    | .ok (symbols, warnings) => .ok (⟨file.width, file.height, symbols⟩, warnings)

end GlyphMath.Detection
