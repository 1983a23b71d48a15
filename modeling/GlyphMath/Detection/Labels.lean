import GlyphMath.Decimal.Reader
import GlyphMath.Formula.Token

/-!
# Labels of detectors

* `LabelMap` -- the tokens that labels stand for.
* `LabelMap.standard` -- the labels of the usual detector.
* `isTokenLike` -- labels that are tokens already.
* `LabelMap.token?` -- the token of a label: the last one inserted for it, or the label itself
  where it is a token already.
-/

set_option autoImplicit false

namespace GlyphMath.Detection

/-- The tokens that labels stand for, the latest entry first. -/
structure LabelMap where
  entries : List (String × String)
deriving DecidableEq, Repr

def digitLabels : List (String × String) :=
  [("digit_0", "0"), ("digit_1", "1"), ("digit_2", "2"), ("digit_3", "3"), ("digit_4", "4"),
    ("digit_5", "5"), ("digit_6", "6"), ("digit_7", "7"), ("digit_8", "8"), ("digit_9", "9")]

/-- The labels of operators, brackets and other signs. -/
def signLabels : List (String × String) :=
  [("plus", "+"), ("minus", "-"), ("times", "*"), ("divide", "/"), ("power", "^"),
    ("lparen", "("), ("rparen", ")"), ("comma", ","), ("dot", "."), ("bar", "|"), ("root", "√"),
    ("pi", "π"), ("limit", "lim"), ("×", "*"), ("÷", "/"), ("−", "-")]

def lowerCase : List Char :=
  ['a', 'b', 'c', 'd', 'e', 'f', 'g', 'h', 'i', 'j', 'k', 'l', 'm', 'n', 'o', 'p', 'q', 'r', 's',
    't', 'u', 'v', 'w', 'x', 'y', 'z']

def letterLabels : List (String × String) :=
  lowerCase.map fun c => ("var_" ++ c.toString, c.toString)

/-- The signs that are labels of themselves. -/
def signTokens : List Char :=
  ['+', '-', '*', '/', '^', '(', ')', ',', '.', '|', '√', 'π', 'ℯ']

/-- Whether a label is a token already: digits, a function name, a lower-case letter or a sign. -/
def isTokenLike (label : String) : Bool :=
  match label.toList with
  | [] => false
  | cs =>
    cs.all Decimal.isDigit || label == "lim" || Formula.functionNames.contains label ||
      (match cs with
        | [c] => lowerCase.contains c || signTokens.contains c
        | _ => false)

namespace LabelMap

/-- The labels of the usual detector. -/
def standard : LabelMap := ⟨digitLabels ++ signLabels ++ letterLabels⟩

/-- Adds a label, in place of any entry it had. -/
def insert (m : LabelMap) (label token : String) : LabelMap := ⟨(label, token) :: m.entries⟩

/-- Adds labels one after another. -/
def insertAll (m : LabelMap) (entries : List (String × String)) : LabelMap :=
  entries.foldl (fun m entry => m.insert entry.1 entry.2) m

def token? (m : LabelMap) (label : String) : Option String :=
  match m.entries.find? fun entry => entry.1 == label with
  | some entry => some entry.2
  | none => if isTokenLike label then some label else none

end LabelMap

end GlyphMath.Detection
