import GlyphMath.Decimal.Power
import GlyphMath.Decimal.Reader
import GlyphMath.Text.Blank

/-!
# The arguments of a command

* `Arguments` -- positional arguments and the values of options, in the order given.
* `Arguments.scan` -- the arguments of a list of words, where an option is written `--name value`
  or `--name=value`, and `--` ends the options.
* `atMostOnce`, `exactlyOnce` -- the value of an option.
* `number?`, `count?`, `letter?`, `path?`, `binding?` -- values by type.

A word that starts with a dash is neither a positional argument nor the value of an option, unless
it is the dash alone.
-/

set_option autoImplicit false

namespace GlyphMath.Command

/-- Positional arguments and the values of options. -/
structure Arguments where
  positionals : List String
  options : List (String × String)
deriving DecidableEq, Repr

/-- Whether a word may stand for itself, and is no option. -/
def isPlainWord (word : String) : Bool :=
  match word.toList with
  | [] => true
  | ['-'] => true
  | c :: _ => c != '-'

/-- The name of an option with its two dashes, and the value after an equals sign. -/
def optionParts? (word : String) : Option (String × Option String) :=
  match word.toList with
  | '-' :: '-' :: rest =>
    let name := String.ofList (rest.takeWhile (· != '='))
    match rest.dropWhile (· != '=') with
    | [] => some (name, none)
    | _ :: value => some (name, some (String.ofList value))
  | _ => none

namespace Arguments

def addPositional (word : String) : Option Arguments → Option Arguments
  | none => none
  | some a => some { a with positionals := word :: a.positionals }

def addOption (name value : String) : Option Arguments → Option Arguments
  | none => none
  | some a => some { a with options := (name, value) :: a.options }

/-- The arguments of words, where the names of the options are known. -/
def scan (known : List String) : List String → Option Arguments
  | [] => some ⟨[], []⟩
  | [word] =>
    if word = "--" then some ⟨[], []⟩
    else if isPlainWord word then some ⟨[word], []⟩
    else
      match optionParts? word with
      | some (name, some value) => if name ∈ known then some ⟨[], [(name, value)]⟩ else none
      | _ => none
  | word :: next :: rest =>
    if word = "--" then some ⟨next :: rest, []⟩
    else if isPlainWord word then addPositional word (scan known (next :: rest))
    else
      match optionParts? word with
      | none => none
      | some (name, some value) =>
        if name ∈ known then addOption name value (scan known (next :: rest)) else none
      | some (name, none) =>
        if name ∈ known && isPlainWord next then addOption name next (scan known rest) else none

/-- All values of an option. -/
def valuesOf (a : Arguments) (name : String) : List String :=
  (a.options.filter (·.1 == name)).map (·.2)

/-- The value of an option that is given at most once, or a value that stands for none. -/
def atMostOnce {α : Type} (a : Arguments) (name : String) (read : String → Option α)
    (absent : α) : Option α :=
  match a.valuesOf name with
  | [] => some absent
  | [value] => read value
  | _ => none

/-- The value of an option that is given exactly once. -/
def exactlyOnce {α : Type} (a : Arguments) (name : String) (read : String → Option α) :
    Option α :=
  match a.valuesOf name with
  | [value] => read value
  | _ => none

/-- The only positional argument. -/
def only (a : Arguments) : Option String :=
  match a.positionals with
  | [word] => some word
  | _ => none

end Arguments

/-! ## Values -/

def number? (word : String) : Option Float := Decimal.read? word.toList

/-- A natural number below `2^64`. -/
def count? (word : String) : Option Nat :=
  let digits := match word.toList with
    | '+' :: rest => rest
    | rest => rest
  let value := Decimal.digitsValue digits
  if !digits.isEmpty && digits.all Decimal.isDigit && value < Decimal.twoTo 64 then some value
  else none

/-- A single character. -/
def letter? (word : String) : Option Char :=
  match word.toList with
  | [c] => some c
  | _ => none

/-- A path, which is not empty. -/
def path? (word : String) : Option String := if word.isEmpty then none else some word

/-- A binding, `name=value`, blanks around both allowed. -/
def binding? (word : String) : Option (Char × Float) :=
  let name := word.toList.takeWhile (· != '=')
  match word.toList.dropWhile (· != '=') with
  | [] => none
  | _ :: value =>
    match Text.trimChars name, Decimal.read? (Text.trimChars value) with
    | [c], some v => some (c, v)
    | _, _ => none

/-- The values of words, each of which must have one. -/
def allValues {α : Type} (read : String → Option α) : List String → Option (List α)
  | [] => some []
  | word :: words =>
    match read word, allValues read words with
    | some v, some vs => some (v :: vs)
    | _, _ => none

end GlyphMath.Command
