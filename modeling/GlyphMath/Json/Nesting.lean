/-!
# Nesting of brackets

* `Scan` -- what is known after part of a text: how many brackets are open, the most that were
  open at once, and whether the text stands inside a string and right after a backslash there.
* `nestingDepth` -- the most list and object brackets that are open at once, those inside strings
  not counted.

The scan looks at any text.  A closing bracket with none open is passed over.
-/

set_option autoImplicit false

namespace GlyphMath.Json

/-- What is known after part of a text. -/
structure Scan where
  depth : Nat
  deepest : Nat
  inString : Bool
  escaped : Bool
deriving DecidableEq, Repr

namespace Scan

def start : Scan := ⟨0, 0, false, false⟩

/-- Takes a character inside a string. -/
def inside (s : Scan) (c : Char) : Scan :=
  if s.escaped then { s with escaped := false }
  else if c == '\\' then { s with escaped := true }
  else if c == '"' then { s with inString := false }
  else s

/-- Takes a character outside of strings. -/
def outside (s : Scan) (c : Char) : Scan :=
  if c == '"' then { s with inString := true }
  else if c == '[' || c == '\x7b' then
    { s with depth := s.depth + 1, deepest := max s.deepest (s.depth + 1) }
  else if c == ']' || c == '\x7d' then { s with depth := s.depth - 1 }
  else s

def step (s : Scan) (c : Char) : Scan := if s.inString then s.inside c else s.outside c

end Scan

/-- The most brackets that are open at once. -/
def nestingDepth (text : List Char) : Nat := (text.foldl Scan.step Scan.start).deepest

end GlyphMath.Json
