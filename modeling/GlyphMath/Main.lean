import GlyphMath.Command.Run

/-!
# The command line

* `readFile` -- the bytes of a file, or why it cannot be read.
* `main` -- runs the command of a command line.
-/

set_option autoImplicit false

namespace GlyphMath

/-- Why the system could not read a file. -/
def readErrorOf (e : IO.Error) : ReadError :=
  match e with
  | .inappropriateType _ _ _ => .isFolder
  | .resourceExhausted _ _ _ => .nameTooLong
  | .invalidArgument _ _ _ => .nulInName
  | _ => .missing

/-- The bytes of the file at a path. -/
def readFile (path : String) : IO (Except ReadError ByteArray) := do
  try
    return .ok (← IO.FS.readBinFile path)
  catch e =>
    return .error (readErrorOf e)

end GlyphMath

/-- Runs the command of a command line, prints its outcome, and ends with its exit code. -/
def main (words : List String) : IO UInt32 := do
  let outcome ← GlyphMath.Command.runWords GlyphMath.readFile words
  for text in outcome.printed do
    IO.println text
  match outcome.report with
  | none => pure ()
  | some report =>
    if !report.isEmpty then IO.eprintln report
  return outcome.code.toUInt32
