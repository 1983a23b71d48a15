/-!
# Files in a folder

* `ReadError` -- why a file cannot be read.
* `textOf` -- the text of a file's bytes, which must be UTF-8.
* `Folder` -- named files, none of them a folder.
* `Folder.read` -- the bytes of the file at a path.
-/

set_option autoImplicit false

namespace GlyphMath

/-- Why a file cannot be read. -/
inductive ReadError where
  | missing
  | isFolder
  | notFolder
  | nameTooLong
  | nulInName
  | notText
deriving DecidableEq, Repr

def ReadError.message : ReadError → String
  | .missing => "No such file or directory (os error 2)"
  | .isFolder => "Is a directory (os error 21)"
  | .notFolder => "Not a directory (os error 20)"
  | .nameTooLong => "File name too long (os error 36)"
  | .nulInName => "file name contained an unexpected NUL byte"
  | .notText => "stream did not contain valid UTF-8"

def textOf (bytes : Except ReadError ByteArray) : Except ReadError String :=
  match bytes with
  | .error e => .error e
  | .ok bytes =>
    match String.fromUTF8? bytes with
    | some text => .ok text
    | none => .error .notText

/-- Named files, none of them a folder. -/
structure Folder where
  files : List (String × ByteArray)

namespace Folder

/-- The longest name of a file, in bytes. -/
def longestName : Nat := 255

/-- Splits a path at its slashes. -/
def splitPath : List Char → List (List Char)
  | [] => [[]]
  | c :: rest =>
    match splitPath rest with
    | [] => [[c]]
    | part :: parts => if c == '/' then [] :: part :: parts else (c :: part) :: parts

def isIdle (part : List Char) : Bool := part.isEmpty || part == ['.']

/-- The file of a name. -/
def find? (f : Folder) (name : String) : Option ByteArray :=
  (f.files.find? fun file => file.1 == name).map (·.2)

/-- The file at a path of names from the folder on.  `asFolder` says whether the path asks for a
folder at its end. -/
def readParts (f : Folder) (asFolder : Bool) : List (List Char) → Except ReadError ByteArray
  | [] => .error .isFolder
  | part :: parts =>
    let name := String.ofList part
    if longestName < name.utf8ByteSize then .error .nameTooLong
    else
      match f.find? name with
      | some bytes => if asFolder || !parts.isEmpty then .error .notFolder else .ok bytes
      | none =>
        if part == ['.', '.'] && parts.isEmpty then .error .isFolder else .error .missing

/-- The bytes of the file at a path. -/
def read (f : Folder) (path : String) : Except ReadError ByteArray :=
  let parts := splitPath path.toList
  let names := parts.filter fun part => !isIdle part
  if path.toList.contains '\x00' then .error .nulInName
  else if path.isEmpty then .error .missing
  else if path.toList.head? == some '/' && !names.isEmpty then .error .missing
  else f.readParts (isIdle (parts.getLastD [])) names

end Folder

end GlyphMath
