import GlyphMath.Json.Token

/-!
# Reading the grammar of a document

The reader is a machine over tokens.  It keeps a stack with one frame for every bracket that is
open, and what may come next.

* `Frame`, `Want`, `State` -- the machine's stack and its expectation.
* `step` -- takes one token, or refuses it.
* `run` -- takes the tokens of a text as they come.
* `Source.ofText?` -- the document of a text that holds one, and nothing else but blanks.
-/

set_option autoImplicit false

namespace GlyphMath.Json

/-- An open bracket with what has been read inside it, the newest first. -/
inductive Frame where
  | list (items : List Source)
  | object (members : List (List Item × Source))
  /-- An object whose next key has been read and whose value is to come. -/
  | member (members : List (List Item × Source)) (key : List Item)
deriving Repr

/-- What may come next. -/
inductive Want where
  | value
  | valueOrClose
  | key
  | keyOrClose
  | colon
  | commaOrClose
  | finished (document : Source)
deriving Repr

/-- The open brackets, the innermost first, and what may come next. -/
structure State where
  frames : List Frame
  want : Want
deriving Repr

namespace State

def start : State := ⟨[], .value⟩

/-- Hands a finished value to the innermost open bracket. -/
def finish (frames : List Frame) (value : Source) : Option State :=
  match frames with
  | [] => some ⟨[], .finished value⟩
  | .list items :: rest => some ⟨.list (value :: items) :: rest, .commaOrClose⟩
  | .member members key :: rest =>
    some ⟨.object ((key, value) :: members) :: rest, .commaOrClose⟩
  | .object _ :: _ => none

/-- A scalar as a document. -/
def leaf : Scalar → Source
  | .null => .null
  | .bool b => .bool b
  | .number n => .number n
  | .string s => .string s

/-- Takes the first token of a value. -/
def startValue (frames : List Frame) (token : Token) : Option State :=
  match token with
  | .scalar s => finish frames (leaf s)
  | .openList => some ⟨.list [] :: frames, .valueOrClose⟩
  | .openObject => some ⟨.object [] :: frames, .keyOrClose⟩
  | _ => none

def takeKey (frames : List Frame) (token : Token) : Option State :=
  match token, frames with
  | .scalar (.string key), .object members :: rest => some ⟨.member members key :: rest, .colon⟩
  | _, _ => none

/-- Takes the closing bracket of the innermost open one. -/
def close (frames : List Frame) (token : Token) : Option State :=
  match token, frames with
  | .closeList, .list items :: rest => finish rest (.list items.reverse)
  | .closeObject, .object members :: rest => finish rest (.object members.reverse)
  | _, _ => none

/-- What a comma in the innermost open bracket announces. -/
def afterComma : List Frame → Option Want
  | .list _ :: _ => some .value
  | .object _ :: _ => some .key
  | _ => none

def step (s : State) (token : Token) : Option State :=
  match s.want with
  | .value => startValue s.frames token
  | .valueOrClose => if token = .closeList then close s.frames token else startValue s.frames token
  | .key => takeKey s.frames token
  | .keyOrClose => if token = .closeObject then close s.frames token else takeKey s.frames token
  | .colon => if token = .colon then some ⟨s.frames, .value⟩ else none
  | .commaOrClose =>
    if token = .comma then (afterComma s.frames).map fun want => ⟨s.frames, want⟩
    else close s.frames token
  | .finished _ => none

end State

/-- Takes the tokens of a text until the document has ended. -/
def run (s : State) (text : List Char) : Option Source :=
  match s.want with
  | .finished document => if (skipBlanks text).isEmpty then some document else none
  | _ =>
    match _h : nextToken text with
    | none => none
    | some (token, rest) =>
      match s.step token with
      | none => none
      | some s => run s rest
termination_by text.length
decreasing_by exact nextToken_length _h

/-- The document that a text holds. -/
def Source.ofText? (text : List Char) : Option Source := run State.start text

end GlyphMath.Json
