import GlyphMath.Decimal.Reader
import GlyphMath.Formula.Token

/-!
# Splitting text into tokens

* `takeToken?` -- the longest token text at the front.
* `split` -- a whole text as token texts with their places, blanks between them dropped.
* `Chunk.lexeme` -- the token of a token text.
* `tokenize` -- both together.  A literal out of range is an error, but only in a text that
  splits.
-/

set_option autoImplicit false

namespace GlyphMath.Formula

open GlyphMath.Decimal

/-- Why a text has no tokens. -/
inductive LexError where
  | unexpectedChar (found : Char) (offset : Nat)
  | numberOutOfRange (literal : String) (offset : Nat)
deriving DecidableEq, Repr

def LexError.message : LexError → String
  | .unexpectedChar found offset =>
    "unexpected character '" ++ found.toString ++ "' at " ++ toString offset
  | .numberOutOfRange literal offset =>
    "number '" ++ literal ++ "' at " ++ toString offset ++ " is out of range"

/-! ## Characters -/

/-- The blanks between tokens. -/
def isSpace (c : Char) : Bool := c == ' ' || c == '\t' || c == '\r' || c == '\n'

/-- The ASCII letters. -/
def isLetter (c : Char) : Bool := ('a' ≤ c && c ≤ 'z') || ('A' ≤ c && c ≤ 'Z')

/-- The characters that are tokens by themselves. -/
def isSign (c : Char) : Bool :=
  c ∈ ['π', 'ℯ', '+', '-', '*', '/', '^', '(', ')', '|', ',']

/-! ## Token texts -/

/-- A literal that starts with a digit: digits, and a point with any digits after it. -/
def takeNumeral (text : List Char) : List Char × List Char :=
  match text.dropWhile isDigit with
  | '.' :: rest =>
    (text.takeWhile isDigit ++ '.' :: rest.takeWhile isDigit, rest.dropWhile isDigit)
  | rest => (text.takeWhile isDigit, rest)

/-- The longest token text at the front, and what follows it.  A point starts a token only before
a digit. -/
def takeToken? (text : List Char) : Option (List Char × List Char) :=
  match text with
  | [] => none
  | c :: rest =>
    if isDigit c then some (takeNumeral (c :: rest))
    else if c == '.' then
      if (rest.takeWhile isDigit).isEmpty then none
      else some ('.' :: rest.takeWhile isDigit, rest.dropWhile isDigit)
    else if isLetter c then
      some ((c :: rest).takeWhile isLetter, (c :: rest).dropWhile isLetter)
    else if isSign c then some ([c], rest)
    else none

theorem takeNumeral_append (text : List Char) :
    (takeNumeral text).1 ++ (takeNumeral text).2 = text := by
  unfold takeNumeral
  split
  · next rest h =>
    rw [List.append_assoc, List.cons_append, List.takeWhile_append_dropWhile, ← h,
      List.takeWhile_append_dropWhile]
  · exact List.takeWhile_append_dropWhile

/-- Nothing is lost: a token text and what follows it make up the text. -/
theorem takeToken?_append {text token rest : List Char}
    (h : takeToken? text = some (token, rest)) : token ++ rest = text := by
  unfold takeToken? at h
  split at h
  · contradiction
  · next c tail =>
    split at h
    · rw [← takeNumeral_append (c :: tail), Option.some.inj h]
    · split at h
      · next hc =>
        split at h
        · contradiction
        · obtain ⟨rfl, rfl⟩ := Prod.mk.inj (Option.some.inj h)
          rw [List.cons_append, List.takeWhile_append_dropWhile, eq_of_beq hc]
      · split at h
        · obtain ⟨rfl, rfl⟩ := Prod.mk.inj (Option.some.inj h)
          exact List.takeWhile_append_dropWhile
        · split at h
          · obtain ⟨rfl, rfl⟩ := Prod.mk.inj (Option.some.inj h)
            rfl
          · contradiction

theorem takeNumeral_ne_nil {c : Char} {rest : List Char} (h : isDigit c = true) :
    (takeNumeral (c :: rest)).1 ≠ [] := by
  unfold takeNumeral
  split <;> simp [h]

theorem takeToken?_ne_nil {text token rest : List Char}
    (h : takeToken? text = some (token, rest)) : token ≠ [] := by
  unfold takeToken? at h
  split at h
  · contradiction
  · next c tail =>
    split at h
    · next hc =>
      have := @takeNumeral_ne_nil c tail hc
      rwa [Option.some.inj h] at this
    · split at h
      · split at h
        · contradiction
        · cases h
          exact List.cons_ne_nil _ _
      · split at h
        · next hc =>
          cases h
          rw [List.takeWhile_cons_of_pos hc]
          exact List.cons_ne_nil _ _
        · split at h
          · cases h
            exact List.cons_ne_nil _ _
          · contradiction

theorem takeToken?_length {text token rest : List Char}
    (h : takeToken? text = some (token, rest)) : rest.length < text.length := by
  have happ := congrArg List.length (takeToken?_append h)
  have hpos := List.length_pos_iff.2 (takeToken?_ne_nil h)
  rw [List.length_append] at happ
  omega

/-! ## Splitting -/

/-- A token text and the place where it starts. -/
structure Chunk where
  text : List Char
  offset : Nat
deriving DecidableEq, Repr

/-- The token texts of a text that starts at a place.  It fails at the first character that is no
blank and starts no token. -/
def split (offset : Nat) (text : List Char) : Except LexError (List Chunk) :=
  match text with
  | [] => .ok []
  | c :: rest =>
    if isSpace c then split (offset + 1) rest
    else
      match _h : takeToken? (c :: rest) with
      | none => .error (.unexpectedChar c offset)
      | some (token, rest) =>
        match split (offset + token.length) rest with
        | .error e => .error e
        | .ok chunks => .ok (⟨token, offset⟩ :: chunks)
termination_by text.length
decreasing_by
  · exact Nat.lt_succ_self _
  · exact takeToken?_length _h

/-! ## Tokens -/

/-- The number of a literal. -/
def literalValue (text : List Char) : Float :=
  let whole := text.takeWhile isDigit
  let fraction := (text.dropWhile isDigit).drop 1
  nearest (digitsValue (whole ++ fraction)) (-(fraction.length : Int))

def wordToken (text : String) : Token :=
  if text ∈ functionNames then .function text else .name text

/-- The token of a token text that is no literal.  A bar closes: one that opens is written as a
call of the absolute value. -/
def signToken (text : List Char) : Token :=
  match text with
  | ['('] => .openParen
  | [')'] => .closeParen
  | ['|'] => .closeParen
  | [','] => .comma
  | ['π'] => .name "pi"
  | ['ℯ'] => .name "e"
  | [c] =>
    match Operator.ofChar? c with
    | some op => .operator op
    | none => wordToken (String.ofList [c])
  | text => wordToken (String.ofList text)

def isLiteral (text : List Char) : Bool :=
  match text with
  | [] => false
  | c :: _ => isDigit c || c == '.'

/-- The token of a token text.  A literal beyond the range of doubles has none. -/
def Chunk.lexeme (chunk : Chunk) : Except LexError Lexeme :=
  if isLiteral chunk.text then
    let value := literalValue chunk.text
    if value.isInf then .error (.numberOutOfRange (String.ofList chunk.text) chunk.offset)
    else .ok ⟨.number value, chunk.offset⟩
  else .ok ⟨signToken chunk.text, chunk.offset⟩

/-- The tokens of token texts, up to the first that has none. -/
def lexemes : List Chunk → Except LexError (List Lexeme)
  | [] => .ok []
  | chunk :: chunks =>
    match chunk.lexeme with
    | .error e => .error e
    | .ok l =>
      match lexemes chunks with
      | .error e => .error e
      | .ok ls => .ok (l :: ls)

/-- The tokens of a text. -/
def tokenize (text : String) : Except LexError (List Lexeme) :=
  match split 0 text.toList with
  | .error e => .error e
  | .ok chunks => lexemes chunks

end GlyphMath.Formula
