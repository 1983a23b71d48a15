import GlyphMath.Decimal.Reader
import GlyphMath.Json.Tree

/-!
# The tokens of JSON text

* `Token` -- a bracket, a separator or a scalar.
* `scanItems` -- the rest of a string after its opening quote.
* `scanNumeral` -- a number.
* `nextToken` -- the first token of a text, after blanks, and what follows it.

Strings may hold no control character.  Blanks are the space, the tab and the two line ends.
-/

set_option autoImplicit false

namespace GlyphMath.Json

open GlyphMath.Decimal

/-- A value without brackets, as written. -/
inductive Scalar where
  | null
  | bool (value : Bool)
  | number (value : Numeral)
  | string (value : List Item)
deriving DecidableEq, Repr

/-- A token of JSON text. -/
inductive Token where
  | openList
  | closeList
  | openObject
  | closeObject
  | colon
  | comma
  | scalar (value : Scalar)
deriving DecidableEq, Repr

/-- The blanks between tokens. -/
def isBlank (c : Char) : Bool := c == ' ' || c == '\t' || c == '\n' || c == '\r'

def skipBlanks (text : List Char) : List Char := text.dropWhile isBlank

/-! ## Strings -/

/-- The value of a hexadecimal digit. -/
def hexValue? (c : Char) : Option Nat :=
  if isDigit c then some (digitValue c)
  else if 'a' ≤ c && c ≤ 'f' then some (c.toNat - 'a'.toNat + 10)
  else if 'A' ≤ c && c ≤ 'F' then some (c.toNat - 'A'.toNat + 10)
  else none

/-- The unit that four hexadecimal digits denote. -/
def hexUnit? (a b c d : Char) : Option Nat :=
  match hexValue? a, hexValue? b, hexValue? c, hexValue? d with
  | some a, some b, some c, some d => some (((a * 16 + b) * 16 + c) * 16 + d)
  | _, _, _, _ => none

/-- The character that an escape letter denotes. -/
def escaped? (c : Char) : Option Char :=
  match c with
  | '"' => some '"'
  | '\\' => some '\\'
  | '/' => some '/'
  | 'b' => some '\x08'
  | 'f' => some '\x0c'
  | 'n' => some '\n'
  | 'r' => some '\r'
  | 't' => some '\t'
  | _ => none

/-- Puts an item before the items that follow it. -/
def addItem (item : Item) : Option (List Item × List Char) → Option (List Item × List Char)
  | none => none
  | some (items, rest) => some (item :: items, rest)

/-- The items of a string up to its closing quote, and the text after the quote. -/
def scanItems : List Char → Option (List Item × List Char)
  | [] => none
  | '"' :: rest => some ([], rest)
  | '\\' :: 'u' :: a :: b :: c :: d :: rest =>
    match hexUnit? a b c d with
    | none => none
    | some n => addItem (.unit n) (scanItems rest)
  | '\\' :: e :: rest =>
    match escaped? e with
    | none => none
    | some c => addItem (.char c) (scanItems rest)
  | c :: rest =>
    if c.toNat < 0x20 || c == '\\' then none else addItem (.char c) (scanItems rest)

/-! ## Numbers -/

/-- At least one digit, and the text after the digits. -/
def scanDigits (text : List Char) : Option (List Char × List Char) :=
  let (digits, rest) := spanDigits text
  if digits.isEmpty then none else some (digits, rest)

/-- The digits before the point: a zero alone, or digits that do not start with one. -/
def scanWhole (text : List Char) : Option (List Char × List Char) :=
  match text with
  | '0' :: [] => some (['0'], [])
  | '0' :: c :: rest => if isDigit c then none else some (['0'], c :: rest)
  | rest => scanDigits rest

/-- An optional point with at least one digit after it. -/
def scanFraction (text : List Char) : Option (Option (List Char) × List Char) :=
  match text with
  | '.' :: rest => (scanDigits rest).map fun (digits, rest) => (some digits, rest)
  | rest => some (none, rest)

/-- An exponent after its letter. -/
def scanExponentDigits (text : List Char) : Option (ExponentText × List Char) :=
  match text with
  | '-' :: rest => (scanDigits rest).map fun (digits, rest) => (⟨true, digits⟩, rest)
  | '+' :: rest => (scanDigits rest).map fun (digits, rest) => (⟨false, digits⟩, rest)
  | rest => (scanDigits rest).map fun (digits, rest) => (⟨false, digits⟩, rest)

def scanExponent (text : List Char) : Option (Option ExponentText × List Char) :=
  match text with
  | c :: rest =>
    if c == 'e' || c == 'E' then
      (scanExponentDigits rest).map fun (e, rest) => (some e, rest)
    else some (none, c :: rest)
  | [] => some (none, [])

/-- A number without its sign. -/
def scanMagnitude (negative : Bool) (text : List Char) : Option (Numeral × List Char) :=
  match scanWhole text with
  | none => none
  | some (whole, rest) =>
    match scanFraction rest with
    | none => none
    | some (fraction, rest) =>
      match scanExponent rest with
      | none => none
      | some (exponent, rest) => some (⟨negative, whole, fraction, exponent⟩, rest)

def scanNumeral (text : List Char) : Option (Numeral × List Char) :=
  match text with
  | '-' :: rest => scanMagnitude true rest
  | rest => scanMagnitude false rest

/-! ## Tokens -/

/-- The text after a word that it starts with. -/
def dropWord : List Char → List Char → Option (List Char)
  | [], rest => some rest
  | _ :: _, [] => none
  | w :: word, c :: rest => if w == c then dropWord word rest else none

/-- The token that a text without blanks in front starts with, and what follows it. -/
def scanToken (text : List Char) : Option (Token × List Char) :=
  match text with
  | [] => none
  | '[' :: rest => some (.openList, rest)
  | ']' :: rest => some (.closeList, rest)
  | '{' :: rest => some (.openObject, rest)
  | '}' :: rest => some (.closeObject, rest)
  | ':' :: rest => some (.colon, rest)
  | ',' :: rest => some (.comma, rest)
  | '"' :: rest => (scanItems rest).map fun (items, rest) => (.scalar (.string items), rest)
  | 'n' :: rest => (dropWord ['u', 'l', 'l'] rest).map fun rest => (.scalar .null, rest)
  | 't' :: rest => (dropWord ['r', 'u', 'e'] rest).map fun rest => (.scalar (.bool true), rest)
  | 'f' :: rest =>
    (dropWord ['a', 'l', 's', 'e'] rest).map fun rest => (.scalar (.bool false), rest)
  | c :: rest => (scanNumeral (c :: rest)).map fun (n, rest) => (.scalar (.number n), rest)

/-- The first token of a text and what follows it. -/
def nextToken (text : List Char) : Option (Token × List Char) := scanToken (skipBlanks text)

/-! ## Every token takes at least one character -/

theorem spanDigits_length (text : List Char) :
    (spanDigits text).1.length + (spanDigits text).2.length = text.length := by
  rw [← List.length_append]
  exact congrArg List.length List.takeWhile_append_dropWhile

theorem addItem_eq_some {item : Item} {r : Option (List Item × List Char)} {items : List Item}
    {rest : List Char} (h : addItem item r = some (items, rest)) :
    ∃ tail, r = some (tail, rest) ∧ items = item :: tail := by
  cases r with
  | none => cases h
  | some p =>
    cases h
    exact ⟨p.1, rfl, rfl⟩

theorem scanItems_length {text rest : List Char} {items : List Item}
    (h : scanItems text = some (items, rest)) : rest.length < text.length := by
  fun_induction scanItems text generalizing items rest with
  | case1 => contradiction
  | case2 tail =>
    cases h
    exact Nat.lt_succ_self _
  | case3 => contradiction
  | case4 a b c d _ _ _ ih =>
    obtain ⟨tail, htail, _⟩ := addItem_eq_some h
    have := ih htail
    simp only [List.length_cons]
    omega
  | case5 => contradiction
  | case6 _ _ _ _ _ ih =>
    obtain ⟨tail, htail, _⟩ := addItem_eq_some h
    have := ih htail
    simp only [List.length_cons]
    omega
  | case7 => contradiction
  | case8 _ _ _ _ _ _ ih =>
    obtain ⟨tail, htail, _⟩ := addItem_eq_some h
    have := ih htail
    simp only [List.length_cons]
    omega

theorem scanDigits_length {text digits rest : List Char}
    (h : scanDigits text = some (digits, rest)) : rest.length < text.length := by
  have hlen := spanDigits_length text
  have h : (if (spanDigits text).1.isEmpty then none else some (spanDigits text)) =
    some (digits, rest) := h
  split at h
  · contradiction
  · next hne =>
    have hpos := List.length_pos_iff.2 fun hnil => hne (List.isEmpty_iff.2 hnil)
    rw [Option.some.inj h] at hlen hpos
    simp only at hlen hpos
    omega

theorem scanWhole_length {text digits rest : List Char}
    (h : scanWhole text = some (digits, rest)) : rest.length < text.length := by
  unfold scanWhole at h
  split at h
  · cases h
    exact Nat.lt_succ_self _
  · split at h
    · contradiction
    · cases h
      exact Nat.lt_succ_self _
  · exact scanDigits_length h

theorem scanFraction_length {text rest : List Char} {fraction : Option (List Char)}
    (h : scanFraction text = some (fraction, rest)) : rest.length ≤ text.length := by
  unfold scanFraction at h
  split at h
  · obtain ⟨p, hp, heq⟩ := Option.map_eq_some_iff.1 h
    cases heq
    exact Nat.le_succ_of_le (Nat.le_of_lt (scanDigits_length hp))
  · cases h
    exact Nat.le_refl _

theorem scanExponentDigits_length {text rest : List Char} {e : ExponentText}
    (h : scanExponentDigits text = some (e, rest)) : rest.length ≤ text.length := by
  unfold scanExponentDigits at h
  split at h
  · obtain ⟨p, hp, heq⟩ := Option.map_eq_some_iff.1 h
    cases heq
    exact Nat.le_succ_of_le (Nat.le_of_lt (scanDigits_length hp))
  · obtain ⟨p, hp, heq⟩ := Option.map_eq_some_iff.1 h
    cases heq
    exact Nat.le_succ_of_le (Nat.le_of_lt (scanDigits_length hp))
  · obtain ⟨p, hp, heq⟩ := Option.map_eq_some_iff.1 h
    cases heq
    exact Nat.le_of_lt (scanDigits_length hp)

theorem scanExponent_length {text rest : List Char} {e : Option ExponentText}
    (h : scanExponent text = some (e, rest)) : rest.length ≤ text.length := by
  unfold scanExponent at h
  split at h
  · split at h
    · obtain ⟨p, hp, heq⟩ := Option.map_eq_some_iff.1 h
      cases heq
      exact Nat.le_succ_of_le (scanExponentDigits_length hp)
    · cases h
      exact Nat.le_refl _
  · cases h
    exact Nat.le_refl _

theorem scanMagnitude_length {negative : Bool} {text rest : List Char} {n : Numeral}
    (h : scanMagnitude negative text = some (n, rest)) : rest.length < text.length := by
  unfold scanMagnitude at h
  split at h
  · contradiction
  · next hw =>
    split at h
    · contradiction
    · next hf =>
      split at h
      · contradiction
      · next he =>
        cases h
        exact Nat.lt_of_le_of_lt (scanExponent_length he)
          (Nat.lt_of_le_of_lt (scanFraction_length hf) (scanWhole_length hw))

theorem scanNumeral_length {text rest : List Char} {n : Numeral}
    (h : scanNumeral text = some (n, rest)) : rest.length < text.length := by
  unfold scanNumeral at h
  split at h
  · exact Nat.lt_succ_of_lt (scanMagnitude_length h)
  · exact scanMagnitude_length h

theorem dropWord_length {word text rest : List Char} (h : dropWord word text = some rest) :
    rest.length ≤ text.length := by
  fun_induction dropWord word text with
  | case1 => exact Nat.le_of_eq (congrArg List.length (Option.some.inj h)).symm
  | case2 => contradiction
  | case3 _ _ _ _ _ ih => exact Nat.le_succ_of_le (ih h)
  | case4 => contradiction

theorem scanToken_length {text rest : List Char} {token : Token}
    (h : scanToken text = some (token, rest)) : rest.length < text.length := by
  unfold scanToken at h
  split at h
  case h_1 => contradiction
  case h_8 =>
    obtain ⟨p, hp, heq⟩ := Option.map_eq_some_iff.1 h
    cases heq
    exact Nat.lt_succ_of_lt (scanItems_length hp)
  case h_9 | h_10 | h_11 =>
    obtain ⟨p, hp, heq⟩ := Option.map_eq_some_iff.1 h
    cases heq
    exact Nat.lt_succ_of_le (dropWord_length hp)
  case h_12 =>
    obtain ⟨p, hp, heq⟩ := Option.map_eq_some_iff.1 h
    cases heq
    exact scanNumeral_length hp
  all_goals
    cases h
    exact Nat.lt_succ_self _

/-- **Progress.** A token is never empty. -/
theorem nextToken_length {text rest : List Char} {token : Token}
    (h : nextToken text = some (token, rest)) : rest.length < text.length :=
  Nat.lt_of_lt_of_le (scanToken_length h)
    (List.Sublist.length_le (List.dropWhile_sublist isBlank))

end GlyphMath.Json
