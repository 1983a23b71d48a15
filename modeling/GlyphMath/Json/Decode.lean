import GlyphMath.Json.Number
import GlyphMath.Json.Reader

/-!
# Decoding strings and numbers

* `decodeItems` -- the text of a string, its surrogate pairs put together.
* `Source.value?` -- a whole document with every string, key and number decoded.
* `Source.fields?` -- the members of an object with their keys decoded and their values as written.
* `single?` -- the value under a key that must not stand twice.
-/

set_option autoImplicit false

namespace GlyphMath.Json

/-! ## Strings -/

/-- The first half of a surrogate pair. -/
def isLeading (n : Nat) : Bool := 0xD800 ≤ n && n < 0xDC00

/-- The second half of a surrogate pair. -/
def isTrailing (n : Nat) : Bool := 0xDC00 ≤ n && n < 0xE000

/-- The character of a surrogate pair. -/
def pairChar (leading trailing : Nat) : Char :=
  Char.ofNat (0x10000 + (leading - 0xD800) * 0x400 + (trailing - 0xDC00))

/-- The characters of a string.  A half of a surrogate pair without the other is refused. -/
def decodeItems : List Item → Option (List Char)
  | [] => some []
  | .char c :: rest => (decodeItems rest).map (c :: ·)
  | .unit n :: .unit m :: rest =>
    if isLeading n then
      if isTrailing m then (decodeItems rest).map (pairChar n m :: ·) else none
    else if isTrailing n then none
    else (decodeItems (.unit m :: rest)).map (Char.ofNat n :: ·)
  | .unit n :: rest =>
    if isLeading n || isTrailing n then none else (decodeItems rest).map (Char.ofNat n :: ·)

/-- The text of a string. -/
def stringOfItems? (items : List Item) : Option String := (decodeItems items).map String.ofList

/-! ## Documents -/

mutual

/-- A document with all of its strings and numbers decoded. -/
def Source.value? : Source → Option Value
  | .null => some .null
  | .bool b => some (.bool b)
  | .number n =>
    match n.number? with
    | none => none
    | some x => some (.number x)
  | .string s =>
    match stringOfItems? s with
    | none => none
    | some t => some (.string t)
  | .list items =>
    match values? items with
    | none => none
    | some vs => some (.list vs)
  | .object members =>
    match memberValues? members with
    | none => none
    | some ms => some (.object ms)

def values? : List Source → Option (List Value)
  | [] => some []
  | d :: ds =>
    match Source.value? d with
    | none => none
    | some v =>
      match values? ds with
      | none => none
      | some vs => some (v :: vs)

def memberValues? : List (List Item × Source) → Option (List (String × Value))
  | [] => some []
  | (k, d) :: ms =>
    match stringOfItems? k with
    | none => none
    | some key =>
      match Source.value? d with
      | none => none
      | some v =>
        match memberValues? ms with
        | none => none
        | some rest => some ((key, v) :: rest)

end

/-- Members with their keys decoded and their values as written. -/
def decodeKeys : List (List Item × Source) → Option (List (String × Source))
  | [] => some []
  | (k, d) :: ms =>
    match stringOfItems? k with
    | none => none
    | some key =>
      match decodeKeys ms with
      | none => none
      | some rest => some ((key, d) :: rest)

/-- The members of an object with their keys decoded. -/
def Source.fields? : Source → Option (List (String × Source))
  | .object members => decodeKeys members
  | _ => none

def Source.number? : Source → Option Number
  | .number n => n.number?
  | _ => none

def Source.string? : Source → Option String
  | .string s => stringOfItems? s
  | _ => none

/-! ## Members -/

/-- The values under a key, in order. -/
def valuesUnder {α : Type} (key : String) (members : List (String × α)) : List α :=
  (members.filter (·.1 == key)).map (·.2)

/-- The value under a key that stands at most once: nothing where it stands twice, `some none`
where it does not stand. -/
def atMostOne? {α : Type} (key : String) (members : List (String × α)) : Option (Option α) :=
  match valuesUnder key members with
  | [] => some none
  | [v] => some (some v)
  | _ => none

/-- The value under a key that stands exactly once. -/
def single? {α : Type} (key : String) (members : List (String × α)) : Option α :=
  match valuesUnder key members with
  | [v] => some v
  | _ => none

theorem mem_valuesUnder {α : Type} {key : String} {members : List (String × α)} {a : α} :
    a ∈ valuesUnder key members ↔ (key, a) ∈ members := by
  simp [valuesUnder]

theorem length_valuesUnder {α : Type} (key : String) (members : List (String × α)) :
    (valuesUnder key members).length = (members.map Prod.fst).count key := by
  rw [valuesUnder, List.length_map, List.count, List.countP_map, List.countP_eq_length_filter]
  rfl

/-- A key that stands exactly once has the value that stands under it. -/
theorem single?_eq_some {α : Type} {key : String} {members : List (String × α)} {a : α} :
    single? key members = some a ↔ (key, a) ∈ members ∧ (members.map Prod.fst).count key = 1 := by
  rw [← mem_valuesUnder, ← length_valuesUnder]
  unfold single?
  split
  · rename_i b hvalues
    rw [hvalues]
    simp [eq_comm]
  · rename_i hvalues
    constructor
    · exact nofun
    · rintro ⟨-, hlength⟩
      obtain ⟨b, hb⟩ := List.length_eq_one_iff.1 hlength
      exact absurd hb (hvalues b)

theorem atMostOne?_of_single? {α : Type} {key : String} {members : List (String × α)} {a : α}
    (h : single? key members = some a) : atMostOne? key members = some (some a) := by
  unfold single? at h
  split at h
  · rename_i hvalues
    cases h
    rw [atMostOne?, hvalues]
  · cases h

/-- A key that stands at most once does not stand, or has a single value. -/
theorem cases_of_atMostOne? {α : Type} {key : String} {members : List (String × α)}
    {v : Option α} (h : atMostOne? key members = some v) :
    (v = none ∧ ∀ m ∈ members, m.1 ≠ key) ∨ ∃ a, v = some a ∧ single? key members = some a := by
  unfold atMostOne? at h
  split at h
  · rename_i hnone
    cases h
    refine Or.inl ⟨rfl, ?_⟩
    rintro ⟨k, a⟩ hm rfl
    have hmem := mem_valuesUnder.2 hm
    rw [hnone] at hmem
    cases hmem
  · rename_i a hone
    cases h
    exact Or.inr ⟨a, rfl, by rw [single?, hone]⟩
  · cases h

end GlyphMath.Json
