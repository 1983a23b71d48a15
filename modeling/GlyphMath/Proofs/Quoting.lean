import GlyphMath.Json.Decode
import GlyphMath.Json.Writer

/-!
# Strings in quotes are read back

* `SpellsItem`, `SpellsItems` -- the texts of the items of a string.
* `itemOf` -- the item that a written character is scanned as: itself, or the unit of its code where
  it is a control character without a letter of its own.

Principal results:

* `scanItems_append`, `spellsItems_of_scan` -- the texts that are scanned as a string.
* `spellsItems_escape` -- a string in quotes is a text of its items, whatever it holds.
* `stringOfItems?_itemsOf` -- its items are decoded as the string.
-/

set_option autoImplicit false

namespace GlyphMath.Json

/-! ## The texts of a string -/

/-- The texts of an item of a string. -/
inductive SpellsItem : List Char → Item → Prop where
  | plain {c : Char} (hcontrol : ¬ c.toNat < 0x20) (hquote : c ≠ '"') (hslash : c ≠ '\\') :
      SpellsItem [c] (.char c)
  | letter {e c : Char} (hletter : escaped? e = some c) : SpellsItem ['\\', e] (.char c)
  | unit {a b c d : Char} {n : Nat} (hdigits : hexUnit? a b c d = some n) :
      SpellsItem ['\\', 'u', a, b, c, d] (.unit n)

/-- The texts of the items of a string, one after another. -/
inductive SpellsItems : List Char → List Item → Prop where
  | nil : SpellsItems [] []
  | cons {word rest : List Char} {item : Item} {items : List Item} :
      SpellsItem word item → SpellsItems rest items → SpellsItems (word ++ rest) (item :: items)

theorem scanItems_item {word : List Char} {item : Item} (h : SpellsItem word item)
    (rest : List Char) : scanItems (word ++ rest) = addItem item (scanItems rest) := by
  cases h with
  | plain hcontrol hquote hslash =>
    rw [List.cons_append, List.nil_append,
      scanItems.eq_5 _ rest hquote (fun _ _ _ _ _ h _ => hslash h) fun _ _ h _ => hslash h, if_neg]
    rw [Bool.or_eq_true, decide_eq_true_iff, beq_iff_eq, not_or]
    exact ⟨hcontrol, hslash⟩
  | letter hletter =>
    rename_i e c
    have hunit : e ≠ 'u' := by
      rintro rfl
      cases hletter
    rw [List.cons_append, List.cons_append, List.nil_append,
      scanItems.eq_4 e rest fun _ _ _ _ _ h _ => hunit h, hletter]
  | unit hdigits =>
    simp only [List.cons_append, List.nil_append]
    rw [scanItems.eq_3, hdigits]

/-- **A text of items is scanned as these up to the closing quote.** -/
theorem scanItems_append {body : List Char} {items : List Item} (h : SpellsItems body items)
    (rest : List Char) : scanItems (body ++ '"' :: rest) = some (items, rest) := by
  induction h with
  | nil => rfl
  | cons hitem _ ih =>
    rw [List.append_assoc, scanItems_item hitem, ih]
    rfl

/-- **What is scanned as a string is a text of its items.** -/
theorem spellsItems_of_scan {text rest : List Char} {items : List Item}
    (h : scanItems text = some (items, rest)) :
    ∃ body, text = body ++ '"' :: rest ∧ SpellsItems body items := by
  fun_induction scanItems text generalizing items rest with
  | case1 => cases h
  | case2 tail =>
    cases h
    exact ⟨[], rfl, .nil⟩
  | case3 => cases h
  | case4 a b c d tail n hunit ih =>
    obtain ⟨_, htail, rfl⟩ := addItem_eq_some h
    obtain ⟨body, rfl, hbody⟩ := ih htail
    exact ⟨_, rfl, .cons (.unit hunit) hbody⟩
  | case5 => cases h
  | case6 e tail _ c hletter ih =>
    obtain ⟨_, htail, rfl⟩ := addItem_eq_some h
    obtain ⟨body, rfl, hbody⟩ := ih htail
    exact ⟨_, rfl, .cons (.letter hletter) hbody⟩
  | case7 => cases h
  | case8 c tail hquote _ _ hc ih =>
    obtain ⟨_, htail, rfl⟩ := addItem_eq_some h
    obtain ⟨body, rfl, hbody⟩ := ih htail
    rw [Bool.or_eq_true, not_or, decide_eq_true_iff, beq_iff_eq] at hc
    exact ⟨_, rfl, .cons (.plain hc.1 (fun heq => hquote heq) hc.2) hbody⟩

/-! ## Strings in quotes -/

/-- The item that a written character is scanned as. -/
def itemOf (c : Char) : Item :=
  if c.toNat < 0x20 ∧ c ≠ '\x08' ∧ c ≠ '\x0c' ∧ c ≠ '\n' ∧ c ≠ '\r' ∧ c ≠ '\t' then .unit c.toNat
  else .char c

/-- The items that a string in quotes is scanned as. -/
def itemsOf (s : String) : List Item := s.toList.map itemOf

theorem hexValue?_hexDigit : ∀ n < 16, hexValue? (hexDigit n) = some n := by decide

theorem hexUnit?_hexDigit {n : Nat} (hn : n < 0x20) :
    hexUnit? '0' '0' (hexDigit (n / 16)) (hexDigit (n % 16)) = some n := by
  have hzero : hexValue? '0' = some 0 := by decide
  rw [hexUnit?, hzero, hexValue?_hexDigit _ (by omega), hexValue?_hexDigit _ (by omega)]
  simp only [Option.some.injEq]
  omega

theorem spellsItem_escapeChar (c : Char) : SpellsItem (escapeChar c) (itemOf c) := by
  unfold escapeChar
  split
  case h_8 hquote hslash hb hf hn hr ht =>
    have hnone := And.intro hb (And.intro hf (And.intro hn (And.intro hr ht)))
    split
    · rename_i hcontrol
      rw [itemOf, if_pos ⟨hcontrol, hnone⟩]
      exact .unit (hexUnit?_hexDigit hcontrol)
    · rename_i hcontrol
      rw [itemOf, if_neg fun h => hcontrol h.1]
      exact .plain hcontrol hquote hslash
  all_goals
    exact .letter rfl

/-- **A string in quotes is a text of its items**, whatever it holds. -/
theorem spellsItems_escape (cs : List Char) :
    SpellsItems (cs.flatMap escapeChar) (cs.map itemOf) := by
  induction cs with
  | nil => exact .nil
  | cons c cs ih => exact .cons (spellsItem_escapeChar c) ih

/-! ## Decoding strings -/

/-- A unit outside of the surrogates is a character of its own. -/
theorem decodeItems_unit {n : Nat} (hn : n < 0xD800) (items : List Item) :
    decodeItems (.unit n :: items) = (decodeItems items).map (Char.ofNat n :: ·) := by
  have hleading : isLeading n = false := by
    rw [isLeading, decide_eq_false (by omega), Bool.false_and]
  have htrailing : isTrailing n = false := by
    rw [isTrailing, decide_eq_false (by omega), Bool.false_and]
  cases items with
  | nil => simp [decodeItems, hleading, htrailing]
  | cons item items =>
    cases item <;> simp [decodeItems, hleading, htrailing]

theorem decodeItems_itemOf (c : Char) (items : List Item) :
    decodeItems (itemOf c :: items) = (decodeItems items).map (c :: ·) := by
  unfold itemOf
  split
  · rename_i h
    rw [decodeItems_unit (by omega), Char.ofNat_toNat]
  · rw [decodeItems]

/-- **The items of a string are decoded as the string.** -/
theorem stringOfItems?_itemsOf (s : String) : stringOfItems? (itemsOf s) = some s := by
  have h : ∀ cs : List Char, decodeItems (cs.map itemOf) = some cs := by
    intro cs
    induction cs with
    | nil => rfl
    | cons c cs ih =>
      rw [List.map_cons, decodeItems_itemOf, ih]
      rfl
  rw [stringOfItems?, itemsOf, h, Option.map_some, String.ofList_toList]

end GlyphMath.Json
