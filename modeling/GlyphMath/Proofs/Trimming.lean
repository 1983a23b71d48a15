import GlyphMath.Proofs.PlainText
import GlyphMath.Text.Blank

/-!
# Blanks at the ends of a text

* `isBlank_of_visible` -- the visible characters of ASCII are no blanks.

Principal result:

* `trim_eq` -- a text without blanks is not changed when it is trimmed.
-/

set_option autoImplicit false

namespace GlyphMath.Text

theorem trim_eq {text : String} (h : ∀ c ∈ text.toList, isBlank c = false) :
    trim text = text := by
  have hdrop : ∀ {cs : List Char}, (∀ c ∈ cs, isBlank c = false) →
      cs.dropWhile isBlank = cs := by
    intro cs hcs
    cases cs with
    | nil => rfl
    | cons c cs => simp [hcs c]
  rw [trim, trimChars, hdrop h, hdrop (by simpa using h), List.reverse_reverse,
    String.ofList_toList]

/-- The visible characters of ASCII are no blanks. -/
theorem isBlank_of_visible {c : Char} (h : 0x21 ≤ c.toNat) (h' : c.toNat ≤ 0x7E) :
    isBlank c = false := by
  have hranges : ∀ range ∈ blankRanges, range.2 < 0x21 ∨ 0x7E < range.1 := by decide
  rw [isBlank, List.any_eq_false]
  intro range hrange
  have hrange := hranges range hrange
  simp only [Bool.and_eq_true, decide_eq_true_iff]
  omega

theorem isBlank_of_isDigit {c : Char} (h : Decimal.isDigit c = true) : isBlank c = false := by
  have hcode := Decimal.isDigit_iff.1 h
  exact isBlank_of_visible (by omega) (by omega)

end GlyphMath.Text
