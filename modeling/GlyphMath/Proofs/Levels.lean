import GlyphMath.Proofs.Storing

/-!
# How high a tree from a document is

* `two_mul_height_le` -- every level of a tree but a leaf takes two brackets of its document.
* `tower` -- calls of one function around a name, as many as wanted.

Principal result:

* `height_of_ofJson` -- a tree that is read from a document is at most one level higher than a
  parsed tree can be, and exactly so high as a parsed tree where its own document leaves one bracket
  of the deepest nesting free.

A leaf takes one bracket where a call without arguments takes two.  The outermost object and a call
without arguments at the greatest height come to one bracket less than the deepest nesting that is
read, so that one more level has room where it is a leaf, as in `ofJson_admits_tower`.
-/

set_option autoImplicit false

namespace GlyphMath

open Json (itemsNesting)

namespace Expr

/-! ## Levels and brackets -/

mutual

/-- Every level of a tree but a leaf is written with two brackets, and a leaf with one. -/
theorem two_mul_height_le : ∀ t : Expr, 2 * t.height ≤ t.toValue.nesting + 1
  | .number _ => by simp [toValue, height]
  | .variable _ => by simp [toValue, height]
  | .sum terms => by
    have := two_mul_tallest_le terms
    simp [toValue, height]
    omega
  | .product factors => by
    have := two_mul_tallest_le factors
    simp [toValue, height]
    omega
  | .quotient a b => by
    have := two_mul_height_le a
    have := two_mul_height_le b
    simp [toValue, height]
    omega
  | .power a b => by
    have := two_mul_height_le a
    have := two_mul_height_le b
    simp [toValue, height]
    omega
  | .call _ args => by
    have := two_mul_tallest_le args
    simp [toValue, height]
    omega

theorem two_mul_tallest_le : ∀ es : List Expr, 2 * tallest es ≤ itemsNesting (toValues es) + 1
  | [] => Nat.zero_le _
  | e :: es => by
    have := two_mul_height_le e
    have := two_mul_tallest_le es
    rw [toValues, itemsNesting, tallest]
    omega

end

/-- **The height of a tree that is read from a document**, whatever forms its nodes have and
whatever else the document holds.  It is at most one level above the height of parsed trees.  It
is not above that height exactly where the tree is written with fewer brackets than may be read,
and so it is where the text has fewer. -/
theorem height_of_ofJson {text : String} {t : Expr} (h : ofJson text = .ok t) :
    t.height ≤ Formula.maxHeight + 1 ∧
      (t.height ≤ Formula.maxHeight ↔ t.envelope.nesting < maxNesting) ∧
      (Json.nestingDepth text.toList < maxNesting → t.height ≤ Formula.maxHeight) := by
  obtain ⟨-, hwritten, hread⟩ := nesting_of_ofJson h
  have hlow := two_mul_height_le t
  have hhigh := nesting_toValue_le t
  rw [nesting_envelope] at hwritten ⊢
  rw [maxNesting] at hread ⊢
  refine ⟨?_, ?_, ?_⟩
  · omega
  · constructor
    · intro hheight
      omega
    · intro hnesting
      omega
  · intro hnesting
    omega

/-- A document with its fields in another order, nodes written as lists, and fields that nobody
reads. -/
def mixedText : String :=
  "\x7b\"note\":[[[]]],\"expr\":[\"Func\",\"sin\"," ++
    "[\x7b\"value\":2,\"unit\":\x7b\x7d,\"type\":\"Num\"\x7d]],\"version\":1\x7d"

theorem height_of_ofJson_mixed :
    ofJson mixedText = .ok (.call "sin" [.number 2]) ∧
      Json.nestingDepth mixedText.toList < maxNesting ∧
      (Expr.call "sin" [.number 2]).height ≤ Formula.maxHeight :=
  have h : ofJson mixedText = .ok (.call "sin" [.number 2]) := by decide +kernel
  have hnesting : Json.nestingDepth mixedText.toList < maxNesting := by decide +kernel
  ⟨h, hnesting, (height_of_ofJson h).2.2 hnesting⟩

/-! ## The highest tree that is read -/

/-- So many calls of one function around a name. -/
def tower : Nat → Expr
  | 0 => .variable "x"
  | n + 1 => .call "sin" [tower n]

theorem height_tower (n : Nat) : (tower n).height = n + 1 := by
  induction n with
  | zero => rfl
  | succ n ih => simp [tower, height, tallest, ih]

theorem nesting_tower (n : Nat) : (tower n).toValue.nesting = 2 * n + 1 := by
  induction n with
  | zero => rfl
  | succ n ih =>
    simp [tower, toValue, toValues, ih]
    omega

theorem filled_tower (n : Nat) : Filled (tower n) := by
  induction n with
  | zero => exact .name "x"
  | succ n ih =>
    refine .call "sin" ?_
    intro e he
    rw [List.mem_singleton.1 he]
    exact ih

theorem yield_tower (n : Nat) : Formula.yield (tower n) = [.name "x"] := by
  induction n with
  | zero => rfl
  | succ n ih => rw [tower, Formula.yield, Formula.yieldAll_singleton, ih]

/-- A tower is read from its document where the brackets of the document may be read. -/
theorem ofJson_tower {n : Nat} (h : n ≤ Formula.maxHeight) :
    ofJson (tower n).toJson = .ok (tower n) := by
  have hstorable : Storable (tower n) := by
    refine ⟨filled_tower n, ?_⟩
    rw [nesting_envelope, nesting_tower, maxNesting]
    omega
  have hreread : (tower n).reread = .ok (tower n) := by
    rw [reread_eq_self_iff, yield_tower]
    intro v hv
    simp at hv
  rw [toJson, hstorable.ofJson_ofList (Json.ofText?_compact _), hreread]

/-- A document is read whose tree is one level higher than the highest parsed tree. -/
theorem ofJson_admits_tower :
    ofJson (tower Formula.maxHeight).toJson = .ok (tower Formula.maxHeight) ∧
      ¬ (tower Formula.maxHeight).height ≤ Formula.maxHeight := by
  refine ⟨ofJson_tower (Nat.le_refl _), ?_⟩
  rw [height_tower]
  exact Nat.not_succ_le_self _

end Expr

end GlyphMath
