import GlyphMath.Proofs.Printing

/-!
# Printing undoes parsing

* `Canonical.printable` -- a tree of the parser's shape whose leaves were read from a text can be
  printed, and is its own normal form.

Principal result:

* `parse_toText` -- the text of a parsed tree is read as that tree.
-/

set_option autoImplicit false

namespace GlyphMath.Formula

open GlyphMath.Decimal

theorem mem_yieldAll {e : Expr} {es : List Expr} (he : e ∈ es) {x : Token} (hx : x ∈ yield e) :
    x ∈ yieldAll es := by
  induction es with
  | nil => cases he
  | cons e' es ih =>
    rw [yieldAll, List.mem_append]
    rcases List.mem_cons.1 he with rfl | he
    · exact Or.inl hx
    · exact Or.inr (ih he)

theorem foldl_tree {op : Operator} {node : List Expr → Expr}
    (hnode : ∀ es e, op.tree (node es) e = node (es ++ [e])) (es rest : List Expr) :
    rest.foldl op.tree (node es) = node (es ++ rest) := by
  induction rest generalizing es with
  | nil =>
    rw [List.append_nil]
    rfl
  | cons e rest ih =>
    rw [List.foldl_cons, hnode, ih, List.append_assoc]
    rfl

/-- Children of which the first is of another kind are put together as they are. -/
theorem gathered_eq {op : Operator} {node : List Expr → Expr}
    (hnode : ∀ es e, op.tree (node es) e = node (es ++ [e])) {first : Expr} {rest : List Expr}
    (hne : rest ≠ []) (hfirst : ∀ e, op.tree first e = node [first, e]) :
    gathered op (first :: rest) = node (first :: rest) := by
  obtain ⟨second, rest, rfl⟩ := List.exists_cons_of_ne_nil hne
  rw [gathered, List.foldl_cons, hfirst, foldl_tree hnode]
  rfl

theorem normAll_of_forall {es : List Expr} (h : ∀ e ∈ es, norm e = e) : normAll es = es := by
  rw [normAll_eq, List.map_congr_left (g := id) h, List.map_id]

/-- **A tree of the parser's shape, with leaves that were read, is printed as itself.** -/
theorem Canonical.printable {t : Expr} (h : Canonical t) (hleaf : ∀ x ∈ yield t, x.IsWritten) :
    Printable t ∧ norm t = t := by
  induction h with
  | number v =>
    obtain ⟨s, k, hv⟩ := hleaf (.number v) (by simp [yield])
    refine ⟨.number hv, ?_⟩
    rw [norm, (isCanonical_of_finite hv).1]
    rfl
  | name text => exact ⟨.name (hleaf (.name text) (by simp [yield])), rfl⟩
  | @sum first rest hne hfirst _ ih =>
    have hes : ∀ e ∈ first :: rest, Printable e ∧ norm e = e := fun e he =>
      ih e he fun x hx => hleaf x (by rw [yield]; exact mem_yieldAll he hx)
    refine ⟨.sum (List.cons_ne_nil _ _) fun e he => (hes e he).1, ?_⟩
    rw [norm, normAll_of_forall fun e he => (hes e he).2,
      gathered_eq (fun _ _ => rfl) hne fun e => tree_add e hfirst]
  | @product first rest hne hfirst _ ih =>
    have hes : ∀ e ∈ first :: rest, Printable e ∧ norm e = e := fun e he =>
      ih e he fun x hx => hleaf x (by rw [yield]; exact mem_yieldAll he hx)
    refine ⟨.product (List.cons_ne_nil _ _) fun e he => (hes e he).1, ?_⟩
    rw [norm, normAll_of_forall fun e he => (hes e he).2,
      gathered_eq (fun _ _ => rfl) hne fun e => tree_mul e hfirst]
  | quotient _ _ iha ihb =>
    have ha := iha fun x hx => hleaf x (by rw [yield]; exact List.mem_append_left _ hx)
    have hb := ihb fun x hx => hleaf x (by rw [yield]; exact List.mem_append_right _ hx)
    exact ⟨.quotient ha.1 hb.1, by rw [norm, ha.2, hb.2]⟩
  | power _ _ iha ihb =>
    have ha := iha fun x hx => hleaf x (by rw [yield]; exact List.mem_append_left _ hx)
    have hb := ihb fun x hx => hleaf x (by rw [yield]; exact List.mem_append_right _ hx)
    exact ⟨.power ha.1 hb.1, by rw [norm, ha.2, hb.2]⟩
  | @call f args hf _ ih =>
    have hargs : ∀ e ∈ args, Printable e ∧ norm e = e := fun e he =>
      ih e he fun x hx => hleaf x (by rw [yield]; exact mem_yieldAll he hx)
    refine ⟨.call hf fun e he => (hargs e he).1, ?_⟩
    rw [norm, normAll_of_forall fun e he => (hargs e he).2]

theorem shape_of_parse {text : String} {t : Expr} (h : parse text = .ok t) :
    ∃ ls, tokenize text = .ok ls ∧ Sound t ∧
      yield t = (ls.map (·.token)).filter Token.isLeaf := by
  unfold parse at h
  split at h
  · cases h
  · rename_i ls htokenize
    have hwritten := isWritten_of_tokenize htokenize
    exact ⟨ls, htokenize, shape_of_parseTokens (fun l hl f hf => by
      have := hwritten l hl
      rwa [hf] at this) h⟩

theorem sound_of_parse {text : String} {t : Expr} (h : parse text = .ok t) :
    Sound t ∧ ∀ x ∈ yield t, x.IsWritten := by
  obtain ⟨ls, htokenize, hsound, hyield⟩ := shape_of_parse h
  refine ⟨hsound, fun x hx => ?_⟩
  rw [hyield, List.mem_filter] at hx
  obtain ⟨l, hl, rfl⟩ := List.mem_map.1 hx.1
  exact isWritten_of_tokenize htokenize l hl

/-- **Printing undoes parsing**: the text of a parsed tree is read as that tree, its names and the
bits of its numbers included. -/
theorem parse_toText {text : String} {t : Expr} (h : parse text = .ok t) :
    parse t.toText = .ok t := by
  obtain ⟨hsound, hleaf⟩ := sound_of_parse h
  obtain ⟨hprint, hnorm⟩ := hsound.shape.printable hleaf
  obtain ⟨offset, hparse⟩ := parse_print hprint
  rw [hparse, hnorm, Operand.made_of_le hsound.height]
  rfl

/-- The tree of `(1.50 + x) + 7 * |y - 2^-π|`, with the sums joined and the zero dropped. -/
def blankedTree : Expr :=
  .sum [.number 1.5, .variable "x",
    .product [.number 7, .call "abs" [.call "sub"
      [.variable "y", .power (.number 2) (.call "neg" [.variable "pi"])]]]]

theorem parse_toText_blanked :
    parse " (1.50 + x) + 7 * abs(y - 2^-π|" = .ok blankedTree ∧
      parse blankedTree.toText = .ok blankedTree :=
  have h : parse " (1.50 + x) + 7 * abs(y - 2^-π|" = .ok blankedTree := by decide +kernel
  ⟨h, parse_toText h⟩

end GlyphMath.Formula
