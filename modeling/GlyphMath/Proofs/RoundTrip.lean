import GlyphMath.Proofs.Nodes
import GlyphMath.Proofs.ReadBack

/-!
# Writing a tree as a document and reading it again

* `Node.nesting` -- the brackets of the document that a node is written as.
* `nesting_ofValue?` -- a document has at least the brackets of the node that it is decoded as.
* `Storable` -- the trees that are written so that they can be read: their document is not nested
  too deep, and sums and products have children.
* `storable_of_parse`, `storable_of_ofJson` -- every tree that is read from a text is so.

Principal result:

* `ofJson_toJson` -- a tree that was read, from expression text or from a document, is read again
  from both of its documents, its numbers from their texts.
-/

set_option autoImplicit false

namespace GlyphMath

open Json (Tree Value Source Number itemsNesting membersNesting)

/-! ## The nesting of nodes -/

mutual

/-- The brackets of the document that a node is written as. -/
def Node.nesting : Node → Nat
  | .num _ => 1
  | .sym _ => 1
  | .operation _ args => nodesNesting args + 2
  | .func _ args => nodesNesting args + 2

def nodesNesting : List Node → Nat
  | [] => 0
  | node :: nodes => max node.nesting (nodesNesting nodes)

end

mutual

theorem Json.nesting_value? : ∀ {d : Source} {v : Value}, d.value? = some v → v.nesting = d.nesting
  | .null, _, h => by
    cases h
    rfl
  | .bool _, _, h => by
    cases h
    rfl
  | .number n, _, h => by
    rw [Source.value?] at h
    split at h <;> cases h
    rfl
  | .string s, _, h => by
    rw [Source.value?] at h
    split at h <;> cases h
    rfl
  | .list ds, _, h => by
    rw [Json.value?_list] at h
    obtain ⟨vs, hvs, rfl⟩ := Option.map_eq_some_iff.1 h
    rw [Tree.nesting, Tree.nesting, Json.itemsNesting_values? hvs]
  | .object ms, _, h => by
    rw [Source.value?] at h
    split at h
    · cases h
    · rename_i hms
      cases h
      rw [Tree.nesting, Tree.nesting, Json.membersNesting_memberValues? hms]

theorem Json.itemsNesting_values? :
    ∀ {ds : List Source} {vs : List Value}, Json.values? ds = some vs →
      itemsNesting vs = itemsNesting ds
  | [], _, h => by
    cases h
    rfl
  | d :: ds, _, h => by
    rw [Json.values?] at h
    split at h
    · cases h
    · rename_i hv
      split at h
      · cases h
      · rename_i hvs
        cases h
        rw [itemsNesting, itemsNesting, Json.nesting_value? hv, Json.itemsNesting_values? hvs]

theorem Json.membersNesting_memberValues? :
    ∀ {ds : List (List Json.Item × Source)} {vs : List (String × Value)},
      Json.memberValues? ds = some vs → membersNesting vs = membersNesting ds
  | [], _, h => by
    cases h
    rfl
  | (k, d) :: ds, _, h => by
    rw [Json.memberValues?] at h
    split at h
    · cases h
    · split at h
      · cases h
      · rename_i hv
        split at h
        · cases h
        · rename_i hvs
          cases h
          rw [membersNesting, membersNesting, Json.nesting_value? hv,
            Json.membersNesting_memberValues? hvs]

end

/-! ## Decoded nodes -/

namespace Node

theorem nesting_ofNumber? {v : Option Value} {node : Node} (h : ofNumber? v = some node) :
    node.nesting = 1 := by
  unfold ofNumber? at h
  split at h <;> cases h
  rfl

theorem nesting_ofName? {v : Option Value} {node : Node} (h : ofName? v = some node) :
    node.nesting = 1 := by
  unfold ofName? at h
  split at h <;> cases h
  rfl

theorem nesting_ofArgs? {tag : OperationTag} {args : Option (Option (List Node))} {node : Node}
    (h : ofArgs? tag args = some node) :
    ∃ nodes, args = some (some nodes) ∧ node.nesting = nodesNesting nodes + 2 := by
  unfold ofArgs? at h
  split at h <;> cases h
  exact ⟨_, rfl, rfl⟩

theorem nesting_ofCall? {name : Option Value} {args : Option (Option (List Node))} {node : Node}
    (h : ofCall? name args = some node) :
    ∃ nodes, args = some (some nodes) ∧ node.nesting = nodesNesting nodes + 2 := by
  unfold ofCall? at h
  split at h <;> cases h
  exact ⟨_, rfl, rfl⟩

mutual

/-- **A document has the brackets of the node that it is decoded as**, and perhaps more.  The
induction is on the document; every place where arguments can stand is a case. -/
theorem nesting_ofValue? : ∀ {v : Value} {inner : Bool} {node : Node},
    ofValue? inner v = some node → node.nesting ≤ v.nesting
  | .object members, inner, node, h => by
    rw [Tree.nesting]
    have hargs {nodes : List Node}
        (hnodes : Json.single? "args" (memberNodes members) = some (some nodes)) :
        nodesNesting nodes + 2 ≤ membersNesting members + 1 :=
      Nat.succ_le_succ (nesting_memberNodes (Json.single?_eq_some.1 hnodes).1)
    rw [ofValue?] at h
    split at h
    · cases h
    · split at h
      · cases h
      · rw [nesting_ofNumber? h]
        omega
      · rw [nesting_ofName? h]
        omega
      · obtain ⟨nodes, hnodes, heq⟩ := nesting_ofArgs? h
        rw [heq]
        exact hargs hnodes
      · obtain ⟨nodes, hnodes, heq⟩ := nesting_ofCall? h
        rw [heq]
        exact hargs hnodes
  | .list (tag :: fields), inner, node, h => by
    rw [Tree.nesting, itemsNesting]
    have hargs {nodes : List Node} (hnodes : some nodes ∈ fieldNodes fields) :
        nodesNesting nodes + 2 ≤ max tag.nesting (itemsNesting fields) + 1 :=
      Nat.succ_le_succ (Nat.le_trans (nesting_fieldNodes hnodes) (Nat.le_max_right _ _))
    unfold ofValue? at h
    split at h
    · rw [nesting_ofNumber? h]
      omega
    · rw [nesting_ofName? h]
      omega
    · rename_i hfields
      obtain ⟨nodes, hnodes, heq⟩ := nesting_ofArgs? h
      rw [heq]
      cases hnodes
      exact hargs (by rw [hfields]; simp)
    · rename_i hfields
      obtain ⟨nodes, hnodes, heq⟩ := nesting_ofCall? h
      rw [heq]
      cases hnodes
      exact hargs (by rw [hfields]; simp)
    · cases h
  | .list [], _, _, h => by
    cases h
  | .null, _, _, h => by
    cases h
  | .bool _, _, _, h => by
    cases h
  | .number _, _, _, h => by
    cases h
  | .string _, _, _, h => by
    cases h

theorem nesting_ofValues? : ∀ {v : Value} {nodes : List Node},
    ofValues? v = some nodes → nodesNesting nodes + 1 ≤ v.nesting
  | .list items, nodes, h => by
    rw [Tree.nesting]
    exact Nat.succ_le_succ (nesting_ofItems? h)
  | .object _, _, h => by
    cases h
  | .null, _, h => by
    cases h
  | .bool _, _, h => by
    cases h
  | .number _, _, h => by
    cases h
  | .string _, _, h => by
    cases h

theorem nesting_ofItems? : ∀ {vs : List Value} {nodes : List Node},
    ofItems? vs = some nodes → nodesNesting nodes ≤ itemsNesting vs
  | [], _, h => by
    cases h
    exact Nat.le_refl _
  | v :: vs, _, h => by
    rw [ofItems?] at h
    split at h
    · cases h
    · rename_i hv
      split at h
      · cases h
      · rename_i hvs
        cases h
        rw [nodesNesting, itemsNesting]
        have := nesting_ofValue? hv
        have := nesting_ofItems? hvs
        omega

theorem nesting_fieldNodes : ∀ {vs : List Value} {nodes : List Node},
    some nodes ∈ fieldNodes vs → nodesNesting nodes + 1 ≤ itemsNesting vs
  | v :: vs, nodes, h => by
    rw [fieldNodes] at h
    rw [itemsNesting]
    rcases List.mem_cons.1 h with h | h
    · have := nesting_ofValues? h.symm
      omega
    · have := nesting_fieldNodes h
      omega

theorem nesting_memberNodes : ∀ {members : List (String × Value)} {key : String}
    {nodes : List Node}, (key, some nodes) ∈ memberNodes members →
      nodesNesting nodes + 1 ≤ membersNesting members
  | (k, v) :: ms, key, nodes, h => by
    rw [memberNodes] at h
    rw [membersNesting]
    rcases List.mem_cons.1 h with h | h
    · have := nesting_ofValues? (Prod.mk.inj h).2.symm
      omega
    · have := nesting_memberNodes h
      omega

end

/-- **Building an operation** keeps the brackets of its arguments. -/
theorem filled_of_build {tag : OperationTag} {es : List Expr} {t : Expr}
    (h : build tag es = .ok t) (hne : tag = .add ∨ tag = .mul → es ≠ [])
    (hes : ∀ e ∈ es, Expr.Filled e) :
    Expr.Filled t ∧ t.toValue.nesting = itemsNesting (Expr.toValues es) + 2 := by
  cases tag with
  | add =>
    cases h
    exact ⟨.sum (hne (Or.inl rfl)) hes, by simp [Expr.toValue]⟩
  | mul =>
    cases h
    exact ⟨.product (hne (Or.inr rfl)) hes, by simp [Expr.toValue]⟩
  | div =>
    simp only [build, pair] at h
    split at h <;> cases h
    exact ⟨.quotient (hes _ (by simp)) (hes _ (by simp)),
      by simp [Expr.toValue, Expr.toValues]⟩
  | pow =>
    simp only [build, pair] at h
    split at h <;> cases h
    exact ⟨.power (hes _ (by simp)) (hes _ (by simp)),
      by simp [Expr.toValue, Expr.toValues]⟩

mutual

/-- **The tree of a node** has children where it needs them, and is written with the brackets of
the node. -/
theorem filled_of_toExpr : ∀ {node : Node} {t : Expr}, node.toExpr = .ok t →
    Expr.Filled t ∧ t.toValue.nesting = node.nesting
  | .num v, _, h => by
    cases h
    exact ⟨.number v, rfl⟩
  | .sym name, _, h => by
    cases h
    exact ⟨.name name, rfl⟩
  | .operation tag args, t, h => by
    rw [toExpr] at h
    split at h
    · cases h
    · rename_i hargs
      split at h
      · cases h
      · rename_i es hes
        obtain ⟨hfilled, hnesting, hlength⟩ := filled_of_toExprs hes
        rw [nesting, ← hnesting]
        refine filled_of_build h (fun htag hnil => hargs ?_) hfilled
        rw [hnil, List.length_nil, eq_comm, List.length_eq_zero_iff] at hlength
        rw [hlength]
        rcases htag with rfl | rfl <;> rfl
  | .func name args, _, h => by
    rw [toExpr] at h
    split at h
    · cases h
    · rename_i es hes
      cases h
      obtain ⟨hfilled, hnesting, -⟩ := filled_of_toExprs hes
      refine ⟨.call name hfilled, ?_⟩
      rw [nesting, ← hnesting]
      simp [Expr.toValue]

theorem filled_of_toExprs : ∀ {nodes : List Node} {es : List Expr}, toExprs nodes = .ok es →
    (∀ e ∈ es, Expr.Filled e) ∧ itemsNesting (Expr.toValues es) = nodesNesting nodes ∧
      es.length = nodes.length
  | [], _, h => by
    cases h
    exact ⟨nofun, rfl, rfl⟩
  | node :: nodes, _, h => by
    rw [toExprs] at h
    split at h
    · cases h
    · rename_i he
      split at h
      · cases h
      · rename_i hes
        cases h
        obtain ⟨hfilled, hnesting⟩ := filled_of_toExpr he
        obtain ⟨hfilleds, hnestings, hlength⟩ := filled_of_toExprs hes
        refine ⟨fun e hmem => ?_, ?_, congrArg (· + 1) hlength⟩
        · rcases List.mem_cons.1 hmem with rfl | hmem
          · exact hfilled
          · exact hfilleds e hmem
        · rw [Expr.toValues, itemsNesting, nodesNesting, hnesting, hnestings]

end

end Node

/-! ## Trees that can be stored -/

theorem Json.nesting_le_of_decodeKeys {members : List (List Json.Item × Source)}
    {fields : List (String × Source)} (h : Json.decodeKeys members = some fields) {key : String}
    {d : Source} (hd : (key, d) ∈ fields) : d.nesting ≤ membersNesting members := by
  induction members generalizing fields with
  | nil =>
    cases h
    cases hd
  | cons m ms ih =>
    rw [Json.decodeKeys] at h
    split at h
    · cases h
    · split at h
      · cases h
      · rename_i hms
        cases h
        rw [membersNesting]
        rcases List.mem_cons.1 hd with heq | hd
        · cases heq
          exact Nat.le_max_left _ _
        · exact Nat.le_trans (ih hms hd) (Nat.le_max_right _ _)

/-- The node of a document stands inside its outermost object. -/
theorem nesting_documentNode? {d : Source} {node : Node} (h : documentNode? d = some node) :
    node.nesting + 1 ≤ d.nesting := by
  unfold documentNode? at h
  split at h
  · cases h
  · rename_i hfields
    split at h
    · cases h
    · rename_i hexpr
      split at h
      · cases h
      · rename_i hvalue
        unfold Source.fields? at hfields
        split at hfields
        · have hnode := Node.nesting_ofValue? h
          have hmem := Json.nesting_le_of_decodeKeys hfields (Json.single?_eq_some.1 hexpr).1
          rw [Json.nesting_value? hvalue] at hnode
          rw [Tree.nesting]
          omega
        · cases hfields

namespace Expr

/-- A document with a tree has a node with that tree. -/
theorem node_of_ofDocument {d : Source} {t : Expr} (h : ofDocument d = .ok t) :
    ∃ node, documentNode? d = some node ∧ node.toExpr = .ok t := by
  unfold ofDocument at h
  split at h
  · cases h
  · split at h
    · cases h
    · split at h
      · split at h
        · cases h
        · rename_i hnode
          exact ⟨_, hnode, h⟩
      · cases h

/-- The document of a tree can be read: it is not nested too deep, and sums and products have
children. -/
structure Storable (t : Expr) : Prop where
  filled : Filled t
  nesting : t.envelope.nesting ≤ maxNesting

theorem nesting_envelope (t : Expr) : t.envelope.nesting = t.toValue.nesting + 1 := by
  simp [envelope]

mutual

theorem nesting_toValue_le : ∀ t : Expr, t.toValue.nesting ≤ 2 * t.height
  | .number _ => by simp [toValue, height]
  | .variable _ => by simp [toValue, height]
  | .sum terms => by
    have := nesting_toValues_le terms
    simp [toValue, height]
    omega
  | .product factors => by
    have := nesting_toValues_le factors
    simp [toValue, height]
    omega
  | .quotient a b => by
    have := nesting_toValue_le a
    have := nesting_toValue_le b
    simp [toValue, height]
    omega
  | .power a b => by
    have := nesting_toValue_le a
    have := nesting_toValue_le b
    simp [toValue, height]
    omega
  | .call _ args => by
    have := nesting_toValues_le args
    simp [toValue, height]
    omega

theorem nesting_toValues_le : ∀ es : List Expr, itemsNesting (toValues es) ≤ 2 * tallest es
  | [] => Nat.zero_le _
  | e :: es => by
    have := nesting_toValue_le e
    have := nesting_toValues_le es
    rw [toValues, itemsNesting, tallest]
    omega

end

theorem filled_of_canonical {t : Expr} (h : Formula.Canonical t) : Filled t := by
  induction h with
  | number v => exact .number v
  | name text => exact .name text
  | sum _ _ _ ih => exact .sum (List.cons_ne_nil _ _) ih
  | product _ _ _ ih => exact .product (List.cons_ne_nil _ _) ih
  | quotient _ _ iha ihb => exact .quotient iha ihb
  | power _ _ iha ihb => exact .power iha ihb
  | call _ _ ih => exact .call _ ih

/-- **A parsed tree can be stored**, also at the greatest height. -/
theorem storable_of_parse {text : String} {t : Expr} (h : Formula.parse text = .ok t) :
    Storable t := by
  have hsound := (Formula.sound_of_parse h).1
  refine ⟨filled_of_canonical hsound.shape, ?_⟩
  have hheight := hsound.height
  have hnesting := nesting_toValue_le t
  rw [nesting_envelope, maxNesting]
  omega

/-- The text of a document has the brackets of the document that its tree is written as, and perhaps
more. -/
theorem nesting_of_ofJson {text : String} {t : Expr} (h : ofJson text = .ok t) :
    Filled t ∧ t.envelope.nesting ≤ Json.nestingDepth text.toList ∧
      Json.nestingDepth text.toList ≤ maxNesting := by
  unfold ofJson at h
  split at h
  · cases h
  · rename_i hdeep
    split at h
    · cases h
    · rename_i d hd
      obtain ⟨node, hnode, htree⟩ := node_of_ofDocument h
      obtain ⟨hfilled, hnesting⟩ := Node.filled_of_toExpr htree
      have := nesting_documentNode? hnode
      rw [Json.nestingDepth_eq hd] at hdeep ⊢
      rw [nesting_envelope, hnesting]
      exact ⟨hfilled, by omega, by omega⟩

/-- **A tree that was read from a document can be stored**: the document has the brackets of the
one that is written. -/
theorem storable_of_ofJson {text : String} {t : Expr} (h : ofJson text = .ok t) : Storable t :=
  have hread := nesting_of_ofJson h
  ⟨hread.1, Nat.le_trans hread.2.1 hread.2.2⟩

theorem Storable.ofJson_ofList {t : Expr} (h : Storable t) {text : List Char}
    (htext : Source.ofText? text = some (Json.written t.envelope)) :
    ofJson (String.ofList text) = t.reread := by
  rw [ofJson, String.toList_ofList, Json.nestingDepth_eq htext, Json.nesting_written,
    if_neg (Nat.not_lt.2 h.nesting), htext]
  exact ofDocument_written h.filled

theorem bind_map_eq_none {α β γ : Type} {x : Option α} {y : Option β} {g : α → β → γ}
    (h : (x.bind fun a => y.map (g a)) = none) : x = none ∨ y = none := by
  cases x with
  | none => exact Or.inl rfl
  | some a => exact Or.inr (Option.map_eq_none_iff.1 h)

mutual

theorem mapNumbers?_eq_none {f : Float → Option Float} : ∀ {t : Expr}, t.mapNumbers? f = none →
    ∃ v, Formula.Token.number v ∈ Formula.yield t ∧ f v = none
  | .number v, h => ⟨v, by simp [Formula.yield], Option.map_eq_none_iff.1 h⟩
  | .sum _, h => mapAll?_eq_none (Option.map_eq_none_iff.1 h)
  | .product _, h => mapAll?_eq_none (Option.map_eq_none_iff.1 h)
  | .quotient a b, h => by
    rcases bind_map_eq_none h with h | h
    · obtain ⟨v, hv, hnone⟩ := mapNumbers?_eq_none h
      exact ⟨v, List.mem_append_left _ hv, hnone⟩
    · obtain ⟨v, hv, hnone⟩ := mapNumbers?_eq_none h
      exact ⟨v, List.mem_append_right _ hv, hnone⟩
  | .power a b, h => by
    rcases bind_map_eq_none h with h | h
    · obtain ⟨v, hv, hnone⟩ := mapNumbers?_eq_none h
      exact ⟨v, List.mem_append_left _ hv, hnone⟩
    · obtain ⟨v, hv, hnone⟩ := mapNumbers?_eq_none h
      exact ⟨v, List.mem_append_right _ hv, hnone⟩
  | .call _ _, h => mapAll?_eq_none (Option.map_eq_none_iff.1 h)

theorem mapAll?_eq_none {f : Float → Option Float} : ∀ {es : List Expr}, mapAll? f es = none →
    ∃ v, Formula.Token.number v ∈ Formula.yieldAll es ∧ f v = none
  | e :: es, h => by
    rcases bind_map_eq_none h with h | h
    · obtain ⟨v, hv, hnone⟩ := mapNumbers?_eq_none h
      exact ⟨v, List.mem_append_left _ hv, hnone⟩
    · obtain ⟨v, hv, hnone⟩ := mapAll?_eq_none h
      exact ⟨v, List.mem_append_right _ hv, hnone⟩

end

/-- A tree is lost only where the text of one of its numbers is read as none. -/
theorem reread_eq_error {t : Expr} {error : JsonError} (h : t.reread = .error error) :
    ∃ v, Formula.Token.number v ∈ Formula.yield t ∧ Json.reread? v = none := by
  unfold reread at h
  split at h
  · cases h
  · rename_i hmap
    exact mapNumbers?_eq_none hmap

/-- **Writing and reading again.**  A tree that was read, from expression text or from a document,
is read from both of its documents with its shape and all of its names, its numbers as they are read
from their texts; there is an error only where the text of one of them is read as no number. -/
theorem ofJson_toJson {t : Expr}
    (h : (∃ text, Formula.parse text = .ok t) ∨ ∃ text, ofJson text = .ok t) :
    ofJson t.toJson = t.reread ∧ ofJson t.toJsonPretty = t.reread ∧
      ∀ error, t.reread = .error error →
        ∃ v, Formula.Token.number v ∈ Formula.yield t ∧ Json.reread? v = none := by
  have hstorable : Storable t := by
    rcases h with ⟨text, h⟩ | ⟨text, h⟩
    · exact storable_of_parse h
    · exact storable_of_ofJson h
  refine ⟨hstorable.ofJson_ofList (Json.ofText?_compact _),
    hstorable.ofJson_ofList (Json.ofText?_pretty 0 _), fun error => reread_eq_error⟩

/-- The tree of `2 * limit(0, |x| / x) - π^-1.5`. -/
def limitTree : Expr :=
  .call "sub" [
    .product [.number 2, .call "limit" [.number 0,
      .quotient (.call "abs" [.variable "x"]) (.variable "x")]],
    .power (.variable "pi") (.call "neg" [.number 1.5])]

theorem ofJson_toJson_limit :
    Formula.parse "2 * limit(0, abs(x) / x) - pi^-1.5" = .ok limitTree ∧
      ofJson limitTree.toJson = limitTree.reread ∧
      ofJson limitTree.toJsonPretty = limitTree.reread :=
  have h : Formula.parse "2 * limit(0, abs(x) / x) - pi^-1.5" = .ok limitTree := by
    decide +kernel
  have hboth := ofJson_toJson (Or.inl ⟨_, h⟩)
  ⟨h, hboth.1, hboth.2.1⟩

end Expr

end GlyphMath
