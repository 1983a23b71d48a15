import GlyphMath.Expr.Document
import GlyphMath.Proofs.Documents

/-!
# The document of a tree is decoded as the tree

* `reread?` -- the double that is read from the text of a double.
* `mapNumbers?` -- a tree with another number in place of each, if there is one for each.
* `reread` -- what becomes of a tree that is written and read.
* `Filled` -- sums and products have children.
* `toNode` -- the node of a tree.
* `node_written` -- the document of a tree, as it is written, is decoded as the node of the tree
  with its numbers read again.

Principal result:

* `ofDocument_written` -- a tree is read from its written document but for its numbers.
-/

set_option autoImplicit false

namespace GlyphMath

open Json (Tree Value Source Number Scalar)

/-! ## Trees with other numbers -/

/-- The double that is read from the text of a double. -/
def Json.reread? (x : Float) : Option Float :=
  match Source.ofText? (Json.floatText x) with
  | some (.number n) => n.number?.map Number.toFloat
  | _ => none

namespace Expr

mutual

/-- The tree with another number in place of each, if there is one for each. -/
def mapNumbers? (f : Float → Option Float) : Expr → Option Expr
  | .number v => (f v).map .number
  | .variable name => some (.variable name)
  | .sum terms => (mapAll? f terms).map .sum
  | .product factors => (mapAll? f factors).map .product
  | .quotient a b => (mapNumbers? f a).bind fun a => (mapNumbers? f b).map (.quotient a)
  | .power a b => (mapNumbers? f a).bind fun a => (mapNumbers? f b).map (.power a)
  | .call name args => (mapAll? f args).map (.call name)

/-- The trees of a list with other numbers. -/
def mapAll? (f : Float → Option Float) : List Expr → Option (List Expr)
  | [] => some []
  | e :: es => (mapNumbers? f e).bind fun e => (mapAll? f es).map (e :: ·)

end

/-- What becomes of a tree that is written and read: its numbers are read from their texts. -/
def reread (t : Expr) : Except JsonError Expr :=
  match t.mapNumbers? Json.reread? with
  | some t => .ok t
  | none => .error .malformed

/-- Sums and products have children. -/
inductive Filled : Expr → Prop where
  | number (v : Float) : Filled (.number v)
  | name (text : String) : Filled (.variable text)
  | sum {terms : List Expr} (hne : terms ≠ []) (h : ∀ e ∈ terms, Filled e) : Filled (.sum terms)
  | product {factors : List Expr} (hne : factors ≠ []) (h : ∀ e ∈ factors, Filled e) :
      Filled (.product factors)
  | quotient {a b : Expr} : Filled a → Filled b → Filled (.quotient a b)
  | power {a b : Expr} : Filled a → Filled b → Filled (.power a b)
  | call (name : String) {args : List Expr} (h : ∀ e ∈ args, Filled e) : Filled (.call name args)

mutual

/-- Other numbers do not change which children there are. -/
theorem Filled.mapNumbers? {f : Float → Option Float} :
    ∀ {t t' : Expr}, Filled t → t.mapNumbers? f = some t' → Filled t'
  | .number v, t', _, h => by
    obtain ⟨v', -, rfl⟩ := Option.map_eq_some_iff.1 h
    exact .number v'
  | .variable text, t', _, h => by
    cases h
    exact .name text
  | .sum terms, t', .sum hne hterms, h => by
    obtain ⟨terms', hmap, rfl⟩ := Option.map_eq_some_iff.1 h
    obtain ⟨hlength, hfilled⟩ := Filled.mapAll? hterms hmap
    exact .sum (List.ne_nil_of_length_pos (hlength ▸ List.length_pos_iff.2 hne)) hfilled
  | .product factors, t', .product hne hfactors, h => by
    obtain ⟨factors', hmap, rfl⟩ := Option.map_eq_some_iff.1 h
    obtain ⟨hlength, hfilled⟩ := Filled.mapAll? hfactors hmap
    exact .product (List.ne_nil_of_length_pos (hlength ▸ List.length_pos_iff.2 hne)) hfilled
  | .quotient a b, t', .quotient ha hb, h => by
    obtain ⟨a', hmapa, h⟩ := Option.bind_eq_some_iff.1 h
    obtain ⟨b', hmapb, rfl⟩ := Option.map_eq_some_iff.1 h
    exact .quotient (ha.mapNumbers? hmapa) (hb.mapNumbers? hmapb)
  | .power a b, t', .power ha hb, h => by
    obtain ⟨a', hmapa, h⟩ := Option.bind_eq_some_iff.1 h
    obtain ⟨b', hmapb, rfl⟩ := Option.map_eq_some_iff.1 h
    exact .power (ha.mapNumbers? hmapa) (hb.mapNumbers? hmapb)
  | .call f args, t', .call _ hargs, h => by
    obtain ⟨args', hmap, rfl⟩ := Option.map_eq_some_iff.1 h
    exact .call f (Filled.mapAll? hargs hmap).2

theorem Filled.mapAll? {f : Float → Option Float} :
    ∀ {es es' : List Expr}, (∀ e ∈ es, Filled e) → mapAll? f es = some es' →
      es.length = es'.length ∧ ∀ e ∈ es', Filled e
  | [], es', _, h => by
    cases h
    exact ⟨rfl, nofun⟩
  | e :: es, es', hfilled, h => by
    obtain ⟨e', hmap, h⟩ := Option.bind_eq_some_iff.1 h
    obtain ⟨rest, hrest, rfl⟩ := Option.map_eq_some_iff.1 h
    have he := (hfilled e List.mem_cons_self).mapNumbers? hmap
    have hes := Filled.mapAll? (fun e he => hfilled e (List.mem_cons_of_mem _ he)) hrest
    refine ⟨congrArg (· + 1) hes.1, fun e he' => ?_⟩
    rcases List.mem_cons.1 he' with rfl | he'
    · exact he
    · exact hes.2 e he'

end

/-! ## Nodes of trees -/

mutual

def toNode : Expr → Node
  | .number v => .num v
  | .variable name => .sym name
  | .sum terms => .operation .add (toNodes terms)
  | .product factors => .operation .mul (toNodes factors)
  | .quotient a b => .operation .div [toNode a, toNode b]
  | .power a b => .operation .pow [toNode a, toNode b]
  | .call name args => .func name (toNodes args)

def toNodes : List Expr → List Node
  | [] => []
  | e :: es => toNode e :: toNodes es

end

mutual

/-- **The node of a tree has that tree.** -/
theorem Filled.toExpr_toNode : ∀ {t : Expr}, Filled t → t.toNode.toExpr = .ok t
  | .number _, _ => rfl
  | .variable _, _ => rfl
  | .sum terms, .sum hne h => by
    obtain ⟨e, es, rfl⟩ := List.exists_cons_of_ne_nil hne
    have hargs : Node.lacksArgs .add (toNodes (e :: es)) = false := rfl
    rw [toNode, Node.toExpr, hargs, Filled.toExprs_toNodes h]
    rfl
  | .product factors, .product hne h => by
    obtain ⟨e, es, rfl⟩ := List.exists_cons_of_ne_nil hne
    have hargs : Node.lacksArgs .mul (toNodes (e :: es)) = false := rfl
    rw [toNode, Node.toExpr, hargs, Filled.toExprs_toNodes h]
    rfl
  | .quotient a b, .quotient ha hb => by
    simp only [toNode, Node.toExpr, Node.toExprs, ha.toExpr_toNode, hb.toExpr_toNode]
    rfl
  | .power a b, .power ha hb => by
    simp only [toNode, Node.toExpr, Node.toExprs, ha.toExpr_toNode, hb.toExpr_toNode]
    rfl
  | .call f args, .call _ h => by
    rw [toNode, Node.toExpr, Filled.toExprs_toNodes h]

theorem Filled.toExprs_toNodes :
    ∀ {es : List Expr}, (∀ e ∈ es, Filled e) → Node.toExprs (toNodes es) = .ok es
  | [], _ => rfl
  | e :: es, h => by
    rw [toNodes, Node.toExprs, (h e List.mem_cons_self).toExpr_toNode,
      Filled.toExprs_toNodes fun e he => h e (List.mem_cons_of_mem _ he)]

end

end Expr

/-! ## Decoding what was written -/

namespace Json

theorem value?_leaf (x : Number) :
    Source.value? (State.leaf x.scalar) = match x.scalar with
      | .number n => n.number?.map .number
      | _ => some .null := by
  unfold Number.scalar
  cases x.numeral? with
  | none => rfl
  | some n =>
    dsimp only
    rw [State.leaf, Source.value?]
    cases n.number? <;> rfl

theorem reread?_eq (x : Float) :
    reread? x = match (Number.float x).scalar with
      | .number n => n.number?.map Number.toFloat
      | _ => none := by
  have h : Source.ofText? (floatText x) = some (State.leaf (Number.float x).scalar) :=
    ofText?_compact (.number (.float x))
  rw [reread?, h]
  cases (Number.float x).scalar <;> rfl

theorem memberValues?_cons (k : String) (d : Source) (ms : List (List Item × Source)) :
    memberValues? ((itemsOf k, d) :: ms) =
      d.value?.bind fun v => (memberValues? ms).map ((k, v) :: ·) := by
  rw [memberValues?, stringOfItems?_itemsOf]
  dsimp only
  cases d.value? with
  | none => rfl
  | some v => cases memberValues? ms <;> rfl

theorem value?_string (s : String) : Source.value? (.string (itemsOf s)) = some (.string s) := by
  rw [Source.value?, stringOfItems?_itemsOf]

theorem value?_list (ds : List Source) : Source.value? (.list ds) = (values? ds).map .list := by
  rw [Source.value?]
  cases values? ds <;> rfl

theorem value?_field (tag k : String) (d : Source) :
    Source.value? (.object [(itemsOf "type", .string (itemsOf tag)), (itemsOf k, d)]) =
      d.value?.map fun v => .object [("type", .string tag), (k, v)] := by
  rw [Source.value?, memberValues?_cons, value?_string, memberValues?_cons]
  cases d.value? <;> rfl

theorem value?_fields (tag k k' : String) (d d' : Source) :
    Source.value? (.object [(itemsOf "type", .string (itemsOf tag)), (itemsOf k, d),
        (itemsOf k', d')]) =
      d.value?.bind fun v => d'.value?.map fun v' =>
        .object [("type", .string tag), (k, v), (k', v')] := by
  rw [Source.value?, memberValues?_cons, value?_string, memberValues?_cons, memberValues?_cons]
  cases d.value? <;> cases d'.value? <;> rfl

end Json

namespace Node

theorem ofValue?_number (inner : Bool) (v : Value) :
    ofValue? inner (.object [("type", .string "Num"), ("value", v)]) = ofNumber? (some v) := by
  simp [ofValue?, Json.single?, Json.valuesUnder, Tag.ofValue?, Tag.ofName?]

theorem ofValue?_name (inner : Bool) (v : Value) :
    ofValue? inner (.object [("type", .string "Sym"), ("name", v)]) = ofName? (some v) := by
  simp [ofValue?, Json.single?, Json.valuesUnder, Tag.ofValue?, Tag.ofName?]

theorem ofValue?_operation (inner : Bool) (tag : OperationTag) (v : Value) :
    ofValue? inner (.object [("type", .string tag.name), ("args", v)]) =
      ofArgs? tag (some (ofValues? v)) := by
  cases tag <;> simp [ofValue?, Json.single?, Json.valuesUnder, Tag.ofValue?, Tag.ofName?,
    OperationTag.name, memberNodes]

theorem ofValue?_call (inner : Bool) (name args : Value) :
    ofValue? inner (.object [("type", .string "Func"), ("name", name), ("args", args)]) =
      ofCall? (some name) (some (ofValues? args)) := by
  simp [ofValue?, Json.single?, Json.valuesUnder, Tag.ofValue?, Tag.ofName?, memberNodes]

end Node

namespace Expr

theorem operation_written (es : List Expr) {nodes : Option (List Node)}
    (h : (Json.values? (Json.writtenItems (toValues es))).bind Node.ofItems? = nodes)
    (inner : Bool) (tag : OperationTag) :
    (Json.written (.object [("type", .string tag.name), ("args", .list (toValues es))])).value?.bind
      (Node.ofValue? inner) = nodes.map (.operation tag) := by
  rw [← h]
  simp only [Json.written, Json.writtenMembers, Json.value?_field, Json.value?_list]
  cases Json.values? (Json.writtenItems (toValues es)) with
  | none => rfl
  | some vs =>
    rw [Option.map_some, Option.map_some, Option.bind_some, Option.bind_some,
      Node.ofValue?_operation, Node.ofValues?]
    cases Node.ofItems? vs <;> rfl

theorem call_written {args : List Expr} {nodes : Option (List Node)}
    (h : (Json.values? (Json.writtenItems (toValues args))).bind Node.ofItems? = nodes)
    (inner : Bool) (name : String) :
    (Json.written (.object [("type", .string "Func"), ("name", .string name),
      ("args", .list (toValues args))])).value?.bind (Node.ofValue? inner) =
        nodes.map (.func name) := by
  rw [← h]
  simp only [Json.written, Json.writtenMembers, Json.value?_fields, Json.value?_string,
    Json.value?_list]
  cases Json.values? (Json.writtenItems (toValues args)) with
  | none => rfl
  | some vs =>
    rw [Option.bind_some, Option.map_some, Option.map_some, Option.bind_some, Option.bind_some,
      Node.ofValue?_call, Node.ofValues?]
    cases Node.ofItems? vs <;> rfl

theorem nodes_cons {e : Expr} (es : List Expr) {node : Option Node} {nodes : Option (List Node)}
    (he : (Json.written e.toValue).value?.bind (Node.ofValue? true) = node)
    (hes : (Json.values? (Json.writtenItems (toValues es))).bind Node.ofItems? = nodes) :
    (Json.values? (Json.writtenItems (toValues (e :: es)))).bind Node.ofItems? =
      node.bind fun n => nodes.map (n :: ·) := by
  rw [← he, ← hes, toValues, Json.writtenItems, Json.values?]
  cases (Json.written e.toValue).value? with
  | none => rfl
  | some v =>
    cases Json.values? (Json.writtenItems (toValues es)) with
    | none => cases h : Node.ofValue? true v <;> simp [h]
    | some vs =>
      simp only [Option.bind_some, Node.ofItems?]
      cases Node.ofValue? true v with
      | none => rfl
      | some n => cases Node.ofItems? vs <;> rfl

mutual

/-- **The document of a tree, as it is written, is decoded as the node of the tree** with its
numbers read again. -/
theorem node_written (inner : Bool) : ∀ t : Expr,
    (Json.written t.toValue).value?.bind (Node.ofValue? inner) =
      (t.mapNumbers? Json.reread?).map toNode
  | .number v => by
    rw [mapNumbers?, Json.reread?_eq]
    simp only [toValue, Json.written, Json.writtenMembers, Json.value?_field, Json.value?_leaf]
    cases (Number.float v).scalar with
    | number n =>
      cases h : n.number? with
      | none => simp [h]
      | some x => simp [h, Node.ofValue?_number, Node.ofNumber?, toNode]
    | _ => simp [Node.ofValue?_number, Node.ofNumber?]
  | .variable name => by
    simp only [toValue, Json.written, Json.writtenMembers, Json.value?_field, Json.value?_string,
      Option.map_some, Option.bind_some, Node.ofValue?_name]
    rfl
  | .sum terms => by
    rw [toValue, mapNumbers?]
    refine (operation_written terms (nodes_written terms) inner .add).trans ?_
    cases mapAll? Json.reread? terms <;> rfl
  | .product factors => by
    rw [toValue, mapNumbers?]
    refine (operation_written factors (nodes_written factors) inner .mul).trans ?_
    cases mapAll? Json.reread? factors <;> rfl
  | .quotient a b => by
    rw [toValue, mapNumbers?]
    have h := nodes_cons [b] (node_written true a) (nodes_cons [] (node_written true b) rfl)
    refine (operation_written [a, b] h inner .div).trans ?_
    cases a.mapNumbers? Json.reread? <;> cases b.mapNumbers? Json.reread? <;> rfl
  | .power a b => by
    rw [toValue, mapNumbers?]
    have h := nodes_cons [b] (node_written true a) (nodes_cons [] (node_written true b) rfl)
    refine (operation_written [a, b] h inner .pow).trans ?_
    cases a.mapNumbers? Json.reread? <;> cases b.mapNumbers? Json.reread? <;> rfl
  | .call name args => by
    rw [toValue, mapNumbers?]
    refine (call_written (nodes_written args) inner name).trans ?_
    cases mapAll? Json.reread? args <;> rfl

theorem nodes_written : ∀ es : List Expr,
    (Json.values? (Json.writtenItems (toValues es))).bind Node.ofItems? =
      (mapAll? Json.reread? es).map toNodes
  | [] => rfl
  | e :: es => by
    rw [nodes_cons es (node_written true e) (nodes_written es), mapAll?]
    cases e.mapNumbers? Json.reread? <;> cases mapAll? Json.reread? es <;> rfl

end

theorem fields?_written (t : Expr) :
    (Json.written t.envelope).fields? =
      some [("version", Json.State.leaf (Number.integer jsonVersion).scalar),
        ("expr", Json.written t.toValue)] := by
  simp [envelope, Json.written, Json.writtenMembers, Source.fields?, Json.decodeKeys,
    Json.stringOfItems?_itemsOf]

theorem versionField?_written (t : Expr) :
    versionField? (Json.written t.envelope) = some (some (.number (.integer jsonVersion))) := by
  have hkeys := fields?_written t
  rw [envelope, Json.written, Source.fields?] at hkeys
  rw [envelope, Json.written, versionField?, hkeys]
  rfl

theorem documentNode?_written (t : Expr) :
    documentNode? (Json.written t.envelope) = (t.mapNumbers? Json.reread?).map toNode := by
  have hexpr (d : Source) : Json.single? "expr" [("version", d), ("expr", Json.written t.toValue)] =
      some (Json.written t.toValue) := rfl
  rw [documentNode?, fields?_written, ← node_written false]
  dsimp only
  rw [hexpr]
  dsimp only
  cases (Json.written t.toValue).value? <;> rfl

/-- **A tree is read from its written document**, its numbers from their texts. -/
theorem ofDocument_written {t : Expr} (h : Filled t) :
    ofDocument (Json.written t.envelope) = t.reread := by
  have hversion : versionNumber (some (.number (.integer jsonVersion))) = .ok jsonVersion := by
    decide
  rw [ofDocument, versionField?_written]
  dsimp only
  rw [hversion]
  dsimp only
  rw [if_pos rfl, documentNode?_written, reread]
  cases hmap : t.mapNumbers? Json.reread? with
  | none => rfl
  | some t' => exact (h.mapNumbers? hmap).toExpr_toNode

end Expr

end GlyphMath
