import GlyphMath.Expr.Basic
import GlyphMath.Formula.Parser
import GlyphMath.Json.Decode
import GlyphMath.Json.Nesting
import GlyphMath.Json.Writer

/-!
# Expressions as JSON documents

A tree is kept as an object with a `version`, which is one, and an `expr`, which is a node.  A node
is an object tagged by its `type`, or a list of the tag and the fields in order.

* `Expr.toValue`, `Expr.toJson`, `Expr.toJsonPretty` -- the document of a tree and its text.
* `Node` -- a decoded node, its arguments not yet counted.
* `Node.ofValue?` -- the node of a document.
* `Node.toExpr` -- its tree, where sums and products have arguments and quotients and powers two.
* `versionField?`, `versionNumber` -- the version of a document, whatever else it holds.
* `Expr.ofJson` -- the tree of a text.  Errors are found in this order: nesting, grammar, version,
  node, number of arguments.
-/

set_option autoImplicit false

namespace GlyphMath

open Json (Tree Value Source Number)

/-- Why a text has no tree. -/
inductive JsonError where
  | malformed
  | unsupportedVersion (found : Int)
  | missingVersion
  | invalidVersion (found : String)
  | tooDeep (limit : Nat)
  | arity (node expected : String) (found : Nat)
deriving DecidableEq, Repr

/-- What is known of a text that is no document of the wanted form. -/
def JsonError.malformedDetail : String := "invalid document"

def JsonError.message : JsonError → String
  | .malformed => "malformed expression JSON: " ++ malformedDetail
  | .unsupportedVersion found => "unsupported version: " ++ toString found
  | .missingVersion => "missing version"
  | .invalidVersion found => "version must be an integer, found " ++ found
  | .tooDeep limit => "expression JSON nests deeper than " ++ toString limit ++ " levels"
  | .arity node expected found =>
    node ++ " needs " ++ expected ++ " args, found " ++ toString found

/-- The version that is read and written. -/
def jsonVersion : Int := 1

/-- The deepest nesting that is read: a level of a tree is a node and its list of arguments, inside
the outermost object. -/
def maxNesting : Nat := 2 * Formula.maxHeight + 2

/-! ## Writing -/

namespace Expr

mutual

/-- The node of a tree. -/
def toValue : Expr → Value
  | .number v => .object [("type", .string "Num"), ("value", .number (.float v))]
  | .variable name => .object [("type", .string "Sym"), ("name", .string name)]
  | .sum terms => .object [("type", .string "Add"), ("args", .list (toValues terms))]
  | .product factors => .object [("type", .string "Mul"), ("args", .list (toValues factors))]
  | .quotient n d => .object [("type", .string "Div"), ("args", .list [toValue n, toValue d])]
  | .power b e => .object [("type", .string "Pow"), ("args", .list [toValue b, toValue e])]
  | .call name args =>
    .object [("type", .string "Func"), ("name", .string name), ("args", .list (toValues args))]

def toValues : List Expr → List Value
  | [] => []
  | e :: es => toValue e :: toValues es

end

/-- The document of a tree. -/
def envelope (e : Expr) : Value :=
  .object [("version", .number (.integer jsonVersion)), ("expr", toValue e)]

/-- The text of the document without blanks. -/
def toJson (e : Expr) : String := String.ofList (Json.compact (envelope e))

/-- The text of the document with lines and indentation. -/
def toJsonPretty (e : Expr) : String := String.ofList (Json.pretty 0 (envelope e))

end Expr

/-! ## Nodes -/

/-- The nodes that hold arguments and nothing else. -/
inductive OperationTag where
  | add
  | mul
  | div
  | pow
deriving DecidableEq, Repr

/-- The kinds of nodes. -/
inductive Tag where
  | num
  | sym
  | operation (tag : OperationTag)
  | func
deriving DecidableEq, Repr

def OperationTag.name : OperationTag → String
  | add => "Add"
  | mul => "Mul"
  | div => "Div"
  | pow => "Pow"

def Tag.ofName? (name : String) : Option Tag :=
  match name with
  | "Num" => some .num
  | "Sym" => some .sym
  | "Add" => some (.operation .add)
  | "Mul" => some (.operation .mul)
  | "Div" => some (.operation .div)
  | "Pow" => some (.operation .pow)
  | "Func" => some .func
  | _ => none

/-- The kind at a place in the list of kinds. -/
def Tag.ofIndex? (index : Int) : Option Tag :=
  match index with
  | 0 => some .num
  | 1 => some .sym
  | 2 => some (.operation .add)
  | 3 => some (.operation .mul)
  | 4 => some (.operation .div)
  | 5 => some (.operation .pow)
  | 6 => some .func
  | _ => none

/-- The kind that a tag denotes: its name, and for the nodes inside another one also its place. -/
def Tag.ofValue? (inner : Bool) : Value → Option Tag
  | .string name => Tag.ofName? name
  | .number (.integer index) => if inner then Tag.ofIndex? index else none
  | _ => none

/-- A decoded node. -/
inductive Node where
  | num (value : Float)
  | sym (name : String)
  | operation (tag : OperationTag) (args : List Node)
  | func (name : String) (args : List Node)
deriving Repr

namespace Node

def ofNumber? : Option Value → Option Node
  | some (.number n) => some (.num n.toFloat)
  | _ => none

def ofName? : Option Value → Option Node
  | some (.string name) => some (.sym name)
  | _ => none

def ofArgs? (tag : OperationTag) : Option (Option (List Node)) → Option Node
  | some (some args) => some (.operation tag args)
  | _ => none

/-- The function node of its name and arguments. -/
def ofCall? : Option Value → Option (Option (List Node)) → Option Node
  | some (.string name), some (some args) => some (.func name args)
  | _, _ => none

mutual

/-- The node of a document.  Every field stands once, in any order, and other fields are passed
over; in a list the fields stand in order and alone. -/
def ofValue? (inner : Bool) : Value → Option Node
  | .object members =>
    match Json.single? "type" members with
    | none => none
    | some tag =>
      match Tag.ofValue? inner tag with
      | none => none
      | some .num => ofNumber? (Json.single? "value" members)
      | some .sym => ofName? (Json.single? "name" members)
      | some (.operation tag) => ofArgs? tag (Json.single? "args" (memberNodes members))
      | some .func =>
        ofCall? (Json.single? "name" members) (Json.single? "args" (memberNodes members))
  | .list (tag :: fields) =>
    match Tag.ofValue? inner tag, fields, fieldNodes fields with
    | some .num, [value], _ => ofNumber? (some value)
    | some .sym, [name], _ => ofName? (some name)
    | some (.operation tag), [_], [args] => ofArgs? tag (some args)
    | some .func, [name, _], [_, args] => ofCall? (some name) (some args)
    | _, _, _ => none
  | _ => none

/-- The nodes of a document that is a list of nodes. -/
def ofValues? : Value → Option (List Node)
  | .list items => ofItems? items
  | _ => none

def ofItems? : List Value → Option (List Node)
  | [] => some []
  | v :: vs =>
    match ofValue? true v with
    | none => none
    | some node =>
      match ofItems? vs with
      | none => none
      | some nodes => some (node :: nodes)

/-- The lists of nodes that fields are, if they are any. -/
def fieldNodes : List Value → List (Option (List Node))
  | [] => []
  | v :: vs => ofValues? v :: fieldNodes vs

/-- The lists of nodes that the values of members are, if they are any. -/
def memberNodes : List (String × Value) → List (String × Option (List Node))
  | [] => []
  | (key, v) :: ms => (key, ofValues? v) :: memberNodes ms

end

/-- A quotient or a power of its two arguments. -/
def pair (name : String) (build : Expr → Expr → Expr) (args : List Expr) :
    Except JsonError Expr :=
  match args with
  | [l, r] => .ok (build l r)
  | _ => .error (.arity name "2" args.length)

/-- The tree of an operation. -/
def build (tag : OperationTag) (args : List Expr) : Except JsonError Expr :=
  match tag with
  | .add => .ok (.sum args)
  | .mul => .ok (.product args)
  | .div => pair tag.name .quotient args
  | .pow => pair tag.name .power args

/-- Whether an operation needs arguments and has none. -/
def lacksArgs (tag : OperationTag) (args : List Node) : Bool :=
  match tag with
  | .add => args.isEmpty
  | .mul => args.isEmpty
  | _ => false

mutual

def toExpr : Node → Except JsonError Expr
  | .num v => .ok (.number v)
  | .sym name => .ok (.variable name)
  | .operation tag args =>
    if lacksArgs tag args then .error (.arity tag.name "at least 1" 0)
    else
      match toExprs args with
      | .error e => .error e
      | .ok es => build tag es
  | .func name args =>
    match toExprs args with
    | .error e => .error e
    | .ok es => .ok (.call name es)

/-- The trees of nodes, up to the first that has none. -/
def toExprs : List Node → Except JsonError (List Expr)
  | [] => .ok []
  | node :: nodes =>
    match toExpr node with
    | .error e => .error e
    | .ok e =>
      match toExprs nodes with
      | .error e => .error e
      | .ok es => .ok (e :: es)

end

end Node

/-! ## Reading -/

/-- The value of a version field: a null counts as no version. -/
def versionValue? : Option Source → Option (Option Value)
  | none => some none
  | some .null => some none
  | some d => d.value?.map some

/-- The version of a document, decoded: `none` where the document has not the wanted form.  The
rest of the document is not looked at.  A list of one item counts as an object with a version
alone. -/
def versionField? : Source → Option (Option Value)
  | .list [d] => versionValue? (some d)
  | .object members =>
    match Json.decodeKeys members with
    | none => none
    | some fields =>
      match Json.atMostOne? "version" fields with
      | none => none
      | some d => versionValue? d
  | _ => none

/-- The integer of a version field. -/
def versionNumber (found : Option Value) : Except JsonError Int :=
  match found with
  | none => .error .missingVersion
  | some (.number (.integer n)) =>
    match (Number.integer n).toSigned? with
    | some n => .ok n
    | none => .error (.invalidVersion (String.ofList (Json.compact (.number (.integer n)))))
  | some v => .error (.invalidVersion (String.ofList (Json.compact (Json.sorted v))))

def documentNode? (d : Source) : Option Node :=
  match d.fields? with
  | none => none
  | some fields =>
    match Json.single? "expr" fields with
    | none => none
    | some expr =>
      match expr.value? with
      | none => none
      | some v => Node.ofValue? false v

/-- The tree of a document. -/
def Expr.ofDocument (d : Source) : Except JsonError Expr :=
  match versionField? d with
  | none => .error .malformed
  | some found =>
    match versionNumber found with
    | .error e => .error e
    | .ok version =>
      if version = jsonVersion then
        match documentNode? d with
        | none => .error .malformed
        | some node => node.toExpr
      else .error (.unsupportedVersion version)

/-- The tree of a text. -/
def Expr.ofJson (text : String) : Except JsonError Expr :=
  if maxNesting < Json.nestingDepth text.toList then .error (.tooDeep Formula.maxHeight)
  else
    match Source.ofText? text.toList with
    | none => .error .malformed
    | some d => Expr.ofDocument d

end GlyphMath
