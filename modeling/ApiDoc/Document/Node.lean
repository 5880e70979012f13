import ApiDoc.Document.Layout
import ApiDoc.Failure

namespace ApiDoc

/-!
# Nodes

A node has a kind, a parent, values under the names of its fields and slots, and extensions:

* `Node` — the node, with `Node.value` and `Node.putValue`;
* `Node.assign?` — a value set under a name that the node has;
* `Node.create`, `Node.createChild` — a new node with given values.

A value can be anything. Child nodes stand in slots by their numbers.
-/

/-- A node. What is not among the values is unset. -/
structure Node where
  kind : Kind
  parent : Data := .null
  extensions : Data := .ofEntries []
  values : List (String × Data) := []
deriving Repr

namespace Node

instance : Inhabited Node := ⟨{ kind := .openApi }⟩

/-! ### Values -/

/-- The value under a name; unset if there is none. -/
def value (n : Node) (name : String) : Data := (n.values.lookup name).getD .unset

/-- Values with the one under a name set, or removed if it is the mark of what is unset. -/
def put (name : String) (v : Data) : List (String × Data) → List (String × Data)
  | [] => if v.isUnset then [] else [(name, v)]
  | (m, w) :: rest =>
    if m == name then (if v.isUnset then rest else (name, v) :: rest)
    else (m, w) :: put name v rest

/-- The node with the value under a name set. -/
def putValue (n : Node) (name : String) (v : Data) : Node :=
  { n with values := put name v n.values }

/-- Whether a value is set under a name. -/
def isSet (n : Node) (name : String) : Bool := !(n.value name).isUnset

/-- The node with a value set under a name that it has. -/
def assign? (n : Node) (name : String) (v : Data) : Except Failure Node :=
  if name == "parent" then .ok { n with parent := v }
  else if name == "extensions" then .ok { n with extensions := v }
  else if n.kind.attributes.contains name then .ok (n.putValue name v)
  else match name, v.str?.bind Kind.ofName? with
    | "kind", some k => .ok { n with kind := k }
    | _, _ => .error (.noField n.kind name)

/-- The name that a key is. -/
def nameOf? : Data → Except Failure String
  | .scalar (.str name) => .ok name
  | k => .error (.noName k.typeName)

/-! ### New nodes -/

/-- A node with values set one after the other. -/
def create (k : Kind) (parent : Data) (fields : Entries) : Except Failure Node :=
  fields.foldlM (fun n f => do n.assign? (← nameOf? f.1) f.2) { kind := k, parent := parent }

/-- Texts without repetitions, in the order of code points. -/
def sortedNames (names : List String) : List String :=
  let insert (x : String) (ys : List String) : List String :=
    ys.takeWhile (fun y => y < x) ++ x :: (ys.dropWhile fun y => y < x).filter (· != x)
  names.foldr insert []

/-- A node for a place in a parent: slots cannot be given as fields. -/
def createChild (k : Kind) (parent : NodeId) (fields : Entries) : Except Failure Node :=
  let nested := (fields.filterMap (·.1.str?)).filter fun name => k.slots.contains name
  if nested.isEmpty then create k (.node parent) fields
  else .error (.nestedFields (sortedNames nested) k)

end Node

end ApiDoc
