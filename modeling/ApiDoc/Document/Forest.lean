import ApiDoc.Document.Node
import ApiDoc.Groups

namespace ApiDoc

/-!
# Forests

All nodes that exist, each under its number; nodes refer to each other by number:

* `Forest` — the nodes, with `get`, `put` and `add`;
* `Forest.location` — the way to a node from its root, as messages show it;
* `Forest.literal`, `Forest.plain` — how messages write a value that may hold nodes;
* `Forest.read`, `Forest.readFrom` — what stands under a name of a node or of another value.

The way to a node ends at a node without a parent. Parents can go round in a circle, so that
the way is followed for no more steps than there are nodes.
-/

/-- The nodes that exist. -/
structure Forest where
  nodes : Array Node := #[]
deriving Repr, Inhabited

namespace Forest

/-- How many nodes there are. -/
def size (f : Forest) : Nat := f.nodes.size

/-- The node with a number. -/
def get (f : Forest) (i : NodeId) : Node := f.nodes.getD i default

/-- The forest with the node of a number replaced. -/
def put (f : Forest) (i : NodeId) (n : Node) : Forest := ⟨f.nodes.setIfInBounds i n⟩

/-- The forest with one more node, and its number. -/
def add (f : Forest) (n : Node) : NodeId × Forest := (f.size, ⟨f.nodes.push n⟩)

/-- More steps than a way without a circle can have. -/
def fuel (f : Forest) : Nat := f.size + 1

/-! ### Locations -/

/-- The position of a node among the members of a slot. -/
def positionText (f : Forest) (parent child : NodeId) (slot : String) :
    Except Failure String := do
  let members := (f.get parent).value slot
  let items ← if members.truthy then Groups.items members else pure []
  return match items.findIdx? fun v => v.node? == some child with
    | some position => toString position
    | none => "?"

/-- The step from a parent to a child, keys being written as given. -/
def segment (f : Forest) (write : Data → String) (parent child : NodeId) :
    Except Failure String :=
  let n := f.get child
  let layout := (f.get parent).kind.layout
  match layout.singular.lookup n.kind, layout.indexed.lookup n.kind,
      layout.collections.lookup n.kind with
  | some slot, _, _ => .ok ("." ++ slot)
  | none, some slot, _ => .ok ("." ++ slot.name ++ "[" ++ write (n.value slot.key) ++ "]")
  | none, none, some slot => do
    return "." ++ slot.name ++ "[" ++ (← f.positionText parent child slot.name) ++ "]"
  | none, none, none => .ok (".<" ++ n.kind.name ++ ">")

/-- Whether a failure is about a name that a value does not have. -/
def isMissing : Failure → Bool
  | .noField .. => true
  | .hiddenField .. => true
  | .noAttribute .. => true
  | _ => false

/-- A node as messages write it, given its location. -/
def shownAs (f : Forest) (i : NodeId) : Except Failure String → String
  | .ok location => "<Node " ++ (f.get i).kind.name ++ " at " ++ location ++ ">"
  | .error _ => "<Node " ++ (f.get i).kind.name ++ ">"

/-- The way to a node in so many steps. A node whose way leads to a parent that is no node has
    no location. -/
def locationIn (f : Forest) : (fuel : Nat) → NodeId → Except Failure String
  | 0, _ => .error .outOfFuel
  | fuel + 1, i =>
    let n := f.get i
    let missing : Failure := .noField n.kind "location"
    -- A name that is missing on the way up shows as one that is missing here.
    let way : Except Failure String := match n.parent with
      | .scalar .null => .ok n.kind.name
      | .node p => do
        let holder ← locationIn f fuel p
        let write (v : Data) := v.plainWith fun j => f.shownAs j (locationIn f fuel j)
        return holder ++ (← f.segment write p i)
      | _ => .error missing
    way.mapError fun e => if isMissing e then missing else e

/-- The way to a node. -/
def location (f : Forest) (i : NodeId) : Except Failure String := f.locationIn f.fuel i

/-- A node as messages write it. -/
def nodeLiteral (f : Forest) (i : NodeId) : String := f.shownAs i (f.location i)

/-- A value as messages write it, texts in quotes. -/
def literal (f : Forest) (v : Data) : String := v.literalWith f.nodeLiteral

/-- A value as messages write it, a text as it is. -/
def plain (f : Forest) (v : Data) : String := v.plainWith f.nodeLiteral

/-! ### Names -/

/-- The operations of a node, which are equal to nothing. -/
def operations : List String := ["is_set", "children", "to_dict", "to_json", "to_yaml", "_segment"]

/-- What stands under a name of a node: its parts and values, and what is found out about it. -/
def read (f : Forest) (i : NodeId) (name : String) : Except Failure Data :=
  let n := f.get i
  if n.kind.attributes.contains name then .ok (n.value name)
  else if operations.contains name then .ok (.bare 0)
  else match name with
    | "kind" => .ok (.str n.kind.name)
    | "parent" => .ok n.parent
    | "extensions" => .ok n.extensions
    | "fields" => .ok (.ofTuple (n.kind.fields.map Data.str))
    | "slots" => .ok (.ofTuple (n.kind.slots.map Data.str))
    | "location" => Data.str <$> f.location i
    | "_values" => .ok (.ofEntries (n.kind.attributes.map fun a => (.str a, n.value a)))
    | name =>
      if name.startsWith "_" then .error (.hiddenField name) else .error (.noField n.kind name)

/-- The operations of texts and mappings that share a name with what nodes have. -/
def foreignOperations : Data → List String
  | .scalar (.str _) => ["title", "format"]
  | .map _ _ => ["get", "items"]
  | _ => []

/-- What stands under a name of any value. -/
def readFrom (f : Forest) (v : Data) (name : String) : Except Failure Data :=
  match v with
  | .node i => f.read i name
  | v =>
    if (foreignOperations v).contains name then .ok (.bare 0)
    else .error (.noAttribute v.ownerName name)

/-- The children of a node in the order of its slots, with whatever else stands in a list of
    them. -/
def children (f : Forest) (i : NodeId) : List Data :=
  let n := f.get i
  n.kind.slots.flatMap fun slot => match n.value slot with
    | .node j => [.node j]
    | .list items _ => items
    | _ => []

end Forest

end ApiDoc
