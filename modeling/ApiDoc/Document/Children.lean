import ApiDoc.Document.Draft

namespace ApiDoc.Edit

/-!
# Finding and creating children

Each accessor answers a child of a node, and creates it if it is not there:

* `child` — the child of a singular slot;
* `collectionItem` — a member of a list that has given values;
* `indexedItem` — the member with a given key;
* `appendItem`, `addDetached` — a new member of a list, a new child attached nowhere;
* `removeIndexed` — the member with a given key, taken out of its list;
* `operation` — the operation of an HTTP method.
-/

/-! ### Slots of a kind of child -/

/-- The slot in a table for a kind of child. -/
def slotFor {α : Type} (role : SlotRole) (table : Layout → List (Kind × α)) (p : NodeId)
    (k : Kind) : Edit α := do
  let holder := (← node p).kind
  match (table holder.layout).lookup k with
  | some slot => return slot
  | none => throw (.notChild role k holder (← location p))

/-- The singular slot for a kind of child. -/
def singularSlot (p : NodeId) (k : Kind) : Edit String := slotFor .singular (·.singular) p k

/-- The collection slot for a kind of child. -/
def collectionSlot (p : NodeId) (k : Kind) : Edit CollectionSlot :=
  slotFor .collection (·.collections) p k

/-- The indexed slot for a kind of child. -/
def indexedSlot (p : NodeId) (k : Kind) : Edit IndexedSlot := slotFor .indexed (·.indexed) p k

/-! ### Adding children -/

/-- A new child attached nowhere. -/
def addDetached (p : NodeId) (k : Kind) (fields : Entries) : Edit NodeId := do
  addNode (← ofExcept (Node.createChild k p fields))

/-- The child of a singular slot. -/
def child (p : NodeId) (k : Kind) (fields : Entries := []) : Edit NodeId := do
  let slot ← singularSlot p k
  match (← node p).value slot with
  | .node i => return i
  -- A truth value in the place of a schema gives way, too.
  | _ =>
    let i ← addDetached p k fields
    assign p slot (.node i)
    return i

/-- The list under a name with its mark. What is no list is replaced by an empty one. -/
def ensureList (p : NodeId) (name : String) : Edit (List Data × Nat) := do
  match ← read p name with
  | .list items mark => return (items, mark)
  | _ =>
    assign? p name (.ofList [])
    return ([], 0)

/-- A new member at the end of a list, and its position. The list is there even if the member
    cannot be created. -/
def appendItem (p : NodeId) (name : String) (k : Kind) (fields : Entries) :
    Edit (NodeId × Nat) := do
  let (items, mark) ← ensureList p name
  let i ← addDetached p k fields
  assign? p name (.list (items ++ [.node i]) mark)
  return (i, items.length)

/-! ### Finding members -/

/-- The items of a value; none if it counts as false. -/
def itemsOf (v : Data) : Except Failure (List Data) := if v.truthy then Groups.items v else .ok []

/-- Whether all values given are those of a member. The first that is not decides. -/
def hasValues (f : Forest) (member : Data) : Entries → Except Failure Bool
  | [] => .ok true
  | (name, v) :: rest => do
    if (← f.readFrom member (← Node.nameOf? name)).alike v then hasValues f member rest
    else return false

/-- Whether a value under a name of a member is the one given, by type and value. -/
def hasKey (f : Forest) (name : String) (v member : Data) : Except Failure Bool := do
  let current ← f.readFrom member name
  return name != "kind" && current.identical v

/-- The position of the first item, counted from `i` on, that passes a test. -/
def position? (test : Data → Except Failure Bool) (i : Nat) :
    List Data → Except Failure (Option Nat)
  | [] => .ok none
  | v :: vs => do
    if ← test v then return some i
    position? test (i + 1) vs

/-- The position among items of the first that has all the values given. -/
def searchCollection (items : List Data) (fields : Entries) : Edit (Option Nat) := do
  let f ← forest
  ofExcept (position? (fun v => hasValues f v fields) 0 items)

/-- The position among items of the first under whose name the value stands. -/
def searchIndexed (items : List Data) (name : String) (v : Data) : Edit (Option Nat) := do
  let f ← forest
  ofExcept (position? (hasKey f name v) 0 items)

/-- The items that stand under a name of a node. -/
def membersOf (p : NodeId) (name : String) : Edit (List Data) := do
  ofExcept (itemsOf (← read p name))

/-- The node at a position among items. -/
def nodeAt? (items : List Data) (position? : Option Nat) : Option NodeId :=
  position?.bind fun i => items[i]?.bind Data.node?

/-- The first member of a list that has all the values given. Without values a new member. -/
def collectionItem (p : NodeId) (k : Kind) (fields : Entries) : Edit NodeId := do
  let slot ← collectionSlot p k
  -- With nothing to compare every member would do.
  let found ← if fields.isEmpty then pure none else do
    let items ← membersOf p slot.name
    pure (nodeAt? items (← searchCollection items fields))
  match found with
  | some i => return i
  | none => return (← appendItem p slot.name k fields).1

/-- The member whose key is a value. -/
def indexedItem (p : NodeId) (k : Kind) (v : Data) : Edit NodeId := do
  let slot ← indexedSlot p k
  let items ← membersOf p slot.name
  match nodeAt? items (← searchIndexed items slot.key v) with
  | some i => return i
  | none => return (← appendItem p slot.name k [(.str slot.key, v)]).1

/-- The member whose key is a value, taken out of its list; null if there is none. -/
def removeIndexed (p : NodeId) (k : Kind) (v : Data) : Edit Data := do
  let slot ← indexedSlot p k
  match (← node p).value slot.name with
  | .list items mark =>
    match ← searchIndexed items slot.key v with
    | some i =>
      assign p slot.name (.list (items.eraseIdx i) mark)
      return items.getD i .null
    | none => return .null
  | _ => return .null

/-! ### Operations -/

/-- The operation of an HTTP method in any case. It carries the path of its path item. -/
def operation (p : NodeId) (method : Data) : Edit NodeId := do
  match method with
  | .scalar (.str m) =>
    match Kind.operations.lookup (Text.lower m) with
    | some k => child p k [(.str "path", ← read p "path")]
    | none => throw (.unknownMethod method)
  -- Octets have a lower case too, but it names no method.
  | .scalar (.bytes _) => throw (.unknownMethod method)
  | .node i => do throw (.noField (← node i).kind "lower")
  | v => throw (.noAttribute v.ownerName "lower")

/-- The schema with a name among the components, by way of the components. -/
def componentSchema (p : NodeId) (name : Data) : Edit NodeId := do
  indexedItem (← child p .components) .schema name

end ApiDoc.Edit
