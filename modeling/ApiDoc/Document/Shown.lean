import ApiDoc.Document.Forest

namespace ApiDoc

/-!
# The content that a document shows

* `Forest.shown` — the content of a node: fields, singular slots, collections, indexed slots,
  and then the extensions, which may replace any of these;
* `Forest.json` — a node as JSON text.

Nodes can hold each other, so that content is followed for no more levels than there are
nodes.
-/

namespace Forest

/-! ### Parts of the content -/

/-- A value as a document shows it: a list where it is a list or a tuple. -/
def shownValue (v : Data) : Data :=
  match v.items? with
  | some xs => .ofList xs
  | none => v

/-- The fields of a node that are set and not internal. -/
def shownFields (n : Node) : Entries :=
  (n.kind.fields.filter fun name => !n.kind.internalFields.contains name).filterMap fun name =>
    if n.isSet name then some (.str (wireName name), shownValue (n.value name)) else none

/-- A key with its value, where the value is set. -/
def entryOf (name : String) (v : Data) (shown : Except Failure Data) : Except Failure Entries := do
  if v.isUnset then return [] else return [(.str (wireName name), ← shown)]

/-- What a singular slot shows: the content of a node, or the value in its place. -/
def shownSingular (content : NodeId → Except Failure Data) (v : Data) : Except Failure Data :=
  match v with
  | .node i => content i
  | v => .ok v

/-- What a member of a list of nodes shows. -/
def shownMember (content : NodeId → Except Failure Data) (v : Data) : Except Failure Data :=
  match v with
  | .node i => content i
  | v => .error (.noAttribute v.ownerName "to_dict")

/-- What a collection shows: the list of the contents of its members. -/
def shownCollection (content : NodeId → Except Failure Data) (v : Data) :
    Except Failure Data := do
  return .ofList (← (← Groups.items v).mapM (shownMember content))

/-- What an indexed slot shows: the contents of its members under their keys. -/
def shownIndexed (f : Forest) (content : NodeId → Except Failure Data) (key : String) (v : Data) :
    Except Failure Data := do
  let pairs ← (← Groups.items v).mapM fun member => do
    let k ← f.readFrom member key
    let shown ← shownMember content member
    Groups.hashable k
    return (k, shown)
  return .ofEntries (Entries.ofPairs pairs)

/-- The pair of key and value that an item is. -/
def pairOf (index : Nat) (item : Data) : Except Failure (Data × Data) :=
  match Groups.items item with
  | .ok [k, v] => do Groups.hashable k; return (k, v)
  | .ok xs => .error (.pairLength index xs.length)
  | .error _ => .error (.notPair index)

/-- The entries that extensions bring: those of a mapping, or pairs of key and value. -/
def extensionEntries : Data → Except Failure Entries
  | .map es _ => .ok es
  | v => do (← Groups.items v).zipIdx.mapM fun (item, index) => pairOf index item

/-! ### The whole content -/

/-- The content of a node from the contents of those in its slots. -/
def assemble (f : Forest) (content : NodeId → Except Failure Data) (n : Node) :
    Except Failure Entries := do
  let layout := n.kind.layout
  let singular ← layout.singular.mapM fun (_, slot) =>
    entryOf slot (n.value slot) (shownSingular content (n.value slot))
  let collections ← layout.collections.mapM fun (_, slot) =>
    entryOf slot.name (n.value slot.name) (shownCollection content (n.value slot.name))
  let indexed ← layout.indexed.mapM fun (_, slot) =>
    entryOf slot.name (n.value slot.name) (f.shownIndexed content slot.key (n.value slot.name))
  -- Extensions come last, and take the place of what has their key.
  let own := shownFields n ++ singular.flatten ++ collections.flatten ++ indexed.flatten
  return Entries.update own (← extensionEntries n.extensions)

/-- The content of a node, to so many levels. -/
def contentIn (f : Forest) : (fuel : Nat) → NodeId → Except Failure Entries
  | 0, _ => .error .outOfFuel
  | fuel + 1, i => f.assemble (fun j => Data.ofEntries <$> contentIn f fuel j) (f.get i)

/-- The content of a node as entries. -/
def content (f : Forest) (i : NodeId) : Except Failure Entries := f.contentIn f.fuel i

/-- The content of a node. -/
def shown (f : Forest) (i : NodeId) : Except Failure Data := Data.ofEntries <$> f.content i

/-- A node as JSON text. -/
def json (f : Forest) (style : JsonStyle) (i : NodeId) : Except Failure String := do
  ((← f.shown i).json style).mapError .unwritable

end Forest

end ApiDoc
