import ApiDoc.Document.Children

namespace ApiDoc

/-!
# Merging into a document

A mapping in the shape of a document, or a node, is folded into a node: values fill fields that
are unset or, on demand, replace those that are set; lists that only grow take what they lack;
children are found by slot, by key or by their identifying fields, or created.

* `Policy`, `MergeOptions` — what to do about keys that a kind of node does not take, and
  whether values replace;
* `Merge.Part` — an entry of a source, with what it does in each role that a slot can give it;
* `Merge.parts` — the parts of a mapping, by recursion on the source; a node in it is read when
  its turn comes;
* `Merge.content` — the parts merged into a node: singular slots, indexed slots and
  collections in the order of the layout, then all other keys in the order of the source;
* `Edit.merge` — a source merged into a node.
-/

/-- What to do about keys that a kind of node does not take: fail, or warn and go on. -/
inductive Policy where
  | error
  | warn
deriving DecidableEq, Repr

/-- How to merge. -/
structure MergeOptions where
  overwrite : Bool := false
  policy : Policy := .error
deriving DecidableEq, Repr

namespace Merge

/-! ### Single values -/

/-- A key refused: a failure or a warning, as the policy says. -/
def reject (o : MergeOptions) (i : NodeId) (key : String) (why : Rejection) : Edit Unit := do
  let kind := (← Edit.node i).kind
  let location ← Edit.location i
  match o.policy with
  | .error => throw (.rejected key kind location why)
  | .warn => Edit.warn (rejectionMessage key kind location why ++ " Skipped.")

/-- A value merged: it fills what is unset, and replaces on demand. -/
def setScalar (o : MergeOptions) (i : NodeId) (name : String) (v : Data) : Edit Unit := do
  if o.overwrite || !(← Edit.node i).isSet name then Edit.assign i name v

/-- The items of a list with those added that no equal item precedes. -/
def unionItems (xs ys : List Data) : List Data :=
  ys.foldl (fun acc y => if y.among acc then acc else acc ++ [y]) xs

/-- The items that a value supplies: its own, or itself. -/
def supplied (v : Data) : List Data := v.items?.getD [v]

/-- A value merged into a list that only grows. -/
def growList (i : NodeId) (name : String) (v : Data) : Edit Unit := do
  let current := ((← Edit.node i).value name).items?.getD []
  Edit.assign i name (.ofList (unionItems current (supplied v)))

/-- Whether a text occurs in another. -/
def occursIn (needle : List Char) : List Char → Bool
  | [] => needle.isEmpty
  | c :: cs => needle.isPrefixOf (c :: cs) || occursIn needle cs

/-- Whether a key is found in what stands for the extensions. -/
def hasExtension (key : String) : Data → Except Failure Bool
  | .map es _ => .ok (Entries.has es (.str key))
  | .list xs _ => .ok ((Data.str key).among xs)
  | .tuple xs _ => .ok ((Data.str key).among xs)
  | .set xs _ => .ok ((Data.str key).among xs)
  | .scalar (.str s) => .ok (occursIn key.toList s.toList)
  | v => .error (.notContainer v.ownerName)

/-- What stands for the extensions, with a value under a key. -/
def putExtension (key : String) (v : Data) : Data → Except Failure Data
  | .map es mark => .ok (.map (Entries.insert es (.str key) v) mark)
  | .list _ _ => .error (.noPosition "list")
  | extensions => .error (.notAssignable extensions.ownerName)

/-- A value merged among the extensions. -/
def setExtension (o : MergeOptions) (i : NodeId) (key : String) (v : Data) : Edit Unit := do
  let n ← Edit.node i
  let skip ← if o.overwrite then pure false else Edit.ofExcept (hasExtension key n.extensions)
  if !skip then
    let extensions ← Edit.ofExcept (putExtension key v n.extensions)
    Edit.setNode i { n with extensions := extensions }

/-- The text that a key is, where it is looked at for what it begins with. -/
def keyText (f : Forest) : Data → Except Failure String
  | .scalar (.str s) => .ok s
  | .scalar (.bytes _) => .error .octetFront
  | .node i => .error (.noField (f.get i).kind "startswith")
  | k => .error (.noAttribute k.ownerName "startswith")

/-- The value under a key that names no slot. -/
def setPlain (o : MergeOptions) (i : NodeId) (key v : Data) : Edit Unit := do
  let text ← Edit.ofExcept (keyText (← Edit.forest) key)
  -- An extension is told by its key alone, whatever the kind of node.
  if text.startsWith "x-" then setExtension o i text v
  else
    let kind := (← Edit.node i).kind
    match kind.fieldOfWire? text with
    | none => reject o i text .undeclared
    | some name =>
      if kind.arrayFields.contains name then growList i name v else setScalar o i name v

/-! ### Parts of a source -/

/-- An entry of a source. Its value can become the content of a node, members of a node under
    keys, or members of a list of a node. -/
structure Part where
  key : Data
  value : Data
  asNode : NodeId → Edit Unit
  asKeyed : Kind → NodeId → Edit Unit
  asListed : Kind → CollectionSlot → NodeId → Edit Unit

/-- The part under a key. -/
def find? (ps : List Part) (key : String) : Option Part :=
  ps.find? fun p => p.key.same (.str key)

/-- The part under the key of a singular slot. -/
def intoSingular (o : MergeOptions) (i : NodeId) (ps : List Part) (layout : Layout) (k : Kind)
    (slot : String) : Edit Unit :=
  match find? ps (wireName slot) with
  | none => return
  | some p => match p.value with
    -- Some slots take a truth value in the place of a child.
    | .scalar (.bool b) =>
      if layout.booleanSlots.contains slot then setScalar o i slot (.bool b)
      else reject o i (wireName slot) (.notObject p.value.typeName)
    | .map _ _ => do p.asNode (← Edit.child i k)
    | .node _ => do p.asNode (← Edit.child i k)
    | v => reject o i (wireName slot) (.notObject v.typeName)

/-- The part under the key of an indexed slot. -/
def intoIndexed (o : MergeOptions) (i : NodeId) (ps : List Part) (k : Kind) (slot : IndexedSlot) :
    Edit Unit :=
  match find? ps (wireName slot.name) with
  | none => return
  | some p => match p.value with
    | .map _ _ => p.asKeyed k i
    | v => reject o i (wireName slot.name) (.notMapping v.typeName)

/-- The part under the key of a collection slot. -/
def intoCollection (o : MergeOptions) (i : NodeId) (ps : List Part) (k : Kind)
    (slot : CollectionSlot) : Edit Unit :=
  match find? ps (wireName slot.name) with
  | none => return
  | some p => match p.value with
    | .list _ _ => p.asListed k slot i
    | .tuple _ _ => p.asListed k slot i
    | v => reject o i (wireName slot.name) (.notList v.typeName)

/-- Whether a key is that of a slot. -/
def isSlotKey (layout : Layout) (key : Data) : Bool :=
  layout.slotNames.any fun slot => key.same (.str (wireName slot))

/-- Parts merged as the content of a node. -/
def content (o : MergeOptions) (ps : List Part) (i : NodeId) : Edit Unit := do
  let layout := (← Edit.node i).kind.layout
  -- Children first, in the order of the layout and not in that of the source.
  layout.singular.forM fun (k, slot) => intoSingular o i ps layout k slot
  layout.indexed.forM fun (k, slot) => intoIndexed o i ps k slot
  layout.collections.forM fun (k, slot) => intoCollection o i ps k slot
  (ps.filter fun p => !isSlotKey layout p.key).forM fun p => setPlain o i p.key p.value

/-- Parts merged as members of a node under their keys. -/
def keyed (k : Kind) (ps : List Part) (i : NodeId) : Edit Unit :=
  ps.forM fun p => do p.asNode (← Edit.indexedItem i k p.key)

/-- The field by which a collection recognises its members that a key names. Without
    identifying fields every field is one. -/
def identifies? (k : Kind) (slot : CollectionSlot) (key : Data) : Option String :=
  match key with
  | .scalar (.str s) => (k.fieldOfWire? s).filter fun name =>
      !(k.slotOfWire? s).isSome && (slot.identifying.isEmpty || slot.identifying.contains name)
  | _ => none

/-- Parts merged as one member of a collection of a node: the identifying fields find it, the
    others are merged into it. -/
def listed (o : MergeOptions) (k : Kind) (slot : CollectionSlot) (ps : List Part) (i : NodeId) :
    Edit Unit := do
  let identity := ps.filterMap fun p =>
    (identifies? k slot p.key).map fun name => (Data.str name, p.value)
  let rest := ps.filter fun p => (identifies? k slot p.key).isNone
  -- The member has the identifying fields by being found, or by being made with them.
  content o rest (← Edit.collectionItem i k identity)

/-! ### Reading a source -/

/-- What makes parts of the content of a node in a source. -/
abbrev Reader := Entries → Except Failure (List Part)

/-- The parts of the content of a node in a source, as it is when they are merged. -/
def partsOf (read : Reader) (source : NodeId) : Edit (List Part) := do
  Edit.ofExcept (read (← Edit.content source))

mutual

/-- The parts of a mapping. -/
def parts (o : MergeOptions) (read : Reader) : List (Data × Data) → List Part
  | [] => []
  | (key, v) :: rest =>
    { key := key
      value := v
      asNode := asContent o read v
      asKeyed := asMembers o read v
      asListed := asItems o read v } :: parts o read rest

/-- A value as the content of a node. -/
def asContent (o : MergeOptions) (read : Reader) : Data → NodeId → Edit Unit
  | .map es _ => content o (parts o read es)
  | .node source => fun i => do content o (← partsOf read source) i
  | v => fun _ => throw (.notContent v.typeName)

/-- A value as members of a node under keys. -/
def asMembers (o : MergeOptions) (read : Reader) : Data → Kind → NodeId → Edit Unit
  | .map es _ => fun k => keyed k (parts o read es)
  | _ => fun _ _ => return

/-- A value as members of a collection of a node. -/
def asItems (o : MergeOptions) (read : Reader) :
    Data → Kind → CollectionSlot → NodeId → Edit Unit
  | .list xs _ => items o read xs
  | .tuple xs _ => items o read xs
  | _ => fun _ _ _ => return

/-- Items as members of a collection of a node, one after the other. -/
def items (o : MergeOptions) (read : Reader) :
    List Data → Kind → CollectionSlot → NodeId → Edit Unit
  | [] => fun _ _ _ => return
  | .map es _ :: rest => fun k slot i => do
    listed o k slot (parts o read es) i
    items o read rest k slot i
  | .node source :: rest => fun k slot i => do
    listed o k slot (← partsOf read source) i
    items o read rest k slot i
  | v :: _ => fun _ _ _ => throw (.notContent v.typeName)

end

/-- The parts of a mapping, whose nodes may hold nodes in turn, to so many levels. -/
def readParts (o : MergeOptions) : (fuel : Nat) → Reader
  | 0 => fun _ => .error .outOfFuel
  | fuel + 1 => fun es => .ok (parts o (readParts o fuel) es)

end Merge

namespace Edit

/-- Entries in the shape of a document merged into a node. -/
def mergeEntries (o : MergeOptions) (es : Entries) (i : NodeId) : Edit Unit := do
  let ps ← ofExcept (Merge.readParts o (← forest).fuel es)
  Merge.content o ps i

/-- The entries that a source brings: those of a mapping, or the content of a node. -/
def sourceEntries (source : Data) (i : NodeId) : Edit Entries := do
  match source with
  | .map es _ => return es
  | .node j => content j
  | v => throw (.notSource v.typeName (← node i).kind)

/-- A mapping or a node merged into a node. -/
def merge (o : MergeOptions) (source : Data) (i : NodeId) : Edit Unit := do
  mergeEntries o (← sourceEntries source i) i

end Edit

end ApiDoc
