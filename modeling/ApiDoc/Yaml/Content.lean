import ApiDoc.Yaml.Graph
import ApiDoc.Yaml.Value

namespace ApiDoc.Yaml

/-!
# The content of a document

The value of a graph is found in rounds. A scalar is read where it is met; a collection is
first known without its content, and filled when all met before it have been filled:

* `Content.make`, `Content.fill` — a vertex met, and a collection filled;
* `Content.flatten` — the entries of a mapping with what is merged into it;
* `read` — the value of a text.

A collection that contains itself is shown a few times inside itself, and empty inside that.
-/

/-- A scalar, or a collection by number. -/
inductive Ref where
  | scalar (s : Scalar)
  | collection (id : Nat)
deriving Repr

/-- A collection with what it holds so far. -/
inductive Collection where
  | list (items : List Ref)
  | pairs (items : List (Ref × Ref))
  | mapping (entries : List (Scalar × Ref))
  | set (members : List Scalar)
deriving Repr

/-- What is known of a document. -/
structure Content where
  graph : Graph
  collections : Array Collection := #[]
  /-- What each vertex met so far stands for. -/
  made : List (Nat × Ref) := []
  /-- The vertices of collections to be filled, with the collections. -/
  waiting : List (Nat × Nat) := []
  /-- The first mark for the collections and moments of the document. -/
  firstMark : Nat

namespace Content

/-- A computation on what is known. -/
abbrev Maker := EStateM Failure Content

/-- The document is no YAML. -/
def refuse {α : Type} : Maker α := throw .malformedYaml

/-- A vertex. -/
def vertex (i : Nat) : Maker Vertex := return (← get).graph.vertex i

/-- A vertex replaced. -/
def setVertex (i : Nat) (v : Vertex) : Maker Unit :=
  modify fun c => { c with graph := c.graph.setVertex i v }

/-- The tag of a vertex. -/
def tagOf : Vertex → String
  | .scalar tag _ => tag
  | .sequence tag _ => tag
  | .mapping tag _ => tag

/-! ### Vertices met -/

/-- The text of a scalar. A mapping stands for the value that it has under the mark of values,
    if it has one. -/
def scalarText : (fuel : Nat) → Nat → Maker String
  | 0, _ => throw .outOfFuel
  | fuel + 1, i => do
    match ← vertex i with
    | .scalar _ text => return text
    | .mapping _ entries => do
      let c ← get
      match entries.find? fun e => tagOf (c.graph.vertex e.1) == PlainForm.value.tag with
      | some (_, v) => scalarText fuel v
      | none => refuse
    | .sequence _ _ => refuse

/-- The collection that a tag announces, without its content. -/
def emptyCollection? (tag : String) : Option Collection :=
  [("seq", Collection.list []), ("map", .mapping []), ("set", .set []), ("omap", .pairs []),
    ("pairs", .pairs [])].findSome? fun (name, c) =>
      if tag == standardTag name then some c else none

/-- Whether a vertex is no scalar. -/
def isCollection : Vertex → Bool
  | .scalar _ _ => false
  | _ => true

/-- The scalar of a vertex. -/
def scalarOf (i : Nat) (v : Vertex) : Maker Scalar := do
  let c ← get
  let text ← scalarText (c.graph.vertices.size + 1) i
  if tagOf v == PlainForm.moment.tag && isCollection v then throw (.notText "list")
  else match scalarValue? (c.firstMark + i) (tagOf v) text with
    | some (.ok s) => return s
    | some (.error e) => throw e
    | none => refuse

/-- What a vertex stands for. A collection waits to be filled. -/
def make (i : Nat) : Maker Ref := do
  let c ← get
  match c.made.lookup i with
  | some r => return r
  | none =>
    let v ← vertex i
    let r ← match emptyCollection? (tagOf v) with
      | some empty => do
        modify fun c => { c with
          collections := c.collections.push empty
          waiting := c.waiting ++ [(i, c.collections.size)] }
        pure (.collection c.collections.size)
      | none => do
        let known := (scalarValue? 0 (tagOf v) "").isSome
        if known then .scalar <$> scalarOf i v else refuse
    modify fun c => { c with made := (i, r) :: c.made }
    return r

/-! ### Merged entries -/

/-- The entries of a mapping. -/
def entriesOf (i : Nat) : Maker (List (Nat × Nat)) := do
  match ← vertex i with
  | .mapping _ entries => return entries
  | _ => refuse

/-- The entries of a mapping replaced. -/
def setEntries (i : Nat) (entries : List (Nat × Nat)) : Maker Unit := do
  setVertex i (.mapping (tagOf (← vertex i)) entries)

/-- The mark of values turned into a text. -/
def unmark (i : Nat) : Maker Unit := do
  match ← vertex i with
  | .scalar _ text => setVertex i (.scalar (standardTag "str") text)
  | .sequence _ items => setVertex i (.sequence (standardTag "str") items)
  | .mapping _ entries => setVertex i (.mapping (standardTag "str") entries)

mutual

/-- The entries of a mapping with what is merged into it in front. -/
def flatten : (fuel : Nat) → Nat → Maker Unit
  | 0, _ => throw .outOfFuel
  | fuel + 1, i => do
    let merged ← collect fuel i 0
    if !merged.isEmpty then setEntries i (merged ++ (← entriesOf i))

/-- What the entries of a mapping from a position on merge into it; they are taken out. -/
def collect : (fuel : Nat) → Nat → (position : Nat) → Maker (List (Nat × Nat))
  | 0, _, _ => throw .outOfFuel
  | fuel + 1, i, position => do
    let entries ← entriesOf i
    match entries[position]? with
    | none => return []
    | some (k, v) => do
      let tag := tagOf (← vertex k)
      if tag == PlainForm.merge.tag then
        setEntries i (entries.eraseIdx position)
        let first ← merged fuel v
        return first ++ (← collect fuel i position)
      else
        if tag == PlainForm.value.tag then unmark k
        collect fuel i (position + 1)

/-- The entries that a value brings: those of a mapping, or those of several, the last first. -/
def merged : (fuel : Nat) → Nat → Maker (List (Nat × Nat))
  | 0, _ => throw .outOfFuel
  | fuel + 1, v => do
    match ← vertex v with
    | .mapping _ _ => do
      flatten fuel v
      entriesOf v
    | .sequence _ items => mergedItems fuel items
    | .scalar _ _ => refuse

/-- The entries that mappings bring, the last first. -/
def mergedItems : (fuel : Nat) → List Nat → Maker (List (Nat × Nat))
  | 0, _ => throw .outOfFuel
  | _, [] => return []
  | fuel + 1, i :: rest => do
    match ← vertex i with
    | .mapping _ _ => do
      flatten fuel i
      let own ← entriesOf i
      return (← mergedItems fuel rest) ++ own
    | _ => refuse

end

/-- More steps than merging the entries of a document takes. -/
def mergeFuel : Maker Nat := do
  let sizes := (← get).graph.vertices.toList.map fun v => match v with
    | .scalar _ _ => 1
    | .sequence _ items => items.length + 1
    | .mapping _ entries => entries.length + 1
  let total := sizes.foldl (· + ·) 4
  return total * total + 64

/-! ### Collections filled -/

/-- A key: a scalar. -/
def keyOf (i : Nat) : Maker Scalar := do
  match ← make i with
  | .scalar s => return s
  | .collection _ => refuse

/-- Entries with one under a key set. -/
def putEntry (k : Scalar) (r : Ref) : List (Scalar × Ref) → List (Scalar × Ref)
  | [] => [(k, r)]
  | (l, s) :: rest => if l.same k then (l, r) :: rest else (l, s) :: putEntry k r rest

/-- The entries of a mapping. -/
def mappingOf (i : Nat) : Maker (List (Scalar × Ref)) := do
  match ← vertex i with
  | .mapping _ _ => do
    flatten (← mergeFuel) i
    let pairs ← (← entriesOf i).mapM fun (k, v) => do return (← keyOf k, ← make v)
    return pairs.foldl (fun es p => putEntry p.1 p.2 es) []
  | _ => refuse

/-- The vertices of the items of a sequence. -/
def itemsOf (i : Nat) : Maker (List Nat) := do
  match ← vertex i with
  | .sequence _ items => return items
  | _ => refuse

/-- The pair that a mapping of one entry is. -/
def pairOf (i : Nat) : Maker (Ref × Ref) := do
  match ← vertex i with
  | .mapping _ [(k, v)] => return (← make k, ← make v)
  | _ => refuse

/-- The members of a set as it shows them: whole numbers in rising order, others as given. -/
def arranged (members : List Scalar) : List Scalar :=
  if members.all (·.integer?.isSome) then
    members.mergeSort fun s t => s.integer?.getD 0 ≤ t.integer?.getD 0
  else members

/-- A collection filled from its vertex. -/
def fill (i : Nat) : Collection → Maker Collection
  | .list _ => do return .list (← (← itemsOf i).mapM make)
  | .pairs _ => do return .pairs (← (← itemsOf i).mapM pairOf)
  | .mapping _ => do return .mapping (← mappingOf i)
  | .set _ => do return .set (arranged ((← mappingOf i).map (·.1)))

/-- All waiting collections filled, in the order in which they were met. -/
def fillAll : (fuel : Nat) → Maker Unit
  | 0 => return
  | fuel + 1 => do
    let c ← get
    match c.waiting with
    | [] => return
    | (i, id) :: rest => do
      set { c with waiting := rest }
      let filled ← fill i (c.collections.getD id (.list []))
      modify fun c => { c with collections := c.collections.setIfInBounds id filled }
      fillAll fuel

/-! ### Values -/

/-- How often a collection is shown inside itself. -/
def depthLimit : Nat := 4

/-- The value of a reference inside collections with the numbers given. -/
def valueOf (c : Content) : (fuel : Nat) → (around : List Nat) → Ref → Data
  | _, _, .scalar s => .scalar s
  | 0, _, .collection _ => .unset
  | fuel + 1, around, .collection id =>
    let mark := c.firstMark + c.graph.vertices.size + id
    let inside := id :: around
    let tooDeep := around.count id ≥ depthLimit
    match c.collections.getD id (.list []) with
    | .list items => .list (if tooDeep then [] else items.map (valueOf c fuel inside)) mark
    | .pairs items =>
      .list (if tooDeep then [] else items.map fun (k, v) =>
        .ofTuple [valueOf c fuel inside k, valueOf c fuel inside v]) mark
    | .mapping entries =>
      .map (if tooDeep then [] else entries.map fun (k, v) =>
        (Data.scalar k, valueOf c fuel inside v)) mark
    | .set members => .set (members.map Data.scalar) mark

end Content

/-- The value of a text, null where it holds no document, and the first mark that it leaves. -/
def read (text : String) (firstMark : Nat) : Except Failure (Data × Nat) := do
  match ← Graph.ofText text with
  | (_, none) => return (.null, firstMark)
  | (graph, some root) =>
    let act : Content.Maker Ref := do
      let r ← Content.make root
      Content.fillAll (graph.vertices.size + 1)
      return r
    match act { graph := graph, firstMark := firstMark } with
    | .ok r c =>
      let fuel := Content.depthLimit * c.collections.size + 1
      return (c.valueOf fuel [] r, firstMark + c.graph.vertices.size + c.collections.size)
    | .error e _ => .error e

end ApiDoc.Yaml
