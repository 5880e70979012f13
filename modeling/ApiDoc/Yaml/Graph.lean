import ApiDoc.Yaml.Plain
import ApiDoc.Yaml.Token

namespace ApiDoc.Yaml

/-!
# The graph of a document

A document is a graph: an alias leads to the vertex that was anchored before, and a collection
can contain itself.

* `Vertex`, `Graph` — scalars, sequences and mappings with their tags, by number;
* `Graph.ofText` — the graph of a text and the number of its root, if it holds a document.
-/

/-- A part of a document. -/
inductive Vertex where
  | scalar (tag text : String)
  | sequence (tag : String) (items : List Nat)
  | mapping (tag : String) (entries : List (Nat × Nat))
deriving Repr

instance : Inhabited Vertex := ⟨.scalar "" ""⟩

/-- The parts of a document, by number. -/
structure Graph where
  vertices : Array Vertex := #[]
deriving Repr, Inhabited

namespace Graph

/-- The vertex with a number. -/
def vertex (g : Graph) (i : Nat) : Vertex := g.vertices.getD i default

/-- The graph with the vertex of a number replaced. -/
def setVertex (g : Graph) (i : Nat) (v : Vertex) : Graph := ⟨g.vertices.setIfInBounds i v⟩

/-! ### Building -/

/-- What remains of a document, and what is known of it. -/
structure Reading where
  tokens : List Token
  /-- The failure behind the tokens. -/
  failure? : Option Failure
  graph : Graph := {}
  anchors : List (String × Nat) := []
  handles : List (String × String) := []

/-- A computation that builds a graph. -/
abbrev Builder := EStateM Failure Reading

/-- The text is no YAML. -/
def refuse {α : Type} : Builder α := throw .malformedYaml

/-- The next token. -/
def peek : Builder Token := do
  let d ← get
  match d.tokens with
  | t :: _ => return t
  | [] => throw (d.failure?.getD .malformedYaml)

/-- The next token left behind. -/
def skip : Builder Unit := modify fun d => { d with tokens := d.tokens.drop 1 }

/-- A vertex added. -/
def add (v : Vertex) : Builder Nat := do
  let d ← get
  set { d with graph := ⟨d.graph.vertices.push v⟩ }
  return d.graph.vertices.size

/-- A vertex replaced. -/
def complete (i : Nat) (v : Vertex) : Builder Unit :=
  modify fun d => { d with graph := d.graph.setVertex i v }

/-- An empty scalar, which is null. -/
def addEmpty : Builder Nat := add (.scalar (plainTag "") "")

/-! ### Properties of nodes -/

/-- The full text of a tag. -/
def fullTag (t : Lexer.Tag) : Builder String := do
  match t.handle? with
  | none => return t.text
  | some handle => match (← get).handles.lookup handle with
    | some start => return start ++ t.text
    | none => refuse

/-- An anchor at the next token, if there is one. -/
def anchor? : Builder (Option String) := do
  match ← peek with
  | .anchor name => do skip; return some name
  | _ => return none

/-- A tag at the next token, if there is one. -/
def tag? : Builder (Option Lexer.Tag) := do
  match ← peek with
  | .tag t => do skip; return some t
  | _ => return none

/-- The anchor and the tag of a node, in either order. -/
def properties : Builder (Option String × Option String) := do
  let before ← anchor?
  let tag ← tag?
  let after ← if before.isNone && tag.isSome then anchor? else pure none
  let full ← match tag with
    | some t => some <$> fullTag t
    | none => pure none
  return (before <|> after, full)

/-- An anchor that no other node has. -/
def checkAnchor (anchor? : Option String) : Builder Unit := do
  match anchor? with
  | some name => if ((← get).anchors.lookup name).isSome then refuse
  | none => return

/-- A node known by its anchor. -/
def bindAnchor (anchor? : Option String) (i : Nat) : Builder Unit := do
  match anchor? with
  | some name => modify fun d => { d with anchors := (name, i) :: d.anchors }
  | none => return

/-- The node that an alias stands for. -/
def anchored (name : String) : Builder Nat := do
  match (← get).anchors.lookup name with
  | some i => return i
  | none => refuse

/-- A tag that says something; none for one that leaves it to the text. -/
def specific? (tag? : Option String) : Option String := tag?.filter (· != "!")

/-- The tag of a collection. -/
def collectionTag (tag? : Option String) (name : String) : String :=
  (specific? tag?).getD (standardTag name)

/-- The tag of a scalar: its own, that of its form where it is plain or has a tag that says
    nothing, or else that of texts. -/
def scalarTag (tag? : Option String) (plain : Bool) (text : String) : String :=
  match specific? tag? with
  | some tag => tag
  | none => if plain || tag?.isSome then plainTag text else standardTag "str"

/-! ### Nodes -/

/-- Where a node stands: between brackets, in a block, or where a sequence need not be
    indented. -/
inductive Context where
  | flow
  | block
  | indentless
deriving DecidableEq

/-- The tokens before which an item of a sequence is empty. -/
def endsItem (indentless : Bool) : Token → Bool
  | .blockEntry => true
  | .blockEnd => true
  | .key => indentless
  | .value => indentless
  | _ => false

/-- The tokens before which a key or a value of a mapping is empty. -/
def endsEntry : Token → Bool
  | .key => true
  | .value => true
  | .blockEnd => true
  | _ => false

/-- The tokens before which a value between brackets is empty. -/
def endsFlow : Token → Bool
  | .flowEntry => true
  | .flowSequenceEnd => true
  | .flowMappingEnd => true
  | _ => false

/-- The tokens before which a key between brackets is empty. -/
def endsFlowKey : Token → Bool
  | .value => true
  | t => endsFlow t

mutual

/-- A node. -/
def node : (fuel : Nat) → Context → Builder Nat
  | 0, _ => refuse
  | fuel + 1, context => do
    match ← peek with
    | .reference name => do
      skip
      anchored name
    | _ => do
      let (anchor, tag) ← properties
      let sequence (items : Builder (List Nat)) : Builder Nat := do
        checkAnchor anchor
        let i ← add (.sequence (collectionTag tag "seq") [])
        bindAnchor anchor i
        complete i (.sequence (collectionTag tag "seq") (← items))
        return i
      let mapping (entries : Builder (List (Nat × Nat))) : Builder Nat := do
        checkAnchor anchor
        let i ← add (.mapping (collectionTag tag "map") [])
        bindAnchor anchor i
        complete i (.mapping (collectionTag tag "map") (← entries))
        return i
      let scalar (plain : Bool) (text : String) : Builder Nat := do
        checkAnchor anchor
        let i ← add (.scalar (scalarTag tag plain text) text)
        bindAnchor anchor i
        return i
      match ← peek, context with
      | .blockEntry, .indentless => sequence (blockItems fuel true)
      | .scalar plain text, _ => do skip; scalar plain text
      | .flowSequence, _ => do skip; sequence (flowItems fuel true)
      | .flowMapping, _ => do skip; mapping (flowEntries fuel true)
      | t, context => match t, context != .flow with
        | .blockSequence, true => do skip; sequence (blockItems fuel false)
        | .blockMapping, true => do skip; mapping (blockEntries fuel)
        | _, _ => if anchor.isSome || tag.isSome then scalar true "" else refuse

/-- A node, or an empty one before certain tokens. -/
def nodeUnless : (fuel : Nat) → (Token → Bool) → Context → Builder Nat
  | 0, _, _ => refuse
  | fuel + 1, ends, context => do if ends (← peek) then addEmpty else node fuel context

/-- The items of a block sequence. -/
def blockItems : (fuel : Nat) → (indentless : Bool) → Builder (List Nat)
  | 0, _ => refuse
  | fuel + 1, indentless => do
    match ← peek with
    | .blockEntry => do
      skip
      let i ← nodeUnless fuel (endsItem indentless) .block
      return i :: (← blockItems fuel indentless)
    | .blockEnd => do if !indentless then skip; return [] else return []
    | _ => if indentless then return [] else refuse

/-- The value after a key, which is empty where there is none. -/
def valueUnless : (fuel : Nat) → (Token → Bool) → Context → Builder Nat
  | 0, _, _ => refuse
  | fuel + 1, ends, context => do
    match ← peek with
    | .value => do
      skip
      nodeUnless fuel ends context
    | _ => addEmpty

/-- The entries of a block mapping. -/
def blockEntries : (fuel : Nat) → Builder (List (Nat × Nat))
  | 0 => refuse
  | fuel + 1 => do
    match ← peek with
    | .key => do
      skip
      let k ← nodeUnless fuel endsEntry .indentless
      let v ← valueUnless fuel endsEntry .indentless
      return (k, v) :: (← blockEntries fuel)
    | .blockEnd => do skip; return []
    | _ => refuse

/-- The items between brackets. A key makes an item a mapping of one entry. -/
def flowItems : (fuel : Nat) → (first : Bool) → Builder (List Nat)
  | 0, _ => refuse
  | fuel + 1, first => do
    match ← peek, first with
    | .flowSequenceEnd, _ => do skip; return []
    | .flowEntry, false => do skip; flowItem fuel
    | _, false => refuse
    | _, true => flowItem fuel

/-- An item between brackets and those after it; nothing before the closing bracket. -/
def flowItem : (fuel : Nat) → Builder (List Nat)
  | 0 => refuse
  | fuel + 1 => do
    match ← peek with
    | .flowSequenceEnd => do skip; return []
    | .key => do
      skip
      let k ← nodeUnless fuel endsFlowKey .flow
      let v ← valueUnless fuel endsFlow .flow
      let i ← add (.mapping (standardTag "map") [(k, v)])
      return i :: (← flowItems fuel false)
    | _ => do
      let i ← node fuel .flow
      return i :: (← flowItems fuel false)

/-- The entries between braces. -/
def flowEntries : (fuel : Nat) → (first : Bool) → Builder (List (Nat × Nat))
  | 0, _ => refuse
  | fuel + 1, first => do
    match ← peek, first with
    | .flowMappingEnd, _ => do skip; return []
    | .flowEntry, false => do skip; flowPair fuel
    | _, false => refuse
    | _, true => flowPair fuel

/-- An entry between braces and those after it; nothing before the closing brace. -/
def flowPair : (fuel : Nat) → Builder (List (Nat × Nat))
  | 0 => refuse
  | fuel + 1 => do
    match ← peek with
    | .flowMappingEnd => do skip; return []
    | .key => do
      skip
      let k ← nodeUnless fuel endsFlowKey .flow
      let v ← valueUnless fuel endsFlow .flow
      return (k, v) :: (← flowEntries fuel false)
    | _ => do
      let k ← node fuel .flow
      let v ← addEmpty
      return (k, v) :: (← flowEntries fuel false)

end

/-! ### Documents -/

/-- The handles that every document has. -/
def defaultHandles : List (String × String) := [("!", "!"), ("!!", standardTag "")]

/-- The directives before a document: a version at most once and of the first generation, and
    handles at most once each. -/
def directives : (fuel : Nat) → (versioned : Bool) → (handles : List (String × String)) →
    Builder (List (String × String))
  | 0, _, handles => return handles
  | fuel + 1, versioned, handles => do
    match ← peek with
    | .directive d => do
      skip
      match d with
      | .version major => if versioned || major != 1 then refuse else directives fuel true handles
      | .handle name text =>
        if (handles.lookup name).isSome then refuse
        else directives fuel versioned (handles ++ [(name, text)])
      | .other => directives fuel versioned handles
    | _ => return handles

/-- Marks of document ends left behind. -/
def skipEnds : (fuel : Nat) → Builder Unit
  | 0 => return
  | fuel + 1 => do
    match ← peek with
    | .documentEnd => do skip; skipEnds fuel
    | _ => return

/-- The tokens before which an explicit document is empty. -/
def endsDocument : Token → Bool
  | .directive _ => true
  | .documentStart => true
  | .documentEnd => true
  | .streamEnd => true
  | _ => false

/-- A document whose start is marked, after its directives. -/
def explicitDocument (fuel : Nat) : Builder Nat := do
  let handles ← directives fuel false []
  modify fun d => { d with
    handles := handles ++ defaultHandles.filter fun h => (handles.lookup h.1).isNone }
  match ← peek with
  | .documentStart => do
    skip
    nodeUnless fuel endsDocument .block
  | _ => refuse

/-- The root of the only document, if there is one. -/
def document (fuel : Nat) : Builder (Option Nat) := do
  let root ← match ← peek with
    | .streamEnd => pure none
    | .directive _ => some <$> explicitDocument fuel
    | .documentStart => some <$> explicitDocument fuel
    | _ => do
      modify fun d => { d with handles := defaultHandles }
      some <$> node fuel .block
  skipEnds fuel
  match ← peek with
  | .streamEnd => return root
  | _ => do
    let _ ← directives fuel false []
    refuse

/-- The graph of a text and its root. -/
def ofText (text : String) : Except Failure (Graph × Option Nat) :=
  let (tokens, failure?) := Tokens.ofText text
  match document (4 * tokens.length + 8) { tokens := tokens, failure? := failure? } with
  | .ok root d => .ok (d.graph, root)
  | .error e _ => .error e

end Graph

end ApiDoc.Yaml
