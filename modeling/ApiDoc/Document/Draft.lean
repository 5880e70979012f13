import ApiDoc.Document.Shown

namespace ApiDoc

/-!
# Drafts

A draft is a forest being edited, with the warnings given so far:

* `Edit` — a computation on a draft. What it has done before a failure stays done;
* `Edit.node`, `Edit.assign`, `Edit.read`, `Edit.addNode` — reading and changing nodes;
* `Edit.fresh`, `Edit.warn` — a mark not given before, and a warning.
-/

/-- A forest being edited. -/
structure Draft where
  forest : Forest := {}
  warnings : List String := []
  /-- The next mark for a container. -/
  nextMark : Nat := 1
deriving Repr, Inhabited

/-- A computation on a draft. -/
abbrev Edit := EStateM Failure Draft

namespace Edit

/-- The result of a pure computation. -/
def ofExcept {α : Type} : Except Failure α → Edit α
  | .ok a => pure a
  | .error e => throw e

/-- The forest being edited. -/
def forest : Edit Forest := return (← get).forest

/-- A node. -/
def node (i : NodeId) : Edit Node := return (← forest).get i

/-- A node replaced. -/
def setNode (i : NodeId) (n : Node) : Edit Unit :=
  modify fun d => { d with forest := d.forest.put i n }

/-- A node added. -/
def addNode (n : Node) : Edit NodeId := do
  let (i, f) := (← forest).add n
  modify fun d => { d with forest := f }
  return i

/-- The value under the name of a field or slot set. -/
def assign (i : NodeId) (name : String) (v : Data) : Edit Unit := do
  setNode i ((← node i).putValue name v)

/-- A value set under a name that the node has. -/
def assign? (i : NodeId) (name : String) (v : Data) : Edit Unit := do
  setNode i (← ofExcept ((← node i).assign? name v))

/-- What stands under a name of a node. -/
def read (i : NodeId) (name : String) : Edit Data := do ofExcept ((← forest).read i name)

/-- The way to a node. -/
def location (i : NodeId) : Edit String := do ofExcept ((← forest).location i)

/-- The content of a node. -/
def content (i : NodeId) : Edit Entries := do ofExcept ((← forest).content i)

/-- A warning given. -/
def warn (message : String) : Edit Unit :=
  modify fun d => { d with warnings := d.warnings ++ [message] }

/-- A mark not given before. -/
def fresh : Edit Nat := do
  let mark := (← get).nextMark
  modify fun d => { d with nextMark := mark + 1 }
  return mark

end Edit

end ApiDoc
