import ApiDoc.Document.Shown
import ApiDoc.Generator

namespace ApiDoc

/-!
# Workspaces

A workspace holds documents that are edited step by step, describers of models, and the
registries that these are attached to.

* `Workspace` — a site with describers and registries by number;
* `Work` — a computation on a workspace;
* `Work.edit`, `Work.atDesk` — an edit of the nodes, and describing at the desk of a registry;
* `Workspace.root` — the document that a node belongs to;
* `Work.openRegistry`, `Work.registerSchemas` — a registry for a document, and its models
  described.
-/

/-- A describer with the number of the registry that it is attached to. -/
structure AttachedDescriber where
  describer : ModelDescriber
  attachedTo? : Option Nat := none

/-- The document that the models of a registry are described into, and the numbers of the
    describers that describe them. -/
structure Assignment where
  document : NodeId
  describers : List Nat
deriving Repr

/-- Documents in progress. -/
structure Workspace where
  site : Site := {}
  describers : List AttachedDescriber := []
  assignments : List Assignment := []

/-- A computation on a workspace. -/
abbrev Work := EStateM Failure Workspace

namespace Workspace

/-- The nodes that exist. -/
def forest (ws : Workspace) : Forest := ws.site.draft.forest

/-- The warnings given. -/
def warnings (ws : Workspace) : List String := ws.site.draft.warnings

/-- The workspace without warnings. -/
def withoutWarnings (ws : Workspace) : Workspace :=
  { ws with site := { ws.site with draft := { ws.site.draft with warnings := [] } } }

/-- The node at the end of so many steps from a node to its parent. -/
def rootIn (f : Forest) : (fuel : Nat) → NodeId → NodeId
  | 0, i => i
  | fuel + 1, i => match (f.get i).parent with
    | .node p => rootIn f fuel p
    | _ => i

/-- The document that a node belongs to: the last of its parents. -/
def root (ws : Workspace) (i : NodeId) : NodeId := rootIn ws.forest ws.forest.fuel i

end Workspace

namespace Work

/-- The result of a pure computation. -/
def ofExcept {α : Type} : Except Failure α → Work α
  | .ok a => pure a
  | .error e => throw e

/-- A computation at the desk of a number, or at none. -/
def atDesk {α : Type} (desk? : Option Nat) (act : Describe α) : Work α := fun ws =>
  match Describe.through desk? act ws.site with
  | .ok a s => .ok a { ws with site := s }
  | .error e s => .error e { ws with site := s }

/-- An edit of the nodes. -/
def edit {α : Type} (act : Edit α) : Work α := atDesk none (Describe.edit act)

/-- What is found out about the nodes. -/
def ask {α : Type} (question : Forest → Except Failure α) : Work α := do
  ofExcept (question (← get).forest)

/-! ### Documents -/

/-- A node added, with a parent or on its own. -/
def addNode (k : Kind) (parent : Data) (fields : Entries) : Work NodeId := do
  let n ← ofExcept (Node.create k parent fields)
  edit (Edit.addNode n)

/-- An empty document of a version, the ambient one if none is given. -/
def newDocument (ambient : Ambient) (version? : Option Data) : Work NodeId := do
  let version ← match version? with
    | some v => pure v
    | none => ofExcept do return .str (← ambient).openapiVersion
  edit (Edit.addNode (Generator.emptyDocument version))

/-- The policy of a merge. A source that cannot be merged fails in any case. -/
def mergePolicy (ambient : Ambient) (policy? : Option Policy) (source : Data) :
    Except Failure Policy :=
  match source with
  | .map _ _ => Policy.orAmbient ambient policy?
  | .node _ => Policy.orAmbient ambient policy?
  | _ => .ok .error

/-- A source merged into a node; without a policy as the ambient settings say. What the source
    holds is looked at first. -/
def merge (ambient : Ambient) (i : NodeId) (overwrite : Bool) (policy? : Option Policy)
    (source : Data) : Work Unit := do
  let es ← edit (Edit.sourceEntries source i)
  let policy ← ofExcept (mergePolicy ambient policy? source)
  edit (Edit.mergeEntries ⟨overwrite, policy⟩ es i)

/-- A computation with a reader at the desk of a registry or at none. -/
def withReader {α : Type} (desk? : Option Nat) (policy? : Option Policy)
    (act : Reader → Describe α) : Work α :=
  atDesk desk? do act (Reader.atDesk (← get).desk? policy?)

/-! ### Describers and registries -/

/-- Classes that are met. -/
def meet (names : List String) : Work Unit := atDesk none (Describe.meet names)

/-- A model asked for. -/
def model (m : ModelRequest) : Work Model := do
  meet m.classes
  return m.model

/-- A describer added. -/
def addDescriber (d : ModelDescriber) : Work Nat := do
  let ws ← get
  set { ws with describers := ws.describers ++ [AttachedDescriber.mk d none] }
  return ws.describers.length

/-- Describers attached to a registry. -/
def attachDescribers (registry : Nat) (numbers : List Nat) : Work Unit :=
  modify fun ws => { ws with
    describers := numbers.foldl
      (fun ds i => ds.modify i fun d => { d with attachedTo? := some registry }) ws.describers }

/-- A shelf with one more registry, and its number. The cache is its own or that of another
    registry. -/
def putRegistry (shelf : Shelf) (r : Registry) (sharing? : Option Nat) : Nat × Shelf :=
  let shared? := sharing?.bind fun i => shelf.registries[i]?.map (·.2)
  let cache := shared?.getD shelf.caches.length
  (shelf.registries.length,
    { shelf with
      registries := shelf.registries ++ [(r, cache)]
      caches := if shared?.isSome then shelf.caches else shelf.caches ++ [({} : Cache)] })

/-- A registry for a document, with a cache of its own or that of another registry. The
    describers that work for it are attached to it. -/
def openRegistry (document : NodeId) (describers : List Nat) (r : Registry)
    (sharing? : Option Nat) : Work Nat := do
  let ws ← get
  let (number, shelf) := putRegistry ws.site.shelf r sharing?
  set { ws with
    assignments := ws.assignments ++ [Assignment.mk document describers]
    site := { ws.site with shelf := shelf } }
  attachDescribers number describers
  return number

/-- The settings of a new registry: what is given, and the ambient front of references. -/
def newRegistry (ambient : Ambient) (refPrefix? : Option String) (policy? : Option Policy)
    (alternatives : List (String × Model)) : Except Failure Registry := do
  let refPrefix ← match refPrefix? with
    | some p => pure p
    | none => do pure (← ambient).refPrefix
  return Registry.create refPrefix policy? alternatives

/-- The assignment of a registry. -/
def assignment (registry : Nat) : Work Assignment := do
  match (← get).assignments[registry]? with
  | some a => return a
  | none => throw .noRegistry

/-- A model registered. -/
def register (registry : Nat) (m : Model) : Work String :=
  atDesk (some registry) (Describe.register .noRegistry m)

/-- A describer that works at the desk it is attached to. -/
def attached (w : World) (d : AttachedDescriber) : Describer :=
  let describer := d.describer.toDescriber w
  ⟨describer.supports, fun m i => Describe.through d.attachedTo? (describer.describe m i)⟩

/-- The models of a registry described, in at most so many rounds. -/
def registerSchemas (w : World) (registry fuel : Nat) : Work Unit := do
  let a ← assignment registry
  let ds := (← get).describers
  let describers := a.describers.filterMap fun i => ds[i]?.map (attached w)
  atDesk (some registry) (Describe.registerSchemas describers a.document fuel)

/-- A describer. -/
def describer (number : Nat) : Work AttachedDescriber := do
  match (← get).describers[number]? with
  | some d => return d
  | none => throw (.noDescriber none)

/-- A model described into a node. -/
def describe (w : World) (number : Nat) (m : Model) (i : NodeId) : Work Unit := do
  let d ← describer number
  atDesk d.attachedTo? ((d.describer.toDescriber w).describe m i)

/-- A declared type described into a node. -/
def describeItem (w : World) (number : Nat) (t : TypeExpr) (groups previous : Data)
    (i : NodeId) : Work Unit := do
  let d ← describer number
  match d.describer with
  | .metadata m => atDesk d.attachedTo? (m.describeItem w groups previous i t)
  | _ => throw (.noDescriber none)

/-- What the cache of a registry remembers. -/
def cache (registry : Nat) : Work Cache := do
  let shelf := (← get).site.shelf
  return ((shelf.registries[registry]?.bind fun r => shelf.caches[r.2]?).getD {})

end Work

end ApiDoc
