import ApiDoc.Class.Reflection
import ApiDoc.Document.Children
import ApiDoc.Registry

namespace ApiDoc

/-!
# Describing

Describers edit nodes while they register models.

* `World` — what describers look up and never change: the classes and the settings;
* `Desk`, `Site` — a registry with its cache; the draft, the desk if there is one, and the
  classes met by name;
* `Describe` — a computation on a site. What it has done before a failure stays done;
* `Describe.register`, `Describe.modelOf` — the reference of a model, the model of a target;
* `Shelf`, `Describe.through` — desks put aside, for describers attached to another one.
-/

/-- What describers look up and never change. -/
structure World where
  classes : ClassTable := []
  ambient : Ambient := .ok {}

/-- A registry and the cache that goes with it. -/
structure Desk where
  registry : Registry
  cache : Cache := {}
deriving Repr

/-- Desks put aside, by number: registries with the numbers of their caches, and caches, which
    registries may share. -/
structure Shelf where
  registries : List (Registry × Nat) := []
  caches : List Cache := []
  active? : Option Nat := none
deriving Repr

/-- The state of describing. -/
structure Site where
  draft : Draft := {}
  desk? : Option Desk := none
  met : List String := []
  shelf : Shelf := {}

/-- A computation on a site. -/
abbrev Describe := EStateM Failure Site

namespace Describe

/-- The result of a pure computation. -/
def ofExcept {α : Type} : Except Failure α → Describe α
  | .ok a => pure a
  | .error e => throw e

/-- An edit of the draft. -/
def edit {α : Type} (act : Edit α) : Describe α := fun s =>
  match act s.draft with
  | .ok a d => .ok a { s with draft := d }
  | .error e d => .error e { s with draft := d }

/-! ### Nodes -/

/-- A value set under a name that the node has to have. -/
def setField (i : NodeId) (name : String) (v : Data) : Describe Unit := edit (Edit.assign? i name v)

/-- Whether a value is set under a name that the node has to have. -/
def isSet (i : NodeId) (name : String) : Describe Bool := do
  return !(← edit (Edit.read i name)).isUnset

/-- Whether the type of a schema is decided: by itself or by a reference. -/
def isDecided (i : NodeId) : Describe Bool := do
  if ← isSet i "type" then return true else isSet i "ref"

/-- An empty list of properties where there is none. -/
def ensureProperties (i : NodeId) : Describe Unit := do
  if !(← isSet i "properties") then setField i "properties" (.ofList [])

/-! ### Classes -/

/-- The class that a name stands for. -/
def resolve (w : World) (name : String) : Describe (Option String) := do
  ofExcept (w.classes.resolve (← get).met name)

/-- The names of classes that are met. -/
def meet (names : List String) : Describe Unit :=
  modify fun s => { s with met := s.met ++ names.filter fun n => !s.met.contains n }

/-! ### The registry -/

/-- The desk, or a failure where there is none. -/
def desk (missing : Failure) : Describe Desk := do
  match (← get).desk? with
  | some d => return d
  | none => throw missing

/-- The registry replaced. -/
def setRegistry (r : Registry) : Describe Unit :=
  modify fun s => { s with desk? := s.desk?.map fun d => { d with registry := r } }

/-- The cache replaced. -/
def setCache (c : Cache) : Describe Unit :=
  modify fun s => { s with desk? := s.desk?.map fun d => { d with cache := c } }

/-- The reference of a model, which is registered. -/
def register (missing : Failure) (m : Model) : Describe String := do
  let d ← desk missing
  let (reference, r) := d.registry.register m
  setRegistry r
  return reference

/-- The model that a target names. A class itself is met by its name. -/
def modelOf (target : Target) (groups : Data) : Describe Model := do
  match target with
  | .named name => return .ofClass name groups
  | .itself name => meet [name]; return .ofClass name groups

/-! ### Several desks -/

/-- The site with its desk put back on the shelf. -/
def shelve (s : Site) : Site :=
  match s.shelf.active?, s.desk? with
  | some i, some d =>
    let number := (s.shelf.registries[i]?.map (·.2)).getD 0
    { s with
      desk? := none
      shelf := { s.shelf with
        registries := s.shelf.registries.set i (d.registry, number)
        caches := s.shelf.caches.set number d.cache
        active? := none } }
  | _, _ => { s with desk? := none, shelf := { s.shelf with active? := none } }

/-- The site with the desk of a number taken from the shelf; with no desk for no number. -/
def take (i? : Option Nat) (s : Site) : Site :=
  match i? with
  | none => s
  | some i => match s.shelf.registries[i]? with
    | none => s
    | some (r, number) =>
      { s with
        desk? := some ⟨r, (s.shelf.caches[number]?).getD {}⟩
        shelf := { s.shelf with active? := some i } }

/-- A computation at another desk, after which the present one is taken again. -/
def through {α : Type} (i? : Option Nat) (act : Describe α) : Describe α := fun s =>
  let back := s.shelf.active?
  match act (take i? (shelve s)) with
  | .ok a s' => .ok a (take back (shelve s'))
  | .error e s' => .error e (take back (shelve s'))

end Describe

end ApiDoc
