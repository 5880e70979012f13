import ApiDoc.Describe.ObjectModel

namespace ApiDoc

/-!
# Describing registered models

* `Outline` — a describer that only marks an object and registers fixed references;
* `ModelDescriber` — the describers of models;
* `Describer` — a describer as the registry sees it: what it takes, and what it does;
* `Describe.describeModel` — a model described into its component schema;
* `Describe.round`, `Describe.registerSchemas` — the models that are pending described until
  nothing is pending, models with fixed names being registered whenever nothing else is.
-/

/-- A describer with fixed answers: the classes that it takes, all if none are given, and the
    classes that a class refers to. -/
structure Outline where
  accepts : Bool := true
  classes? : Option (List String) := none
  references : List (String × List String) := []
deriving Repr

namespace Outline

/-- What stands in the way of a describer without a registry. -/
def missing : Failure := .noAttribute "NoneType" "register"

/-- The schema of a model: an object; the classes it refers to are registered with the groups
    of the model. -/
def describe (o : Outline) (m : Model) (schema : NodeId) : Describe Unit := do
  Describe.setField schema "type" (.str "object")
  ((m.className?.bind fun c => o.references.lookup c).getD []).forM fun target => do
    let _ ← Describe.register missing (.ofClass target m.groups)

/-- Whether the describer takes a model. -/
def supports (o : Outline) (m : Model) : Bool :=
  match o.classes? with
  | some cs => match m.className? with
    | some c => cs.contains c
    | none => false
  | none => o.accepts

end Outline

/-- A describer of models. -/
inductive ModelDescriber where
  | metadata (d : MetadataDescriber)
  | object
  | outline (o : Outline)

/-- A describer as the registry sees it. -/
structure Describer where
  supports : Model → Bool
  describe : Model → NodeId → Describe Unit

namespace ModelDescriber

/-- What a describer takes and does. -/
def toDescriber (w : World) : ModelDescriber → Describer
  | metadata d => ⟨d.supports, d.describe w⟩
  | object => ⟨ObjectDescriber.supports, ObjectDescriber.describe w⟩
  | outline o => ⟨o.supports, o.describe⟩

end ModelDescriber

namespace Describe

/-- A model described into the component schema of its name in a document, by the first
    describer that takes it. The schema is there even if none does. -/
def describeModel (describers : List Describer) (document : NodeId) (name : String) (m : Model) :
    Describe Unit := do
  let schema ← edit (Edit.componentSchema document (.str name))
  match describers.find? fun d => d.supports m with
  | none => throw (.noDescriber m.className?)
  | some d => d.describe m schema

/-- The model of a pending identity described. -/
def describeKey (describers : List Describer) (document : NodeId) (key : String) :
    Describe Unit := do
  let d ← desk .noRegistry
  match d.registry.models.lookup key, d.registry.nameOf? key with
  | some m, some name => describeModel describers document name m
  -- What is pending has a model and a name.
  | _, _ => return

/-- The pending identities, which are pending no longer. -/
def takePending : Describe (List String) := do
  let d ← desk .noRegistry
  setRegistry { d.registry with pending := [] }
  return d.registry.pending

/-- Models with fixed names registered, which are no longer kept for that. -/
def takeAlternatives : Describe Unit := do
  let d ← desk .noRegistry
  setRegistry { d.registry with alternatives := [] }
  d.registry.alternatives.forM fun m => do let _ ← register .noRegistry m

/-- One round: the pending models described or, if there are none, the models with fixed names
    registered. It answers whether there was anything to do. -/
def round (describers : List Describer) (document : NodeId) : Describe Bool := do
  let d ← desk .noRegistry
  if !d.registry.pending.isEmpty then
    -- What becomes pending meanwhile is left for the next round.
    (← takePending).forM (describeKey describers document)
    return true
  else if !d.registry.alternatives.isEmpty then
    takeAlternatives
    return true
  else return false

/-- Every pending model described into a document, and those that become pending, in at most
    so many rounds. -/
def registerSchemas (describers : List Describer) (document : NodeId) :
    (fuel : Nat) → Describe Unit
  | 0 => throw .outOfFuel
  | fuel + 1 => do
    if ← round describers document then registerSchemas describers document fuel

end Describe

end ApiDoc
