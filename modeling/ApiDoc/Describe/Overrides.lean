import ApiDoc.Describe.Site
import ApiDoc.Document.Merge

namespace ApiDoc

/-!
# Applying overrides

* `Reader` — what applies overrides: the registry that resolves references, if there is one,
  and the policy of merges;
* `Reader.resolve` — a value with references to models in place of model references;
* `Reader.updateSchema`, `Reader.propertyName`, `Reader.updateProperty` — the overrides of a
  class and of a property.
-/

/-- What applies overrides. -/
structure Reader where
  hasRegistry : Bool
  policy? : Option Policy := none
deriving Repr

namespace Reader

/-- The reader at a desk, if there is one. The policy is its own or that of the registry. -/
def atDesk (desk? : Option Desk) (policy? : Option Policy) : Reader :=
  ⟨desk?.isSome, policy? <|> desk?.bind (·.registry.policy?)⟩

/-- The reader of a describer that has a desk. -/
def ofDesk (d : Desk) : Reader := atDesk (some d) none

/-- The reference that stands for a model reference. Without groups of its own it is seen
    through those given. -/
def reference (r : Reader) (target : Target) (own groups : Data) : Describe String := do
  if !r.hasRegistry then throw .noRegistry
  let groups := match own with
    | .scalar .null => groups
    | g => g
  Describe.register .noRegistry (← Describe.modelOf target groups)

mutual

/-- A value with references in place of model references: the text of the reference under the
    key of references, elsewhere a mapping that holds it. Lists under the key of enumerations
    stay as they are, and so do tuples; other lists and mappings become new ones. -/
def resolve (r : Reader) (groups : Data) (key? : Option Data) : Data → Describe Data
  | .modelRef target own => do
    let ref ← r.reference target own groups
    -- Under the key of references the text alone.
    if (key?.map (·.same (.str "$ref"))).getD false then return .str ref
    return .map [(.str "$ref", .str ref)] (← Describe.edit Edit.fresh)
  | .map es _ => do
    let mark ← Describe.edit Edit.fresh
    return .map (← resolveEntries r groups es) mark
  | .list xs mark => do
    -- Items of an enumeration are values, not schemas.
    if (key?.map (·.same (.str "enum"))).getD false then return .list xs mark
    let fresh ← Describe.edit Edit.fresh
    return .list (← resolveItems r groups xs) fresh
  | v => return v

/-- The values of entries, each under its key. -/
def resolveEntries (r : Reader) (groups : Data) : List (Data × Data) → Describe Entries
  | [] => return []
  | (k, v) :: rest => do
    let v ← resolve r groups (some k) v
    return (k, v) :: (← resolveEntries r groups rest)

/-- The items of a list. -/
def resolveItems (r : Reader) (groups : Data) : List Data → Describe (List Data)
  | [] => return []
  | v :: rest => do
    let v ← resolve r groups none v
    return v :: (← resolveItems r groups rest)

end

/-- An override applied to a node: it replaces what is set. -/
def apply (w : World) (r : Reader) (o : Override) (groups : Data) (i : NodeId) :
    Describe Unit := do
  let es ← resolveEntries r groups o.toEntries
  let policy ← Describe.ofExcept (Policy.orAmbient w.ambient r.policy?)
  Describe.edit (Edit.mergeEntries ⟨true, policy⟩ es i)

/-- The override of a class applied to its schema. -/
def updateSchema (w : World) (r : Reader) (className : String) (i : NodeId) : Describe Unit := do
  match w.classes.schemaOverride? className with
  | some o => r.apply w o .null i
  | none => return

/-- The name that the first override with a name gives to a property. -/
def propertyName (reflection : Reflection) (default : Data) : Data :=
  match reflection.overrides.findSome? (·.name?) with
  | some name => .str name
  | none => default

/-- The overrides of a property applied to its node. -/
def updateProperty (w : World) (r : Reader) (reflection : Reflection) (groups : Data)
    (i : NodeId) : Describe Unit :=
  reflection.overrides.forM fun o => r.apply w o groups i

end Reader

end ApiDoc
