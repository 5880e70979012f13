import ApiDoc.Class.Reflection

namespace ApiDoc

/-!
# Serializer metadata

* `PropertyMetadata`, `ClassMetadata` — what serializer configuration says about properties;
* `Metadata` — the classes that have metadata;
* `Metadata.ofData` — metadata from a mapping of class names to options;
* `Metadata.usesGroups?` — whether the properties of a class declare groups.
-/

/-- What serializer configuration says about one property. -/
structure PropertyMetadata where
  className : Data
  name : Data
  type? : Option TypeExpr := none
  serializedName : Data := .null
  groups : Data := .null
  reflection? : Option Reflection := none

/-- What serializer configuration says about a class. -/
structure ClassMetadata where
  name : Data
  properties : List PropertyMetadata

/-- The classes that have metadata. -/
structure Metadata where
  classes : List ClassMetadata := []

namespace Metadata

/-- The metadata of a class; of several given the last. -/
def find? (m : Metadata) (className : String) : Option ClassMetadata :=
  m.classes.reverse.find? fun c => c.name.same (.str className)

/-- The entries of a mapping of options. What counts as false has none. -/
def options (v : Data) (operation : String) : Except Failure Entries :=
  match v with
  | .map es _ => .ok es
  | v => if v.truthy then .error (.noAttribute v.ownerName operation) else .ok []

/-- The type that an option declares. What counts as false declares none. -/
def declaredType? (v : Data) : Except Failure (Option TypeExpr) :=
  if !v.truthy then .ok none
  else match v with
    | .scalar (.str text) => match TypeExpr.parse text with
      | .ok t => .ok (some t)
      | .error e => .error (.typeSyntax text e)
    | v => .error (.noAttribute v.ownerName "rstrip")

/-- The option of a name; null if it is not given. -/
def option (es : Entries) (name : String) : Data := (Entries.text? es name).getD .null

/-- A property from its options. -/
def propertyOfData (className name v : Data) : Except Failure PropertyMetadata := do
  let es ← options v "get"
  return { className := className
           name := name
           type? := ← declaredType? (option es "type")
           serializedName := option es "serialized_name"
           groups := option es "groups" }

/-- A class from its options. -/
def classOfData (className v : Data) : Except Failure ClassMetadata := do
  let es ← options v "get"
  let properties ← options (option es "properties") "items"
  return ⟨className, ← properties.mapM fun p => propertyOfData className p.1 p.2⟩

/-- Metadata from a mapping of class names to options. -/
def ofData (v : Data) : Except Failure Metadata := do
  match v with
  | .map es _ => return ⟨← es.mapM fun e => classOfData e.1 e.2⟩
  | v => throw (.noAttribute v.ownerName "items")

/-- Whether declared groups are others than the default group. -/
def declaresGroups (groups : Data) : Bool :=
  match groups with
  | .scalar .null => false
  | g => !g.alike (.ofList [.str Groups.defaultGroup])

/-- Whether a property of the class declares groups; none if the class has no metadata. -/
def usesGroups? (m : Metadata) (className : String) : Option Bool :=
  (m.find? className).map fun c => c.properties.any fun p => declaresGroups p.groups

end Metadata

end ApiDoc
