import ApiDoc.Describe.Overrides
import ApiDoc.Metadata
import ApiDoc.Naming

namespace ApiDoc

/-!
# Models from serializer metadata

* `MetadataDescriber` — metadata with a naming strategy;
* `MetadataDescriber.describe` — the properties that a model exposes, in the order of the
  metadata, those without a type withdrawn;
* `MetadataDescriber.describeItem` — a declared type as the content of a node.

Classes that a type names are registered; the registry has them described later.
-/

/-- A describer of models from metadata. -/
structure MetadataDescriber where
  metadata : Metadata
  naming? : Option Naming := none

namespace MetadataDescriber

/-- What stands in the way of a describer without a registry. -/
def missing : Failure := .unattached "MetadataModelDescriber"

/-! ### Families of types -/

/-- Types that hold items. -/
def arrayTypes : List String := ["array", "ArrayCollection", "list", "dict"]

/-- Types written under their own name. -/
def plainTypes : List (String × String) :=
  [("boolean", "boolean"), ("bool", "boolean"), ("string", "string"), ("str", "string")]

/-- Types of integers. -/
def integerTypes : List String := ["int", "integer"]

/-- Types of numbers. -/
def numberTypes : List String := ["double", "float"]

/-- Types of days and moments. -/
def momentTypes : List String := ["DateTime", "DateTimeImmutable", "datetime", "date"]

/-! ### Items -/

/-- The type of the items of a collection, and whether they stand under keys. -/
def itemType? (t : TypeExpr) : Option (TypeExpr × Bool) :=
  if arrayTypes.contains t.name then
    -- Two parameters are those of keys and of values.
    match t.param? 1 with
    | some value => some (value, true)
    | none => (t.param? 0).map fun item => (item, false)
  else none

/-- Whether a type is an array of items of no known type. -/
def isOpenArray (t : TypeExpr) : Bool := t.name == "array" && (t.param? 0).isNone

/-- A new child in a slot that the node has to have, in place of what is there. -/
def renewChild (i : NodeId) (slot : String) (k : Kind) : Describe NodeId :=
  Describe.edit do
    let c ← Edit.addDetached i k []
    Edit.assign? i slot (.node c)
    return c

/-- The class that a name stands for; a name that is none of a module stands for none. -/
def resolve? (w : World) (name : String) : Describe (Option String) := fun s =>
  match w.classes.resolve s.met name with
  | .ok c => .ok c s
  | .error .emptyModule => .ok none s
  | .error e => .error e s

/-- Whether a name stands for days or moments. -/
def isMoment (w : World) (name : String) : Describe Bool := do
  if momentTypes.contains name then return true
  match ← resolve? w name with
  | some c => return w.classes.isDate c
  | none => return false

/-- Whether a name stands for a class, through itself or through metadata. -/
def isClass (w : World) (d : MetadataDescriber) (name : String) : Describe Bool := do
  if (← resolve? w name).isSome then return true
  return (d.metadata.find? name).isSome

/-- A type that is no collection of known items, as the content of a node. -/
def describeLeaf (w : World) (d : MetadataDescriber) (name : String) (groups previous : Data)
    (i : NodeId) : Describe Unit := do
  let set := Describe.setField i
  -- A class that has the name of one of the families is not looked for.
  if arrayTypes.contains name then
    set "type" (.str "object")
    set "additional_properties" (.bool true)
  else if let some plain := plainTypes.lookup name then
    set "type" (.str plain)
  else if integerTypes.contains name then
    set "type" (.str "integer")
  else if numberTypes.contains name then
    set "type" (.str "number")
    set "format" (.str name)
  else if ← isMoment w name then
    set "type" (.str "string")
    set "format" (.str "date-time")
  else if ← isClass w d name then
    let model := Model.ofClass name groups
    let reference ← Describe.register missing model
    set "ref" (.str reference)
    -- Its own properties may need the groups that it was narrowed down from.
    if previous.truthy then
      let desk ← Describe.desk missing
      Describe.setCache (desk.cache.remember model.hash previous)

mutual

/-- A type as the content of a node: a collection of known items becomes an array or, with
    keys, an object, and its items are described in the child. -/
def describeItem (w : World) (d : MetadataDescriber) (groups previous : Data) (i : NodeId) :
    TypeExpr → Describe Unit
  | .mk name params =>
    match itemType? (.mk name params) with
    | none => describeLeaf w d name groups previous i
    | some (item, true) => do
      Describe.setField i "type" (.str "object")
      if isOpenArray item then Describe.setField i "additional_properties" (.bool true)
      else
        let c ← renewChild i "additional_properties" .additionalProperties
        describeParam w d groups previous c 1 params
    | some (_, false) => do
      Describe.setField i "type" (.str "array")
      let c ← renewChild i "items" .items
      describeParam w d groups previous c 0 params

/-- The type at a position of parameters as the content of a node. -/
def describeParam (w : World) (d : MetadataDescriber) (groups previous : Data) (i : NodeId) :
    Nat → List TypeParam → Describe Unit
  | 0, .type t :: _ => describeItem w d groups previous i t
  | n + 1, _ :: rest => describeParam w d groups previous i n rest
  | _, _ => return

end

/-! ### Models -/

/-- Whether a property of the class that a type names declares groups, looked up once for a
    document. -/
def typeUsesGroups? (d : MetadataDescriber) (t : TypeExpr) : Describe (Option Bool) := do
  let desk ← Describe.desk missing
  match desk.cache.groupUsage.lookup t.name with
  | some known => return known
  | none =>
    let answer := d.metadata.usesGroups? t.name
    Describe.setCache
      { desk.cache with groupUsage := desk.cache.groupUsage ++ [(t.name, answer)] }
    return answer

/-- The groups through which the type of a property is seen, and those around it that are
    narrowed down. -/
def propertyGroups (d : MetadataDescriber) (m : Model) (p : PropertyMetadata) :
    Describe (Data × Data) := do
  match Groups.nested m.groups p.name with
  | some narrowed => return (narrowed, m.groups)
  | none =>
    -- A model that was narrowed down hands on the groups around it.
    let previous := (← Describe.desk missing).cache.previous m.hash
    if !previous.truthy then return (m.groups, .null)
    match p.type? with
    | none => return (previous, .null)
    | some t =>
      if (← d.typeUsesGroups? t) == some false then return (.null, .null)
      else return (previous, .null)

/-- The exposed name of a property: as the strategy says, or the serialized name. -/
def exposedName (d : MetadataDescriber) (p : PropertyMetadata) : Except Failure Data :=
  match d.naming?, p.serializedName with
  | some n, serialized => n.translate p.name serialized
  | none, .scalar .null => .ok p.name
  | none, serialized => .ok serialized

/-- What a class has under the name of a property, if it has anything. -/
def reflection? (w : World) (p : PropertyMetadata) : Describe (Option Reflection) := fun s =>
  match p.reflection? with
  | some r => .ok (some r) s
  | none => match Reflection.ofName w.classes s.met p.className p.name with
    | .ok r => .ok (some r) s
    -- What is not there has no overrides; any other failure remains one.
    | .error (.noClass _) => .ok none s
    | .error (.noProperty _ _) => .ok none s
    | .error e => .error e s

/-- The node of a property, with the overrides of the property applied. -/
def propertyNode (w : World) (r : Reader) (p : PropertyMetadata) (groups name : Data)
    (schema : NodeId) : Describe NodeId := do
  match ← reflection? w p with
  | some reflection =>
    let name := Reader.propertyName reflection name
    let i ← Describe.edit (Edit.indexedItem schema .property name)
    r.updateProperty w reflection groups i
    return i
  | none => Describe.edit (Edit.indexedItem schema .property name)

/-- One property of a model: its node is found or created, overrides are applied, and unless
    they decide its type the declared type is described. -/
def describeProperty (w : World) (d : MetadataDescriber) (r : Reader) (m : Model)
    (p : PropertyMetadata) (schema : NodeId) : Describe Unit := do
  let (groups, previous) ← d.propertyGroups m p
  let groups := Groups.ofNames (Groups.normalize groups Groups.defaultGroup)
  let name ← Describe.ofExcept (d.exposedName p)
  let i ← propertyNode w r p groups name schema
  if ← Describe.isDecided i then return
  match p.type? with
  -- The name is read back, for an override may have changed it.
  | none => Describe.edit do
    let _ ← Edit.removeIndexed schema .property (← Edit.read i "property")
  | some t => describeItem w d groups previous i t

/-- The schema of a model from its metadata. -/
def describe (w : World) (d : MetadataDescriber) (m : Model) (schema : NodeId) :
    Describe Unit := do
  let className := m.className?.getD ""
  match d.metadata.find? className with
  | none => throw (.noMetadata className)
  | some metadata =>
    let desk ← Describe.desk missing
    Describe.setField schema "type" (.str "object")
    let r := Reader.ofDesk desk
    if let some c ← Describe.resolve w className then r.updateSchema w c schema
    metadata.properties.forM fun p => do
      -- Without groups every property is exposed.
      let skipped ← match m.groups with
        | .scalar .null => pure false
        | g => Describe.ofExcept ((Exclusion.ofGroups g Groups.defaultGroup).skips p.groups)
      if !skipped then d.describeProperty w r m p schema
    Describe.ensureProperties schema

/-- Whether the describer takes a model: an object of a class with metadata. -/
def supports (d : MetadataDescriber) (m : Model) : Bool :=
  m.type.builtin == "object" && match m.className? with
    | none => false
    | some c => c != "" && (d.metadata.find? c).isSome

end MetadataDescriber

end ApiDoc
