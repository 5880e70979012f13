import ApiDoc.Describe.MetadataModel

namespace ApiDoc.ObjectDescriber

/-!
# Models from annotations

* `describe` — the properties that a model exposes, in the order of their declaration; a
  property whose type is neither given by an override nor inferred without doubt fails;
* `describeType` — an inferred type as the content of a node.
-/

/-- What stands in the way of a describer without a registry. -/
def missing : Failure := .unattached "ObjectModelDescriber"

/-- The types that documents have names for, each with its name and format. -/
def scalarTypes : List (String × String × Option String) :=
  [("string", "string", none), ("bool", "boolean", none), ("int", "integer", none),
   ("float", "number", some "float")]

/-- The mark of a type that has null as a value. -/
def markNullable (t : TypeInfo) (i : NodeId) : Describe Unit :=
  if t.nullable then Describe.setField i "nullable" (.bool true) else return

/-- The type of the values of an enumeration, where they have one. -/
def valueType? (values : List Data) : Option String :=
  if values.all fun v => v.str?.isSome then some "string"
  else if values.all fun v => match v with
    | .scalar s => s.integer?.isSome
    | _ => false then some "integer"
  else none

/-- The values of an enumeration as the content of a node. -/
def describeValues (values : List Data) (i : NodeId) : Describe Unit := do
  if let some type := valueType? values then Describe.setField i "type" (.str type)
  Describe.setField i "enum" (.ofList values)

/-- The objects of a class as the content of a node: moments and enumerations are written
    out, other classes are registered. A reference has no mark of null beside it. -/
def describeObject (w : World) (m : Model) (t : TypeInfo) (i : NodeId) : Describe Unit := do
  let name := t.className?.getD ""
  let class? ← Describe.resolve w name
  if (class?.map w.classes.isDate).getD false then
    Describe.setField i "type" (.str "string")
    Describe.setField i "format" (.str "date-time")
    markNullable t i
  else match class?.bind w.classes.enumeration? with
    | some e =>
      describeValues e.values i
      markNullable t i
    | none =>
      let reference ← Describe.register missing ⟨.object name, m.groups⟩
      Describe.setField i "ref" (.str reference)

/-- An inferred type as the content of a node. A collection with text keys becomes an object,
    any other an array, and its items are described in the child. -/
def describeType (w : World) (m : Model) (property : String) : TypeInfo → NodeId → Describe Unit
  | .mk _ _ _ true _ none, _ => throw (.untypedItems (m.className?.getD "") property)
  | .mk _ _ _ true key? (some value), i => do
    -- Objects have texts as keys; what has other keys is written as a list.
    if (key?.map (·.builtin)) == some "string" then
      Describe.setField i "type" (.str "object")
      describeType w m property value (← Describe.edit (Edit.child i .additionalProperties))
    else
      Describe.setField i "type" (.str "array")
      describeType w m property value (← Describe.edit (Edit.child i .items))
  | .mk builtin nullable className? false key? value?, i => do
    let t := TypeInfo.mk builtin nullable className? false key? value?
    match scalarTypes.lookup builtin with
    | some (type, format?) => do
      Describe.setField i "type" (.str type)
      if let some format := format? then Describe.setField i "format" (.str format)
      markNullable t i
    | none =>
      if builtin == "object" then describeObject w m t i
      else throw (.unsupported (m.className?.getD "") property builtin)

/-- The one type of a property. -/
def onlyType (w : World) (owner className property : String) : Describe TypeInfo := do
  Describe.meet (w.classes.typeClasses owner property)
  match w.classes.types owner property with
  | [] => throw (.untyped className property)
  | [t] => return t
  | _ => throw (.ambiguous className property)

/-- The node of a property, with the overrides of the property applied. -/
def propertyNode (w : World) (r : Reader) (m : Model) (owner property : String)
    (schema : NodeId) : Describe NodeId := do
  match Reflection.ofClass w.classes owner property with
  | .ok reflection =>
    let name := Reader.propertyName reflection (.str property)
    let i ← Describe.edit (Edit.indexedItem schema .property name)
    r.updateProperty w reflection ((Groups.nested m.groups (.str property)).getD m.groups) i
    return i
  | .error _ => Describe.edit (Edit.indexedItem schema .property (.str property))

/-- One property of a model: its node is found or created, overrides are applied, and unless
    they decide its type the inferred type is described. -/
def describeProperty (w : World) (r : Reader) (m : Model) (owner property : String)
    (schema : NodeId) : Describe Unit := do
  let i ← propertyNode w r m owner property schema
  -- An override that decides the type makes up for an annotation that does not.
  if ← Describe.isDecided i then return
  describeType w m property (← onlyType w owner (m.className?.getD "") property) i

/-- The groups by which properties are exposed: the texts among the names. -/
def requestedGroups (groups : Data) : Data :=
  match groups with
  | .scalar .null => .null
  | g => .ofList ((Groups.names g).filter fun v => v.str?.isSome)

/-- The schema of a model from the annotations of its class. -/
def describe (w : World) (m : Model) (schema : NodeId) : Describe Unit := do
  Describe.setField schema "type" (.str "object")
  let className := m.className?.getD ""
  match ← Describe.resolve w className with
  | none => throw (.noClass className)
  | some owner =>
    let r := Reader.ofDesk (← Describe.desk missing)
    r.updateSchema w owner schema
    let names ← Describe.ofExcept (w.classes.properties owner (requestedGroups m.groups))
    (names.getD []).forM fun property => describeProperty w r m owner property schema
    Describe.ensureProperties schema

/-- Whether the describer takes a model: any object. -/
def supports (m : Model) : Bool := m.type.builtin == "object"

end ApiDoc.ObjectDescriber
