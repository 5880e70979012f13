import ApiDoc.Class.Resolve

namespace ApiDoc

/-!
# Properties of classes

* `ClassTable.hints` — the annotations of a class and its bases, evaluated;
* `ClassTable.declaredGroups?` — the properties of a class with the groups they declare;
* `ClassTable.properties` — the properties that a group specification exposes;
* `ClassTable.types` — the types inferred for a property;
* `Reflection` — a property that a class has, with the extras attached to it.
-/

namespace ClassTable

/-! ### Annotations -/

/-- The annotations of one class, expressions in quotes evaluated. -/
def evaluated? (t : ClassTable) (c : ClassInfo) : Option (List (String × Annotation)) :=
  c.decl.fields.mapM fun f => match f.annotation with
    | .quoted text => (evaluate? t c text).map fun a => (f.name, a)
    | .deferred a => some (f.name, a)
    | a => some (f.name, a)

/-- The annotations of one class. If one expression in quotes cannot be evaluated, all stay as
    they are. -/
def ownHints (t : ClassTable) (c : ClassInfo) : List (String × Annotation) :=
  (evaluated? t c).getD (c.decl.fields.map fun f => (f.name, match f.annotation with
    | .deferred _ => .quoted ""
    | a => a))

/-- Annotations with one more, in the place of one of its name. -/
def putHint (h : String × Annotation) : List (String × Annotation) → List (String × Annotation)
  | [] => [h]
  | g :: rest => if g.1 == h.1 then h :: rest else g :: putHint h rest

/-- The annotations of a class and its bases, the farthest first. -/
def hints (t : ClassTable) (name : String) : List (String × Annotation) :=
  ((lineage t name).reverse.flatMap (ownHints t)).foldl
    (fun acc h => putHint h acc) []

/-! ### Properties -/

/-- The declaration of a property in the nearest class that has it. -/
def nearest? (t : ClassTable) (name property : String) : Option (ClassKind × FieldDecl) :=
  (lineage t name).findSome? fun c =>
    (c.decl.fields.find? (·.name == property)).map fun f => (c.decl.kind, f)

/-- Whether a class is a validated model. -/
def isValidated (t : ClassTable) (name : String) : Bool :=
  (lineage t name).any (·.decl.kind == .validated)

/-- The fields of a record that are no class members. -/
def instanceFields (t : ClassTable) (name : String) : Option (List FieldDecl) :=
  ((lineage t name).findSome? (·.recordFields?)).map fun fs =>
    fs.filter fun f => !f.annotation.isClassMember

/-- Whether a name is hidden from documents. -/
def isHidden (name : String) : Bool := name.startsWith "_"

/-- The properties that annotations show: neither hidden nor class members. -/
def visibleHints (t : ClassTable) (name : String) : List String :=
  ((hints t name).filter fun h => !isHidden h.1 && !h.2.isClassMember).map (·.1)

/-- The properties of a class, each with the groups that it declares; none for a class that
    has no annotations at all. -/
def declaredGroups? (t : ClassTable) (name : String) : Option (List (String × Data)) :=
  if isValidated t name then
    some ((visibleHints t name).map fun p => (p, match nearest? t name p with
      | some (.validated, f) => f.groups
      | _ => .null))
  else match instanceFields t name with
    | some fs => some (fs.map fun f => (f.name, f.groups))
    | none =>
      if (hints t name).isEmpty then none
      else some ((visibleHints t name).map fun p => (p, .null))

/-- The properties that a group specification exposes, in the order of their declaration. -/
def properties (t : ClassTable) (name : String) (groups : Data) :
    Except Failure (Option (List String)) :=
  match declaredGroups? t name, groups with
  | none, _ => .ok none
  | some ps, .scalar .null => .ok (some (ps.map (·.1)))
  | some ps, g => do
    let request := Exclusion.ofGroups g Groups.defaultGroup
    let kept ← ps.filterM fun p => return !(← request.skips p.2)
    return some (kept.map (·.1))

/-- The annotation from which the types of a property are inferred. -/
def inferable? (t : ClassTable) (name property : String) : Option Annotation :=
  match (hints t name).lookup property with
  | some (.quoted _) => none
  | a => a

/-- The types inferred for a property; several for a union. -/
def types (t : ClassTable) (name property : String) : List TypeInfo :=
  ((inferable? t name property).map fun a => a.infer false).getD []

/-- The classes met while the types of a property are inferred. -/
def typeClasses (t : ClassTable) (name property : String) : List String :=
  ((inferable? t name property).map Annotation.classes).getD []

/-- Whether the class or a base has an attribute of the name. -/
def hasAttribute (t : ClassTable) (name property : String) : Bool :=
  (lineage t name).any fun c =>
    hasOwnValue c property || t.any (isNestedIn c property)

end ClassTable

/-! ### Reflection -/

/-- A property that a class has. -/
structure Reflection where
  owner : String
  name : String
  annotation? : Option Annotation
  recordOverride? : Option Override
deriving Repr

namespace Reflection

/-- The name of a class inside its module. -/
def innerName (t : ClassTable) (owner : String) : String :=
  match ClassTable.find? t owner with
  | some c => c.decl.name
  | none => lastPart owner

/-- The property of a class; a failure if the class has none of the name. -/
def ofClass (t : ClassTable) (owner name : String) : Except Failure Reflection :=
  let hint? := (ClassTable.hints t owner).lookup name
  let field? := ((ClassTable.instanceFields t owner).getD []).find? (·.name == name)
  if hint?.isSome || field?.isSome || ClassTable.hasAttribute t owner name then
    .ok { owner := owner, name := name, annotation? := hint?
          recordOverride? := field?.bind (·.override?) }
  else .error (.noProperty (innerName t owner) name)

/-- The property of a class under a name, which has to be a text. -/
def ofOwner (t : ClassTable) (owner : String) (name : Data) : Except Failure Reflection :=
  match name with
  | .scalar (.str s) => ofClass t owner s
  | v => .error (.noName v.typeName)

/-- The property of the class that a name stands for. -/
def ofName (t : ClassTable) (met : List String) (className name : Data) :
    Except Failure Reflection := do
  match className with
  | .scalar (.str c) =>
    match ← ClassTable.resolve t met c with
    | none => throw (.noClass c)
    | some owner => ofOwner t owner name
  | v => throw (.noAttribute v.ownerName "split")

/-- Whether the class annotates the property with a type. -/
def isAnnotated (r : Reflection) : Bool := (r.annotation?.filter fun a => !a.same .nothing).isSome

/-- What is attached to the property: the extras of its annotated type, then the override of
    its record field. -/
def extras (r : Reflection) : List Extra :=
  ((r.annotation?.map Annotation.extras).getD []) ++ (r.recordOverride?.map Extra.override).toList

/-- The overrides attached to the property. Those of schemas do not count. -/
def overrides (r : Reflection) : List Override :=
  r.extras.filterMap fun
    | .override o => if o.kind = .property then some o else none
    | .other _ => none

/-- The text that shows the property. -/
def text (t : ClassTable) (r : Reflection) : String :=
  "PropertyReflection(" ++ innerName t r.owner ++ "." ++ r.name ++ ")"

end Reflection

end ApiDoc
