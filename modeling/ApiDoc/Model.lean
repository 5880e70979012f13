import ApiDoc.Digest.Sha1
import ApiDoc.Groups
import ApiDoc.TypeInfo

namespace ApiDoc

/-!
# Models

A model is a class to be described as seen through groups.

* `Model` — the type that is described, and the group specification;
* `Model.payload`, `Model.hash` — what identifies a model, and its digest: two models are the
  same if class name and canonical groups are equal.
-/

/-- A class to be described, as seen through groups. -/
structure Model where
  type : TypeInfo
  groups : Data := .null
deriving Repr

namespace Model

/-- The model of a class by its name. -/
def ofClass (name : String) (groups : Data) : Model := ⟨.object name, groups⟩

/-- The name of the class. -/
def className? (m : Model) : Option String := m.type.className?

/-- A name that may be missing, as a value. -/
def nameData : Option String → Data
  | none => .null
  | some s => .str s

/-- What identifies a model: the pair of class name and canonical groups. -/
def identity (m : Model) : Data :=
  .ofList [nameData m.className?, (Groups.canonical Groups.defaultGroup m.groups).toData]

/-- The text of what identifies a model. -/
def payload (m : Model) : String :=
  match m.identity.json {} with
  | .ok s => s
  | .error _ => ""

/-- The identity of a model as a digest. -/
def hash (m : Model) : String := Digest.sha1Hex m.payload

/-- The text that shows a model. -/
def text (m : Model) : String :=
  "Model(" ++ (nameData m.className?).literal ++ ", groups=" ++ m.groups.literal ++ ")"

end Model

end ApiDoc
