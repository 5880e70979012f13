import ApiDoc.Describe.Site
import ApiDoc.Document.Merge
import ApiDoc.Yaml.Content

namespace ApiDoc

/-!
# External documentation

* `ExternalDoc` — a fragment of a document, as YAML text or as a value;
* `ExternalDoc.content?` — the mapping that it holds, if it holds anything;
* `ExternalDoc.describe` — the fragment merged into a node. The policy of the merge is its
  own, or that of the registry at hand, or the ambient one.
-/

/-- A fragment of a document as it is given. -/
inductive Fragment where
  | text (yaml : String)
  | value (v : Data)
deriving Repr

/-- A fragment with how to merge it. -/
structure ExternalDoc where
  fragment : Fragment
  overwrite : Bool := false
  policy? : Option Policy := none
deriving Repr

namespace ExternalDoc

/-- The mapping that a value is; none if it is empty. -/
def mapping? (v : Data) : Except Failure (Option Entries) :=
  match v with
  | .map [] _ => .ok none
  | .map es _ => .ok (some es)
  | v => .error (.notDocument v.typeName)

/-- The value of a text, read with marks not given before. -/
def readText (yaml : String) : Describe Data := do
  let (v, next) ← Describe.ofExcept (Yaml.read yaml (← get).draft.nextMark)
  modify fun s => { s with draft := { s.draft with nextMark := next } }
  return v

/-- The mapping that a fragment holds. A text whose value counts as false holds nothing. -/
def content? (f : Fragment) : Describe (Option Entries) := do
  match f with
  | .value v => Describe.ofExcept (mapping? v)
  | .text yaml =>
    let v ← readText yaml
    if v.truthy then Describe.ofExcept (mapping? v) else return none

/-- The policy of the merge. -/
def policy (w : World) (d : ExternalDoc) (desk? : Option Desk) : Except Failure Policy :=
  Policy.orAmbient w.ambient (d.policy? <|> desk?.bind (·.registry.policy?))

/-- The fragment merged into a node. -/
def describe (w : World) (d : ExternalDoc) (i : NodeId) : Describe Unit := do
  match ← content? d.fragment with
  | none => return
  | some es =>
    let policy ← Describe.ofExcept (d.policy w (← get).desk?)
    Describe.edit (Edit.mergeEntries ⟨d.overwrite, policy⟩ es i)

end ExternalDoc

end ApiDoc
