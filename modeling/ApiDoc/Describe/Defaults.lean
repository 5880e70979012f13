import ApiDoc.Config
import ApiDoc.Document.Children

namespace ApiDoc

/-!
# Defaults of a document

* `Edit.fillDefaults` — title and version of a document, and a response for every operation
  that has none.
-/

namespace Edit

/-- A value set under a name of a node where it is unset. -/
def fill (i : NodeId) (name : String) (v : Data) : Edit Unit := do
  if (← read i name).isUnset then assign? i name v

/-- A default response for an operation without responses. -/
def fillResponse (operation : NodeId) : Edit Unit := do
  if !(← read operation "responses").truthy then
    fill (← indexedItem operation .response (.str "default")) "description"
      (.str "Default response")

/-- The default responses of the operations of a path item. -/
def fillOperations (item : Data) : Edit Unit :=
  Kind.operations.forM fun (method, _) => do
    match ← ofExcept ((← forest).readFrom item method) with
    | .node operation => fillResponse operation
    | _ => return

/-- The fields that a document needs, where nothing has set them. -/
def fillDefaults (c : Config) (document : NodeId) : Edit Unit := do
  let info ← child document .info
  fill info "title" (.str c.infoTitle)
  fill info "version" (.str c.infoVersion)
  (← membersOf document "paths").forM fillOperations

end Edit

end ApiDoc
