import ApiDoc.Document.Kind
import ApiDoc.Text.Case

namespace ApiDoc

/-!
# The layout of nodes

What each kind of node holds:

* `Kind.fields` — the names of its fields;
* `Layout` — its slots for child nodes: singular slots hold one child, collection slots a
  list of children of one kind, indexed slots children that differ in a key field;
* `Kind.layout` — the table, which is closed: a node has no children outside it;
* `Kind.arrayFields`, `Kind.internalFields` — fields that merges only append to, and fields
  that are not part of the written document;
* `wireName` — the spelling of a name in documents, with `Kind.fieldOfWire?` and
  `Kind.slotOfWire?` back.
-/

/-! ### Slots -/

/-- A slot for a list of children, with the fields by which a merge recognises one. -/
structure CollectionSlot where
  name : String
  identifying : List String := []
deriving DecidableEq, Repr

/-- A slot for children that differ in their key field. -/
structure IndexedSlot where
  name : String
  key : String
deriving DecidableEq, Repr

/-- The slots for children, each under the kind of child that it holds. -/
structure Layout where
  singular : List (Kind × String) := []
  collections : List (Kind × CollectionSlot) := []
  indexed : List (Kind × IndexedSlot) := []
  booleanSlots : List String := []
deriving DecidableEq, Repr

/-- The names of all slots, in order. -/
def Layout.slotNames (l : Layout) : List String :=
  l.singular.map (·.2) ++ l.collections.map (·.2.name) ++ l.indexed.map (·.2.name)

namespace Kind

/-- The slot for the parameters of an operation or a path. -/
def parameterSlot : Kind × CollectionSlot := (parameter, ⟨"parameters", ["name", "in_"]⟩)

/-- The slot for media types under their names. -/
def contentSlot : Kind × IndexedSlot := (mediaType, ⟨"content", "media_type"⟩)

/-- The layout of operations. -/
def operationLayout : Layout where
  singular := [(requestBody, "request_body"), (externalDocumentation, "external_docs")]
  collections := [parameterSlot]
  indexed := [(response, ⟨"responses", "response"⟩)]

/-- The layout of schemas. -/
def schemaLayout : Layout where
  singular := [(items, "items"), (additionalProperties, "additional_properties"),
    (externalDocumentation, "external_docs")]
  indexed := [(property, ⟨"properties", "property"⟩)]
  booleanSlots := ["additional_properties"]

/-- The slots of each kind. -/
def layout : Kind → Layout
  | openApi =>
    { singular := [(info, "info"), (components, "components"),
        (externalDocumentation, "external_docs")]
      collections := [(server, ⟨"servers", ["url"]⟩), (tag, ⟨"tags", ["name"]⟩)]
      indexed := [(pathItem, ⟨"paths", "path"⟩)] }
  | info => { singular := [(contact, "contact"), (license, "license")] }
  | pathItem =>
    { singular := operations.map fun p => (p.2, p.1)
      collections := [parameterSlot] }
  | get | put | post | patch | delete | options | head => operationLayout
  | parameter => { singular := [(schema, "schema")] }
  | requestBody => { indexed := [contentSlot] }
  | mediaType => { singular := [(schema, "schema")] }
  | response => { indexed := [(header, ⟨"headers", "header"⟩), contentSlot] }
  | header => { singular := [(schema, "schema")] }
  | components =>
    { indexed := [(schema, ⟨"schemas", "schema"⟩), (response, ⟨"responses", "response"⟩),
        (parameter, ⟨"parameters", "parameter"⟩), (header, ⟨"headers", "header"⟩)] }
  | schema | property | items | additionalProperties => schemaLayout
  | tag => { singular := [(externalDocumentation, "external_docs")] }
  | contact | license | server | externalDocumentation => {}

/-- The names of the slots of a kind, in order. -/
def slots (k : Kind) : List String := k.layout.slotNames

/-! ### Fields -/

/-- The fields that all schemas share. -/
def schemaFields : List String :=
  ["ref", "title", "description", "type", "format", "required", "default", "example", "nullable",
   "deprecated", "read_only", "write_only", "enum", "minimum", "maximum", "exclusive_minimum",
   "exclusive_maximum", "min_length", "max_length", "pattern", "min_items", "max_items",
   "unique_items", "multiple_of"]

/-- The fields of operations. -/
def operationFields : List String :=
  ["path", "operation_id", "summary", "description", "tags", "deprecated", "security"]

/-- The fields of each kind, in the order in which they are written. -/
def fields : Kind → List String
  | openApi => ["openapi", "security"]
  | info => ["title", "description", "terms_of_service", "version"]
  | contact => ["name", "url", "email"]
  | license => ["name", "url"]
  | server => ["url", "description"]
  | pathItem => ["path", "ref", "summary", "description"]
  | get | put | post | patch | delete | options | head => operationFields
  | parameter =>
    ["parameter", "ref", "name", "in_", "description", "required", "deprecated",
     "allow_empty_value", "style", "explode", "example"]
  | requestBody => ["ref", "description", "required"]
  | mediaType => ["media_type", "example"]
  | response => ["response", "ref", "description"]
  | header => ["header", "ref", "description", "required", "deprecated"]
  | components => []
  | schema => "schema" :: schemaFields
  | property => "property" :: schemaFields
  | items | additionalProperties => schemaFields
  | tag => ["name", "description"]
  | externalDocumentation => ["description", "url"]

/-- The names of fields and slots of a kind. -/
def attributes (k : Kind) : List String := k.fields ++ k.slots

/-- The list fields that merges only append to. -/
def arrayFields (k : Kind) : List String :=
  if k.isSchema then ["required"] else if k.isOperation then ["tags"] else []

/-- The key fields that some layout indexes this kind of child by. -/
def indexKeys (k : Kind) : List String :=
  (all.flatMap fun p => (p.layout.indexed.filter (·.1 == k)).map (·.2.key)).eraseDups

/-- The fields that the document does not show: key fields stand in the keys of the parent,
    and the path of an operation in the key of its path item. -/
def internalFields (k : Kind) : List String := if k.isOperation then ["path"] else k.indexKeys

end Kind

/-! ### Spelling in documents -/

/-- The parts of a text between underscores. -/
def splitUnderscore : List Char → List (List Char)
  | [] => [[]]
  | c :: rest =>
    match splitUnderscore rest with
    | part :: parts => if c == '_' then [] :: part :: parts else (c :: part) :: parts
    | [] => [[c]]

/-- The spelling of a name in documents: later parts are capitalised and joined to the
    first, and a reference has a sign of its own. -/
def wireName (name : String) : String :=
  if name == "ref" then "$ref"
  else if name == "in_" then "in"
  else match splitUnderscore name.toList with
    | head :: rest => String.ofList (head ++ rest.flatMap Text.capitalizeChars)
    | [] => ""

/-- The field that a key of a document names. -/
def Kind.fieldOfWire? (k : Kind) (key : String) : Option String :=
  k.fields.find? fun name => wireName name == key

/-- The slot that a key of a document names. -/
def Kind.slotOfWire? (k : Kind) (key : String) : Option String :=
  k.slots.find? fun name => wireName name == key

end ApiDoc
