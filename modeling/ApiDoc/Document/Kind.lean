namespace ApiDoc

/-!
# Kinds of document nodes

* `Kind` — the closed set of kinds;
* `Kind.name`, `Kind.ofName?` — the name of a kind, and back;
* `Kind.operations`, `Kind.schemas` — the kinds of operations by HTTP method, and the kinds
  that share the layout of a schema.
-/

/-- The kind of a node of an API document. -/
inductive Kind where
  | openApi
  | info
  | contact
  | license
  | server
  | pathItem
  | get
  | put
  | post
  | patch
  | delete
  | options
  | head
  | parameter
  | requestBody
  | mediaType
  | response
  | header
  | components
  | schema
  | property
  | items
  | additionalProperties
  | tag
  | externalDocumentation
deriving DecidableEq, Repr

namespace Kind

/-- The name of a kind. -/
def name : Kind → String
  | openApi => "OpenApi"
  | info => "Info"
  | contact => "Contact"
  | license => "License"
  | server => "Server"
  | pathItem => "PathItem"
  | get => "Get"
  | put => "Put"
  | post => "Post"
  | patch => "Patch"
  | delete => "Delete"
  | options => "Options"
  | head => "Head"
  | parameter => "Parameter"
  | requestBody => "RequestBody"
  | mediaType => "MediaType"
  | response => "Response"
  | header => "Header"
  | components => "Components"
  | schema => "Schema"
  | property => "Property"
  | items => "Items"
  | additionalProperties => "AdditionalProperties"
  | tag => "Tag"
  | externalDocumentation => "ExternalDocumentation"

/-- Every kind. -/
def all : List Kind :=
  [openApi, info, contact, license, server, pathItem, get, put, post, patch, delete, options,
   head, parameter, requestBody, mediaType, response, header, components, schema, property,
   items, additionalProperties, tag, externalDocumentation]

/-- The kind of a name. -/
def ofName? (s : String) : Option Kind := all.find? fun k => k.name == s

/-- The kinds of operations, each under its HTTP method. -/
def operations : List (String × Kind) :=
  [("get", get), ("put", put), ("post", post), ("patch", patch), ("delete", delete),
   ("options", options), ("head", head)]

/-- Whether the kind is an operation. -/
def isOperation (k : Kind) : Bool := operations.any fun p => p.2 == k

/-- The kinds that share the layout of a schema. -/
def schemas : List Kind := [schema, property, items, additionalProperties]

/-- Whether the kind has the layout of a schema. -/
def isSchema (k : Kind) : Bool := schemas.contains k

end Kind

end ApiDoc
