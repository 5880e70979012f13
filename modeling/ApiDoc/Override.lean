import ApiDoc.Document.Merge

namespace ApiDoc

/-!
# Overrides

An override is what the author of a class writes next to it about its schema, or about one
property: fields that replace what would be inferred.

* `OverrideKind`, `Override` — what an override is about, and the fields that it sets;
* `Override.ofFields` — an override from fields, each of which has to take its value;
* `Override.toEntries` — the fields in the spelling of documents.
-/

/-- What an override is about: a property or a whole schema. -/
inductive OverrideKind where
  | property
  | schema
deriving DecidableEq, Repr

/-- How a field of an override takes values. -/
inductive FieldType where
  | any
  | text
  | flag
  | list
  | texts
deriving DecidableEq, Repr

/-- An override: the declared fields that are set, in the order of their declaration, and
    others in the order given. The name is the key of a property where the override gives
    one. -/
structure Override where
  kind : OverrideKind
  declared : List (String × Data)
  others : List (String × Data)
  name? : Option String := none
deriving Repr

namespace OverrideKind

/-- The declared fields with what they take. -/
def fields : OverrideKind → List (String × FieldType)
  | property => shared ++ [("property", .text), ("read_only", .flag), ("write_only", .flag),
      ("enum", .list), ("items", .any)]
  | schema => shared ++ [("required", .texts)]
where
  /-- The fields of every override. -/
  shared : List (String × FieldType) :=
    [("ref", .any), ("title", .text), ("description", .text), ("type", .text),
     ("format", .text), ("example", .any), ("nullable", .flag), ("deprecated", .flag)]

end OverrideKind

/-! ### Values of fields -/

namespace FieldType

/-- The truth value that a text spells in any case. -/
def flagOfText? (s : String) : Option Bool :=
  let t := s.toLower
  if ["1", "on", "t", "true", "y", "yes"].contains t then some true
  else if ["0", "off", "f", "false", "n", "no"].contains t then some false
  else none

/-- One more than the greatest integer of a machine word. -/
def wordBound : Int := Nat.pow 2 63

/-- The truth value that an integer spells. Beyond a machine word none is looked for. -/
def flagOfInt? (n : Int) : Except String Bool :=
  if n == 0 then .ok false
  else if n == 1 then .ok true
  else .error (if -wordBound ≤ n && n < wordBound then "bool_parsing" else "bool_type")

/-- The truth value that a number spells: that of the integer that it is. -/
def flagOfFloat? (x : Binary64) : Except String Bool :=
  let n := x.units / Binary64.unitsPerOne
  if x.isFinite && x.eqInt n && n != -wordBound then flagOfInt? n else .error "bool_type"

/-- Whether a text is whole, without half of a pair of units alone. -/
def isWhole (s : String) : Bool := s.toList.all fun c => (Text.half? c).isNone

/-- The truth value that a value spells, or why it spells none. -/
def flag? : Data → Except String Bool
  | .scalar (.bool b) => .ok b
  | .scalar (.str s) =>
    if isWhole s then (flagOfText? s).elim (.error "bool_parsing") .ok
    else .error "string_unicode"
  | .scalar (.int n) => flagOfInt? n
  | .scalar (.float x) => flagOfFloat? x
  | _ => .error "bool_type"

/-- The text that a value is, or why it is none. -/
def text? : Data → Except String String
  | .scalar (.str s) => if isWhole s then .ok s else .error "string_unicode"
  | _ => .error "string_type"

/-- The value that a field takes, or the complaints, each at its place. Null is always
    taken. -/
def take (name : String) (t : FieldType) (v : Data) : Except (List (String × String)) Data :=
  let fail (reason : String) : Except (List (String × String)) Data := .error [(name, reason)]
  match t, v with
  | _, .scalar .null => .ok v
  | .any, v => .ok v
  | .text, v => match text? v with
    | .ok s => .ok (.str s)
    | .error reason => fail reason
  | .flag, v => match flag? v with
    | .ok b => .ok (.bool b)
    | .error reason => fail reason
  | .list, v => match v.items? with
    | some xs => .ok (.ofList xs)
    | none => fail "list_type"
  | .texts, v => match v.items? with
    | some xs =>
      let bad := xs.zipIdx.filterMap fun (x, i) => match text? x with
        | .ok _ => none
        | .error reason => some (name ++ "." ++ toString i, reason)
      if bad.isEmpty then .ok (.ofList xs) else .error bad
    | none => fail "list_type"

end FieldType

namespace Override

/-- The declared fields that take the values given, and the complaints about the others. -/
def takeFields (given : List (String × Data)) :
    List (String × FieldType) → List (String × Data) × List (String × String)
  | [] => ([], [])
  | (name, t) :: rest =>
    let (taken, bad) := takeFields given rest
    match given.lookup name with
    | none => (taken, bad)
    | some v => match t.take name v with
      | .ok w => ((name, w) :: taken, bad)
      | .error complaints => (taken, complaints ++ bad)

/-- The complaints about names that are no whole texts. -/
def badNames (given : List (String × Data)) : List (String × String) :=
  (given.filter fun f => !FieldType.isWhole f.1).map fun f => (f.1, "invalid_key")

/-- The name that an override gives to its property; an empty one counts for nothing. -/
def givenName? (declared : List (String × Data)) : Option String :=
  match declared.lookup "property" with
  | some (.scalar (.str s)) => if s.isEmpty then none else some s
  | _ => none

/-- The names of fields, which are texts. -/
def fieldNames (given : Entries) : Except Failure (List (String × Data)) :=
  given.mapM fun (k, v) => match k.str? with
    | some name => .ok (name, v)
    | none => .error .namelessField

/-- An override from fields given by name. -/
def ofFields (kind : OverrideKind) (given : Entries) : Except Failure Override := do
  let given ← fieldNames given
  let (declared, bad) := takeFields given kind.fields
  match bad ++ badNames given with
  | [] =>
    return { kind := kind
             declared := declared
             others := given.filter fun f => !(kind.fields.any (·.1 == f.1))
             name? := givenName? declared }
  | bad => throw (.invalid bad)

/-! ### Keys in documents -/

/-- The key of an extension or of another field: a name after `x_` becomes an extension with
    dashes, any other name is spelt as in documents. -/
def otherKey (name : String) : String :=
  if name.startsWith "x-" then name
  else match name.toList with
    | 'x' :: '_' :: rest =>
      String.ofList ('x' :: '-' :: rest.map fun c => if c == '_' then '-' else c)
    | _ => wireName name

/-- The fields that are set, under their keys in documents. The name of the property is not
    one of them. -/
def toEntries (o : Override) : Entries :=
  let declared := (o.declared.filter fun f => f.1 != "property").map fun f =>
    (Data.str (wireName f.1), f.2)
  let others := o.others.map fun f => (Data.str (otherKey f.1), f.2)
  Entries.ofPairs (declared ++ others)

/-! ### Comparison -/

/-- The values of all declared fields, null for those that are not set. -/
def values (o : Override) : List Data :=
  o.kind.fields.map fun f => (o.declared.lookup f.1).getD .null

/-- Whether two overrides set the same values. A field that is not set counts as null. -/
def same (o p : Override) : Bool :=
  o.kind == p.kind && Data.sameItems o.values p.values
    && (Data.ofEntries (Entries.ofTexts o.others)).same (.ofEntries (.ofTexts p.others))

/-- The type that prevents an override from being a member of a set. -/
def unhashable? (o : Override) : Option String := Data.unhashableItem? o.values

end Override

end ApiDoc
