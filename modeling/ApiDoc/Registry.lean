import ApiDoc.Config
import ApiDoc.Model

namespace ApiDoc

/-!
# The registry of models

A registry gives every model a reference when it is first registered, and keeps what is still
to be described.

* `Registry` — models and names by identity, what is pending, and the models with fixed names;
* `Registry.create` — a registry with fixed names;
* `Registry.register` — the reference of a model; a new model becomes pending;
* `freeName` — the first name of a series that is not taken;
* `Cache` — what describing one document remembers about classes and groups.
-/

/-- Models and names by identity, identities still to be described, and models with fixed
    names still to be registered. -/
structure Registry where
  refPrefix : String
  policy? : Option Policy := none
  models : List (String × Model) := []
  names : List (String × String) := []
  pending : List String := []
  alternatives : List Model := []
deriving Repr

/-- What describing one document remembers: whether the properties of a class declare groups,
    and the groups around a model that a property narrowed down. -/
structure Cache where
  groupUsage : List (String × Option Bool) := []
  previousGroups : Entries := []
deriving Repr

/-- The last part of a class name between dots and backslashes; `Model` if that is empty. -/
def baseName (className : String) : String :=
  let part := (className.toList.reverse.takeWhile fun c => c != '.' && c != '\\').reverse
  if part.isEmpty then "Model" else String.ofList part

/-- The name at a position of the series `base`, `base2`, `base3`, …. -/
def candidate (base : String) (i : Nat) : String :=
  if i == 0 then base else base ++ toString (i + 1)

/-- The first name of the series that is not taken. One of the first `taken.length + 1`
    names is free. -/
def freeName (taken : List String) (base : String) : String :=
  let free := (List.range (taken.length + 1)).find? fun i => !taken.contains (candidate base i)
  candidate base (free.getD taken.length)

namespace Registry

/-- Names with the one for an identity set. -/
def putName (key name : String) : List (String × String) → List (String × String)
  | [] => [(key, name)]
  | (k, n) :: rest => if k == key then (k, name) :: rest else (k, n) :: putName key name rest

/-- A registry whose alternatives have the names given. -/
def create (refPrefix : String) (policy? : Option Policy) (alternatives : List (String × Model)) :
    Registry where
  refPrefix := refPrefix
  policy? := policy?
  names := alternatives.foldl (fun acc a => putName a.2.hash a.1 acc) []
  alternatives := alternatives.map (·.2)

/-- Whether an identity has been registered. -/
def has (r : Registry) (key : String) : Bool := r.models.any (·.1 == key)

/-- The name for an identity. -/
def nameOf? (r : Registry) (key : String) : Option String := r.names.lookup key

/-- The registry with a name for the identity of a model: one that it has, or a free one. -/
def named (r : Registry) (m : Model) (key : String) : Registry :=
  -- A fixed name counts as one that the identity has.
  if (r.nameOf? key).isSome then r
  else
    let name := freeName (r.names.map (·.2)) (baseName (m.className?.getD ""))
    { r with names := putName key name r.names }

/-- The registry with a model: a new one becomes pending under a name. -/
def add (r : Registry) (m : Model) : Registry :=
  let key := m.hash
  if r.has key then r
  else
    { r with models := r.models ++ [(key, m)], pending := r.pending ++ [key] }.named m key

/-- The reference of an identity. -/
def reference (r : Registry) (key : String) : String :=
  r.refPrefix ++ (r.nameOf? key).getD ""

/-- The reference of a model, and the registry with the model. -/
def register (r : Registry) (m : Model) : String × Registry :=
  let r := r.add m
  (r.reference m.hash, r)

end Registry

namespace Cache

/-- The cache with the groups around a model remembered. -/
def remember (c : Cache) (key : String) (groups : Data) : Cache :=
  { c with previousGroups := Entries.insert c.previousGroups (.str key) groups }

/-- The groups remembered around a model. -/
def previous (c : Cache) (key : String) : Data :=
  (Entries.get? c.previousGroups (.str key)).getD .null

/-- The cache as a value. -/
def toData (c : Cache) : Data :=
  let usage (u : String × Option Bool) : Data × Data :=
    (.str u.1, match u.2 with
      | none => .null
      | some b => .bool b)
  .ofEntries [(.str "group_usage", .ofEntries (c.groupUsage.map usage)),
    (.str "previous_groups", .ofEntries c.previousGroups)]

end Cache

end ApiDoc
