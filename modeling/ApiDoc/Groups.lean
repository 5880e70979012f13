import ApiDoc.Failure

namespace ApiDoc

/-!
# Serialization groups

A group specification is null, a list of group names, or a list that mixes names with
mappings from a property to the specification for its own type. A mapping alone is read as
the list of that one mapping.

* `Groups.entries`, `Groups.names`, `Groups.nested` — the parts of a specification;
* `Groups.normalize` — the names alone, the default group alone counting as no filter;
* `Groups.canonical` — the form in which two specifications are compared;
* `Exclusion` — which properties a specification leaves out.
-/

namespace Groups

/-- The group of properties that declare none. -/
def defaultGroup : String := "Default"

/-- The entries of a specification. -/
def entries : Data → List Data
  | .scalar .null => []
  | .list xs _ => xs
  | .tuple xs _ => xs
  -- A single entry without a list around it.
  | g => [g]

/-- Whether an entry is a plain group name: a text, a number or a truth value. -/
def isName : Data → Bool
  | .scalar (.bool _) => true
  | .scalar (.int _) => true
  | .scalar (.float _) => true
  | .scalar (.str _) => true
  | _ => false

/-- The plain group names of a specification. -/
def names (g : Data) : List Data := (entries g).filter isName

/-- Whether a value can be the specification for the type of a property. -/
def isScope : Data → Bool
  | .list _ _ => true
  | .tuple _ _ => true
  | .map _ _ => true
  | _ => false

/-- The specification that an entry gives for a property. -/
def scope? (property : Data) : Data → Option Data
  | .map es _ => (Entries.get? es property).filter isScope
  | _ => none

/-- The specification for the type of a property: the first that an entry gives. -/
def nested (g property : Data) : Option Data :=
  (entries g).findSome? (scope? property)

/-- Whether the names are the default group alone. -/
def isDefault (default : String) (names : List Data) : Bool :=
  Data.sameItems names [.str default]

/-- The names alone; none for no filter, which the default group alone means too. -/
def normalize (g : Data) (default : String) : Option (List Data) :=
  match g with
  | .scalar .null => none
  | g => if isDefault default (names g) then none else some (names g)

/-- A normalized specification as a value. -/
def ofNames : Option (List Data) → Data
  | none => .null
  | some xs => .ofList xs

/-! ### The canonical form -/

/-- What a specification means: nothing, or a set of names in order and the meaning of the
    last specification given for each property. -/
inductive Canonical where
  | unfiltered
  | filter (names : List String) (scopes : List (String × Canonical))

/-- Names in the order of code points with one more put in, unless it is there. A lone half of a pair
    has the place of the character that stands for it (`Text.half?`), behind U+E000. -/
def insertName (x : String) : List String → List String
  | [] => [x]
  | y :: ys => if x < y then x :: y :: ys else if x == y then y :: ys else y :: insertName x ys

/-- A list without repetitions, in the order of code points. -/
def sortedSet (xs : List String) : List String := xs.foldr insertName []

/-- Scopes in the order of their keys with one more given, in place of an earlier one. -/
def putScope (k : String) (c : Canonical) : List (String × Canonical) → List (String × Canonical)
  | [] => [(k, c)]
  | (l, d) :: rest =>
    if k < l then (k, c) :: (l, d) :: rest
    else if k == l then (l, c) :: rest
    else (l, d) :: putScope k c rest

/-- The canonical form of names and of scopes in the order in which they are given. -/
def assemble (default : String) (names : List String) (given : List (String × Canonical)) :
    Canonical :=
  let names := sortedSet names
  if given.isEmpty && names == [default] then .unfiltered
  else .filter names (given.foldl (fun acc p => putScope p.1 p.2 acc) [])

/-- The plain names among entries, as texts. -/
def nameTexts (xs : List Data) : List String := (xs.filter isName).map Data.plain

mutual

/-- The canonical form of a specification. -/
def canonical (default : String) : Data → Canonical
  | .scalar .null => .unfiltered
  | .scalar s => assemble default (nameTexts [.scalar s]) []
  | .list xs _ => assemble default (nameTexts xs) (scopesOf default xs)
  | .tuple xs _ => assemble default (nameTexts xs) (scopesOf default xs)
  | .map es _ => assemble default [] (entryScopes default es)
  | _ => assemble default [] []

/-- The scopes that entries give, in order. -/
def scopesOf (default : String) : List Data → List (String × Canonical)
  | [] => []
  | .map es _ :: rest => entryScopes default es ++ scopesOf default rest
  | _ :: rest => scopesOf default rest

/-- The scopes that one mapping gives, in order. -/
def entryScopes (default : String) : List (Data × Data) → List (String × Canonical)
  | [] => []
  | (k, v) :: rest => (k.plain, canonical default v) :: entryScopes default rest

end

mutual

/-- A canonical form as a value: a pair of the names and the scopes. -/
def Canonical.toData : Canonical → Data
  | .unfiltered => .null
  | .filter names scopes => .ofTuple [.ofTuple (names.map Data.str), .ofTuple (scopesData scopes)]

/-- Scopes as values. -/
def scopesData : List (String × Canonical) → List Data
  | [] => []
  | (k, c) :: rest => .ofTuple [.str k, c.toData] :: scopesData rest

end

/-! ### Items of declared groups -/

/-- A value that can be a member of a set. -/
def hashable (v : Data) : Except Failure Unit :=
  match v.unhashable? with
  | some t => .error (.unhashable t)
  | none => .ok ()

/-- The items over which a value is read. -/
def items : Data → Except Failure (List Data)
  | .list xs _ => .ok xs
  | .tuple xs _ => .ok xs
  | .set xs _ => .ok xs
  | .map es _ => .ok (es.map (·.1))
  | .scalar (.str s) => .ok (s.toList.map fun c => Data.str (String.singleton c))
  | .scalar (.bytes ns) => .ok (ns.map fun (n : Nat) => Data.int n)
  | v => .error (.notIterable v.ownerName)

/-- The members of a set that a value is turned into. -/
def members (v : Data) : Except Failure (List Data) := do
  let xs ← items v
  xs.forM hashable
  return xs

end Groups

/-- The groups that are requested; never none. -/
structure Exclusion where
  default : String
  requested : List Data

namespace Exclusion

/-- The request of a specification. Without names it is for the default group. -/
def ofGroups (g : Data) (default : String) : Exclusion where
  default := default
  requested := match Groups.names g with
    | [] => [.str default]
    | ns => ns

/-- Whether a property with the declared groups is left out. True stands for every group,
    and what is empty for the default group. -/
def skips (e : Exclusion) (declared : Data) : Except Failure Bool :=
  match declared with
  | .scalar (.bool true) => .ok false
  | g => do
    let ms ← Groups.members (if g.truthy then g else .ofList [.str e.default])
    return !e.requested.any fun r => r.among ms

end Exclusion

end ApiDoc
