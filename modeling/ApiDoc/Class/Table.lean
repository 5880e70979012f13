import ApiDoc.Class.Annotation
import ApiDoc.Class.Enumeration

namespace ApiDoc

/-!
# Classes

* `ClassDecl` — a class as it is declared;
* `ClassInfo` — a declared class with its order of resolution, its record fields and the values
  of its members;
* `linearize` — the order in which a class and its bases are searched, if they have one;
* `ClassTable` — the declared classes, with `ClassTable.declare` and `ClassTable.find?`.
-/

/-- How a class lists its properties. -/
inductive ClassKind where
  /-- Through its annotations. -/
  | plain
  /-- Through the fields of a record. -/
  | record
  /-- Through the fields of a validated model. -/
  | validated
  /-- An enumeration of values, without properties. -/
  | enumeration
deriving DecidableEq, Repr

/-- A property of a class as it is declared. -/
structure FieldDecl where
  name : String
  annotation : Annotation
  groups : Data := .null
  override? : Option Override := none
deriving Repr

/-- A class as it is declared. -/
structure ClassDecl where
  module : String
  name : String
  kind : ClassKind
  fields : List FieldDecl := []
  bases : List String := []
  attributes : List (String × Data) := []
  schema? : Option Override := none
  isLocal : Bool := false
  isGeneric : Bool := false
  members : List (String × Data) := []
  enumBase? : Option EnumBase := none
deriving Repr

/-- The name of a class with its module. -/
def ClassDecl.fullName (d : ClassDecl) : String := d.module ++ "." ++ d.name

/-- A declared class. The order starts with the class itself. The record fields are those of
    a record, its own or inherited; class members are among them. -/
structure ClassInfo where
  decl : ClassDecl
  order : List String
  recordFields? : Option (List FieldDecl)
  values : List Data := []
deriving Repr

/-- The full name of a class. -/
def ClassInfo.name (c : ClassInfo) : String := c.decl.fullName

/-! ### Names -/

/-- The parts of a name between dots. -/
def splitDots : List Char → List (List Char)
  | [] => [[]]
  | c :: rest =>
    match splitDots rest with
    | part :: parts => if c == '.' then [] :: part :: parts else (c :: part) :: parts
    | [] => [[c]]

/-- The last part of a name. -/
def lastPart (name : String) : String :=
  String.ofList ((splitDots name.toList).getLast?.getD [])

/-! ### The order of resolution -/

/-- The class above all others. -/
def rootClass : String := "builtins.object"

/-- The first head of a list that stands in no tail. -/
def nextInOrder? (lists : List (List String)) : Option String :=
  (lists.filterMap List.head?).find? fun c => lists.all fun l => !l.tail.contains c

/-- Orders merged: each step takes the first head that no other order puts later. If there is
    none, the heads are in each other's way. -/
def mergeOrders : Nat → List (List String) → Except Failure (List String)
  | 0, _ => .ok []
  | fuel + 1, lists =>
    let lists := lists.filter fun l => !l.isEmpty
    if lists.isEmpty then .ok []
    else match nextInOrder? lists with
      | none => .error (.noOrder ((lists.filterMap List.head?).eraseDups.map lastPart))
      | some c => do
        let rest ← mergeOrders fuel (lists.map fun l => if l.head? == some c then l.tail else l)
        return c :: rest

/-- The first name that stands twice in a list. -/
def repeated? : List String → Option String
  | [] => none
  | x :: xs => if xs.contains x then some x else repeated? xs

/-- The order of a class after those of its bases. -/
def linearize (name : String) (baseOrders : List (List String)) (bases : List String) :
    Except Failure (List String) := do
  if let some b := repeated? bases then throw (.repeatedBase (lastPart b))
  let lists := baseOrders ++ [bases]
  return name :: (← mergeOrders (lists.flatten.length + 1) lists)

/-! ### The table -/

/-- The declared classes, in order of declaration. -/
abbrev ClassTable := List ClassInfo

/-- The standard classes that have a name, each with the order in which it is searched. -/
def standardClasses : List (String × List String) :=
  [("datetime.datetime", ["datetime.datetime", "datetime.date", rootClass]),
   ("datetime.date", ["datetime.date", rootClass]),
   ("datetime.time", ["datetime.time", rootClass]),
   ("decimal.Decimal", ["decimal.Decimal", rootClass]), ("uuid.UUID", ["uuid.UUID", rootClass]),
   (rootClass, [rootClass])]

/-- Fields with one more: it takes the place of a field of its name, or comes last. -/
def putField (f : FieldDecl) : List FieldDecl → List FieldDecl
  | [] => [f]
  | g :: rest => if g.name == f.name then f :: rest else g :: putField f rest

namespace ClassTable

/-- The class of a full name, the last declared one. -/
def find? (t : ClassTable) (name : String) : Option ClassInfo :=
  t.reverse.find? fun c => c.name == name

/-- The order of a declared or standard class. -/
def order (t : ClassTable) (name : String) : List String :=
  match find? t name with
  | some c => c.order
  | none => (standardClasses.lookup name).getD [name, rootClass]

/-- The classes in the order of a class, as far as they are declared. -/
def lineage (t : ClassTable) (name : String) : List ClassInfo :=
  (order t name).filterMap (find? t)

/-- The fields of a record: those of its bases, the farthest first, then its own. -/
def recordFields (t : ClassTable) (d : ClassDecl) (bases : List String) : Option (List FieldDecl) :=
  let inherited := (bases.filterMap (find? t)).filterMap (·.recordFields?)
  match d.kind with
  | .record =>
    let fields := (inherited.reverse.flatten ++ d.fields)
    some (fields.foldl (fun acc f => putField f acc) [])
  | _ => inherited.head?

/-- The table with one more class. -/
def declare (t : ClassTable) (d : ClassDecl) : Except Failure ClassTable := do
  let bases := if d.bases.isEmpty then [rootClass] else d.bases
  let order ← linearize d.fullName (bases.map (order t)) bases
  let values ← enumValues (lastPart d.name) d.enumBase? d.members
  return t ++ [{ decl := d, order := order, recordFields? := recordFields t d order.tail
                 values := values }]

/-- The table of several declarations. -/
def ofDecls (ds : List ClassDecl) : Except Failure ClassTable := ds.foldlM declare []

/-- Whether a class is a date or a moment. -/
def isDate (t : ClassTable) (name : String) : Bool := (order t name).contains "datetime.date"

/-- Whether a class is an enumeration. -/
def isEnumeration (t : ClassTable) (name : String) : Bool :=
  (lineage t name).any (·.decl.kind == .enumeration)

/-- The class that declares the members of an enumeration. -/
def enumeration? (t : ClassTable) (name : String) : Option ClassInfo :=
  (lineage t name).find? (·.decl.kind == .enumeration)

/-- The override of the nearest class that has one. -/
def schemaOverride? (t : ClassTable) (name : String) : Option Override :=
  (lineage t name).findSome? (·.decl.schema?)

/-- A class with types in brackets. A plain class or a record takes them only if it is generic
    itself, and then one. -/
def generic (t : ClassTable) (name : String) (arguments : List Annotation) :
    Except Failure Annotation := do
  arguments.forM Annotation.checkText
  match find? t name with
  | none => return .generic name arguments
  | some c =>
    if c.decl.kind == .plain || c.decl.kind == .record then
      if !c.decl.isGeneric then
        throw (.notGeneric name (lastPart name) ((lineage t name).any (·.decl.isGeneric)))
      if arguments.length != 1 then throw (.argumentCount name arguments.length)
    return .generic name arguments

end ClassTable

end ApiDoc
