import ApiDoc.Data.Scalar

namespace ApiDoc

/-!
# Data

The values that documents, overrides and group specifications are made of:

* `Data` — scalars, lists, tuples, mappings in order and sets; the mark of what is unset; nodes
  of a document, and references to models that a registry resolves;
* `Entries` — the entries of a mapping, with `get?`, `insert` and `ofPairs`;
* `Data.alike`, `Data.same`, `Data.identical` — equality of values, equality as parts of a
  container, and equality of type and value;
* `Data.unhashable?` — why a value can be no key;
* `Data.typeName`, `Data.literal`, `Data.truthy` — how messages and conditions see a value;
* `Data.numbered` — the value with a mark of its own at every container.

Two containers that carry the same mark, other than zero, are one container seen twice.
-/

/-- A node of a document, by its number. -/
abbrev NodeId := Nat

/-- What a reference to a model names: a class by its full name, or a class itself. -/
inductive Target where
  | named (name : String)
  | itself (className : String)
deriving DecidableEq, Repr

/-- A value. A mapping keeps its entries in order. -/
inductive Data where
  | scalar (s : Scalar)
  | list (items : List Data) (mark : Nat)
  | tuple (items : List Data) (mark : Nat)
  | map (entries : List (Data × Data)) (mark : Nat)
  | set (members : List Data) (mark : Nat)
  | unset
  | node (id : NodeId)
  | modelRef (target : Target) (groups : Data)
  /-- A thing without content. -/
  | bare (mark : Nat)
deriving Repr

/-- The entries of a mapping, in order. -/
abbrev Entries := List (Data × Data)

namespace Data

instance : Inhabited Data := ⟨.unset⟩

/-- The null value. -/
abbrev null : Data := .scalar .null

/-- A truth value. -/
abbrev bool (b : Bool) : Data := .scalar (.bool b)

/-- An integer. -/
abbrev int (n : Int) : Data := .scalar (.int n)

/-- A text. -/
abbrev str (s : String) : Data := .scalar (.str s)

/-- A list that is nowhere else. -/
abbrev ofList (xs : List Data) : Data := .list xs 0

/-- A tuple that is nowhere else. -/
abbrev ofTuple (xs : List Data) : Data := .tuple xs 0

/-- A mapping that is nowhere else. -/
abbrev ofEntries (es : Entries) : Data := .map es 0

/-- Whether the value marks what is unset. -/
def isUnset : Data → Bool
  | .unset => true
  | _ => false

/-- The items of a list or a tuple. -/
def items? : Data → Option (List Data)
  | .list xs _ => some xs
  | .tuple xs _ => some xs
  | _ => none

/-- The text that the value is. -/
def str? : Data → Option String
  | .scalar (.str s) => some s
  | _ => none

/-- The node that the value is. -/
def node? : Data → Option NodeId
  | .node i => some i
  | _ => none

/-- The name of a value's type in messages. -/
def typeName : Data → String
  | .scalar s => s.typeName
  | .list _ _ => "list"
  | .tuple _ _ => "tuple"
  | .map _ _ => "dict"
  | .set _ _ => "set"
  | .unset => "_Undefined"
  | .node _ => "Node"
  | .modelRef _ _ => "ModelRef"
  | .bare _ => "object"

/-- The name of a value's type where its operations are concerned. -/
def ownerName : Data → String
  | .scalar s => s.ownerName
  | v => v.typeName

/-- Whether a condition takes the value for true. -/
def truthy : Data → Bool
  | .scalar s => s.truthy
  | .list xs _ => !xs.isEmpty
  | .tuple xs _ => !xs.isEmpty
  | .map es _ => !es.isEmpty
  | .set xs _ => !xs.isEmpty
  | .unset => false
  | .node _ => true
  | .modelRef _ _ => true
  | .bare _ => true

/-! ### Equality -/

mutual

/-- Equality of parts of a container: lists and tuples item by item, mappings and sets in any
    order. -/
def same : Data → Data → Bool
  | .scalar s, .scalar t => s.same t
  | .list xs _, .list ys _ => sameItems xs ys
  | .tuple xs _, .tuple ys _ => sameItems xs ys
  | .map es _, .map fs _ => es.length == fs.length && sameEntries es fs
  | .set xs _, .set ys _ => xs.length == ys.length && sameMembers xs ys
  | .unset, .unset => true
  | .node i, .node j => i == j
  | .modelRef t g, .modelRef u h => t == u && same g h
  | .bare m, .bare n => m == n
  | _, _ => false

/-- Equality item by item. -/
def sameItems : List Data → List Data → Bool
  | [], [] => true
  | x :: xs, y :: ys => same x y && sameItems xs ys
  | _, _ => false

/-- Whether every entry has an equal one. -/
def sameEntries : List (Data × Data) → List (Data × Data) → Bool
  | [], _ => true
  | (k, v) :: rest, fs => (fs.any fun f => same k f.1 && same v f.2) && sameEntries rest fs

/-- Whether every member has an equal one. -/
def sameMembers : List Data → List Data → Bool
  | [], _ => true
  | x :: xs, ys => (ys.any fun y => same x y) && sameMembers xs ys

end

/-- Equality of values. -/
def alike : Data → Data → Bool
  | .scalar s, .scalar t => s.alike t
  | v, w => v.same w

instance : BEq Data := ⟨alike⟩

/-- Equality of type and value. -/
def identical (v w : Data) : Bool := v.typeName == w.typeName && v.alike w

/-- Whether an equal value is among the items. -/
def among (v : Data) (items : List Data) : Bool := items.any (·.same v)

/-! ### Keys -/

mutual

/-- The type that prevents a value from being a key or a member of a set. -/
def unhashable? : Data → Option String
  | .list _ _ => some "list"
  | .map _ _ => some "dict"
  | .set _ _ => some "set"
  | .tuple xs _ => unhashableItem? xs
  | .modelRef _ g => unhashable? g
  | _ => none

/-- The type that prevents the first of several values from being a key. -/
def unhashableItem? : List Data → Option String
  | [] => none
  | x :: xs => match unhashable? x with
    | some t => some t
    | none => unhashableItem? xs

end

end Data

namespace Entries

/-- The value under a key. -/
def get? (es : Entries) (k : Data) : Option Data :=
  match es with
  | [] => none
  | (k', v) :: rest => if k'.same k then some v else get? rest k

/-- The value under a text. -/
abbrev text? (es : Entries) (k : String) : Option Data := es.get? (.str k)

/-- Whether there is an entry under a key. -/
def has (es : Entries) (k : Data) : Bool := (get? es k).isSome

/-- The entries with the value under a key set: in its place if the key is there, at the end
    otherwise. -/
def insert (es : Entries) (k v : Data) : Entries :=
  match es with
  | [] => [(k, v)]
  | (k', v') :: rest => if k'.same k then (k', v) :: rest else (k', v') :: insert rest k v

/-- The first entries, with those of `more` set one after the other. -/
def update (es more : Entries) : Entries := more.foldl (fun acc p => acc.insert p.1 p.2) es

/-- The entries that pairs given one after the other leave: of equal keys the first stays,
    with the value of the last. -/
def ofPairs (ps : List (Data × Data)) : Entries := update [] ps

/-- The entries of a mapping by the texts of its keys. -/
def ofTexts (ps : List (String × Data)) : Entries := ps.map fun p => (.str p.1, p.2)

end Entries

namespace Data

/-! ### Literals -/

/-- Texts one after the other, with a comma between. -/
def commaJoin (ts : List String) : String := ", ".intercalate ts

mutual

/-- A value as messages write it, texts in quotes and nodes as given. -/
def literalWith (node : NodeId → String) : Data → String
  | .scalar s => s.literal
  | .list xs _ => "[" ++ commaJoin (literals node xs) ++ "]"
  | .tuple [x] _ => "(" ++ literalWith node x ++ ",)"
  | .tuple xs _ => "(" ++ commaJoin (literals node xs) ++ ")"
  | .map es _ => "\x7b" ++ commaJoin (entryLiterals node es) ++ "\x7d"
  | .set [] _ => "set()"
  | .set xs _ => "\x7b" ++ commaJoin (literals node xs) ++ "\x7d"
  | .unset => "UNDEFINED"
  | .node i => node i
  | .modelRef (.named n) g =>
    "ModelRef(type=" ++ Text.quoted n ++ ", groups=" ++ literalWith node g ++ ")"
  | .modelRef (.itself n) g =>
    "ModelRef(type=<class " ++ Text.quoted n ++ ">, groups=" ++ literalWith node g ++ ")"
  | .bare _ => "<object>"

/-- The literals of items. -/
def literals (node : NodeId → String) : List Data → List String
  | [] => []
  | x :: xs => literalWith node x :: literals node xs

/-- The literals of entries. -/
def entryLiterals (node : NodeId → String) : List (Data × Data) → List String
  | [] => []
  | (k, v) :: rest =>
    (literalWith node k ++ ": " ++ literalWith node v) :: entryLiterals node rest

end

/-- A value without nodes as messages write it. -/
def literal (v : Data) : String := v.literalWith fun _ => "<Node>"

/-- A value as messages write it, a text as it is. -/
def plainWith (node : NodeId → String) : Data → String
  | .scalar s => s.plain
  | v => v.literalWith node

/-- A value without nodes as messages write it, a text as it is. -/
def plain (v : Data) : String := v.plainWith fun _ => "<Node>"

/-! ### Marks -/

mutual

/-- The value with marks from `next` on at its containers, and the mark after them. -/
def numbered (next : Nat) : Data → Data × Nat
  | .list xs _ => let (ys, n) := numberedItems (next + 1) xs; (.list ys next, n)
  | .tuple xs _ => let (ys, n) := numberedItems (next + 1) xs; (.tuple ys next, n)
  | .map es _ => let (fs, n) := numberedEntries (next + 1) es; (.map fs next, n)
  | .set xs _ => (.set xs next, next + 1)
  | .modelRef t g => let (h, n) := numbered next g; (.modelRef t h, n)
  | v => (v, next)

/-- The items with marks. -/
def numberedItems (next : Nat) : List Data → List Data × Nat
  | [] => ([], next)
  | x :: xs =>
    let (y, n) := numbered next x
    let (ys, n) := numberedItems n xs
    (y :: ys, n)

/-- The entries with marks. -/
def numberedEntries (next : Nat) : List (Data × Data) → List (Data × Data) × Nat
  | [] => ([], next)
  | (k, v) :: rest =>
    let (l, n) := numbered next k
    let (w, n) := numbered n v
    let (fs, n) := numberedEntries n rest
    ((l, w) :: fs, n)

end

end Data

end ApiDoc
