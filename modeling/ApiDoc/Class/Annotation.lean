import ApiDoc.Class.Expression
import ApiDoc.Override
import ApiDoc.TypeInfo

namespace ApiDoc

/-!
# Annotations

What the author of a class writes as the type of a property.

* `Annotation` — the forms of types;
* `Annotation.same` — equality of types: the members of unions and literals in any order;
* `Annotation.unite`, `Annotation.either`, `Annotation.annotate` — unions and annotated types,
  which flatten;
* `Annotation.applied`, `Annotation.memberOf` — collections of types, members of the class;
* `Annotation.infer` — the types that an annotation stands for: none if it says nothing, and
  several for a union;
* `Annotation.classes` — the classes that inference meets.
-/

/-- What is attached to an annotated type. -/
inductive Extra where
  | override (o : Override)
  | other (v : Data)
deriving Repr

namespace Extra

/-- Equality of what is attached. -/
def same : Extra → Extra → Bool
  | override o, override p => o.same p
  | other v, other w => v.same w
  | _, _ => false

/-- The type that prevents an extra from being a member of a set. -/
def unhashable? : Extra → Option String
  | override o => o.unhashable?
  | other v => v.unhashable?

end Extra

/-- A type as the author of a class writes it. -/
inductive Annotation where
  /-- A built-in type by its name. -/
  | builtin (name : String)
  | any
  /-- The null value in place of its type. -/
  | nothing
  /-- A form that says nothing about the type, such as a variable. -/
  | mute (text : String)
  /-- Values that a property may have. -/
  | literal (values : List Data)
  | object (className : String)
  | sequence (head : String) (item : Annotation)
  | bareSequence (head : String)
  | mapping (head : String) (key value : Annotation)
  | bareMapping (head : String)
  | tuple (items : List Annotation)
  /-- The mark after the one item type of a tuple of any length. -/
  | ellipsis
  /-- A union; `joined` if it is made of classes alone, one joined to the other. -/
  | union (joined : Bool) (members : List Annotation)
  | annotated (inner : Annotation) (extras : List Extra)
  /-- A member of the class, not of its objects. -/
  | classMember (text : String)
  | generic (className : String) (arguments : List Annotation)
  /-- An expression in quotes, to be evaluated where it is the whole annotation. -/
  | quoted (text : String)
  /-- An expression in quotes that stands for an annotation. -/
  | deferred (inner : Annotation)
deriving Repr

namespace Annotation

instance : Inhabited Annotation := ⟨any⟩

/-! ### Equality -/

/-- Whether each value is among others, by type and value. -/
def sameValues (vs ws : List Data) : Bool := vs.all fun v => ws.any fun w => v.identical w

/-- Equality of what is attached, one after the other. -/
def sameExtras : List Extra → List Extra → Bool
  | [], [] => true
  | e :: es, f :: fs => e.same f && sameExtras es fs
  | _, _ => false

mutual

/-- Equality of types. -/
def same : Annotation → Annotation → Bool
  | builtin n, builtin m => n == m
  | any, any => true
  | nothing, nothing => true
  | mute s, mute t => s == t
  | literal vs, literal ws => sameValues vs ws && sameValues ws vs
  | object c, object d => c == d
  | sequence h a, sequence k b => h == k && same a b
  | bareSequence h, bareSequence k => h == k
  | mapping h a b, mapping k c d => h == k && same a c && same b d
  | bareMapping h, bareMapping k => h == k
  | tuple as, tuple bs => sameAll as bs
  | ellipsis, ellipsis => true
  | union _ as, union _ bs => as.length == bs.length && allAmong as bs
  | annotated a es, annotated b fs => same a b && sameExtras es fs
  | classMember s, classMember t => s == t
  | generic c as, generic d bs => c == d && sameAll as bs
  | quoted s, quoted t => s == t
  | deferred a, deferred b => same a b
  | _, _ => false

/-- Equality of types one after the other. -/
def sameAll : List Annotation → List Annotation → Bool
  | [], [] => true
  | a :: as, b :: bs => same a b && sameAll as bs
  | _, _ => false

/-- Whether each type is among others. -/
def allAmong : List Annotation → List Annotation → Bool
  | [], _ => true
  | a :: as, bs => bs.any (same a) && allAmong as bs

end

mutual

/-- The type of the value that prevents an annotation from being a member of a set. -/
def unhashable? : Annotation → Option String
  | literal vs => Data.unhashableItem? vs
  | sequence _ a => unhashable? a
  | mapping _ k v => unhashable? k <|> unhashable? v
  | tuple as => unhashableItem? as
  | union _ as => unhashableItem? as
  | annotated a es => unhashable? a <|> es.findSome? Extra.unhashable?
  | generic _ as => unhashableItem? as
  | _ => none

/-- The type of the value that prevents the first of several annotations from being a member
    of a set. -/
def unhashableItem? : List Annotation → Option String
  | [] => none
  | a :: as => unhashable? a <|> unhashableItem? as

end

/-! ### Unions -/

/-- The members that a type brings into a union. A text in it is not evaluated any more. -/
def membersOf : Annotation → List Annotation
  | union _ ms => ms
  | nothing => [builtin "null"]
  | quoted s => [mute (Text.quoted s)]
  | a => [a]

/-- Types without repetitions. -/
def distinct (as : List Annotation) : List Annotation :=
  as.foldl (fun acc a => if acc.any (·.same a) then acc else acc ++ [a]) []

/-- The union of members, which is that of one type if there is only one. -/
def ofMembers (joined : Bool) (ms : List Annotation) : Annotation :=
  match distinct ms with
  | [a] => a
  | ms => union joined ms

/-- Whether a type can be the type that others are attached to: a text has to be an
    expression. -/
def checkText : Annotation → Except Failure Unit
  | quoted s => if Expression.isWritten s then .ok () else .error (.notExpression s)
  | _ => .ok ()

/-- Whether a type can stand inside another. -/
def checkInside : Annotation → Except Failure Unit
  | classMember "" => .error (.notInsideType "Plain typing.ClassVar")
  | classMember form => .error (.notInsideType form)
  | a => checkText a

/-- The union of types: unions in it are flattened, repetitions dropped, and the union of one
    type is that type. The members have to be members of a set. -/
def unite (parts : List Annotation) : Except Failure Annotation := do
  if parts.isEmpty then throw .noMembers
  parts.forM checkInside
  let ms := parts.flatMap membersOf
  match unhashableItem? ms with
  | some t => .error (.unhashable t)
  | none => .ok (ofMembers false ms)

/-- Whether a type is a class, a collection written in brackets after its class, or made of
    such types by joining them. -/
def isClassForm : Annotation → Bool
  | union joined _ => joined
  | builtin _ => true
  | nothing => true
  | any => true
  | object _ => true
  | sequence h _ => h.toLower == h
  | bareSequence h => h.toLower == h
  | mapping h _ _ => h.toLower == h
  | bareMapping h => h.toLower == h
  | tuple _ => true
  | _ => false

/-- Whether a form is no type by itself. -/
def isNoType : Annotation → Bool
  | quoted _ => true
  | ellipsis => true
  | _ => false

/-- The name of the type of a form that is a class, made of classes, or no type. -/
def formName : Annotation → String
  | quoted _ => "str"
  | ellipsis => "ellipsis"
  | any => "_AnyMeta"
  | sequence _ _ => "types.GenericAlias"
  | mapping _ _ _ => "types.GenericAlias"
  | tuple _ => "types.GenericAlias"
  | union _ _ => "types.UnionType"
  | _ => "type"

/-- The union of two types. Classes need not be members of a set; what is no type can only be
    joined to a form that is no class. -/
def either (a b : Annotation) : Except Failure Annotation :=
  let plain (c : Annotation) := isNoType c || isClassForm c
  if isClassForm a && isClassForm b then .ok (ofMembers true (membersOf a ++ membersOf b))
  else if plain a && plain b then .error (.notAlternatives a.formName b.formName)
  else unite [a, b]

/-- The union of types, joined one after the other. -/
def alternatives : List Annotation → Except Failure Annotation
  | [] => .error .noMembers
  | a :: rest => rest.foldlM either a

/-- A type with extras, after those that it has. -/
def annotate (extras : List Extra) (a : Annotation) : Except Failure Annotation := do
  if extras.isEmpty then throw .noExtras
  checkText a
  match a with
  | annotated a es => return annotated a (es ++ extras)
  | a => return annotated a extras

/-- Types inside a collection. A collection named like a class takes any. -/
def applied (head : String) (arguments : List Annotation) (form : Annotation) :
    Except Failure Annotation := do
  if head.toLower != head then arguments.forM checkInside
  return form

/-- A member of the class with a type, written as given. -/
def memberOf (form : String) (a : Annotation) : Except Failure Annotation := do
  checkInside a
  return classMember form

/-! ### Parts -/

/-- Whether the annotation is of a member of the class. -/
def isClassMember : Annotation → Bool
  | classMember _ => true
  | _ => false

/-- The extras of an annotated type. -/
def extras : Annotation → List Extra
  | annotated _ es => es
  | _ => []

/-- Whether the annotation is the null type. -/
def isNull (a : Annotation) : Bool :=
  match a with
  | builtin "null" => true
  | nothing => true
  | _ => false

/-! ### Inference -/

/-- The type if there is exactly one. -/
def onlyOne : List TypeInfo → Option TypeInfo
  | [t] => some t
  | _ => none

/-- The type that a built-in name stands for: two names of byte sequences stand for one. -/
def builtinType (name : String) : String := if name == "bytearray" then "bytes" else name

mutual

/-- The types that an annotation stands for; `nullable` if a union around it has null. -/
def infer (nullable : Bool) : Annotation → List TypeInfo
  | builtin name => [.scalar (builtinType name) nullable]
  | nothing => [.scalar "null" nullable]
  | object c => [.object c nullable]
  | generic c _ => [.object c nullable]
  | annotated a _ => infer nullable a
  | union _ ms => inferMembers (nullable || ms.any isNull) ms
  | mapping _ k v => [.array nullable (onlyOne (infer false k)) (onlyOne (infer false v))]
  | bareMapping _ => [.array nullable none none]
  | sequence _ a => [.array nullable (some (.scalar "int")) (onlyOne (infer false a))]
  | bareSequence _ => [.array nullable (some (.scalar "int")) none]
  | tuple [a] => [.array nullable (some (.scalar "int")) (onlyOne (infer false a))]
  | tuple [a, ellipsis] => [.array nullable (some (.scalar "int")) (onlyOne (infer false a))]
  | tuple _ => [.array nullable (some (.scalar "int")) none]
  | _ => []

/-- The types of the members of a union, null aside. -/
def inferMembers (nullable : Bool) : List Annotation → List TypeInfo
  | [] => []
  | a :: rest =>
    (if a.isNull then [] else infer nullable a) ++ inferMembers nullable rest

end

mutual

/-- The classes that inference meets, in order. -/
def classes : Annotation → List String
  | object c => [c]
  | generic c _ => [c]
  | annotated a _ => classes a
  | union _ ms => classesOf ms
  | mapping _ k v => classes k ++ classes v
  | sequence _ a => classes a
  | tuple [a] => classes a
  | tuple [a, ellipsis] => classes a
  | _ => []

/-- The classes that inference meets in several types. -/
def classesOf : List Annotation → List String
  | [] => []
  | a :: rest => classes a ++ classesOf rest

end

end Annotation

end ApiDoc
