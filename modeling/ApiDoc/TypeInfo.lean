namespace ApiDoc

/-!
# Inferred types

* `TypeInfo` — what inference knows about the type of a property, or what a model is of;
* `TypeInfo.object` — the type of the objects of a class.
-/

/-- A type: the name of a built-in type, with the class of an object, and the types of the
    keys and values of a collection. -/
inductive TypeInfo where
  | mk (builtin : String) (nullable : Bool) (className? : Option String) (collection : Bool)
      (key? value? : Option TypeInfo)
deriving Repr

namespace TypeInfo

/-- The name of the built-in type. -/
def builtin : TypeInfo → String
  | mk b _ _ _ _ _ => b

/-- Whether null is a value of the type. -/
def nullable : TypeInfo → Bool
  | mk _ n _ _ _ _ => n

/-- The class of the objects of the type. -/
def className? : TypeInfo → Option String
  | mk _ _ c _ _ _ => c

/-- Whether the type is a collection. -/
def collection : TypeInfo → Bool
  | mk _ _ _ c _ _ => c

/-- The type of keys. -/
def key? : TypeInfo → Option TypeInfo
  | mk _ _ _ _ k _ => k

/-- The type of values. -/
def value? : TypeInfo → Option TypeInfo
  | mk _ _ _ _ _ v => v

/-- A built-in type that is no collection. -/
def scalar (builtin : String) (nullable : Bool := false) : TypeInfo :=
  mk builtin nullable none false none none

/-- The type of the objects of a class. -/
def object (className : String) (nullable : Bool := false) : TypeInfo :=
  mk "object" nullable (some className) false none none

/-- A collection with the types of its keys and values as far as they are known. -/
def array (nullable : Bool) (key? value? : Option TypeInfo) : TypeInfo :=
  mk "array" nullable none true key? value?

end TypeInfo

end ApiDoc
