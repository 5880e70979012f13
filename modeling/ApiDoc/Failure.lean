import ApiDoc.Data.Json
import ApiDoc.Document.Kind
import ApiDoc.TypeExpr.Parser

namespace ApiDoc

/-!
# Failures

Every way in which an operation of the library can fail:

* `Failure` — the causes;
* `Rejection` — why a merge does not take a key;
* `Failure.message` — the text about each cause.
-/

/-- The role of a slot for child nodes. -/
inductive SlotRole where
  | singular
  | collection
  | indexed
deriving DecidableEq, Repr

/-- Why a merge does not take the value under a key. -/
inductive Rejection where
  | notObject (typeName : String)
  | notMapping (typeName : String)
  | notList (typeName : String)
  | undeclared
deriving DecidableEq, Repr

/-- Why arguments make no member of an enumeration of integers or texts. -/
inductive MemberError where
  | notInteger (typeName : String)
  | missingNumber
  | infinite
  | baseForNumber
  | baseRange
  | notIndex (typeName : String)
  | integerArguments (count : Nat)
  | decodesText
  | decodesOther (typeName : String)
  | notEncoding (position : String) (typeName : String)
  | textArguments (count : Nat)
deriving DecidableEq, Repr

/-- The cause of a failure. -/
inductive Failure where
  /-- A kind of child that the parent has no slot of this role for. -/
  | notChild (role : SlotRole) (kind parent : Kind) (location : String)
  /-- Slots given as fields of a new child. -/
  | nestedFields (names : List String) (kind : Kind)
  /-- A text that is no HTTP method. -/
  | unknownMethod (method : Data)
  /-- A key that a merge does not take. -/
  | rejected (key : String) (kind : Kind) (location : String) (why : Rejection)
  /-- A value merged as the content of a node that is no mapping. -/
  | notContent (typeName : String)
  /-- A merge source that is neither node nor mapping. -/
  | notSource (typeName : String) (kind : Kind)
  /-- A name that a kind of node has no field or slot for. -/
  | noField (kind : Kind) (name : String)
  /-- A name reserved for the node itself. -/
  | hiddenField (name : String)
  /-- A name of an attribute that is no text. -/
  | noName (typeName : String)
  /-- A field of an override under a key that is no text. -/
  | namelessField
  /-- An operation that values of a type do not have. -/
  | noAttribute (owner name : String)
  /-- A value without items. -/
  | notIterable (typeName : String)
  /-- A value that holds no other values. -/
  | notContainer (typeName : String)
  /-- A value that is no text where a pattern is looked for. -/
  | notText (typeName : String)
  /-- Octets where a text is looked for at the front. -/
  | octetFront
  /-- A value without entries that can be set. -/
  | notAssignable (typeName : String)
  /-- A position that is no number. -/
  | noPosition (typeName : String)
  /-- A position outside a value. -/
  | outOfRange (typeName : String)
  /-- A key without a value. -/
  | noKey (key : Data)
  /-- A value that can be no key and no member of a set. -/
  | unhashable (typeName : String)
  /-- An item that is no pair of key and value. -/
  | notPair (index : Nat)
  /-- An item that is longer or shorter than a pair of key and value. -/
  | pairLength (index length : Nat)
  /-- A value without JSON text. -/
  | unwritable (cause : Unwritable)
  /-- A document that is no YAML, or that YAML cannot hold. -/
  | malformedYaml
  /-- A code point beyond the last one; beyond the machine's integers too, if `huge` holds. -/
  | noCharacter (huge : Bool)
  /-- A moment that does not exist. -/
  | noMoment (cause : MomentError)
  /-- A text that is no number, or a number without a text. -/
  | noNumber (cause : NumeralError)
  /-- Arguments that make no integer or no text. -/
  | noMember (cause : MemberError)
  /-- A text inside a type that is no expression. -/
  | notExpression (text : String)
  /-- A form that is no type inside another. -/
  | notInsideType (form : String)
  /-- A union without members. -/
  | noMembers
  /-- Values of types that cannot be alternatives of each other. -/
  | notAlternatives (left right : String)
  /-- An annotated type without anything attached. -/
  | noExtras
  /-- A class that takes no types in brackets; `inherited` if a base of it does. -/
  | notGeneric (className shortName : String) (inherited : Bool)
  /-- A class with more or fewer types in brackets than one. -/
  | argumentCount (className : String) (count : Nat)
  /-- A name in underscores, which no member of an enumeration can have. -/
  | reservedMember (name : String)
  /-- A member of an enumeration given twice, with its first value. -/
  | repeatedMember (name : String) (value : Data)
  /-- A name that no member of an enumeration can have. -/
  | badMember (name : String)
  /-- Bases of a class without a common order. -/
  | noOrder (bases : List String)
  /-- A base of a class given twice. -/
  | repeatedBase (name : String)
  /-- A name that is no kind of node. -/
  | unknownKind (kind : Data)
  /-- A text that is no type expression. -/
  | typeSyntax (text : String) (cause : TypeSyntaxError)
  /-- A class without metadata. -/
  | noMetadata (className : String)
  /-- A name that is no class. -/
  | noClass (className : String)
  /-- A name that is no property of a class. -/
  | noProperty (owner name : String)
  /-- A property without inferred type. -/
  | untyped (className property : String)
  /-- A collection without inferred type of its items. -/
  | untypedItems (className property : String)
  /-- A property with several inferred types. -/
  | ambiguous (className property : String)
  /-- A property of a type that documents cannot express. -/
  | unsupported (className property builtin : String)
  /-- A model that no describer takes. -/
  | noDescriber (className : Option String)
  /-- A describer that needs a registry and has none. -/
  | unattached (describer : String)
  /-- A reference to a model where there is no registry. -/
  | noRegistry
  /-- External documentation that is no mapping. -/
  | notDocument (typeName : String)
  /-- A class name that starts with a dot, where the module name is empty. -/
  | emptyModule
  /-- A class name that starts with a dot, where the module name is relative. -/
  | relativeModule (module : String)
  /-- A logging level that is a text but no level. -/
  | unknownLevel (level : String)
  /-- A logging level that is neither a number nor a text, as messages show it. -/
  | notLevel (shown : String)
  /-- Fields that do not take the values given to them, each with the reason. -/
  | invalid (fields : List (String × String))
  /-- More steps than allowed. -/
  | outOfFuel
deriving Repr

/-- The reason that a message about a rejected key gives. -/
def Rejection.reason : Rejection → String
  | notObject t => "expected an object, got " ++ t
  | notMapping t => "expected a mapping, got " ++ t
  | notList t => "expected a list, got " ++ t
  | undeclared => "not declared for this node kind"

/-- A role with its article. -/
def SlotRole.phrase : SlotRole → String
  | singular => "a singular"
  | collection => "a collection"
  | indexed => "an indexed"

/-- The message about a key that a merge does not take. -/
def rejectionMessage (key : String) (kind : Kind) (location : String) (why : Rejection) : String :=
  "Cannot merge " ++ Text.quoted key ++ " into " ++ kind.name ++ " at " ++ location ++ ": "
    ++ why.reason ++ "."

/-- The message about a separator that is no text. -/
def MarkPlace.message (t : String) : MarkPlace → String
  | keyInLine => "make_encoder() argument 5 must be str, not " ++ shortName
  | itemInLine => "make_encoder() argument 6 must be str, not " ++ shortName
  | keyBetweenLines => "sequence item 3: expected str instance, " ++ t ++ " found"
  | itemAtLineEnd =>
    if t == "list" || t == "tuple" then
      "can only concatenate " ++ t ++ " (not \"str\") to " ++ t
    else "unsupported operand type(s) for +: '" ++ t ++ "' and 'str'"
where
  shortName := if t == "NoneType" then "None" else t

/-- The message about a value without JSON text. -/
def Unwritable.message : Unwritable → String
  | value t => "Object of type " ++ t ++ " is not JSON serializable"
  | key t => "keys must be str, int, float, bool or None, not " ++ t
  | order (.types left right) =>
    "'<' not supported between instances of '" ++ left ++ "' and '" ++ right ++ "'"
  | order .clocks => "can't compare datetime.datetime to datetime.date"
  | order .offsets => "can't compare offset-naive and offset-aware datetimes"
  | digits cause => cause.message
  | circular => "Circular reference detected"
  | indentation t => "can't multiply sequence by non-int of type '" ++ t ++ "'"
  | separators n =>
    if n < 2 then "not enough values to unpack (expected 2, got " ++ toString n ++ ")"
    else "too many values to unpack (expected 2)"
  | noSeparators t => "cannot unpack non-iterable " ++ t ++ " object"
  | mark place t => place.message t

/-- The message about arguments that make no member. -/
def MemberError.message : MemberError → String
  | notInteger t =>
    "int() argument must be a string, a bytes-like object or a real number, not '" ++ t ++ "'"
  | missingNumber => "cannot convert float NaN to integer"
  | infinite => "cannot convert float infinity to integer"
  | baseForNumber => "int() can't convert non-string with explicit base"
  | baseRange => "int() base must be >= 2 and <= 36, or 0"
  | notIndex t => "'" ++ t ++ "' object cannot be interpreted as an integer"
  | integerArguments n => "int() takes at most 2 arguments (" ++ toString n ++ " given)"
  | decodesText => "decoding str is not supported"
  | decodesOther t => "decoding to str: need a bytes-like object, " ++ t ++ " found"
  | notEncoding position t => "str() argument '" ++ position ++ "' must be str, not " ++ t
  | textArguments n => "str() takes at most 3 arguments (" ++ toString n ++ " given)"

/-- The text about a cause. -/
def Failure.message : Failure → String
  | notChild role kind parent location =>
    kind.name ++ " is not " ++ role.phrase ++ " child of " ++ parent.name
      ++ " (" ++ location ++ ")."
  | nestedFields names kind =>
    "Nesting nodes through properties is not supported: "
      ++ (Data.ofList (names.map Data.str)).literal ++ " are child slots of " ++ kind.name ++ "."
  | unknownMethod method => "Unknown HTTP method " ++ method.literal ++ "."
  | rejected key kind location why => rejectionMessage key kind location why
  | notContent t => "Cannot merge " ++ t ++ " as a node."
  | notSource t kind => "Cannot merge " ++ t ++ " into " ++ kind.name ++ "."
  | noField kind name => kind.name ++ " has no field " ++ Text.quoted name
  | hiddenField name => name
  | noName t => "attribute name must be string, not '" ++ t ++ "'"
  | namelessField => "keywords must be strings"
  | noAttribute owner name => "'" ++ owner ++ "' object has no attribute '" ++ name ++ "'"
  | notIterable t => "'" ++ t ++ "' object is not iterable"
  | notContainer t => "argument of type '" ++ t ++ "' is not iterable"
  | notText t => "expected string or bytes-like object, got '" ++ t ++ "'"
  | octetFront => "startswith first arg must be bytes or a tuple of bytes, not str"
  | notAssignable t => "'" ++ t ++ "' object does not support item assignment"
  | noPosition t => t ++ " indices must be integers or slices, not str"
  | outOfRange t => t ++ " index out of range"
  | noKey key => key.literal
  | unhashable t => "unhashable type: '" ++ t ++ "'"
  | notPair i =>
    "cannot convert dictionary update sequence element #" ++ toString i ++ " to a sequence"
  | pairLength i n =>
    "dictionary update sequence element #" ++ toString i ++ " has length " ++ toString n
      ++ "; 2 is required"
  | unwritable cause => cause.message
  | malformedYaml => ""
  | noCharacter false => "chr() arg not in range(0x110000)"
  | noCharacter true => "Python int too large to convert to C int"
  | noMoment cause => cause.message
  | noNumber cause => cause.message
  | noMember cause => cause.message
  | notExpression text =>
    "Forward reference must be an expression -- got " ++ Text.quoted text
  | notInsideType form => form ++ " is not valid as type argument"
  | noMembers => "Cannot take a Union of no types."
  | notAlternatives left right =>
    "unsupported operand type(s) for |: '" ++ left ++ "' and '" ++ right ++ "'"
  | noExtras =>
    "Annotated[...] should be used with at least two arguments (a type and an annotation)."
  | notGeneric className _ true => "<class '" ++ className ++ "'> is not a generic class"
  | notGeneric _ shortName false => "type '" ++ shortName ++ "' is not subscriptable"
  | argumentCount className count =>
    "Too " ++ (if 1 < count then "many" else "few") ++ " arguments for <class '" ++ className
      ++ "'>; actual " ++ toString count ++ ", expected 1"
  | reservedMember name =>
    "_sunder_ names, such as " ++ Text.quoted name ++ ", are reserved for future Enum use"
  | repeatedMember name v => Text.quoted name ++ " already defined as " ++ v.literal
  | badMember name => "invalid enum member name(s) " ++ Text.quoted name
  | noOrder bases =>
    "Cannot create a consistent method resolution\norder (MRO) for bases " ++ ", ".intercalate bases
  | repeatedBase name => "duplicate base class " ++ name
  | unknownKind kind => kind.literal ++ " is not a valid NodeKind"
  | typeSyntax text cause => cause.message text
  | noMetadata c => "No metadata found for class " ++ c ++ "."
  | noClass c => "Class " ++ c ++ " does not exist."
  | noProperty owner name => "Property " ++ owner ++ "." ++ name ++ " does not exist."
  | untyped c p =>
    "Could not infer the type of " ++ c ++ "." ++ p ++ ". Annotate it with a supported type or use "
      ++ "OpenApiProperty(type=...) to make its type explicit."
  | untypedItems c p =>
    "Property " ++ c ++ "." ++ p ++ " is a collection, but its item type isn't specified. "
      ++ "Use list[str] for instance, or "
      ++ "OpenApiProperty(type=\"array\", items=\x7b\"type\": \"string\"\x7d)."
  | ambiguous c p =>
    "Property " ++ c ++ "." ++ p ++ " defines more than one type. Use "
      ++ "OpenApiProperty(type=...) to choose the one that should be documented."
  | unsupported c p b =>
    "Type \"" ++ b ++ "\" is not supported in " ++ c ++ "." ++ p ++ ". "
      ++ "Use OpenApiProperty(type=...) to specify it manually."
  | noDescriber c =>
    "Schema of type " ++ (match c with
      | some c => Text.quoted c
      | none => "None") ++ " can't be generated, no describer supports it."
  | unattached d => d ++ " is not attached to a model registry."
  | noRegistry => "Resolving a ModelRef requires a model registry."
  | notDocument t => "External documentation must be a mapping, got " ++ t ++ "."
  | emptyModule => "Empty module name"
  | relativeModule m =>
    "the 'package' argument is required to perform a relative import for " ++ Text.quoted m
  | unknownLevel l => "Unknown level: " ++ Text.quoted l
  | notLevel shown => "Level not an integer or a valid string: " ++ shown
  | invalid _ => ""
  | outOfFuel => "maximum recursion depth exceeded"

end ApiDoc
