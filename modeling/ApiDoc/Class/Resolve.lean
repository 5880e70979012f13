import ApiDoc.Class.Expression
import ApiDoc.Class.Table

namespace ApiDoc.ClassTable

/-!
# Resolving names of classes

* `resolve` — the class that a full name stands for, given the classes met so far: a class
  that is attached to nothing is known by name only once it has been met;
* `evaluate?` — the type that an expression in quotes stands for inside a class.
-/

/-- Whether a class is the attribute `part` of the class `c`. -/
def isNestedIn (c : ClassInfo) (part : String) (d : ClassInfo) : Bool :=
  !d.decl.isLocal && d.decl.module == c.decl.module && d.decl.name == c.decl.name ++ "." ++ part

/-- Whether the class has an attribute of its own that is no class. -/
def hasOwnValue (c : ClassInfo) (part : String) : Bool :=
  c.decl.attributes.any (·.1 == part) || c.decl.members.any (·.1 == part)

/-- The class that is an attribute of a class or of one of its bases. -/
def nested? (t : ClassTable) (c : ClassInfo) (part : String) : Option ClassInfo :=
  let found := (lineage t c.name).findSome? fun b =>
    match t.reverse.find? (isNestedIn b part) with
    | some d => some (some d)
    | none => if hasOwnValue b part then some none else none
  found.getD none

/-- The class attached to a module under a name. -/
def topLevel? (t : ClassTable) (module name : String) : Option ClassInfo :=
  t.reverse.find? fun c => !c.decl.isLocal && c.decl.module == module && c.decl.name == name

/-- The class at the end of a way through attributes. -/
def follow? (t : ClassTable) (c : ClassInfo) : List (List Char) → Option ClassInfo
  | [] => some c
  | part :: rest => (nested? t c (String.ofList part)).bind fun d => follow? t d rest

/-- Whether a module has the name: it holds a class, or a module that does. -/
def isModule (t : ClassTable) (module : String) : Bool :=
  t.any fun c => c.decl.module == module || c.decl.module.startsWith (module ++ ".")

/-- The class that parts of a name lead to from a module: the longest module name decides. -/
def fromModule? (t : ClassTable) (parts : List (List Char)) : Nat → Option ClassInfo
  | 0 => none
  | n + 1 =>
    let module := String.ofList (['.'].intercalate (parts.take (n + 1)))
    if isModule t module then
      match parts.drop (n + 1) with
      | [] => none
      | name :: rest => (topLevel? t module (String.ofList name)).bind fun c => follow? t c rest
    else fromModule? t parts n

/-- The class that a full name stands for; none if there is none. A name that starts with a
    dot names a module relative to nothing. -/
def resolve (t : ClassTable) (met : List String) (name : String) :
    Except Failure (Option String) :=
  if met.contains name then .ok (some name)
  else
    let parts := splitDots name.toList
    match parts with
    | [] :: _ :: _ =>
      let module := String.ofList (['.'].intercalate parts.dropLast)
      .error (if module.isEmpty then .emptyModule else .relativeModule module)
    | _ =>
      if (standardClasses.lookup name).isSome then .ok (some name)
      else .ok ((fromModule? t parts (parts.length - 1)).map (·.name))

/-! ### Expressions -/

/-- Further classes that are known everywhere. -/
def builtinClasses : List String :=
  ["ArithmeticError", "AssertionError", "AttributeError", "BaseException", "BaseExceptionGroup",
   "BlockingIOError", "BrokenPipeError", "BufferError", "BytesWarning", "ChildProcessError",
   "ConnectionAbortedError", "ConnectionError", "ConnectionRefusedError", "ConnectionResetError",
   "DeprecationWarning", "EOFError", "EncodingWarning", "Exception", "ExceptionGroup",
   "FileExistsError", "FileNotFoundError", "FloatingPointError", "FutureWarning", "GeneratorExit",
   "ImportError", "ImportWarning", "IndentationError", "IndexError", "InterruptedError",
   "IsADirectoryError", "KeyError", "KeyboardInterrupt", "LookupError", "MemoryError",
   "ModuleNotFoundError", "NameError", "NotADirectoryError", "NotImplementedError", "OSError",
   "OverflowError", "PendingDeprecationWarning", "PermissionError", "ProcessLookupError",
   "RecursionError", "ReferenceError", "ResourceWarning", "RuntimeError", "RuntimeWarning",
   "StopAsyncIteration", "StopIteration", "SyntaxError", "SyntaxWarning", "SystemError",
   "SystemExit", "TabError", "TimeoutError", "TypeError", "UnboundLocalError",
   "UnicodeDecodeError", "UnicodeEncodeError", "UnicodeError", "UnicodeTranslateError",
   "UnicodeWarning", "UserWarning", "ValueError", "Warning", "ZeroDivisionError", "classmethod",
   "enumerate", "filter", "map", "memoryview", "property", "range", "reversed", "slice",
   "staticmethod", "super", "type", "zip"]

/-- What else is known everywhere: values that are no types. -/
def builtinValues : List String :=
  ["NotImplemented", "abs", "aiter", "all", "anext", "any", "ascii", "bin", "breakpoint",
   "callable", "chr", "compile", "copyright", "credits", "delattr", "dir", "divmod", "eval",
   "exec", "exit", "format", "getattr", "globals", "hasattr", "hash", "help", "hex", "id",
   "input", "isinstance", "issubclass", "iter", "len", "license", "locals", "max", "min", "next",
   "oct", "open", "ord", "pow", "print", "quit", "repr", "round", "setattr", "sorted", "sum",
   "vars"]

/-- The types that are known everywhere. -/
def builtins : List (String × Annotation) :=
  [("int", .builtin "int"), ("str", .builtin "string"), ("bool", .builtin "bool"),
   ("float", .builtin "float"), ("bytes", .builtin "bytes"), ("bytearray", .builtin "bytearray"),
   ("complex", .builtin "complex"), ("list", .bareSequence "list"), ("set", .bareSequence "set"),
   ("frozenset", .bareSequence "frozenset"), ("tuple", .bareSequence "tuple"),
   ("dict", .bareMapping "dict"), ("object", .object rootClass), ("Ellipsis", .ellipsis),
   ("IOError", .object "builtins.OSError"), ("EnvironmentError", .object "builtins.OSError")]

/-- What a name that is known everywhere stands for. -/
def builtin? (name : String) : Option Annotation :=
  builtins.lookup name
    <|> (if builtinClasses.contains name then some (.object ("builtins." ++ name)) else none)
    <|> (if builtinValues.contains name then some (.mute "") else none)

/-- The value of an attribute in place of a type: only null stands for one. -/
def ofAttribute : Data → Annotation
  | .scalar .null => .nothing
  | _ => .mute ""

/-- What a class itself has under a name. -/
def ownAttribute? (t : ClassTable) (c : ClassInfo) (name : String) : Option Annotation :=
  match t.reverse.find? (isNestedIn c name) with
  | some d => some (.object d.name)
  | none => match c.decl.attributes.reverse.lookup name with
    | some v => some (ofAttribute v)
    | none => if c.decl.members.any (·.1 == name) then some (.mute "") else none

/-- What a name stands for inside a class: an attribute of it, a class of its module, or a
    type that is known everywhere. -/
def lookup? (t : ClassTable) (c : ClassInfo) (name : String) : Option Annotation :=
  (ownAttribute? t c name
    <|> (topLevel? t c.decl.module name).map fun d => .object d.name)
    <|> builtin? name

/-- What a type has under a name: only declared classes have anything. -/
def attribute? (t : ClassTable) (name : String) : Annotation → Option Annotation
  | .object c => (lineage t c).findSome? fun b => ownAttribute? t b name
  | _ => none

/-- A type with arguments in brackets. -/
def applied? (t : ClassTable) (args : List Annotation) : Annotation → Option Annotation
  | .bareSequence "tuple" => some (.tuple args)
  | .bareSequence h => match args with
    | [] => some (.bareSequence h)
    | a :: _ => some (.sequence h a)
  | .bareMapping h => match args with
    | [] => some (.bareMapping h)
    | [k] => some (.mapping h k (.mute ""))
    | k :: v :: _ => some (.mapping h k v)
  | .object c =>
    if c == "builtins.type" then some (.object c)
    else (find? t c).bind fun d =>
      if d.decl.isGeneric && args.length == 1 then some (.generic c args) else none
  | _ => none

/-- Whether a type can be an alternative of another. -/
def isAlternative : Annotation → Bool
  | .mute _ => false
  | .ellipsis => false
  | _ => true

/-- One of two types, of which one at least is not null. -/
def oneOf? (a b : Annotation) : Option Annotation :=
  if isAlternative a && isAlternative b && !(a.same .nothing && b.same .nothing) then
    (a.either b).toOption
  else none

mutual

/-- The type that an expression stands for inside a class. -/
def valueOf? (t : ClassTable) (c : ClassInfo) : Expression → Option Annotation
  | .name s => lookup? t c s
  | .attr e s => (valueOf? t c e).bind (attribute? t s)
  | .index e args => do applied? t (← valuesOf? t c args) (← valueOf? t c e)
  | .either e f => do oneOf? (← valueOf? t c e) (← valueOf? t c f)
  | .nothing => some .nothing
  | .ellipsis => some .ellipsis
  | .constant => some (.mute "")

/-- The types that expressions stand for inside a class. -/
def valuesOf? (t : ClassTable) (c : ClassInfo) : List Expression → Option (List Annotation)
  | [] => some []
  | e :: es => do return (← valueOf? t c e) :: (← valuesOf? t c es)

end

/-- The type that an expression in quotes stands for inside a class. -/
def evaluate? (t : ClassTable) (c : ClassInfo) (text : String) : Option Annotation :=
  (Expression.parse? text).bind (valueOf? t c)

end ApiDoc.ClassTable
