import ApiDoc.Data.Basic
import ApiDoc.Data.Sorting
import ApiDoc.Number.Numeral
import ApiDoc.Text.Units

namespace ApiDoc

/-!
# JSON text

* `JsonStyle` — separators, indentation, escapes and order of keys;
* `Data.json` — a value as JSON text, or what stands in the way;
* `jsonString` — a text as a JSON string.
-/

/-- How JSON text is laid out. With an indentation every item has a line of its own. -/
structure JsonStyle where
  indent : Option String := none
  itemMark : String := ", "
  keyMark : String := ": "
  asciiOnly : Bool := true
  sortKeys : Bool := false
deriving Repr

/-- Where a separator that is no text is met: inside a line or before the end of one. -/
inductive MarkPlace where
  | itemInLine
  | keyInLine
  | itemAtLineEnd
  | keyBetweenLines
deriving DecidableEq, Repr

/-- Why a value has no JSON text. -/
inductive Unwritable where
  | value (typeName : String)
  | key (typeName : String)
  | order (pair : Unordered)
  | digits (cause : NumeralError)
  /-- A container inside itself. -/
  | circular
  /-- An indentation that is neither a text nor a count of blanks. -/
  | indentation (typeName : String)
  /-- More or fewer than two separators. -/
  | separators (count : Nat)
  /-- Separators without items. -/
  | noSeparators (typeName : String)
  /-- A separator that is no text. -/
  | mark (place : MarkPlace) (typeName : String)
deriving DecidableEq, Repr

/-- The escaped form of one character of a JSON string. -/
def jsonChar (asciiOnly : Bool) (c : Char) : List Char :=
  if c == '"' || c == '\\' then ['\\', c]
  else if c == '\n' then ['\\', 'n']
  else if c == '\r' then ['\\', 'r']
  else if c == '\t' then ['\\', 't']
  else if c.toNat == 8 then ['\\', 'b']
  else if c.toNat == 12 then ['\\', 'f']
  else if c.toNat < 0x20 || (asciiOnly && c.toNat > 0x7e) then
    (Text.units16 c).flatMap fun n => '\\' :: 'u' :: Text.hex 4 n
  else [c]

/-- A text as a JSON string. -/
def jsonString (asciiOnly : Bool) (s : String) : String :=
  .ofList ('"' :: s.toList.flatMap (jsonChar asciiOnly) ++ ['"'])

/-- How JSON text writes a number. -/
def jsonNumber : NumberStyle where
  nan := "NaN"
  infinity := "Infinity"
  negativeInfinity := "-Infinity"

/-- An integer as JSON text. -/
def jsonInteger (n : Int) : Except Unwritable String := (Numeral.text? n).mapError .digits

/-- A scalar as JSON text. -/
def Scalar.json (style : JsonStyle) : Scalar → Except Unwritable String
  | .null => .ok "null"
  | .bool b => .ok (if b then "true" else "false")
  | .int n => jsonInteger n
  | .float x => .ok (x.text jsonNumber)
  | .str s => .ok (jsonString style.asciiOnly s)
  | s => .error (.value s.typeName)

/-- The text that stands for a key. Where nothing is indented, a failure names the type with
    what it belongs to. -/
def Data.jsonKey? (style : JsonStyle) : Data → Except Unwritable String
  | .scalar .null => .ok "null"
  | .scalar (.bool b) => .ok (if b then "true" else "false")
  | .scalar (.int n) => jsonInteger n
  | .scalar (.float x) => .ok (x.text jsonNumber)
  | .scalar (.str s) => .ok s
  | k => .error (.key (if style.indent.isNone then k.ownerName else k.typeName))

namespace JsonStyle

/-- The start of a line at a depth; nothing without an indentation. -/
def lineStart (style : JsonStyle) (depth : Nat) : String :=
  match style.indent with
  | none => ""
  | some unit => "\n" ++ String.join (List.replicate depth unit)

/-- The parts of a container between its brackets. -/
def enclose (style : JsonStyle) (depth : Nat) (opening closing : String) (parts : List String) :
    String :=
  if parts.isEmpty then opening ++ closing
  else opening ++ style.lineStart (depth + 1)
    ++ (style.itemMark ++ style.lineStart (depth + 1)).intercalate parts
    ++ style.lineStart depth ++ closing

/-- The entries in the order in which they are written. -/
def arrange {α : Type} (style : JsonStyle) (es : List (Data × α)) :
    Except Unwritable (List (Data × α)) :=
  if style.sortKeys then (sortByKey es).mapError .order else .ok es

end JsonStyle

namespace Data

/-- The marks of the containers around the parts of a container. -/
def enter (around : List Nat) (mark : Nat) : Except Unwritable (List Nat) :=
  if mark == 0 then .ok around
  else if around.contains mark then .error .circular
  else .ok (mark :: around)

mutual

/-- A value as JSON text inside containers with the marks given. -/
def jsonAt (style : JsonStyle) (depth : Nat) (around : List Nat) :
    Data → Except Unwritable String
  | .scalar s => s.json style
  | .list [] _ => .ok "[]"
  | .list (x :: xs) mark => do
    let around ← enter around mark
    return style.enclose depth "[" "]" (← jsonItems style (depth + 1) around (x :: xs))
  | .tuple [] _ => .ok "[]"
  | .tuple (x :: xs) mark => do
    let around ← enter around mark
    return style.enclose depth "[" "]" (← jsonItems style (depth + 1) around (x :: xs))
  | .map [] _ => .ok "\x7b\x7d"
  | .map (e :: es) mark => do
    let around ← enter around mark
    let written ← style.arrange (jsonEntries style (depth + 1) around (e :: es))
    return style.enclose depth "\x7b" "\x7d" (← written.mapM (·.2))
  | v => .error (.value v.typeName)

/-- Items as JSON text. -/
def jsonItems (style : JsonStyle) (depth : Nat) (around : List Nat) :
    List Data → Except Unwritable (List String)
  | [] => .ok []
  | x :: xs => do
    return (← jsonAt style depth around x) :: (← jsonItems style depth around xs)

/-- Entries as JSON text, each under its key. -/
def jsonEntries (style : JsonStyle) (depth : Nat) (around : List Nat) :
    List (Data × Data) → List (Data × Except Unwritable String)
  | [] => []
  | (k, v) :: rest =>
    let text := do
      let key ← k.jsonKey? style
      return jsonString style.asciiOnly key ++ style.keyMark ++ (← jsonAt style depth around v)
    (k, text) :: jsonEntries style depth around rest

end

/-- A value as JSON text. -/
def json (style : JsonStyle) (v : Data) : Except Unwritable String := v.jsonAt style 0 []

end Data

end ApiDoc
