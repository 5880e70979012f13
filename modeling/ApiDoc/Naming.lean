import ApiDoc.Failure
import ApiDoc.Text.Case

namespace ApiDoc

/-!
# Naming strategies

How the name of a field becomes the name that a document exposes:

* `Naming` — the strategies;
* `Naming.translate` — the exposed name of a field.
-/

/-- A naming strategy. -/
inductive Naming where
  /-- The name of the field. -/
  | identical
  /-- The name with a separator before each capital after a small letter or a digit. -/
  | separated (separator : String) (lowerCase : Bool)
  /-- The serialized name where one is declared, otherwise as another strategy says. -/
  | serialized (fallback : Naming)
deriving Repr

namespace Naming

/-- A small letter or a digit, after which a capital starts a new word. -/
def endsWord (c : Char) : Bool := ('a' ≤ c && c ≤ 'z') || ('0' ≤ c && c ≤ '9')

/-- A capital letter. -/
def isCapital (c : Char) : Bool := 'A' ≤ c && c ≤ 'Z'

/-- Characters with the separator before each capital that starts a new word; `before` is
    the character in front of them. -/
def separate (separator : List Char) : (before : Option Char) → List Char → List Char
  | _, [] => []
  | before, c :: rest =>
    let c' := if isCapital c && before.any endsWord then separator ++ [c] else [c]
    c' ++ separate separator (some c) rest

/-- A text with the separator before each capital that starts a new word. -/
def separateText (separator : String) (lowerCase : Bool) (s : String) : String :=
  let t := String.ofList (separate separator.toList none s.toList)
  if lowerCase then Text.lower t else t

/-- The exposed name of a field, given its name and its serialized name. Only texts can be
    separated. -/
def translate (name serialized : Data) : Naming → Except Failure Data
  | identical => .ok name
  | separated separator lowerCase => match name with
    | .scalar (.str s) => .ok (.str (separateText separator lowerCase s))
    | v => .error (.notText v.ownerName)
  | Naming.serialized fallback => match serialized with
    | .scalar .null => translate name serialized fallback
    | v => .ok v

end Naming

end ApiDoc
