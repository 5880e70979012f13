import ApiDoc.Groups

namespace ApiDoc.JsonStyle

/-!
# Options of JSON text

* `ofOptions` — the layout that named options ask for: `indent`, `separators`, `ensure_ascii` and
  `sort_keys`.
-/

/-- The indentation that a value asks for: a text, or a count of blanks. -/
def indentOf : Data → Except Failure (Option String)
  | .scalar .null => .ok none
  | .scalar (.str s) => .ok (some s)
  | v => match v with
    | .scalar s => match s.integer? with
      | some n => .ok (some (String.ofList (List.replicate n.toNat ' ')))
      | none => .error (.unwritable (.indentation v.typeName))
    | _ => .error (.unwritable (.indentation v.typeName))

/-- The values given for the marks after items and after keys. -/
def markValues (indented : Bool) : Data → Except Failure (Data × Data)
  | .scalar .null => .ok (.str (if indented then "," else ", "), .str ": ")
  | v => match Groups.items v with
    | .ok [item, key] => .ok (item, key)
    | .ok vs => .error (.unwritable (.separators vs.length))
    | .error _ => .error (.unwritable (.noSeparators v.typeName))

/-- The mark that a value is, met at a place. -/
def markOf (place : MarkPlace) (v : Data) : Except Failure String :=
  match v.str? with
  | some s => .ok s
  | none => .error (.unwritable (.mark place v.typeName))

/-- The layout that named options ask for. -/
def ofOptions (options : Entries) : Except Failure JsonStyle := do
  let given (name : String) : Data := (options.text? name).getD .null
  let (item, key) ← markValues (given "indent" != .null) (given "separators")
  let indent ← indentOf (given "indent")
  let (itemMark, keyMark) ← match indent with
    | none => do
      let keyMark ← markOf .keyInLine key
      pure (← markOf .itemInLine item, keyMark)
    | some _ => do
      let itemMark ← markOf .itemAtLineEnd item
      pure (itemMark, ← markOf .keyBetweenLines key)
  return { indent := indent, itemMark := itemMark, keyMark := keyMark
           asciiOnly := ((options.text? "ensure_ascii").map (·.truthy)).getD true
           sortKeys := (given "sort_keys").truthy }

end ApiDoc.JsonStyle
