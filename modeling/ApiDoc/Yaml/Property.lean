import ApiDoc.Yaml.Cursor

namespace ApiDoc.Yaml.Lexer

/-!
# Anchors, tags and directives

* `anchorName` — the name of an anchor or of an alias;
* `tag` — a tag: its handle, unless it is written out, and what follows the handle;
* `directive` — what a line that starts with a percent sign says about the document.
-/

/-- A character of a name. -/
def isNameChar (c : Char) : Bool :=
  ('0' ≤ c && c ≤ '9') || ('A' ≤ c && c ≤ 'Z') || ('a' ≤ c && c ≤ 'z') || c == '-' || c == '_'

/-- A character of the identifier that a tag is. -/
def isTagChar (c : Char) : Bool := isNameChar c || ";/?:@&=+$,.!~*'()[]%".toList.contains c

/-- A name with at least one character. -/
def name : Lexer String := do
  let cs ← takeWhile isNameChar
  require !cs.isEmpty
  return String.ofList cs

/-! ### Anchors -/

/-- The name of an anchor or an alias, after its sign. -/
def anchorName : Lexer String := do
  advance
  let s ← name
  let c ← peek
  require (isTokenEnd c || "?:,]\x7d%@\x60".toList.contains c)
  return s

/-! ### Tags -/

/-- The octets that a run of escapes writes. -/
def escapedOctets : (fuel : Nat) → Lexer (List Nat)
  | 0 => return []
  | fuel + 1 => do
    if (← peek) == '%' then
      advance
      let digits := ((← get).rest.take 2).filterMap (Numeral.digitIn? 16)
      require (digits.length == 2)
      advance 2
      return Numeral.value 16 digits :: (← escapedOctets fuel)
    else return []

/-- The characters that a run of escapes writes. -/
def escapedText : Lexer (List Char) := do
  match Text.ofOctets? (← escapedOctets (← fuel)) with
  | some cs => return cs
  | none => refuse

/-- Characters of a tag with escapes among them. -/
def tagChars : (fuel : Nat) → Lexer (List Char)
  | 0 => return []
  | fuel + 1 => do
    let run ← takeWhile fun c => isTagChar c && c != '%'
    if (← peek) == '%' then return run ++ (← escapedText) ++ (← tagChars fuel)
    else return run

/-- The text of a tag after its handle. It cannot be missing. -/
def tagText : Lexer String := do
  let start := (← get).index
  let cs ← tagChars (← fuel)
  require ((← get).index != start)
  return String.ofList cs

/-- A handle: one exclamation mark, or a name between two. -/
def tagHandle : Lexer String := do
  require ((← peek) == '!')
  advance
  if (← peek) == ' ' then return "!"
  else
    let cs ← takeWhile isNameChar
    require ((← peek) == '!')
    advance
    return String.ofList ('!' :: cs ++ ['!'])

/-- A tag: its handle, unless it is written out, and the text after the handle. -/
structure Tag where
  handle? : Option String
  text : String
deriving DecidableEq, Repr

/-- A tag. -/
def tag : Lexer Tag := do
  let c ← peek 1
  let t ← if c == '<' then do
      advance 2
      let text ← tagText
      require ((← peek) == '>')
      advance
      pure ⟨none, text⟩
    else if isTokenEnd c then do
      advance
      pure ⟨none, "!"⟩
    else do
      let word := ((← get).rest.drop 1).takeWhile fun c => !isWordEnd c
      let handle ← if word.contains '!' then tagHandle else do advance; pure "!"
      pure ⟨some handle, ← tagText⟩
  require (isWordEnd (← peek))
  return t

/-! ### Directives -/

/-- What a directive says: the version of the language, or what a handle stands for. -/
inductive Directive where
  | version (major : Int)
  | handle (name text : String)
  | other
deriving Repr

/-- A number of a version. -/
def versionNumber : Lexer Int := do
  let cs ← takeWhile fun c => '0' ≤ c && c ≤ '9'
  require !cs.isEmpty
  match Numeral.integer? 10 (String.ofList cs) with
  | .ok n => return n
  | .error e => throw (.noNumber e)

/-- The version that a directive gives. -/
def version : Lexer Directive := do
  let _ ← takeWhile (· == ' ')
  let major ← versionNumber
  require ((← peek) == '.')
  advance
  let _ ← versionNumber
  require (isWordEnd (← peek))
  return .version major

/-- The handle that a directive explains. -/
def handleDirective : Lexer Directive := do
  let _ ← takeWhile (· == ' ')
  let handle ← tagHandle
  require ((← peek) == ' ')
  let _ ← takeWhile (· == ' ')
  let text ← tagText
  require (isWordEnd (← peek))
  return .handle handle text

/-- A directive, from its percent sign to the end of its line. -/
def directive : Lexer Directive := do
  advance
  let s ← name
  require (isWordEnd (← peek))
  let d ← match s with
    | "YAML" => version
    | "TAG" => handleDirective
    | _ => do
      let _ ← takeWhile fun c => !isLineEnd c
      pure .other
  ignoredLine
  return d

end ApiDoc.Yaml.Lexer
