import ApiDoc.Yaml.Property
import ApiDoc.Yaml.ScalarText

namespace ApiDoc.Yaml

/-!
# Tokens

* `Token` — the signs and scalars of a document, with the starts and ends that indentation
  stands for;
* `Tokens.ofText` — the tokens of a text, and the failure at which they end, if one does.

What stands before a colon is only known to be a key when the colon is reached. Up to then a
token can turn out to be the start of a key, and of the mapping that the key begins; such
tokens are held back, and are not among those before a failure.
-/

/-- A token. -/
inductive Token where
  | directive (d : Lexer.Directive)
  | documentStart
  | documentEnd
  | streamEnd
  | blockSequence
  | blockMapping
  | blockEnd
  | flowSequence
  | flowMapping
  | flowSequenceEnd
  | flowMappingEnd
  | flowEntry
  | blockEntry
  | key
  | value
  | reference (name : String)
  | anchor (name : String)
  | tag (t : Lexer.Tag)
  | scalar (plain : Bool) (text : String)
deriving Repr, Inhabited

/-- A token that may be the start of a key: its number and its place. In block context a key at
    the indentation must be one. -/
structure PossibleKey where
  token : Nat
  required : Bool
  index : Nat
  line : Nat
  column : Nat
deriving Repr

/-- Tokens found so far, and what the next one depends on. -/
structure Tokens where
  cursor : Cursor
  found : Array Token := #[]
  /-- By the depth of brackets, the last token that may be the start of a key. -/
  keys : List (Int × PossibleKey) := []
  /-- The indentations of open block collections, innermost first. -/
  indents : List Int := []
  flowDepth : Int := 0
  keyAllowed : Bool := true
  ended : Bool := false
deriving Inhabited

namespace Tokens

/-- A computation that finds tokens. -/
abbrev Finder := EStateM Failure Tokens

/-- A lexer at the cursor. -/
def lex {α : Type} (act : Lexer α) : Finder α := do
  match act (← get).cursor with
  | .ok a c => do modify fun s => { s with cursor := c }; return a
  | .error e _ => throw e

/-- The text is no YAML unless a condition holds. -/
def require (condition : Bool) : Finder Unit :=
  if condition then pure () else throw .malformedYaml

/-- The innermost indentation. -/
def indent (s : Tokens) : Int := s.indents.headD (-1)

/-- Whether brackets are open. -/
def inFlow (s : Tokens) : Bool := s.flowDepth != 0

/-- A token found. -/
def push (t : Token) : Finder Unit := modify fun s => { s with found := s.found.push t }

/-- A token found to have been at a position. -/
def insertAt (i : Nat) (t : Token) : Finder Unit :=
  modify fun s => { s with
    found := (s.found.extract 0 i).push t ++ s.found.extract i s.found.size }

/-- Whether the next token may be the start of a key. -/
def allowKey (allowed : Bool) : Finder Unit := modify fun s => { s with keyAllowed := allowed }

/-! ### Indentation -/

/-- Block collections closed that are indented deeper than a column. -/
def unwind (column : Int) : Finder Unit := do
  let s ← get
  if !s.inFlow then
    let closed := s.indents.takeWhile (column < ·)
    set { s with
      indents := s.indents.drop closed.length
      found := s.found ++ Array.replicate closed.length Token.blockEnd }

/-- A block collection opened at a column that is deeper than the innermost indentation; false
    if it is not. -/
def openAt (column : Nat) : Finder Bool := do
  let s ← get
  if s.indent < column then
    set { s with indents := (column : Int) :: s.indents }
    return true
  else return false

/-! ### Possible keys -/

/-- Whether a token can no longer be the start of a key at a place: a key ends on its line, and
    within 1024 characters. -/
def PossibleKey.isStale (k : PossibleKey) (c : Cursor) : Bool :=
  k.line != c.line || c.index - k.index > 1024

/-- Tokens that can no longer be starts of keys given up. -/
def dropStale : Finder Unit := do
  let s ← get
  let stale := s.keys.filter fun k => PossibleKey.isStale k.2 s.cursor
  require !(stale.any fun k => k.2.required)
  set { s with keys := s.keys.filter fun k => !PossibleKey.isStale k.2 s.cursor }

/-- The token at the present depth of brackets given up. -/
def dropKey : Finder Unit := do
  let s ← get
  require !((s.keys.lookup s.flowDepth).any (·.required))
  set { s with keys := s.keys.filter fun k => k.1 != s.flowDepth }

/-- The next token noted as the possible start of a key. -/
def noteKey : Finder Unit := do
  let s ← get
  if s.keyAllowed then
    dropKey
    let key : PossibleKey :=
      { token := s.found.size
        required := !s.inFlow && s.indent == s.cursor.column
        index := s.cursor.index
        line := s.cursor.line
        column := s.cursor.column }
    modify fun s => { s with keys := (s.flowDepth, key) :: s.keys }

/-! ### Single tokens -/

/-- A token of so many characters. -/
def sign (t : Token) (length : Nat := 1) : Finder Unit := do
  lex (Lexer.advance length)
  push t

/-- The end of the text. -/
def streamEnd : Finder Unit := do
  unwind (-1)
  dropKey
  modify fun s => { s with keys := [], keyAllowed := false, ended := true }
  push .streamEnd

/-- A directive, or the mark of a document's start or end. -/
def documentToken (t : Lexer Token) : Finder Unit := do
  unwind (-1)
  dropKey
  allowKey false
  push (← lex t)

/-- An opening bracket. -/
def openFlow (t : Token) : Finder Unit := do
  noteKey
  modify fun s => { s with flowDepth := s.flowDepth + 1 }
  allowKey true
  sign t

/-- A closing bracket. -/
def closeFlow (t : Token) : Finder Unit := do
  dropKey
  modify fun s => { s with flowDepth := s.flowDepth - 1 }
  allowKey false
  sign t

/-- A comma between brackets. -/
def flowEntry : Finder Unit := do
  allowKey true
  dropKey
  sign .flowEntry

/-- The start of a block collection at the column, if it is deeper than what is open. -/
def openBlock (t : Token) : Finder Unit := do
  let s ← get
  if !s.inFlow then
    require s.keyAllowed
    if ← openAt s.cursor.column then push t

/-- The dash of a sequence. -/
def blockEntry : Finder Unit := do
  openBlock .blockSequence
  allowKey true
  dropKey
  sign .blockEntry

/-- The question mark of a key. -/
def keySign : Finder Unit := do
  openBlock .blockMapping
  allowKey !(← get).inFlow
  dropKey
  sign .key

/-- The colon of a value. What was noted before it is a key. -/
def valueSign : Finder Unit := do
  let s ← get
  match s.keys.lookup s.flowDepth with
  | some k => do
    modify fun s => { s with keys := s.keys.filter fun k => k.1 != s.flowDepth }
    insertAt k.token .key
    if !s.inFlow then
      if ← openAt k.column then insertAt k.token .blockMapping
    allowKey false
  | none => do
    openBlock .blockMapping
    allowKey !s.inFlow
    dropKey
  sign .value

/-- A token that can be the start of a key. -/
def keyStart (t : Lexer Token) : Finder Unit := do
  noteKey
  allowKey false
  push (← lex t)

/-- A block scalar. -/
def blockScalar (folded : Bool) : Finder Unit := do
  allowKey true
  dropKey
  let s ← get
  push (.scalar false (← lex (Lexer.blockScalar folded s.indent)))

/-- A plain scalar. -/
def plainScalar : Finder Unit := do
  noteKey
  let s ← get
  let (text, crossed) ← lex (Lexer.plainScalar s.inFlow s.indent)
  allowKey crossed
  push (.scalar true text)

/-! ### The next token -/

/-- Spaces, comments and ends of lines, and whether there were any of the last. -/
def gap : (fuel : Nat) → (crossed : Bool) → Lexer Bool
  | 0, crossed => return crossed
  | fuel + 1, crossed => do
    let _ ← Lexer.takeWhile (· == ' ')
    Lexer.comment
    let b ← Lexer.lineBreak
    if b.isEmpty then return crossed else gap fuel true

/-- What stands between two tokens. -/
def skipGap : Finder Unit := do
  let crossed ← lex do
    let c ← get
    if c.index == 0 && c.peek 0 == byteOrderMark then Lexer.advance
    gap (← Lexer.fuel) false
  if crossed && !(← get).inFlow then allowKey true

/-- Whether a plain scalar can start with a character before another. -/
def startsPlain (inFlow : Bool) (c following : Char) : Bool :=
  !(isTokenEnd c || "-?:,[]\x7b\x7d#&*!|>'\"%@\x60".toList.contains c)
    || (!isTokenEnd following && (c == '-' || (!inFlow && (c == '?' || c == ':'))))

/-- The next token or tokens. -/
def next : Finder Unit := do
  skipGap
  dropStale
  unwind (← get).cursor.column
  let s ← get
  let c := s.cursor.peek 0
  let following := s.cursor.peek 1
  let apart := isTokenEnd following
  let atMark := s.cursor.column == 0 && s.cursor.atDocumentMark
  if s.cursor.atEnd then streamEnd
  else if c == '%' && s.cursor.column == 0 then documentToken (Token.directive <$> Lexer.directive)
  else if c == '-' && atMark then
    documentToken do Lexer.advance 3; return .documentStart
  else if c == '.' && atMark then
    documentToken do Lexer.advance 3; return .documentEnd
  else if c == '[' then openFlow .flowSequence
  else if c == '\x7b' then openFlow .flowMapping
  else if c == ']' then closeFlow .flowSequenceEnd
  else if c == '\x7d' then closeFlow .flowMappingEnd
  else if c == ',' then flowEntry
  else if c == '-' && apart then blockEntry
  else if c == '?' && (s.inFlow || apart) then keySign
  else if c == ':' && (s.inFlow || apart) then valueSign
  else if c == '*' then keyStart (Token.reference <$> Lexer.anchorName)
  else if c == '&' then keyStart (Token.anchor <$> Lexer.anchorName)
  else if c == '!' then keyStart (Token.tag <$> Lexer.tag)
  else if c == '|' && !s.inFlow then blockScalar false
  else if c == '>' && !s.inFlow then blockScalar true
  else if c == '\'' then keyStart (Token.scalar false <$> Lexer.quotedScalar false)
  else if c == '"' then keyStart (Token.scalar false <$> Lexer.quotedScalar true)
  else if startsPlain s.inFlow c following then plainScalar
  else throw .malformedYaml

/-- The tokens that cannot turn out to be starts of keys any more. -/
def settled (s : Tokens) : List Token :=
  let held := s.keys.foldl (fun n k => min n k.2.token) s.found.size
  s.found.toList.take held

/-- Tokens up to the end of the text or a failure. -/
def run : (fuel : Nat) → Tokens → List Token × Option Failure
  | 0, s => (s.settled, some .malformedYaml)
  | fuel + 1, s =>
    if s.ended then (s.found.toList, none)
    else match dropStale s with
      | .error e s => (s.settled, some e)
      | .ok _ s => match next s with
        | .error e _ => (s.settled, some e)
        | .ok _ s => run fuel s

/-- The tokens of a text, and the failure at which they end. -/
def ofText (text : String) : List Token × Option Failure :=
  let cs := text.toList
  if cs.all isPrintable then run (cs.length + 2) { cursor := { rest := cs } }
  else ([], some .malformedYaml)

end Tokens

end ApiDoc.Yaml
