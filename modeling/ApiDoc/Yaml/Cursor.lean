import ApiDoc.Failure

namespace ApiDoc.Yaml

/-!
# Places in a YAML text

* `Cursor` — what remains of a text, and how much came before: characters, lines and columns;
* `Lexer` — a computation that moves a cursor on, with `peek`, `advance`, `takeWhile` and
  `lineBreak`;
* `isLineEnd`, `isTextEnd`, `isWordEnd`, `isTokenEnd` — the characters at which lines and tokens
  end. Behind the text stands the character with the number zero, which no text holds.
-/

/-! ### Classes of characters -/

/-- The character behind a text. -/
def nul : Char := Char.ofNat 0

/-- The character that may stand at the front of a text as the mark of its encoding. -/
def byteOrderMark : Char := Char.ofNat 0xfeff

/-- A character that ends a line. -/
def isLineEnd (c : Char) : Bool :=
  c == '\n' || c == '\r' || c.toNat == 0x85 || c.toNat == 0x2028 || c.toNat == 0x2029

/-- The end of a line or of the text. -/
def isTextEnd (c : Char) : Bool := c == nul || isLineEnd c

/-- A space, or the end of a line or of the text. -/
def isWordEnd (c : Char) : Bool := c == ' ' || isTextEnd c

/-- A space or a tab, or the end of a line or of the text. -/
def isTokenEnd (c : Char) : Bool := c == '\t' || isWordEnd c

/-- A space or a tab. -/
def isGap (c : Char) : Bool := c == ' ' || c == '\t'

/-- A character that a document can hold as it is. -/
def isPrintable (c : Char) : Bool :=
  let n := c.toNat
  c == '\t' || c == '\n' || c == '\r' || (0x20 ≤ n && n ≤ 0x7e) || n == 0x85
    || (0xa0 ≤ n && n ≤ 0xd7ff) || (0xe000 ≤ n && n ≤ 0xfffd)
    || (0x10000 ≤ n && (Text.half? c).isNone)

/-! ### Cursors -/

/-- A place in a text. The mark of the encoding takes no column. -/
structure Cursor where
  rest : List Char
  index : Nat := 0
  line : Nat := 0
  column : Nat := 0
deriving Repr, Inhabited

namespace Cursor

/-- The place after the next character. -/
def next (c : Cursor) : Cursor :=
  match c.rest with
  | [] => c
  | ch :: more =>
    if isLineEnd ch && !(ch == '\r' && more.head? == some '\n') then
      ⟨more, c.index + 1, c.line + 1, 0⟩
    else ⟨more, c.index + 1, c.line, if ch == byteOrderMark then c.column else c.column + 1⟩

/-- The place after so many characters. -/
def skip (c : Cursor) (n : Nat) : Cursor := Nat.repeat next n c

/-- The character so far ahead. -/
def peek (c : Cursor) (ahead : Nat) : Char := c.rest.getD ahead nul

/-- Whether nothing remains. -/
def atEnd (c : Cursor) : Bool := c.rest.isEmpty

/-- Whether a line of three dashes or three points is ahead. -/
def atDocumentMark (c : Cursor) : Bool :=
  (c.rest.take 3 == ['-', '-', '-'] || c.rest.take 3 == ['.', '.', '.']) && isTokenEnd (c.peek 3)

end Cursor

/-! ### Lexers -/

/-- A computation that moves a cursor on. -/
abbrev Lexer := EStateM Failure Cursor

namespace Lexer

/-- The text is no YAML. -/
def refuse {α : Type} : Lexer α := throw .malformedYaml

/-- The text is no YAML unless a condition holds. -/
def require (condition : Bool) : Lexer Unit := if condition then pure () else refuse

/-- The character so far ahead. -/
def peek (ahead : Nat := 0) : Lexer Char := return (← get).peek ahead

/-- The next characters left behind. -/
def advance (n : Nat := 1) : Lexer Unit := modify (·.skip n)

/-- The longest run of characters of a class. -/
def takeWhile (p : Char → Bool) : Lexer (List Char) := do
  let cs := (← get).rest.takeWhile p
  advance cs.length
  return cs

/-- More steps than there are characters left. -/
def fuel : Lexer Nat := return (← get).rest.length + 1

/-- The end of a line as it counts in a text; nothing where there is none. -/
def lineBreak : Lexer (List Char) := do
  match (← get).rest with
  | '\r' :: '\n' :: _ => do advance 2; return ['\n']
  | c :: _ =>
    if c == '\n' || c == '\r' || c.toNat == 0x85 then do advance; return ['\n']
    else if isLineEnd c then do advance; return [c]
    else return []
  | [] => return []

/-- A comment. -/
def comment : Lexer Unit := do
  if (← peek) == '#' then
    let _ ← takeWhile fun c => !isLineEnd c

/-- The rest of a line that holds spaces and a comment only. -/
def ignoredLine : Lexer Unit := do
  let _ ← takeWhile (· == ' ')
  comment
  require (isTextEnd (← peek))
  let _ ← lineBreak

end Lexer

end ApiDoc.Yaml
