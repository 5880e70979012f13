import ApiDoc.Yaml.Cursor

namespace ApiDoc.Yaml.Lexer

/-!
# The texts of scalars

Each lexer starts at the first character of a scalar and answers its text:

* `blockScalar` — lines below an indicator, kept or folded;
* `quotedScalar` — text in single or double quotes, with folded lines and escapes;
* `plainScalar` — text without quotes, and whether the end of a line was passed after it.
-/

/-! ### Block scalars -/

/-- How a block scalar ends: its last line end is kept, dropped, or kept with all after it. -/
inductive Chomping where
  | clip
  | strip
  | keep
deriving DecidableEq

/-- The mark of how a block scalar ends. -/
def chomping? : Lexer (Option Chomping) := do
  match ← peek with
  | '+' => do advance; return some .keep
  | '-' => do advance; return some .strip
  | _ => return none

/-- The digit that gives the indentation of a block scalar. -/
def indentation? : Lexer (Option Nat) := do
  let c ← peek
  if '0' ≤ c && c ≤ '9' then
    require (c != '0')
    advance
    return some (c.toNat - '0'.toNat)
  else return none

/-- What stands after the indicator of a block scalar, in either order. -/
def blockHeader : Lexer (Chomping × Option Nat) := do
  let before ← chomping?
  let indentation ← indentation?
  let after ← if before.isNone && indentation.isSome then chomping? else pure none
  require (isWordEnd (← peek))
  return ((before <|> after).getD .clip, indentation)

/-- Spaces up to a column. -/
def skipIndent (indent : Nat) : Lexer Unit := do
  let c ← get
  advance (min (indent - c.column) (c.rest.takeWhile (· == ' ')).length)

/-- Empty lines inside an indentation. -/
def blockBreaks (indent : Nat) : (fuel : Nat) → Lexer (List Char)
  | 0 => return []
  | fuel + 1 => do
    skipIndent indent
    let b ← lineBreak
    if b.isEmpty then return [] else return b ++ (← blockBreaks indent fuel)

/-- Empty lines before the first line, and the greatest indentation seen there. -/
def blockStart : (fuel : Nat) → Lexer (List Char × Nat)
  | 0 => return ([], 0)
  | fuel + 1 => do
    if (← peek) == ' ' then
      advance
      let column := (← get).column
      let (breaks, most) ← blockStart fuel
      return (breaks, max column most)
    else
      let b ← lineBreak
      if b.isEmpty then return ([], 0)
      else
        let (breaks, most) ← blockStart fuel
        return (b ++ breaks, most)

/-- Whether a line of the scalar starts here. -/
def atBlockLine (indent : Nat) : Lexer Bool := do
  let c ← get
  return c.column == indent && !c.atEnd

/-- The text of lines after empty ones; the end of the last line, and the empty lines after it. -/
def blockLines (folded : Bool) (indent : Nat) :
    (fuel : Nat) → (breaks : List Char) → Lexer (List Char × List Char × List Char)
  | 0, _ => return ([], [], [])
  | fuel + 1, before => do
    let leading := !isGap (← peek)
    let line ← takeWhile fun c => !isLineEnd c
    let b ← lineBreak
    let after ← blockBreaks indent (← Lexer.fuel)
    if ← atBlockLine indent then
      let joins := folded && b == ['\n'] && leading && !isGap (← peek)
      let link := if !joins then b else if after.isEmpty then [' '] else []
      let (text, last, breaks) ← blockLines folded indent fuel after
      return (before ++ line ++ link ++ text, last, breaks)
    else return (before ++ line, b, after)

/-- A block scalar below an indentation. -/
def blockScalar (folded : Bool) (outer : Int) : Lexer String := do
  advance
  let (chomping, indentation) ← blockHeader
  ignoredLine
  let least := max 1 (outer + 1).toNat
  let (breaks, indent) ← match indentation with
    | some n => do pure (← blockBreaks (least + n - 1) (← Lexer.fuel), least + n - 1)
    | none => do
      let (breaks, most) ← blockStart (← Lexer.fuel)
      pure (breaks, max least most)
  let (text, last, after) ← if ← atBlockLine indent then
      blockLines folded indent (← Lexer.fuel) breaks
    else pure ([], [], breaks)
  return String.ofList (text ++ match chomping with
    | .strip => []
    | .clip => last
    | .keep => last ++ after)

/-! ### Quoted scalars -/

/-- The character that an escape of one letter stands for. -/
def replacement? (c : Char) : Option Char :=
  ([('0', 0), ('a', 7), ('b', 8), ('t', 9), ('\t', 9), ('n', 10), ('v', 11), ('f', 12), ('r', 13),
    ('e', 27), (' ', 32), ('"', 0x22), ('\\', 0x5c), ('/', 0x2f), ('N', 0x85), ('_', 0xa0),
    ('L', 0x2028), ('P', 0x2029)].lookup c).map Char.ofNat

/-- How many hexadecimal digits follow the letter of an escape. -/
def digitCount? (c : Char) : Option Nat := [('x', 2), ('u', 4), ('U', 8)].lookup c

/-- The number that the next digits write. -/
def hexadecimal (count : Nat) : Lexer Nat := do
  let digits := ((← get).rest.take count).filterMap (Numeral.digitIn? 16)
  require (digits.length == count)
  advance count
  return Numeral.value 16 digits

/-- The character with a number. -/
def character (n : Nat) : Lexer Char := do
  if n ≤ 0x10ffff then return Text.ofUnit n
  else throw (.noCharacter (n > 0x7fffffff))

/-- Empty lines inside quotes, and the spaces at the front of the line after them. -/
def quotedBreaks : (fuel : Nat) → Lexer (List Char)
  | 0 => return []
  | fuel + 1 => do
    require !(← get).atDocumentMark
    let _ ← takeWhile isGap
    let b ← lineBreak
    if b.isEmpty then return [] else return b ++ (← quotedBreaks fuel)

/-- What an escape stands for, after its backslash. -/
def escaped : Lexer (List Char) := do
  let c ← peek
  match replacement? c, digitCount? c with
  | some r, _ => do advance; return [r]
  | none, some count => do
    advance
    return [← character (← hexadecimal count)]
  | none, none => do
    require (isLineEnd c)
    let _ ← lineBreak
    quotedBreaks (← fuel)

/-- A character inside quotes that stands for itself. -/
def isQuotable (c : Char) : Bool := !(c == '\'' || c == '"' || c == '\\' || isTokenEnd c)

/-- The text inside quotes up to the next gap or the closing quote. -/
def quotedWord (double : Bool) : (fuel : Nat) → Lexer (List Char)
  | 0 => return []
  | fuel + 1 => do
    let run ← takeWhile isQuotable
    let c ← peek
    if !double && c == '\'' && (← peek 1) == '\'' then
      advance 2
      return run ++ '\'' :: (← quotedWord double fuel)
    else if (double && c == '\'') || (!double && (c == '"' || c == '\\')) then
      advance
      return run ++ c :: (← quotedWord double fuel)
    else if double && c == '\\' then
      advance
      let e ← escaped
      return run ++ e ++ (← quotedWord double fuel)
    else return run

/-- What line ends stand for: the first as a space, unless others follow it. -/
def foldedBreaks (first more : List Char) : List Char :=
  if first != ['\n'] then first ++ more else if more.isEmpty then [' '] else more

/-- A gap inside quotes. -/
def quotedGap : Lexer (List Char) := do
  let blanks ← takeWhile isGap
  require !(← get).atEnd
  let b ← lineBreak
  if b.isEmpty then return blanks
  else return foldedBreaks b (← quotedBreaks (← fuel))

/-- Gaps and words up to the closing quote. -/
def quotedRest (double : Bool) (quote : Char) : (fuel : Nat) → Lexer (List Char)
  | 0 => refuse
  | fuel + 1 => do
    if (← peek) == quote then return []
    else
      let gap ← quotedGap
      let word ← quotedWord double (← Lexer.fuel)
      return gap ++ word ++ (← quotedRest double quote fuel)

/-- A quoted scalar. -/
def quotedScalar (double : Bool) : Lexer String := do
  advance
  let first ← quotedWord double (← fuel)
  let more ← quotedRest double (if double then '"' else '\'') (← fuel)
  advance
  return String.ofList (first ++ more)

/-! ### Plain scalars -/

/-- A character that ends a plain scalar inside brackets, or before which a colon does. -/
def isFlowIndicator (c : Char) : Bool := [',', '[', ']', '\x7b', '\x7d'].contains c

/-- The run of a plain scalar at the front of characters. -/
def plainRun (inFlow : Bool) : List Char → List Char
  | [] => []
  | c :: rest =>
    let following := rest.headD nul
    if isTokenEnd c
      || (c == ':' && (isTokenEnd following || (inFlow && isFlowIndicator following)))
      || (inFlow && (c == '?' || isFlowIndicator c)) then []
    else c :: plainRun inFlow rest

/-- Empty lines inside a plain scalar, and the spaces after them; none before a document mark. -/
def plainBreaks : (fuel : Nat) → Lexer (Option (List Char))
  | 0 => return some []
  | fuel + 1 => do
    if (← get).atDocumentMark then return none
    else
      let _ ← takeWhile (· == ' ')
      let b ← lineBreak
      if b.isEmpty then return some [] else return (← plainBreaks fuel).map (b ++ ·)

/-- A gap inside a plain scalar, and whether the end of a line was in it. -/
def plainGap : Lexer (List Char × Bool) := do
  let blanks ← takeWhile (· == ' ')
  let b ← lineBreak
  if b.isEmpty then return (blanks, false)
  else match ← plainBreaks (← fuel) with
    | some more => return (foldedBreaks b more, true)
    | none => return ([], true)

/-- Runs of a plain scalar after a gap, inside an indentation. -/
def plainRuns (inFlow : Bool) (indent : Int) :
    (fuel : Nat) → (gap : List Char) → (crossed : Bool) → Lexer (List Char × Bool)
  | 0, _, crossed => return ([], crossed)
  | fuel + 1, gap, crossed => do
    let c ← get
    let run := if c.peek 0 == '#' then [] else plainRun inFlow c.rest
    if run.isEmpty then return ([], crossed)
    else
      advance run.length
      let (next, crossed) ← plainGap
      let ends := next.isEmpty || (← peek) == '#' || (!inFlow && (← get).column ≤ indent)
      if ends then return (gap ++ run, crossed)
      else
        let (text, crossed) ← plainRuns inFlow indent fuel next crossed
        return (gap ++ run ++ text, crossed)

/-- A plain scalar inside an indentation, and whether the end of a line was passed after it. -/
def plainScalar (inFlow : Bool) (indent : Int) : Lexer (String × Bool) := do
  let (text, crossed) ← plainRuns inFlow indent (← fuel) [] false
  return (String.ofList text, crossed)

end ApiDoc.Yaml.Lexer
