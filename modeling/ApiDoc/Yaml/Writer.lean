import ApiDoc.Text.Base64
import ApiDoc.Yaml.Plain

namespace ApiDoc.Yaml

/-!
# Writing YAML

* `Pen` — text written so far, with what the next token has to know about the line;
* `Traits` — what decides whether a text can stand without quotes or in single ones;
* `check` — what keeps a value from being written;
* `repeated` — the marks that are met more than once, which get an anchor;
* `write` — a value as a block-style document.
-/

/-- The width at which long scalars are folded. -/
def width : Nat := 80

/-- What is written, the column, whether a blank or the start of the line comes before it,
    whether only indentation and indicators stand on the line, and the marks written so far. -/
structure Pen where
  out : String := ""
  column : Nat := 0
  afterBlank : Bool := true
  indenting : Bool := true
  written : List Nat := []

namespace Pen

/-- Text as it is. -/
def raw (p : Pen) (s : String) : Pen :=
  { p with out := p.out ++ s, column := p.column + s.length }

/-- An indicator, with a blank before it where one is needed. -/
def indicator (p : Pen) (s : String) (needBlank : Bool) (blankAfter indents : Bool := false) :
    Pen :=
  let p' := p.raw (if p.afterBlank || !needBlank then s else " " ++ s)
  { p' with afterBlank := blankAfter, indenting := p.indenting && indents }

/-- The end of a line. -/
def lineBreak (p : Pen) (mark : Char := '\n') : Pen :=
  { p with out := p.out.push mark, column := 0, afterBlank := true, indenting := true }

/-- The start of a line at an indentation; the present one if it is still free up to there. -/
def toIndent (p : Pen) (n : Nat) : Pen :=
  let p := if !p.indenting || p.column > n || (p.column == n && !p.afterBlank) then p.lineBreak
    else p
  if p.column < n then
    { p.raw (String.ofList (List.replicate (n - p.column) ' ')) with afterBlank := true }
  else p

/-- A line of its own inside a scalar. -/
def fold (p : Pen) (n : Nat) : Pen :=
  { p.toIndent n with afterBlank := false, indenting := false }

end Pen

/-! ### The form of a text -/

/-- A line break inside a scalar. -/
def isBreak (c : Char) : Bool :=
  c == '\n' || c.toNat == 0x85 || c.toNat == 0x2028 || c.toNat == 0x2029

/-- A character that can separate tokens. -/
def isSeparator (c : Char) : Bool :=
  c.toNat == 0 || c == ' ' || c == '\t' || c == '\r' || isBreak c

/-- A character that only double quotes can hold. -/
def isSpecial (c : Char) : Bool :=
  let n := c.toNat
  !(c == '\n' || (0x20 ≤ n && n ≤ 0x7e)
    || ((n == 0x85 || (0xa0 ≤ n && n ≤ 0xd7ff) || (0xe000 ≤ n && n ≤ 0xfffd)
      || (0x10000 ≤ n && n < 0x10ffff && (Text.half? c).isNone)) && n != 0xfeff))

/-- What decides the form of a text. -/
structure Traits where
  indicators : Bool := false
  breaks : Bool := false
  special : Bool := false
  edgeBlank : Bool := false
  breakSpace : Bool := false
  spaceBreak : Bool := false

/-- Whether the next character separates, or there is none. -/
def separatorNext : List Char → Bool
  | [] => true
  | c :: _ => isSeparator c

/-- The traits that the characters after `before` add. -/
def traitsAfter (t : Traits) : (before : Option Char) → List Char → Traits
  | _, [] => t
  | before, c :: rest =>
    let indicator := match before with
      | none =>
        "#,[]\x7b\x7d&*!|>'\"%@\x60".toList.contains c
          || ((c == '?' || c == ':' || c == '-') && separatorNext rest)
      | some b => (c == ':' && separatorNext rest) || (c == '#' && isSeparator b)
    let blank := c == ' ' || isBreak c
    let t := { t with
      indicators := t.indicators || indicator
      breaks := t.breaks || isBreak c
      special := t.special || isSpecial c
      edgeBlank := t.edgeBlank || (blank && (before.isNone || rest.isEmpty))
      breakSpace := t.breakSpace || (c == ' ' && before.any isBreak)
      spaceBreak := t.spaceBreak || (isBreak c && before == some ' ') }
    traitsAfter t (some c) rest

/-- The traits of a text. A document mark at its front counts as an indicator. -/
def traits (cs : List Char) : Traits :=
  traitsAfter { indicators := cs.take 3 == ['-', '-', '-'] || cs.take 3 == ['.', '.', '.'] } none cs

/-- Whether the text can stand without quotes. -/
def Traits.allowsPlain (t : Traits) : Bool :=
  !t.indicators && !t.breaks && !t.special && !t.edgeBlank && !t.breakSpace && !t.spaceBreak

/-- Whether the text can stand in single quotes. -/
def Traits.allowsSingle (t : Traits) : Bool := !t.special && !t.breakSpace && !t.spaceBreak

/-! ### Runs of characters -/

/-- How a character takes part in folding. -/
inductive RunKind where
  | spaces
  | breaks
  | other
deriving DecidableEq

/-- The kind of run that a character belongs to. -/
def runKind (c : Char) : RunKind :=
  if c == ' ' then .spaces else if isBreak c then .breaks else .other

/-- A text cut into runs of one kind. -/
def runs : List Char → List (RunKind × List Char)
  | [] => []
  | c :: rest => match runs rest with
    | (k, cs) :: more =>
      if k = runKind c then (k, c :: cs) :: more else (runKind c, [c]) :: (k, cs) :: more
    | [] => [(runKind c, [c])]

/-- The runs of a plain scalar, a single space past the width folded. -/
def plainRuns (n : Nat) (foldable : Bool) (p : Pen) : List (RunKind × List Char) → Pen
  | [] => p
  | (.spaces, [_]) :: rest =>
    plainRuns n foldable (if p.column > width && foldable then p.fold n else p.raw " ") rest
  | (_, cs) :: rest => plainRuns n foldable (p.raw (.ofList cs)) rest

/-- A plain scalar. -/
def writePlain (n : Nat) (foldable : Bool) (p : Pen) (cs : List Char) : Pen :=
  if cs.isEmpty then p
  else
    let p := if p.afterBlank then p else p.raw " "
    plainRuns n foldable { p with afterBlank := false, indenting := false } (runs cs)

/-- Line breaks inside single quotes: the first newline is doubled. -/
def writeBreaks (n : Nat) (p : Pen) (cs : List Char) : Pen :=
  let p := if cs.head? == some '\n' then p.lineBreak else p
  (cs.foldl (fun p c => p.lineBreak c) p).toIndent n

/-- The runs of a single-quoted scalar. A single space past the width is folded, except at
    the ends. -/
def singleRuns (n : Nat) (foldable : Bool) (p : Pen) (first : Bool) :
    List (RunKind × List Char) → Pen
  | [] => p
  | (.spaces, [_]) :: rest =>
    let p := if p.column > width && foldable && !first && !rest.isEmpty then p.toIndent n
      else p.raw " "
    singleRuns n foldable p false rest
  | (.spaces, cs) :: rest => singleRuns n foldable (p.raw (.ofList cs)) false rest
  | (.breaks, cs) :: rest => singleRuns n foldable (writeBreaks n p cs) false rest
  | (.other, cs) :: rest =>
    let doubled := cs.flatMap fun c => if c == '\'' then ['\'', '\''] else [c]
    singleRuns n foldable (p.raw (.ofList doubled)) false rest

/-- A single-quoted scalar. -/
def writeSingle (n : Nat) (foldable : Bool) (p : Pen) (cs : List Char) : Pen :=
  (singleRuns n foldable (p.indicator "'" true) true (runs cs)).indicator "'" false

/-- The escape of a character in double quotes; none for one that stands for itself. -/
def escape? (c : Char) : Option (List Char) :=
  let n := c.toNat
  let short : Option Char := [(0, '0'), (7, 'a'), (8, 'b'), (9, 't'), (10, 'n'), (11, 'v'),
    (12, 'f'), (13, 'r'), (27, 'e'), (0x22, '"'), (0x5c, '\\'), (0x85, 'N'), (0xa0, '_'),
    (0x2028, 'L'), (0x2029, 'P')].lookup n
  let plain := (0x20 ≤ n && n ≤ 0x7e && c != '"' && c != '\\')
    || (0xa0 ≤ n && n ≤ 0xd7ff && n != 0x2028 && n != 0x2029)
    || (0xe000 ≤ n && n ≤ 0xfffd && n != 0xfeff)
  let upperHex (w : Nat) : List Char := (Text.hex w n).map Char.toUpper
  if plain then none
  else match short, Text.half? c with
    | some s, _ => some ['\\', s]
    | none, some unit => some ('\\' :: 'u' :: (Text.hex 4 unit).map Char.toUpper)
    | none, none =>
      if n < 0x100 then some ('\\' :: 'x' :: upperHex 2)
      else if n < 0x10000 then some ('\\' :: 'u' :: upperHex 4)
      else some ('\\' :: 'U' :: upperHex 8)

/-- The characters of a double-quoted scalar. Text waits until a place where the line may be
    folded has been passed; `first` holds at the first character. -/
def doubleChars (n : Nat) (foldable : Bool) (p : Pen) (waiting : List Char) (first : Bool) :
    List Char → Pen
  | [] => p.raw (.ofList waiting.reverse)
  | c :: rest =>
    let inside := !first && !rest.isEmpty && foldable
    match escape? c with
    | some e =>
      let p := (p.raw (.ofList waiting.reverse)).raw (.ofList e)
      let p := if inside && p.column > width + 1 then
          let p := (p.raw "\\").fold n
          if rest.head? == some ' ' then p.raw "\\" else p
        else p
      doubleChars n foldable p [] false rest
    | none =>
      if inside && (c == ' ' || waiting.isEmpty) && p.column + waiting.length > width then
        let p := (p.raw (.ofList (waiting.reverse ++ ['\\']))).fold n
        doubleChars n foldable (if c == ' ' then p.raw "\\" else p) [c] false rest
      else doubleChars n foldable p (c :: waiting) false rest

/-- A double-quoted scalar. -/
def writeDouble (n : Nat) (foldable : Bool) (p : Pen) (cs : List Char) : Pen :=
  (doubleChars n foldable (p.indicator "\"" true) [] true cs).indicator "\"" false

/-! ### Values -/

/-- How YAML writes a number. -/
def numberStyle : NumberStyle where
  nan := ".nan"
  infinity := ".inf"
  negativeInfinity := "-.inf"
  pointBeforeExponent := true

/-- The lines of octets in base 64, each ended. -/
def octetLines : (fuel : Nat) → List Char → List Char
  | 0, _ => []
  | _, [] => []
  | fuel + 1, cs => cs.take 76 ++ '\n' :: octetLines fuel (cs.drop 76)

/-- A scalar without its tag. -/
def scalarText : Scalar → String
  | .null => "null"
  | .bool b => if b then "true" else "false"
  | .int n => toString n
  | .float x => x.text numberStyle
  | .str s => s
  | .bytes ns => let cs := Text.Base64.encode ns; String.ofList (octetLines cs.length cs)
  | .moment m _ => m.text " "

/-- The length of the tag of a scalar, which counts for the length of a key. -/
def tagLength : Scalar → Nat
  | .str _ => 5
  | .int _ => 5
  | .null => 6
  | .bool _ => 6
  | .float _ => 7
  | .bytes _ => 8
  | .moment _ _ => 11

/-- Lines below an indicator inside an indentation. -/
def writeLines (n : Nat) (p : Pen) (cs : List Char) : Pen :=
  let step (p : Pen) (c : Char) : Pen :=
    if c == '\n' then p.lineBreak
    else { (if p.indenting then p.toIndent n else p).raw (String.singleton c) with
      afterBlank := false, indenting := false }
  cs.foldl step (p.indicator "|" true).lineBreak

/-- A scalar inside an indentation of `n`. In a key a text may not be folded. -/
def writeScalar (n : Nat) (inKey : Bool) (p : Pen) (s : Scalar) : Pen :=
  let n := n + 2
  match s with
  | .str t =>
    let cs := t.toList
    let tr := traits cs
    if (plainForm? t).isNone && tr.allowsPlain && !(inKey && (cs.isEmpty || tr.breaks)) then
      writePlain n (!inKey) p cs
    else if tr.allowsSingle && !(inKey && tr.breaks) then writeSingle n (!inKey) p cs
    else writeDouble n (!inKey) p cs
  | .bytes ns =>
    let p := p.indicator "!!binary" true
    if ns.isEmpty then writeDouble n (!inKey) p [] else writeLines n p (scalarText s).toList
  | s => writePlain n (!inKey) p (scalarText s).toList

/-! ### What can be written -/

mutual

/-- What keeps a value from being written. -/
def check : Data → Except Failure Unit
  | .scalar (.int n) => match Numeral.text? n with
    | .ok _ => .ok ()
    | .error e => .error (.noNumber e)
  | .scalar _ => .ok ()
  | .list xs _ => checkItems xs
  | .tuple xs _ => checkItems xs
  | .map es _ => checkEntries es
  | .set xs _ => checkItems xs
  | _ => .error .malformedYaml

/-- What keeps items from being written. -/
def checkItems : List Data → Except Failure Unit
  | [] => .ok ()
  | x :: xs => do check x; checkItems xs

/-- What keeps entries from being written. -/
def checkEntries : List (Data × Data) → Except Failure Unit
  | [] => .ok ()
  | (k, v) :: rest => do check k; check v; checkEntries rest

end

/-! ### Anchors -/

/-- The marks met once, and those met again, in order. -/
structure Marks where
  met : List Nat := []
  again : List Nat := []

/-- The mark by which a value is recognised when it is met again; zero for none. -/
def markOf : Data → Nat
  | .scalar (.moment _ mark) => mark
  | .list _ mark => mark
  | .tuple [] _ => 0
  | .tuple _ mark => mark
  | .map _ mark => mark
  | .set _ mark => mark
  | _ => 0

/-- Marks with one that is met now; whether it was met before. -/
def Marks.meet (m : Marks) (mark : Nat) : Bool × Marks :=
  if mark == 0 then (false, m)
  else if m.met.contains mark then
    (true, if m.again.contains mark then m else { m with again := m.again ++ [mark] })
  else (false, { m with met := mark :: m.met })

mutual

/-- Marks after those of a value. -/
def Marks.after (m : Marks) : Data → Marks
  | .list xs mark => let (again, m) := m.meet mark; if again then m else afterItems m xs
  | .tuple xs mark =>
    let (again, m) := m.meet (if xs.isEmpty then 0 else mark)
    if again then m else afterItems m xs
  | .map es mark => let (again, m) := m.meet mark; if again then m else afterEntries m es
  | .set xs mark => let (again, m) := m.meet mark; if again then m else afterItems m xs
  | v => (m.meet (markOf v)).2

/-- Marks after those of items. -/
def Marks.afterItems (m : Marks) : List Data → Marks
  | [] => m
  | x :: xs => afterItems (after m x) xs

/-- Marks after those of entries. -/
def Marks.afterEntries (m : Marks) : List (Data × Data) → Marks
  | [] => m
  | (k, v) :: rest => afterEntries (after (after m k) v) rest

end

/-- The marks that are met more than once, in the order in which they are met again. -/
def repeated (v : Data) : List Nat := (Marks.after {} v).again

/-- The name of the anchor of a mark; none for one that is met once. -/
def anchorName? (anchors : List Nat) (mark : Nat) : Option String :=
  if mark == 0 then none
  else (anchors.idxOf? mark).map fun i => "id" ++ Moment.padded 3 (i + 1)

/-- Whether a value has been written before. -/
def Pen.hasWritten (p : Pen) (anchors : List Nat) (mark : Nat) : Bool :=
  (anchorName? anchors mark).isSome && p.written.contains mark

/-- The anchor of a value that will be met again. -/
def Pen.anchor (p : Pen) (anchors : List Nat) (mark : Nat) : Pen :=
  match anchorName? anchors mark with
  | some name => { p.indicator ("&" ++ name) true with written := mark :: p.written }
  | none => p

/-- The alias of a value written before. -/
def Pen.reference (p : Pen) (anchors : List Nat) (mark : Nat) : Pen :=
  p.indicator ("*" ++ (anchorName? anchors mark).getD "") true

/-! ### Values -/

/-- Whether a value can stand before its colon on one line: an alias, a scalar of one line, or
    a collection without parts. -/
def isSimpleKey (anchors : List Nat) (p : Pen) (k : Data) : Bool :=
  let length := ((anchorName? anchors (markOf k)).getD "").length
  p.hasWritten anchors (markOf k) || match k with
    | .scalar s =>
      let cs := (scalarText s).toList
      length + tagLength s + cs.length < 128 && !cs.isEmpty && !cs.any isBreak
    | .list xs _ => xs.isEmpty
    | .tuple xs _ => xs.isEmpty
    | .map es _ => es.isEmpty
    | .set xs _ => xs.isEmpty
    | _ => false

/-- A container without parts. -/
def writeEmpty (p : Pen) (opening closing : String) : Pen :=
  (p.indicator opening true true).indicator closing false

/-- Where the items of a list stand: under a key at the indentation of the key. -/
def itemIndent (indent : Option Nat) (underKey : Bool) (p : Pen) : Nat :=
  match indent with
  | none => 0
  | some n => if underKey && !p.indenting then n else n + 2

/-- Where the entries of a mapping stand. -/
def entryIndent (indent : Option Nat) : Nat := (indent.map (· + 2)).getD 0

/-- A key with its colon, written as given on one line or not; a long, broken or composite key
    stands after a question mark. -/
def writeKey (anchors : List Nat) (n : Nat) (p : Pen) (k : Data) (writeWith : Bool → Pen → Pen) :
    Pen :=
  let p := p.toIndent n
  if isSimpleKey anchors p k then (writeWith true p).indicator ":" false
  else
    let p := writeWith false (p.indicator "?" true false true)
    (p.toIndent n).indicator ":" true false true

mutual

/-- A value inside an indentation, as an alias if it has been written before. -/
def writeNode (anchors : List Nat) (indent : Option Nat) (underKey inKey : Bool) (p : Pen) :
    Data → Pen
  | .scalar s =>
    let mark := markOf (.scalar s)
    if p.hasWritten anchors mark then p.reference anchors mark
    else writeScalar (indent.getD 0) inKey (p.anchor anchors mark) s
  | .list xs mark =>
    if p.hasWritten anchors mark then p.reference anchors mark
    else
      let p := p.anchor anchors mark
      if xs.isEmpty then writeEmpty p "[" "]"
      else writeItems anchors (itemIndent indent underKey p) p xs
  | .tuple xs mark =>
    if !xs.isEmpty && p.hasWritten anchors mark then p.reference anchors mark
    else
      let p := if xs.isEmpty then p else p.anchor anchors mark
      if xs.isEmpty then writeEmpty p "[" "]"
      else writeItems anchors (itemIndent indent underKey p) p xs
  | .map es mark =>
    if p.hasWritten anchors mark then p.reference anchors mark
    else
      let p := p.anchor anchors mark
      if es.isEmpty then writeEmpty p "\x7b" "\x7d"
      else writeEntries anchors (entryIndent indent) p es
  | .set xs mark =>
    if p.hasWritten anchors mark then p.reference anchors mark
    else
      let p := (p.anchor anchors mark).indicator "!!set" true
      if xs.isEmpty then writeEmpty p "\x7b" "\x7d"
      else writeMembers anchors (entryIndent indent) p xs
  | _ => p

/-- Items, each after a dash. -/
def writeItems (anchors : List Nat) (n : Nat) (p : Pen) : List Data → Pen
  | [] => p
  | x :: xs =>
    let p := (p.toIndent n).indicator "-" true false true
    writeItems anchors n (writeNode anchors (some n) false false p x) xs

/-- Entries, each value after its key. -/
def writeEntries (anchors : List Nat) (n : Nat) (p : Pen) : List (Data × Data) → Pen
  | [] => p
  | (k, v) :: rest =>
    let p := writeKey anchors n p k fun inKey p => writeNode anchors (some n) true inKey p k
    writeEntries anchors n (writeNode anchors (some n) true false p v) rest

/-- The members of a set as keys of nulls. -/
def writeMembers (anchors : List Nat) (n : Nat) (p : Pen) : List Data → Pen
  | [] => p
  | x :: xs =>
    let p := writeKey anchors n p x fun inKey p => writeNode anchors (some n) true inKey p x
    writeMembers anchors n (writeScalar n false p .null) xs

end

/-- A value as a document, ended by a line break. -/
def write (v : Data) : Except Failure String := do
  check v
  return ((writeNode (repeated v) none false false {} v).toIndent 0).out

end ApiDoc.Yaml
