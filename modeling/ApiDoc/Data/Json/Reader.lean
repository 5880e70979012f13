import ApiDoc.Data.Basic
import ApiDoc.Number.Numeral

namespace ApiDoc.Json

/-!
# Reading JSON text

* `read?` — the value of a JSON text, objects as mappings in the order of their keys;
* `number?`, `units?` — numbers, and strings with their escapes.

A number without point and exponent is an integer of any size. Escapes give UTF-16 units, of
which pairs are joined afterwards.
-/

/-! ### Characters -/

/-- The text without leading blanks. -/
def skip (cs : List Char) : List Char :=
  cs.dropWhile fun c => c == ' ' || c == '\t' || c == '\n' || c == '\r'

/-- The number that hexadecimal digits write. -/
def hexValue? (cs : List Char) : Option Nat :=
  cs.foldlM (fun n c => (Numeral.digitIn? 16 c).map (n * 16 + ·)) 0

/-- The number that decimal digits write. -/
def digitsValue (cs : List Char) : Nat := cs.foldl (fun n c => n * 10 + (c.toNat - '0'.toNat)) 0

/-- The character that an escape of one letter stands for. -/
def escape? (c : Char) : Option Char :=
  [('"', '"'), ('\\', '\\'), ('/', '/'), ('b', '\x08'), ('f', '\x0c'), ('n', '\n'), ('r', '\r'),
   ('t', '\t')].lookup c

/-! ### Strings -/

/-- The units of a string up to its closing quote, and what follows. -/
def units? : List Char → Option (List Nat × List Char)
  | '"' :: rest => some ([], rest)
  | '\\' :: 'u' :: a :: b :: c :: d :: rest => do
    let n ← hexValue? [a, b, c, d]
    let (ns, rest) ← units? rest
    return (n :: ns, rest)
  | '\\' :: c :: rest => do
    let e ← escape? c
    let (ns, rest) ← units? rest
    return (e.toNat :: ns, rest)
  | c :: rest => do
    let (ns, rest) ← units? rest
    return (c.toNat :: ns, rest)
  | [] => none

/-- The text of a string after its opening quote, and what follows. -/
def string? (cs : List Char) : Option (String × List Char) := do
  let (ns, rest) ← units? cs
  return (String.ofList (Text.joinUnits ns), rest)

/-! ### Numbers -/

/-- A sign, and what follows. -/
def sign : List Char → Bool × List Char
  | '-' :: cs => (true, cs)
  | '+' :: cs => (false, cs)
  | cs => (false, cs)

/-- The exponent at the front, and what follows; none if there is none. -/
def exponent? : List Char → Option Int × List Char
  | c :: cs =>
    if c == 'e' || c == 'E' then
      let (negative, cs) := sign cs
      let n : Int := digitsValue (cs.takeWhile Char.isDigit)
      (some (if negative then -n else n), cs.dropWhile Char.isDigit)
    else (none, c :: cs)
  | [] => (none, [])

/-- The digits after a point at the front, and what follows; none if there is no point. -/
def fraction? : List Char → Option (List Char) × List Char
  | '.' :: cs => (some (cs.takeWhile Char.isDigit), cs.dropWhile Char.isDigit)
  | cs => (none, cs)

/-- The number at the front, and what follows. -/
def number? (cs : List Char) : Option (Scalar × List Char) :=
  let (negative, cs) := match cs with
    | '-' :: cs => (true, cs)
    | cs => (false, cs)
  let whole := cs.takeWhile Char.isDigit
  let (fraction, cs) := fraction? (cs.dropWhile Char.isDigit)
  let (exponent, cs) := exponent? cs
  if whole.isEmpty then none
  else if fraction.isNone && exponent.isNone then
    let n : Int := digitsValue whole
    some (.int (if negative then -n else n), cs)
  else
    let digits := fraction.getD []
    some (.float (.ofDecimal negative (digitsValue (whole ++ digits))
      (exponent.getD 0 - digits.length)), cs)

/-! ### Values -/

/-- The text after a word at its front. -/
def word? (word : String) (cs : List Char) : Option (List Char) :=
  if word.toList.isPrefixOf cs then some (cs.drop word.length) else none

/-- A scalar at the front that is no string, and what follows. -/
def bareScalar? (cs : List Char) : Option (Scalar × List Char) :=
  [("null", Scalar.null), ("true", .bool true), ("false", .bool false),
    ("NaN", .float (Binary64.nan 0)), ("Infinity", .float (Binary64.infinity false)),
    ("-Infinity", .float (Binary64.infinity true))].findSome?
      (fun w => (word? w.1 cs).map fun rest => (w.2, rest)) <|> number? cs

mutual

/-- The value at the front, and what follows. -/
def value? : (fuel : Nat) → List Char → Option (Data × List Char)
  | 0, _ => none
  | fuel + 1, cs =>
    match skip cs with
    | '"' :: cs => do
      let (s, rest) ← string? cs
      return (.str s, rest)
    | '[' :: cs => do
      let (xs, rest) ← items? fuel (skip cs)
      return (.ofList xs, rest)
    | '\x7b' :: cs => do
      let (es, rest) ← members? fuel (skip cs)
      return (.ofEntries (Entries.ofPairs es), rest)
    | cs => do
      let (s, rest) ← bareScalar? cs
      return (.scalar s, rest)

/-- The items up to the closing bracket, and what follows. -/
def items? : (fuel : Nat) → List Char → Option (List Data × List Char)
  | 0, _ => none
  | _, ']' :: cs => some ([], cs)
  | fuel + 1, cs => do
    let (v, cs) ← value? fuel cs
    match skip cs with
    | ',' :: cs => do
      let (vs, cs) ← items? fuel (skip cs)
      return (v :: vs, cs)
    | ']' :: cs => return ([v], cs)
    | _ => none

/-- The members up to the closing brace, and what follows. -/
def members? : (fuel : Nat) → List Char → Option (Entries × List Char)
  | 0, _ => none
  | _, '\x7d' :: cs => some ([], cs)
  | fuel + 1, '"' :: cs => do
    let (k, cs) ← string? cs
    match skip cs with
    | ':' :: cs => do
      let (v, cs) ← value? fuel cs
      match skip cs with
      | ',' :: cs => do
        let (es, cs) ← members? fuel (skip cs)
        return ((.str k, v) :: es, cs)
      | '\x7d' :: cs => return ([(.str k, v)], cs)
      | _ => none
    | _ => none
  | _, _ => none

end

/-- The value of a JSON text. -/
def read? (text : String) : Option Data := do
  let cs := text.toList
  let (v, rest) ← value? (2 * cs.length + 2) cs
  if (skip rest).isEmpty then return v else none

end ApiDoc.Json
