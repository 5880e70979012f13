import ApiDoc.Number.Binary64
import ApiDoc.Text.Blank
import ApiDoc.Text.Decimal
import ApiDoc.Text.Quoted

namespace ApiDoc

/-!
# Numerals

* `Numeral.integer?` — the integer that a text spells in a base;
* `Numeral.number?` — the number that a text spells in base ten;
* `Numeral.text?` — the decimal digits of an integer, up to a limit;
* `NumeralError` — why a text spells no number.

Digits may be of any script, and single underscores may group the digits of an integer.
-/

/-- Why a text spells no number, or a number has no text. -/
inductive NumeralError where
  | noInteger (text : String) (base : Nat)
  | noNumber (text : String)
  /-- More decimal digits than are read or written; how many, where they were read. -/
  | tooManyDigits (read? : Option Nat)
  /-- An integer beyond the greatest number. -/
  | tooLarge
deriving DecidableEq, Repr

namespace Numeral

/-- The number of decimal digits that are read or written. -/
def digitLimit : Nat := 4300

end Numeral

/-- The text about the cause. -/
def NumeralError.message : NumeralError → String
  | noInteger text base =>
    "invalid literal for int() with base " ++ toString base ++ ": "
      ++ String.ofList ((Text.quoted text).toList.take 200)
  | noNumber text => "could not convert string to float: " ++ Text.quoted text
  | tooManyDigits read? =>
    "Exceeds the limit (" ++ toString Numeral.digitLimit ++ " digits) for integer string conversion"
      ++ (match read? with
        | some n => ": value has " ++ toString n ++ " digits"
        | none => "")
      ++ "; use sys.set_int_max_str_digits() to increase the limit"
  | tooLarge => "int too large to convert to float"

namespace Numeral

/-! ### Characters -/

/-- A character of a numeral in the first 127: a blank as a space, a digit of any script as
    that of the value, and what belongs to no numeral as a question mark. -/
def asciiChar (c : Char) : Char :=
  if c.toNat < 127 then c
  else if Text.isBlank c then ' '
  else match Text.decimal? c with
    | some d => Char.ofNat ('0'.toNat + d)
    | none => '?'

/-- The blanks that may stand around a numeral. -/
def isSpace (c : Char) : Bool := c == ' ' || (9 ≤ c.toNat && c.toNat ≤ 13)

/-- The characters of a numeral, without blanks before it. -/
def chars (s : String) : List Char :=
  let cs := s.toList
  (if cs.all fun c => c.toNat < 128 then cs else cs.map asciiChar).dropWhile isSpace

/-- A sign, and what follows. -/
def sign : List Char → Bool × List Char
  | '-' :: cs => (true, cs)
  | '+' :: cs => (false, cs)
  | cs => (false, cs)

/-- The value of a digit in a base above ten. -/
def digit? (c : Char) : Option Nat :=
  if '0' ≤ c ∧ c ≤ '9' then some (c.toNat - '0'.toNat)
  else if 'a' ≤ c ∧ c ≤ 'z' then some (c.toNat - 'a'.toNat + 10)
  else if 'A' ≤ c ∧ c ≤ 'Z' then some (c.toNat - 'A'.toNat + 10)
  else none

/-- The value of a digit in a base. -/
def digitIn? (base : Nat) (c : Char) : Option Nat := (digit? c).filter (· < base)

/-! ### Integers -/

/-- The digits at the front with single underscores between them, and what follows; none if
    an underscore stands elsewhere or there is no digit. -/
def digitRun? (base : Nat) : (afterDigit : Bool) → List Char → Option (List Nat × List Char)
  | after, [] => if after then some ([], []) else none
  | after, c :: rest =>
    if c == '_' then (if after then digitRun? base false rest else none)
    else match digitIn? base c with
      | some d => (digitRun? base true rest).map fun r => (d :: r.1, r.2)
      | none => if after then some ([], c :: rest) else none

/-- The base that the letter after a zero announces. -/
def announced? (c : Char) : Option Nat :=
  [('x', 16), ('X', 16), ('o', 8), ('O', 8), ('b', 2), ('B', 2)].lookup c

/-- The base of a numeral and its digits. Without a base of its own the numeral announces it;
    then a zero at the front without an announcement allows only zero, which the last part
    of the result tells. -/
def splitBase (base : Nat) (cs : List Char) : Nat × List Char × Bool :=
  let announcement : Option (Nat × List Char) := match cs with
    | '0' :: c :: rest => (announced? c).map fun b => (b, rest)
    | _ => none
  match announcement with
  | some (b, rest) =>
    if base == 0 || base == b then
      (b, (match rest with
        | '_' :: more => more
        | rest => rest), false)
    else (base, cs, false)
  | none => if base == 0 then (10, cs, cs.head? == some '0') else (base, cs, false)

/-- The number that digits spell in a base. -/
def value (base : Nat) (ds : List Nat) : Nat := ds.foldl (fun n d => n * base + d) 0

/-- The integer that a text spells in a base; base zero stands for the one that the text
    announces. The limit holds for bases that are no powers of two. -/
def integer? (base : Nat) (text : String) : Except NumeralError Int :=
  let fail : Except NumeralError Int := .error (.noInteger text base)
  let (negative, cs) := sign (chars text)
  let (b, cs, onlyZero) := splitBase base cs
  match digitRun? b false cs with
  | none => fail
  | some (ds, rest) =>
    if ds.length > digitLimit && !([2, 4, 8, 16, 32].contains b) then
      .error (.tooManyDigits (some ds.length))
    else
      let n := value b ds
      if !rest.all isSpace || (onlyZero && n != 0) then fail
      else .ok (if negative then -(n : Int) else n)

/-! ### Numbers -/

/-- The decimal digits at the front, and what follows. -/
def digits (cs : List Char) : List Nat × List Char :=
  ((cs.takeWhile fun c => (digitIn? 10 c).isSome).filterMap (digitIn? 10),
    cs.dropWhile fun c => (digitIn? 10 c).isSome)

/-- The exponent that characters spell; zero if there are none. -/
def exponent? : List Char → Option Int
  | [] => some 0
  | c :: cs =>
    let (negative, cs) := sign cs
    match c == 'e' || c == 'E', digits cs with
    | true, (d :: ds, []) =>
      let n : Int := value 10 (d :: ds)
      some (if negative then -n else n)
    | _, _ => none

/-- The number that characters spell with digits, a point and an exponent. -/
def decimal? (negative : Bool) (cs : List Char) : Option Binary64 :=
  let (whole, rest) := digits cs
  let (places, rest) := match rest with
    | '.' :: more => digits more
    | more => ([], more)
  if whole.isEmpty && places.isEmpty then none
  else (exponent? rest).map fun e =>
    .ofDecimal negative (value 10 (whole ++ places)) (e - places.length)

/-- The number that a text spells. One without a value has the payload given. -/
def number? (payload : Nat) (text : String) : Except NumeralError Binary64 :=
  let (negative, cs) := sign (chars text)
  let body := (cs.reverse.dropWhile isSpace).reverse
  let word := String.ofList (body.map Char.toLower)
  if word == "inf" || word == "infinity" then .ok (.infinity negative)
  else if word == "nan" then .ok (.nan payload)
  else match decimal? negative body with
    | some x => .ok x
    | none => .error (.noNumber text)

/-! ### Texts -/

/-- The decimal digits of an integer. -/
def text? (n : Int) : Except NumeralError String :=
  if n.natAbs < Nat.pow 10 digitLimit then .ok (toString n) else .error (.tooManyDigits none)

end Numeral

end ApiDoc
