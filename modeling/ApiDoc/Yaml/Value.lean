import ApiDoc.Text.Base64
import ApiDoc.Text.Case
import ApiDoc.Yaml.Plain

namespace ApiDoc.Yaml

/-!
# The values of tagged scalars

* `Tagged.int`, `Tagged.float`, `Tagged.bool`, `Tagged.moment`, `Tagged.binary` — what a text
  with a standard tag stands for, whether the text has the form of the tag or not;
* `scalarValue?` — the same by tag.
-/

namespace Tagged

/-! ### Numbers -/

/-- The parts of a text between colons. -/
def splitColons : List Char → List (List Char)
  | [] => [[]]
  | c :: rest =>
    match splitColons rest with
    | part :: parts => if c == ':' then [] :: part :: parts else (c :: part) :: parts
    | [] => [[c]]

/-- The characters of a number: a sign, and what follows. A number cannot be empty. -/
def signed (cs : List Char) : Except Failure (Bool × List Char) :=
  match cs with
  | [] => .error (.outOfRange "string")
  | '-' :: rest => .ok (true, rest)
  | '+' :: rest => .ok (false, rest)
  | cs => .ok (false, cs)

/-- An integer in a base. -/
def integer (base : Nat) (cs : List Char) : Except Failure Int :=
  (Numeral.integer? base (String.ofList cs)).mapError .noNumber

/-- An integer in base two, eight, ten, sixteen or sixty, digits grouped by underscores. -/
def int (text : String) : Except Failure Scalar := do
  let (negative, cs) ← signed (text.toList.filter (· != '_'))
  let n ← match cs with
    | ['0'] => pure 0
    | '0' :: 'b' :: digits => integer 2 digits
    | '0' :: 'x' :: digits => integer 16 digits
    | '0' :: _ => integer 8 cs
    | [] => throw (.outOfRange "string")
    | _ =>
      if cs.contains ':' then do
        let parts ← (splitColons cs).mapM (integer 10)
        pure (parts.foldl (fun n part => n * 60 + part) 0)
      else integer 10 cs
  return .int (if negative then -n else n)

/-- A number in base ten. -/
def decimal (payload : Nat) (cs : List Char) : Except Failure Binary64 :=
  (Numeral.number? payload (String.ofList cs)).mapError .noNumber

/-- The number that places in base sixty make up, the last place first. Every step rounds. -/
def sixties (places : List Binary64) (base : Int) (sum : Binary64) : Except Failure Binary64 :=
  match places with
  | [] => .ok sum
  | x :: rest => match Binary64.ofInt? base with
    | some b => sixties rest (base * 60) (sum.add (x.mul b))
    | none => .error (.noNumber .tooLarge)

/-- A number in base ten or sixty. One without a value has the payload given, unless it is
    written as such. -/
def float (payload : Nat) (text : String) : Except Failure Scalar := do
  let (negative, cs) ← signed (Text.lower (String.ofList (text.toList.filter (· != '_')))).toList
  let x ← match String.ofList cs with
    | ".inf" => pure (Binary64.infinity false)
    | ".nan" => pure (Binary64.nan 1)
    | _ =>
      if cs.contains ':' then do
        let places ← (splitColons cs).mapM (decimal payload)
        sixties places.reverse 1 (.zero false)
      else decimal payload cs
  return .float (if negative && !x.isNaN then x.neg else x)

/-! ### Truth values, moments and octets -/

/-- A truth value, in any case. -/
def bool (text : String) : Except Failure Scalar :=
  let word := Text.lower text
  if ["yes", "true", "on"].contains word then .ok (.bool true)
  else if ["no", "false", "off"].contains word then .ok (.bool false)
  else .error (.noKey (.str word))

/-- A number of so many decimal digits at the front, as many as there are, and what follows. -/
def digits? (least most : Nat) (cs : List Char) : Option (Nat × List Char) :=
  let ds := (cs.take most).takeWhile isDigit
  if ds.length < least then none
  else some (Numeral.value 10 (ds.filterMap Numeral.digit?), cs.drop ds.length)

/-- A day, its parts not checked, and what follows. -/
def dayParts? (cs : List Char) : Option ((Nat × Nat × Nat) × List Char) := do
  let (year, cs) ← digits? 4 4 cs
  let (month, cs) ← digits? 1 2 (← dropChar? '-' cs)
  let (day, cs) ← digits? 1 2 (← dropChar? '-' cs)
  return ((year, month, day), cs)

/-- The parts of a time of day: hour, minute, second, microsecond and offset in minutes. -/
structure ClockParts where
  hour : Nat
  minute : Nat
  second : Nat
  micro : Nat
  offset? : Option Int

/-- The microseconds that the digits after a point make up, and what follows. -/
def micros : List Char → Nat × List Char
  | '.' :: cs =>
    let ds := cs.takeWhile isDigit
    let six := (ds ++ List.replicate 6 '0').take 6
    (Numeral.value 10 (six.filterMap Numeral.digit?), cs.dropWhile isDigit)
  | cs => (0, cs)

/-- An offset from universal time up to the end; none of a text that is no offset. -/
def offset? (cs : List Char) : Option (Option Int) :=
  match cs, cs.dropWhile isGap with
  | [], _ => some none
  | _, ['Z'] => some (some 0)
  | _, sign :: ds => do
    let negative ← [('-', true), ('+', false)].lookup sign
    let (hours, rest) ← digits? 1 2 ds
    let minutes ← match rest with
      | [] => some 0
      | ':' :: ms => match digits? 2 2 ms with
        | some (minutes, []) => some minutes
        | _ => none
      | _ => none
    let n : Int := (hours * 60 + minutes : Nat)
    return some (if negative then -n else n)
  | _, [] => none

/-- A time of day behind a day, up to the end. -/
def clockParts? (cs : List Char) : Option ClockParts := do
  let cs ← match cs with
    | 'T' :: cs => some cs
    | 't' :: cs => some cs
    | c :: cs => if isGap c then some (cs.dropWhile isGap) else none
    | [] => none
  let (hour, cs) ← digits? 1 2 cs
  let (minute, cs) ← digits? 2 2 (← dropChar? ':' cs)
  let (second, cs) ← digits? 2 2 (← dropChar? ':' cs)
  let (micro, cs) := micros cs
  return ⟨hour, minute, second, micro, ← offset? cs⟩

/-- A day with or without a time of day, its parts not checked. -/
def momentParts? (cs : List Char) : Option ((Nat × Nat × Nat) × Option ClockParts) := do
  match ← dayParts? cs with
  | (day, []) => return (day, none)
  | (day, rest) => return (day, some (← clockParts? rest))

/-- The text without the end of a line after it. -/
def dropLineEnd (cs : List Char) : List Char :=
  match cs.reverse with
  | '\n' :: rest => rest.reverse
  | _ => cs

/-- An offset less than a day. -/
def checkOffset : Option Int → Except MomentError Unit
  | none => .ok ()
  | some minutes => if minutes.natAbs < 1440 then .ok () else .error (.offset minutes)

/-- A moment from its parts. -/
def momentOf (day : Nat × Nat × Nat) (clock? : Option ClockParts) : Except MomentError Moment := do
  match clock? with
  | none => return ⟨← Day.of? day.1 day.2.1 day.2.2, none⟩
  | some c =>
    checkOffset c.offset?
    let date ← Day.of? day.1 day.2.1 day.2.2
    return ⟨date, some (← Clock.of? c.hour c.minute c.second c.micro c.offset?)⟩

/-- A moment with a mark. -/
def moment (mark : Nat) (text : String) : Except Failure Scalar :=
  match momentParts? (dropLineEnd text.toList) with
  | none => .error (.noAttribute "NoneType" "groupdict")
  | some (day, clock?) => match momentOf day clock? with
    | .ok m => .ok (.moment m mark)
    | .error e => .error (.noMoment e)

/-- Octets in base 64. -/
def binary (text : String) : Except Failure Scalar :=
  let cs := text.toList
  match if cs.all fun c => c.toNat < 128 then Text.Base64.decode? cs else none with
  | some octets => .ok (.bytes octets)
  | none => .error .malformedYaml

end Tagged

/-- What a text with a standard tag stands for; none for a tag of no scalar. The number is that
    of the mark or payload where one is needed. -/
def scalarValue? (number : Nat) (tag text : String) : Option (Except Failure Scalar) :=
  let readers : List (String × (String → Except Failure Scalar)) :=
    [("null", fun _ => .ok .null), ("bool", Tagged.bool), ("int", Tagged.int),
     ("float", Tagged.float number), ("timestamp", Tagged.moment number),
     ("binary", Tagged.binary), ("str", fun s => .ok (.str s))]
  (readers.find? fun r => tag == standardTag r.1).map fun r => r.2 text

end ApiDoc.Yaml
