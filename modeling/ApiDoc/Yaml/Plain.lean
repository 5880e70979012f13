import ApiDoc.Yaml.Cursor

namespace ApiDoc.Yaml

/-!
# Plain scalars

What a text without quotes stands for:

* `PlainForm` — the forms that are no text: null, truth values, integers, numbers, moments, the
  two marks of mappings, and lone indicators;
* `plainForm?` — the form of a text, if it has one;
* `standardTag`, `plainTag` — the tag of a form.

Each form is recognised by the characters that remain: a recogniser takes what it wants from
the front and leaves the rest.
-/

/-- What a plain scalar can be besides a text. -/
inductive PlainForm where
  | bool
  | float
  | int
  | merge
  | null
  | moment
  | value
  | indicator
deriving DecidableEq, Repr

/-- A standard tag. -/
def standardTag (name : String) : String := "tag:yaml.org,2002:" ++ name

/-- The tag of a form. -/
def PlainForm.tag : PlainForm → String
  | bool => standardTag "bool"
  | float => standardTag "float"
  | int => standardTag "int"
  | merge => standardTag "merge"
  | null => standardTag "null"
  | moment => standardTag "timestamp"
  | value => standardTag "value"
  | indicator => standardTag "yaml"

/-- The spellings of true and false. -/
def trueWords : List String := ["yes", "Yes", "YES", "true", "True", "TRUE", "on", "On", "ON"]

@[inherit_doc trueWords]
def falseWords : List String := ["no", "No", "NO", "false", "False", "FALSE", "off", "Off", "OFF"]

/-- The spellings of null. -/
def nullWords : List String := ["~", "null", "Null", "NULL"]

/-- A decimal digit. -/
def isDigit (c : Char) : Bool := '0' ≤ c && c ≤ '9'

/-- A decimal digit or the underscore that groups digits. -/
def isDigitMark (c : Char) : Bool := isDigit c || c == '_'

/-- A hexadecimal digit of either case. -/
def isHexDigit (c : Char) : Bool :=
  isDigit c || ('a' ≤ c && c ≤ 'f') || ('A' ≤ c && c ≤ 'F')

/-- The text without a sign at its front. -/
def dropSign : List Char → List Char
  | '+' :: cs => cs
  | '-' :: cs => cs
  | cs => cs

/-- What follows the parts `:5` or `:59` of a number in base sixty, with how many there were. -/
def dropSixties : List Char → Nat × List Char
  | ':' :: a :: b :: cs =>
    if '0' ≤ a && a ≤ '5' && isDigit b then
      let (n, rest) := dropSixties cs
      (n + 1, rest)
    else if isDigit a then
      let (n, rest) := dropSixties (b :: cs)
      (n + 1, rest)
    else (0, ':' :: a :: b :: cs)
  | [':', a] => if isDigit a then (1, []) else (0, [':', a])
  | cs => (0, cs)

/-- An exponent with its sign, or nothing. -/
def isExponent : List Char → Bool
  | [] => true
  | e :: s :: ds =>
    (e == 'e' || e == 'E') && (s == '+' || s == '-') && !ds.isEmpty && ds.all isDigit
  | _ => false

/-- Integers in base two, eight, ten, sixteen and sixty. -/
def isInt (cs : List Char) : Bool :=
  match dropSign cs with
  | '0' :: 'b' :: ds => !ds.isEmpty && ds.all fun c => c == '0' || c == '1' || c == '_'
  | '0' :: 'x' :: ds => !ds.isEmpty && ds.all fun c => isHexDigit c || c == '_'
  | '0' :: ds => ds.all fun c => ('0' ≤ c && c ≤ '7') || c == '_'
  | d :: ds =>
    isDigit d && match ds.dropWhile isDigitMark with
      | [] => true
      | rest => match dropSixties rest with
        | (_ + 1, []) => true
        | _ => false
  | [] => false

/-- Numbers with a point, in base ten or sixty, infinities and what is no number. -/
def isFloat (cs : List Char) : Bool :=
  [".nan", ".NaN", ".NAN"].contains (String.ofList cs)
    || [".inf", ".Inf", ".INF"].contains (String.ofList (dropSign cs))
    || (match cs with
      | '.' :: d :: ds => isDigit d && isExponent (ds.dropWhile isDigitMark)
      | _ => false)
    || (match dropSign cs with
      | d :: ds => isDigit d && match ds.dropWhile isDigitMark with
        | '.' :: rest => isExponent (rest.dropWhile isDigitMark)
        | rest => match dropSixties rest with
          | (_ + 1, '.' :: more) => more.all isDigitMark
          | _ => false
      | [] => false)

/-- What follows a number of digits between `least` and `most`, taking as many as there are. -/
def dropDigits? (least most : Nat) (cs : List Char) : Option (List Char) :=
  let n := (cs.take most).takeWhile isDigit |>.length
  if n < least then none else some (cs.drop n)

/-- What follows the character `c`. -/
def dropChar? (c : Char) : List Char → Option (List Char)
  | d :: cs => if c == d then some cs else none
  | [] => none

/-- The end of a moment after its seconds: a fraction, then a time zone. -/
def isZoneTail (cs : List Char) : Bool :=
  let cs := match cs with
    | '.' :: ds => ds.dropWhile isDigit
    | cs => cs
  match cs, cs.dropWhile isGap with
  | [], _ => true
  | _, ['Z'] => true
  | _, s :: ds => (s == '+' || s == '-') && match dropDigits? 1 2 ds with
    | some [] => true
    | some (':' :: ms) => dropDigits? 2 2 ms == some []
    | _ => false
  | _, [] => false

/-- A day written with dashes: year, month and day with four, two and two digits. -/
def isDay (cs : List Char) : Bool :=
  (do
    let cs ← dropDigits? 4 4 cs
    let cs ← dropChar? '-' cs
    let cs ← dropDigits? 2 2 cs
    let cs ← dropChar? '-' cs
    dropDigits? 2 2 cs) == some []

/-- A day and a time of day. -/
def isMoment (cs : List Char) : Bool :=
  let rest := do
    let cs ← dropDigits? 4 4 cs
    let cs ← dropChar? '-' cs
    let cs ← dropDigits? 1 2 cs
    let cs ← dropChar? '-' cs
    let cs ← dropDigits? 1 2 cs
    let cs ← match cs with
      | 'T' :: cs => some cs
      | 't' :: cs => some cs
      | c :: cs => if isGap c then some (cs.dropWhile isGap) else none
      | [] => none
    let cs ← dropDigits? 1 2 cs
    let cs ← dropChar? ':' cs
    let cs ← dropDigits? 2 2 cs
    let cs ← dropChar? ':' cs
    dropDigits? 2 2 cs
  match rest with
  | some cs => isZoneTail cs
  | none => false

/-- The form of a text that is not empty. A line end after it makes no difference. -/
def formOf? (s : String) : Option PlainForm :=
  let cs := s.toList
  if (trueWords ++ falseWords).contains s then some .bool
  else if isFloat cs then some .float
  else if isInt cs then some .int
  else if s == "<<" then some .merge
  else if nullWords.contains s then some .null
  else if isDay cs || isMoment cs then some .moment
  else if s == "=" then some .value
  else if ["!", "&", "*"].contains s then some .indicator
  else none

/-- The form of a plain scalar; none for a text. -/
def plainForm? (s : String) : Option PlainForm :=
  if s == "" then some .null
  else match s.toList.reverse with
    | '\n' :: cs => formOf? (String.ofList cs.reverse)
    | _ => formOf? s

/-- The tag of a plain scalar. -/
def plainTag (s : String) : String := ((plainForm? s).map PlainForm.tag).getD (standardTag "str")

end ApiDoc.Yaml
