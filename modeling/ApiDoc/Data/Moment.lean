namespace ApiDoc

/-!
# Moments

A day of the calendar, with or without a time of day and an offset from universal time:

* `Day.of?`, `Clock.of?` — days and times of day that exist;
* `Moment.alike`, `Moment.before?` — two moments with offsets compare as instants, and one with
  an offset has no order to one without;
* `Moment.text`, `Moment.literal` — a moment as a text.
-/

/-- Why numbers make no moment. -/
inductive MomentError where
  | year (n : Nat)
  | month
  | day
  | hour
  | minute
  | second
  /-- An offset of a day or more, in minutes. -/
  | offset (minutes : Int)
deriving DecidableEq, Repr

/-- A day. -/
structure Day where
  year : Nat
  month : Nat
  day : Nat
deriving DecidableEq, Repr

/-- A time of day, to the microsecond, with its offset from universal time in minutes. -/
structure Clock where
  hour : Nat
  minute : Nat
  second : Nat
  micro : Nat
  offset? : Option Int
deriving DecidableEq, Repr

/-- A moment. -/
structure Moment where
  day : Day
  clock? : Option Clock
deriving DecidableEq, Repr

/-! ### The calendar -/

/-- Whether a year has 366 days. -/
def isLeapYear (year : Nat) : Bool := year % 4 == 0 && (year % 100 != 0 || year % 400 == 0)

/-- The days of a month. -/
def monthDays (year month : Nat) : Nat :=
  if month == 2 then (if isLeapYear year then 29 else 28)
  else if [4, 6, 9, 11].contains month then 30
  else 31

namespace Day

/-- The day with these numbers. -/
def of? (year month day : Nat) : Except MomentError Day :=
  if year == 0 then .error (.year year)
  else if month == 0 || month > 12 then .error .month
  else if day == 0 || day > monthDays year month then .error .day
  else .ok ⟨year, month, day⟩

/-- How many days have passed since the first day of the first year. -/
def count (d : Day) : Nat :=
  let y := d.year - 1
  let months := (List.range (d.month - 1)).foldl (fun n m => n + monthDays d.year (m + 1)) 0
  y * 365 + y / 4 - y / 100 + y / 400 + months + (d.day - 1)

end Day

namespace Clock

/-- The time of day with these numbers. -/
def of? (hour minute second micro : Nat) (offset? : Option Int) : Except MomentError Clock :=
  if hour > 23 then .error .hour
  else if minute > 59 then .error .minute
  else if second > 59 then .error .second
  else .ok ⟨hour, minute, second, micro, offset?⟩

/-- The microseconds since midnight. -/
def count (c : Clock) : Nat :=
  ((c.hour * 60 + c.minute) * 60 + c.second) * 1000000 + c.micro

end Clock

namespace Moment

/-! ### Comparison -/

/-- A moment in microseconds; as an instant where an offset is given. -/
def count (m : Moment) : Int :=
  match m.clock? with
  | none => (m.day.count : Int)
  | some c => ((m.day.count * 86400000000 + c.count : Nat) : Int) - c.offset?.getD 0 * 60000000

/-- Whether a moment has a time of day. -/
def hasClock (m : Moment) : Bool := m.clock?.isSome

/-- Whether a moment has an offset. -/
def hasOffset (m : Moment) : Bool := (m.clock?.bind (·.offset?)).isSome

/-- Equality of moments of one sort. -/
def alike (m n : Moment) : Bool :=
  m.hasClock == n.hasClock && m.hasOffset == n.hasOffset && m.count == n.count

/-- Why two moments have no order. -/
inductive Unlike where
  | clock
  | offset
deriving DecidableEq, Repr

/-- Whether a moment comes before another of the same sort. -/
def before? (m n : Moment) : Except Unlike Bool :=
  if m.hasClock != n.hasClock then .error .clock
  else if m.hasOffset != n.hasOffset then .error .offset
  else .ok (m.count < n.count)

/-! ### Texts -/

/-- A number in at least so many decimal digits. -/
def padded (width n : Nat) : String :=
  let ds := Nat.toDigits 10 n
  String.ofList (List.replicate (width - ds.length) '0' ++ ds)

/-- A day as a text. -/
def dayText (d : Day) : String :=
  padded 4 d.year ++ "-" ++ padded 2 d.month ++ "-" ++ padded 2 d.day

/-- An offset as a text. -/
def offsetText : Option Int → String
  | none => ""
  | some minutes =>
    (if minutes < 0 then "-" else "+")
      ++ padded 2 (minutes.natAbs / 60) ++ ":" ++ padded 2 (minutes.natAbs % 60)

/-- A time of day as a text. -/
def clockText (c : Clock) : String :=
  padded 2 c.hour ++ ":" ++ padded 2 c.minute ++ ":" ++ padded 2 c.second
    ++ (if c.micro == 0 then "" else "." ++ padded 6 c.micro) ++ offsetText c.offset?

/-- A moment as a text, with `mark` between day and time. -/
def text (mark : String) (m : Moment) : String :=
  dayText m.day ++ match m.clock? with
    | none => ""
    | some c => mark ++ clockText c

/-- Texts in parentheses after a name. -/
def call (name : String) (args : List String) : String :=
  name ++ "(" ++ ", ".intercalate args ++ ")"

/-- A span of minutes as messages write it: whole days and the seconds after them. -/
def spanLiteral (minutes : Int) : String :=
  let days := minutes.fdiv 1440
  let seconds := minutes.fmod 1440 * 60
  let parts := (if days == 0 then [] else ["days=" ++ toString days])
    ++ (if seconds == 0 then [] else ["seconds=" ++ toString seconds])
  call "datetime.timedelta" (if parts.isEmpty then ["0"] else parts)

/-- An offset as messages write it. -/
def offsetLiteral : Option Int → List String
  | none => []
  | some minutes =>
    ["tzinfo=" ++ if minutes == 0 then "datetime.timezone.utc"
      else call "datetime.timezone" [spanLiteral minutes]]

/-- A time of day as messages write it, without zeros at the end. -/
def clockLiteral (c : Clock) : List String :=
  let seconds := if c.second == 0 && c.micro == 0 then [] else [c.second]
  let micros := if c.micro == 0 then [] else [c.micro]
  ([c.hour, c.minute] ++ seconds ++ micros).map toString ++ offsetLiteral c.offset?

/-- A moment as messages write it. -/
def literal (m : Moment) : String :=
  let day := [m.day.year, m.day.month, m.day.day].map toString
  match m.clock? with
  | none => call "datetime.date" day
  | some c => call "datetime.datetime" (day ++ clockLiteral c)

end Moment

/-- The text about the cause. -/
def MomentError.message : MomentError → String
  | year n => "year " ++ toString n ++ " is out of range"
  | month => "month must be in 1..12"
  | day => "day is out of range for month"
  | hour => "hour must be in 0..23"
  | minute => "minute must be in 0..59"
  | second => "second must be in 0..59"
  | offset minutes =>
    "offset must be a timedelta strictly between -timedelta(hours=24) and timedelta(hours=24), not "
      ++ Moment.spanLiteral minutes ++ "."

end ApiDoc
