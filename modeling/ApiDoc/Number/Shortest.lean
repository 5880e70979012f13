import ApiDoc.Number.Binary64

namespace ApiDoc

/-!
# Shortest decimal text of a number

The text of a finite number has the fewest digits that read back as the same number, and
among those the digits nearest to it:

* `Binary64.shortest` — those digits and their power of ten;
* `NumberStyle` — how digits are laid out;
* `Binary64.text` — a number in a style.
-/

namespace Binary64

/-- A number and the interval of reals that round to it, in units of `2 ^ exponent`.
    The ends belong to the interval when `closed` holds. -/
structure Rounding where
  value : Nat
  low : Nat
  high : Nat
  exponent : Int
  closed : Bool

/-- The interval of reals that round to `m * 2 ^ q`. Below a power of two the numbers lie
    twice as close. -/
def rounding (m : Nat) (q : Int) : Rounding where
  value := 4 * m
  low := if m == Nat.pow 2 52 && q > -1074 then 4 * m - 1 else 4 * m - 2
  high := 4 * m + 2
  exponent := q - 2
  closed := m % 2 == 0

namespace Rounding

/-- A count of steps `10 ^ g`, brought to the common denominator of both grids. -/
def ofSteps (r : Rounding) (g : Int) (d : Nat) : Nat :=
  d * Nat.pow 10 g.toNat * Nat.pow 2 (-r.exponent).toNat

/-- A count of units, brought to the common denominator of both grids. -/
def ofUnits (r : Rounding) (g : Int) (u : Nat) : Nat :=
  u * Nat.pow 2 r.exponent.toNat * Nat.pow 10 (-g).toNat

/-- Whether `d * 10 ^ g` rounds to the number. -/
def holds (r : Rounding) (g : Int) (d : Nat) : Bool :=
  let x := r.ofSteps g d
  if r.closed then r.ofUnits g r.low ≤ x && x ≤ r.ofUnits g r.high
  else r.ofUnits g r.low < x && x < r.ofUnits g r.high

/-- The power of ten of the first digit. -/
def leading (r : Rounding) : Int :=
  let scaled := r.ofUnits (-330) r.value / Nat.pow 2 (-r.exponent).toNat
  (Nat.toDigits 10 scaled).length - 331

/-- The neighbour on the grid `10 ^ g` that rounds to the number, the nearer of two, and of
    two equally near the even one. -/
def neighbour? (r : Rounding) (g : Int) : Option Nat :=
  let v := r.ofUnits g r.value
  let d := v / r.ofSteps g 1
  match r.holds g d, r.holds g (d + 1) with
  | false, false => none
  | true, false => some d
  | false, true => some (d + 1)
  | true, true =>
    let below := v - r.ofSteps g d
    let above := r.ofSteps g (d + 1) - v
    some (if below < above || (below == above && d % 2 == 0) then d else d + 1)

end Rounding

/-- The same value without zeros at the end of the digits. -/
def dropZeros (fuel : Nat) (d : Nat) (g : Int) : Nat × Int :=
  match fuel with
  | 0 => (d, g)
  | fuel + 1 => if d != 0 && d % 10 == 0 then dropZeros fuel (d / 10) (g + 1) else (d, g)

/-- The fewest digits that read back as `m * 2 ^ q`, with their power of ten. Seventeen
    always do. -/
def shortest (m : Nat) (q : Int) : Nat × Int :=
  let r := rounding m q
  let p := r.leading
  let hit := (List.range 17).findSome? fun (n : Nat) =>
    (r.neighbour? (p - n)).map fun d => (d, p - (n : Int))
  match hit with
  | some (d, g) => dropZeros 20 d g
  | none => (0, 0)

end Binary64

/-- How a number is laid out: the names of what is no finite number, and whether an exponent
    always follows a point. -/
structure NumberStyle where
  nan : String
  infinity : String
  negativeInfinity : String
  pointBeforeExponent : Bool := false

/-- Digits with a point: positional when the first digit lies from `10 ^ -4` to `10 ^ 15`,
    and otherwise with an exponent of at least two digits. -/
def layDigits (pointBeforeExponent : Bool) (digits : Nat) (g : Int) : String :=
  let ds := Nat.toDigits 10 digits
  let point : Int := ds.length + g
  let zeros (n : Nat) : List Char := List.replicate n '0'
  if -4 < point ∧ point ≤ 16 then
    if point ≤ 0 then .ofList ('0' :: '.' :: zeros (-point).toNat ++ ds)
    else if g ≥ 0 then .ofList (ds ++ zeros g.toNat ++ ['.', '0'])
    else .ofList (ds.take point.toNat ++ '.' :: ds.drop point.toNat)
  else
    let e := point - 1
    let tail := Nat.toDigits 10 e.natAbs
    let exponent := 'e' :: (if e < 0 then '-' else '+') :: (zeros (2 - tail.length) ++ tail)
    let front := match ds with
      | [d] => if pointBeforeExponent then [d, '.', '0'] else [d]
      | d :: rest => d :: '.' :: rest
      | [] => []
    .ofList (front ++ exponent)

/-- The text of a number in a style. -/
def Binary64.text (style : NumberStyle) (x : Binary64) : String :=
  if x.isNaN then style.nan
  else if !x.isFinite then
    if x.negative then style.negativeInfinity else style.infinity
  else
    let sign := if x.negative then "-" else ""
    let (m, q) := x.magnitude
    if m == 0 then sign ++ "0.0"
    else
      let (d, g) := Binary64.shortest m q
      sign ++ layDigits style.pointBeforeExponent d g

end ApiDoc
