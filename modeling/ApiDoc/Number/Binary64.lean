namespace ApiDoc

/-!
# Binary floating-point numbers

A double-precision number is kept as its 64 bits, so that two of them can be told apart:

* `Binary64.magnitude?` — the significand and the power of two of a finite number;
* `Binary64.units` — a finite number counted in the least positive one, an exact integer;
* `Binary64.eqInt`, `Binary64.eq`, `Binary64.lt` — exact comparison;
* `Binary64.ofRatio` — the number nearest to a quotient, of two equally near the even one;
* `Binary64.ofDecimal`, `Binary64.ofInt?`, `Binary64.add`, `Binary64.mul` — rounded from exact
  values.
-/

/-- A double-precision number, by its bits. -/
structure Binary64 where
  bits : UInt64
deriving DecidableEq, Repr

namespace Binary64

/-- Whether the sign bit is set. -/
def negative (x : Binary64) : Bool := x.bits >>> 63 == 1

/-- The biased exponent. -/
def exponentField (x : Binary64) : Nat := x.bits.toNat / Nat.pow 2 52 % 2048

/-- The fraction bits. -/
def fraction (x : Binary64) : Nat := x.bits.toNat % Nat.pow 2 52

/-- Neither infinite nor without value. -/
def isFinite (x : Binary64) : Bool := x.exponentField < 2047

/-- The absence of a value. -/
def isNaN (x : Binary64) : Bool := !x.isFinite && x.fraction != 0

/-- `m` and `q` with `|x| = m * 2 ^ q`, for a finite `x`. -/
def magnitude (x : Binary64) : Nat × Int :=
  if x.exponentField == 0 then (x.fraction, -1074)
  else (Nat.pow 2 52 + x.fraction, x.exponentField - 1075)

/-- A finite number in units of the least positive one. -/
def units (x : Binary64) : Int :=
  let m := x.magnitude.1 * Nat.pow 2 (x.magnitude.2 + 1074).toNat
  if x.negative then -(m : Int) else m

/-- One, in units of the least positive number. -/
def unitsPerOne : Int := Nat.pow 2 1074

/-- Whether the number is the integer `n`. -/
def eqInt (x : Binary64) (n : Int) : Bool := x.isFinite && x.units == n * unitsPerOne

/-- Equality of values: the two zeros are equal, and what has no value equals nothing. -/
def eq (x y : Binary64) : Bool :=
  !x.isNaN && !y.isNaN && (x == y || (x.isFinite && y.isFinite && x.units == y.units))

/-- The order of values, infinities included; false where a value is missing. -/
def lt (x y : Binary64) : Bool :=
  if x.isNaN || y.isNaN then false
  else match x.isFinite, y.isFinite with
    | true, true => x.units < y.units
    | true, false => !y.negative
    | false, true => x.negative
    | false, false => x.negative && !y.negative

/-- Whether the number is a zero of either sign. -/
def isZero (x : Binary64) : Bool := x.isFinite && x.units == 0

/-! ### Rounding -/

/-- The infinity of either sign. -/
def infinity (negate : Bool) : Binary64 :=
  ⟨if negate then 0xfff0000000000000 else 0x7ff0000000000000⟩

/-- A number without a value. Such numbers differ from each other by their payload. -/
def nan (payload : Nat) : Binary64 := ⟨UInt64.ofNat (0x7ff8000000000000 + payload % Nat.pow 2 51)⟩

/-- The zero of either sign. -/
def zero (negate : Bool) : Binary64 := ⟨if negate then 0x8000000000000000 else 0⟩

/-- The number with the other sign. -/
def neg (x : Binary64) : Binary64 := ⟨x.bits ^^^ 0x8000000000000000⟩

/-- The quotient rounded to an integer, of two equally near the even one. -/
def roundDiv (num den : Nat) : Nat :=
  let q := num / den
  let twice := 2 * (num % den)
  if twice < den || (twice == den && q % 2 == 0) then q else q + 1

/-- `m * 2 ^ q` with the sign given; `m` has at most 53 bits, or is the 54-bit power of two
    that rounding may carry to. -/
def ofMagnitude (negate : Bool) (m : Nat) (q : Int) : Binary64 :=
  let bits := (q + 1074).toNat * Nat.pow 2 52 + m
  if bits ≥ 2047 * Nat.pow 2 52 then infinity negate
  else ⟨UInt64.ofNat (bits + if negate then Nat.pow 2 63 else 0)⟩

/-- The power of two of the last bit of a quotient's significand. -/
def scale (num den : Nat) : Int :=
  let guess : Int := (Nat.log2 num : Int) - Nat.log2 den - 52
  let shifted := num * Nat.pow 2 (-guess).toNat
  let exact := if shifted < den * Nat.pow 2 guess.toNat * Nat.pow 2 52 then guess - 1 else guess
  max exact (-1074)

/-- The number nearest to a quotient. -/
def ofRatio (negate : Bool) (num den : Nat) : Binary64 :=
  if num == 0 then zero negate
  else
    let q := scale num den
    ofMagnitude negate (roundDiv (num * Nat.pow 2 (-q).toNat) (den * Nat.pow 2 q.toNat)) q

/-- The number nearest to `digits * 10 ^ exponent`. Far from the range of numbers the digits
    do not matter. -/
def ofDecimal (negate : Bool) (digits : Nat) (exponent : Int) : Binary64 :=
  let size := (Nat.toDigits 10 digits).length
  if digits == 0 || exponent + size < -400 then zero negate
  else if exponent + size > 400 then infinity negate
  else ofRatio negate (digits * Nat.pow 10 exponent.toNat) (Nat.pow 10 (-exponent).toNat)

/-- The number nearest to an integer; none if it is beyond the greatest. -/
def ofInt? (n : Int) : Option Binary64 :=
  let x := ofRatio (n < 0) n.natAbs 1
  if x.isFinite then some x else none

/-! ### Arithmetic -/

/-- The sum, rounded. -/
def add (x y : Binary64) : Binary64 :=
  if x.isNaN || y.isNaN then nan 0
  else match x.isFinite, y.isFinite with
    | true, true =>
      let sum := x.units + y.units
      if sum == 0 then zero (x.negative && y.negative)
      else ofRatio (sum < 0) sum.natAbs unitsPerOne.natAbs
    | true, false => y
    | false, true => x
    | false, false => if x.negative == y.negative then x else nan 0

/-- The product, rounded. -/
def mul (x y : Binary64) : Binary64 :=
  let negate := x.negative != y.negative
  if x.isNaN || y.isNaN then nan 0
  else if x.isFinite && y.isFinite then
    ofRatio negate (x.units.natAbs * y.units.natAbs) (unitsPerOne.natAbs * unitsPerOne.natAbs)
  else if x.isZero || y.isZero then nan 0
  else infinity negate

end Binary64

end ApiDoc
