namespace ApiDoc.Text

/-!
# Code units

* `unitsOf`, `units16` — a character in 16-bit units, two for one beyond the first plane;
* `half?`, `ofUnit`, `joinUnits` — texts may hold one half of a pair alone, for which a
  character of the last plane stands;
* `octets`, `ofOctets?` — a character in the octets of UTF-8, and characters from octets.

The characters U+10D800 to U+10DFFF are for private use and stand for lone halves here: texts that
hold one of them as a character of its own are outside the model. In the order of characters a
stand-in comes behind U+E000 to U+10D7FF, where the half itself comes before them.
-/

/-! ### 16-bit units -/

/-- Whether a unit is the first of a pair. -/
def isFirstUnit (n : Nat) : Bool := 0xd800 ≤ n && n < 0xdc00

/-- Whether a unit is the second of a pair. -/
def isSecondUnit (n : Nat) : Bool := 0xdc00 ≤ n && n < 0xe000

/-- The distance from half a pair to the character that stands for it. -/
def halfDistance : Nat := 0x100000

/-- The half of a pair that a character from U+10D800 to U+10DFFF stands for. No text holds such a
    character as one of its own. -/
def half? (c : Char) : Option Nat :=
  let n := c.toNat - halfDistance
  if isFirstUnit n || isSecondUnit n then some n else none

/-- The character of a unit. -/
def ofUnit (n : Nat) : Char :=
  Char.ofNat (if isFirstUnit n || isSecondUnit n then halfDistance + n else n)

/-- The characters of units, pairs being joined. -/
def joinUnits : List Nat → List Char
  | m :: n :: rest =>
    if isFirstUnit m && isSecondUnit n then
      Char.ofNat (0x10000 + (m - 0xd800) * 0x400 + (n - 0xdc00)) :: joinUnits rest
    else ofUnit m :: joinUnits (n :: rest)
  | ns => ns.map ofUnit

/-- The 16-bit units of the character with a number. -/
def unitsOf (n : Nat) : List Nat :=
  if n < 0x10000 then [n]
  else [0xd800 + (n - 0x10000) / 0x400, 0xdc00 + (n - 0x10000) % 0x400]

/-- The 16-bit units of a character: one lone half if it stands for one. -/
def units16 (c : Char) : List Nat := (half? c).elim (unitsOf c.toNat) ([·])

/-! ### Octets -/

/-- The octets of a character. -/
def octets (c : Char) : List Nat :=
  let n := c.toNat
  if n < 0x80 then [n]
  else if n < 0x800 then [0xc0 + n / 0x40, 0x80 + n % 0x40]
  else if n < 0x10000 then [0xe0 + n / 0x1000, 0x80 + n / 0x40 % 0x40, 0x80 + n % 0x40]
  else [0xf0 + n / 0x40000, 0x80 + n / 0x1000 % 0x40, 0x80 + n / 0x40 % 0x40, 0x80 + n % 0x40]

/-- The low six bits of an octet that continues a character. -/
def continuation? (n : Nat) : Option Nat := if n / 0x40 == 2 then some (n % 0x40) else none

/-- A code point that takes no fewer octets than were read. -/
def codePoint? (least n : Nat) : Option Char :=
  if least ≤ n && n ≤ 0x10ffff && !(isFirstUnit n || isSecondUnit n) then some (Char.ofNat n)
  else none

/-- The characters that octets write; none if they write no text. -/
def ofOctets? : List Nat → Option (List Char)
  | [] => some []
  | a :: rest =>
    if a < 0x80 then do return Char.ofNat a :: (← ofOctets? rest)
    else match rest with
      | b :: rest =>
        if a / 0x20 == 6 then do
          let c ← codePoint? 0x80 (a % 0x20 * 0x40 + (← continuation? b))
          return c :: (← ofOctets? rest)
        else match rest with
          | c :: rest =>
            if a / 0x10 == 14 then do
              let n := (a % 0x10 * 0x40 + (← continuation? b)) * 0x40 + (← continuation? c)
              let c ← codePoint? 0x800 n
              return c :: (← ofOctets? rest)
            else match rest with
              | d :: rest =>
                if a / 8 == 30 then do
                  let n := (a % 8 * 0x40 + (← continuation? b)) * 0x40 + (← continuation? c)
                  let c ← codePoint? 0x10000 (n * 0x40 + (← continuation? d))
                  return c :: (← ofOctets? rest)
                else none
              | [] => none
          | [] => none
      | [] => none

end ApiDoc.Text
