namespace ApiDoc.Text.Base64

/-!
# Octets in base 64

* `encode` — three octets in four characters, filled up with equals signs;
* `decode?` — octets from characters. Others than those of the alphabet are passed over, and what
  follows the equals signs that fill up four characters is not read.
-/

/-- The characters for the values below 64. -/
def alphabet : List Char :=
  "ABCDEFGHIJKLMNOPQRSTUVWXYZabcdefghijklmnopqrstuvwxyz0123456789+/".toList

/-- The character for a value. -/
def digit (n : Nat) : Char := alphabet.getD (n % 64) '='

/-- The value of a character. -/
def value? (c : Char) : Option Nat := alphabet.idxOf? c

/-- Octets in characters. -/
def encode : List Nat → List Char
  | a :: b :: c :: rest =>
    digit (a / 4) :: digit (a % 4 * 16 + b / 16) :: digit (b % 16 * 4 + c / 64) :: digit c
      :: encode rest
  | [a, b] => [digit (a / 4), digit (a % 4 * 16 + b / 16), digit (b % 16 * 4), '=']
  | [a] => [digit (a / 4), digit (a % 4 * 16), '=', '=']
  | [] => []

/-- What is read after some of four characters: how many they are, the bits not written yet,
    and how many equals signs follow each other. -/
structure Quad where
  size : Nat := 0
  bits : Nat := 0
  pads : Nat := 0

/-- Octets from the characters after some of four. Four characters may only be left unfinished
    where equals signs fill them up. -/
def decodeFrom (q : Quad) : List Char → Option (List Nat)
  | [] => if q.size == 0 then some [] else none
  | c :: rest =>
    if c == '=' then
      if q.size < 2 then decodeFrom q rest
      else if q.size + q.pads + 1 ≥ 4 then some []
      else decodeFrom { q with pads := q.pads + 1 } rest
    else match value? c with
      | none => decodeFrom q rest
      | some v => match q.size with
        | 0 => decodeFrom ⟨1, v, 0⟩ rest
        | 1 => (decodeFrom ⟨2, v % 16, 0⟩ rest).map fun ns => (q.bits * 4 + v / 16) :: ns
        | 2 => (decodeFrom ⟨3, v % 4, 0⟩ rest).map fun ns => (q.bits * 16 + v / 4) :: ns
        | _ => (decodeFrom {} rest).map fun ns => (q.bits * 64 + v) :: ns

/-- Octets from characters. -/
def decode? (cs : List Char) : Option (List Nat) := decodeFrom {} cs

end ApiDoc.Text.Base64
