import ApiDoc.Text.Quoted
import ApiDoc.Text.Units

namespace ApiDoc.Digest

/-!
# The SHA-1 digest

* `pad` — a message filled up to whole blocks of 64 octets, with its length at the end;
* `schedule` — the eighty words of a block;
* `compress` — the state after one block;
* `sha1Hex` — the digest of a text in hexadecimal digits.
-/

/-- The chaining state. -/
structure State where
  a : UInt32
  b : UInt32
  c : UInt32
  d : UInt32
  e : UInt32
deriving DecidableEq, Repr

/-- The state before the first block. -/
def State.start : State := ⟨0x67452301, 0xefcdab89, 0x98badcfe, 0x10325476, 0xc3d2e1f0⟩

/-- A rotation to the left. -/
def rotate (x : UInt32) (n : UInt32) : UInt32 := x <<< n ||| x >>> (32 - n)

/-- A number as `count` octets, the highest first. -/
def bigEndian (count n : Nat) : List Nat :=
  (List.range count).reverse.map fun i => n / Nat.pow 256 i % 256

/-- The message, a set bit, zeros up to eight octets before the end of a block, and the
    length of the message in bits. -/
def pad (message : List Nat) : List Nat :=
  let zeros := (119 - message.length % 64) % 64
  message ++ 0x80 :: List.replicate zeros 0 ++ bigEndian 8 (8 * message.length)

/-- Octets taken four at a time as words, the highest octet first. -/
def words : List Nat → List UInt32
  | a :: b :: c :: d :: rest =>
    UInt32.ofNat (((a * 256 + b) * 256 + c) * 256 + d) :: words rest
  | _ => []

/-- More words of the schedule; `recent` holds those before, the latest first. -/
def extend (recent : List UInt32) : Nat → List UInt32
  | 0 => []
  | n + 1 =>
    let back (i : Nat) : UInt32 := recent.getD i 0
    let w := rotate (back 2 ^^^ back 7 ^^^ back 13 ^^^ back 15) 1
    w :: extend (w :: recent.take 15) n

/-- The eighty words of a block. -/
def schedule (block : List UInt32) : List UInt32 := block ++ extend block.reverse 64

/-- The state after round number `i` with the word `w`. -/
def State.round (s : State) (i : Nat) (w : UInt32) : State :=
  let (f, k) : UInt32 × UInt32 :=
    if i < 20 then ((s.b &&& s.c) ||| (~~~s.b &&& s.d), 0x5a827999)
    else if i < 40 then (s.b ^^^ s.c ^^^ s.d, 0x6ed9eba1)
    else if i < 60 then ((s.b &&& s.c) ||| (s.b &&& s.d) ||| (s.c &&& s.d), 0x8f1bbcdc)
    else (s.b ^^^ s.c ^^^ s.d, 0xca62c1d6)
  ⟨rotate s.a 5 + f + s.e + k + w, s.a, rotate s.b 30, s.c, s.d⟩

/-- The state after the rounds from number `i` on. -/
def State.rounds (s : State) (i : Nat) : List UInt32 → State
  | [] => s
  | w :: ws => (s.round i w).rounds (i + 1) ws

/-- The state after a block. -/
def State.compress (s : State) (block : List UInt32) : State :=
  let t := s.rounds 0 (schedule block)
  ⟨s.a + t.a, s.b + t.b, s.c + t.c, s.d + t.d, s.e + t.e⟩

/-- The state after so many blocks of sixteen words. -/
def State.absorb (s : State) (ws : List UInt32) : Nat → State
  | 0 => s
  | n + 1 => (s.compress (ws.take 16)).absorb (ws.drop 16) n

/-- The final state for a message of octets. -/
def sha1 (message : List Nat) : State :=
  let padded := pad message
  State.start.absorb (words padded) (padded.length / 64)

/-- The digest of a text in hexadecimal digits. -/
def sha1Hex (text : String) : String :=
  let s := sha1 (text.toList.flatMap Text.octets)
  .ofList ([s.a, s.b, s.c, s.d, s.e].flatMap fun w => Text.hex 8 w.toNat)

end ApiDoc.Digest
