namespace ApiDoc.Text

/-!
# Ranges of code points

A character class is a list of closed ranges of code points:

* `inRanges` decides membership;
* `Shift` is a run of characters that a mapping moves by one distance.
-/

/-- Membership of a character in a list of closed ranges of code points. -/
def inRanges (ranges : List (Nat × Nat)) (c : Char) : Bool :=
  ranges.any fun r => r.1 ≤ c.toNat && c.toNat ≤ r.2

/-- The code points `first, first + step, …` up to `last`, each moved by `distance`. -/
structure Shift where
  first : Nat
  last : Nat
  step : Nat
  distance : Int

/-- Whether the run holds the character. -/
def Shift.covers (s : Shift) (c : Char) : Bool :=
  s.first ≤ c.toNat && c.toNat ≤ s.last && (c.toNat - s.first) % s.step == 0

/-- The image of a character under the first run that holds it; itself if none does. -/
def shifted (runs : List Shift) (c : Char) : Char :=
  match runs.find? (·.covers c) with
  | some s => Char.ofNat (c.toNat + s.distance).toNat
  | none => c

end ApiDoc.Text
