import ApiDoc.Text.Case.Tables

namespace ApiDoc.Text

/-!
# Case of a text

* `lower`, `upper` — a text in lower or upper case; one character may become several, and
  a capital sigma at the end of a word becomes the final form;
* `capitalize` — the first character in title case, the rest in lower case.
-/

/-- The characters that stand for `c` in a table of wide images. -/
def wide? (table : List (Nat × List Nat)) (c : Char) : Option (List Char) :=
  (table.lookup c.toNat).map fun ns => ns.map Char.ofNat

/-- The lower case of one character, away from its neighbours. -/
def lowerChar (c : Char) : List Char := (wide? lowerWide c).getD [shifted lowerShifts c]

/-- The upper case of one character. -/
def upperChar (c : Char) : List Char := (wide? upperWide c).getD [shifted upperShifts c]

/-- The title case of one character. -/
def titleChar (c : Char) : List Char := (wide? titleWide c).getD (upperChar c)

/-- Whether the nearest character that counts has case. -/
def meetsCased (cs : List Char) : Bool :=
  match cs.dropWhile (inRanges ignoredRanges) with
  | c :: _ => inRanges casedRanges c
  | [] => false

/-- A text in lower case, after the characters of `before`, the nearest first. -/
def lowerAfter : (before : List Char) → List Char → List Char
  | _, [] => []
  | before, c :: rest =>
    let image :=
      if c == 'Σ' then [if meetsCased before && !meetsCased rest then 'ς' else 'σ']
      else lowerChar c
    image ++ lowerAfter (c :: before) rest

/-- A text in lower case. -/
def lower (s : String) : String := .ofList (lowerAfter [] s.toList)

/-- A text in upper case. -/
def upper (s : String) : String := .ofList (s.toList.flatMap upperChar)

/-- The first character in title case and the rest in lower case. -/
def capitalizeChars : List Char → List Char
  | [] => []
  | c :: rest => titleChar c ++ lowerAfter [c] rest

end ApiDoc.Text
