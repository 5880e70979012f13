namespace ApiDoc.Text

/-!
# Lines

* `endsLine` — the characters that end a line;
* `lines` — the lines of a text, a carriage return with a line feed ending one line.
-/

/-- The code points that end a line. -/
def lineEnds : List Nat := [0xa, 0xb, 0xc, 0xd, 0x1c, 0x1d, 0x1e, 0x85, 0x2028, 0x2029]

/-- Whether a character ends a line. -/
def endsLine (c : Char) : Bool := lineEnds.contains c.toNat

/-- The lines of characters; what follows the last line end is a line unless it is empty. -/
def linesOf : List Char → List (List Char)
  | [] => []
  | '\r' :: '\n' :: rest => [] :: linesOf rest
  | c :: rest =>
    if endsLine c then [] :: linesOf rest
    else match rest, linesOf rest with
      | [], _ => [[c]]
      | _, line :: more => (c :: line) :: more
      | _, [] => [[c]]

/-- The lines of a text. -/
def lines (s : String) : List String := (linesOf s.toList).map String.ofList

end ApiDoc.Text
