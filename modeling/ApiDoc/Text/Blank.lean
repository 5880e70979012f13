import ApiDoc.Text.Ranges

namespace ApiDoc.Text

/-!
# Blank characters

* `isBlank` — white space of any script, with the information separators;
* `dropTrailingBlanks` — a text without the blanks at its end.
-/

/-- The code points of white space: controls, the information separators and the spaces and
    separators of all scripts. -/
def blankRanges : List (Nat × Nat) :=
  [(0x9, 0xd), (0x1c, 0x20), (0x85, 0x85), (0xa0, 0xa0), (0x1680, 0x1680), (0x2000, 0x200a),
   (0x2028, 0x2029), (0x202f, 0x202f), (0x205f, 0x205f), (0x3000, 0x3000)]

/-- White space of any script. -/
def isBlank (c : Char) : Bool := inRanges blankRanges c

/-- The text without the blanks at its end. -/
def dropTrailingBlanks (cs : List Char) : List Char :=
  (cs.reverse.dropWhile isBlank).reverse

end ApiDoc.Text
