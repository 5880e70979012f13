import ApiDoc.Text.Printable
import ApiDoc.Text.Units

namespace ApiDoc.Text

/-!
# Quoted text

A text between quotes as messages show it:

* `quoted` — single quotes, or double ones around a text that holds a single quote and no
  double one; what cannot be printed is escaped;
* `hex` — a number in hexadecimal digits, filled up with zeros.
-/

/-- A number in lower-case hexadecimal digits, at least `width` of them. -/
def hex (width n : Nat) : List Char :=
  let ds := Nat.toDigits 16 n
  List.replicate (width - ds.length) '0' ++ ds

/-- The escaped form of one character between the quotes `q`. -/
def quoteChar (q c : Char) : List Char :=
  if c == q || c == '\\' then ['\\', c]
  else if c == '\n' then ['\\', 'n']
  else if c == '\r' then ['\\', 'r']
  else if c == '\t' then ['\\', 't']
  else if let some unit := half? c then '\\' :: 'u' :: hex 4 unit
  else if isPrintable c then [c]
  else if c.toNat < 0x100 then '\\' :: 'x' :: hex 2 c.toNat
  else if c.toNat < 0x10000 then '\\' :: 'u' :: hex 4 c.toNat
  else '\\' :: 'U' :: hex 8 c.toNat

/-- A text between quotes. -/
def quoted (s : String) : String :=
  let cs := s.toList
  let q := if cs.contains '\'' && !cs.contains '"' then '"' else '\''
  .ofList (q :: cs.flatMap (quoteChar q) ++ [q])

end ApiDoc.Text
