import ApiDoc.Data.Moment
import ApiDoc.Number.Shortest
import ApiDoc.Text.Quoted

namespace ApiDoc

/-!
# Scalars

The values without parts:

* `Scalar` — null, truth values, integers, numbers, texts, octets and moments;
* `Scalar.alike` — equality of values across types: `1`, `true` and `1.0` are alike;
* `Scalar.same` — the same, except that a number without a value is the same as itself;
* `Scalar.typeName`, `Scalar.literal`, `Scalar.plain` — how messages write a scalar.
-/

/-- A value without parts. The mark of a moment tells whether two are one and the same. -/
inductive Scalar where
  | null
  | bool (b : Bool)
  | int (n : Int)
  | float (x : Binary64)
  | str (s : String)
  | bytes (octets : List Nat)
  | moment (m : Moment) (mark : Nat)
deriving DecidableEq, Repr

namespace Scalar

/-- The integer that a truth value or an integer stands for. -/
def integer? : Scalar → Option Int
  | .bool b => some (if b then 1 else 0)
  | .int n => some n
  | _ => none

/-- Equality of values: truth values count as integers, and numbers compare by value. -/
def alike : Scalar → Scalar → Bool
  | .float x, .float y => x.eq y
  | .float x, t => match t.integer? with
    | some n => x.eqInt n
    | none => false
  | s, .float y => match s.integer? with
    | some n => y.eqInt n
    | none => false
  | .moment m _, .moment n _ => m.alike n
  | s, t => match s.integer?, t.integer? with
    | some m, some n => m == n
    | none, none => s == t
    | _, _ => false

/-- Equality of values, a number without a value being the same as itself. -/
def same : Scalar → Scalar → Bool
  | .float x, .float y => x == y || x.eq y
  | s, t => s.alike t

/-- The name of a scalar's type in messages. -/
def typeName : Scalar → String
  | .null => "NoneType"
  | .bool _ => "bool"
  | .int _ => "int"
  | .float _ => "float"
  | .str _ => "str"
  | .bytes _ => "bytes"
  | .moment m _ => if m.hasClock then "datetime" else "date"

/-- The name of a scalar's type where its operations are concerned. -/
def ownerName : Scalar → String
  | .moment m _ => if m.hasClock then "datetime.datetime" else "datetime.date"
  | s => s.typeName

/-- How messages write a number. -/
def numberStyle : NumberStyle where
  nan := "nan"
  infinity := "inf"
  negativeInfinity := "-inf"

/-- The escaped form of an octet between the quotes `q`. -/
def octetLiteral (q : Char) (n : Nat) : List Char :=
  let c := Char.ofNat n
  if c == q || c == '\\' then ['\\', c]
  else if c == '\t' then ['\\', 't']
  else if c == '\n' then ['\\', 'n']
  else if c == '\r' then ['\\', 'r']
  else if n < 0x20 || 0x7f ≤ n then '\\' :: 'x' :: Text.hex 2 n
  else [c]

/-- Octets as messages write them. -/
def octetsLiteral (ns : List Nat) : String :=
  let q := if ns.contains 0x27 && !ns.contains 0x22 then '"' else '\''
  .ofList ('b' :: q :: ns.flatMap (octetLiteral q) ++ [q])

/-- A scalar as messages write it, texts in quotes. -/
def literal : Scalar → String
  | .null => "None"
  | .bool b => if b then "True" else "False"
  | .int n => toString n
  | .float x => x.text numberStyle
  | .str s => Text.quoted s
  | .bytes ns => octetsLiteral ns
  | .moment m _ => m.literal

/-- A scalar as messages write it, texts and moments as they are. -/
def plain : Scalar → String
  | .str s => s
  | .moment m _ => m.text " "
  | s => s.literal

/-- Whether a condition takes the scalar for true. -/
def truthy : Scalar → Bool
  | .null => false
  | .bool b => b
  | .int n => n != 0
  | .float x => !x.isZero
  | .str s => s != ""
  | .bytes ns => !ns.isEmpty
  | .moment _ _ => true

@[simp] theorem alike_str (s t : String) : alike (.str s) (.str t) = (s == t) := by
  rw [Bool.eq_iff_iff]
  simp [alike, integer?]

end Scalar

end ApiDoc
