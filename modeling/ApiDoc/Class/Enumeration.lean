import ApiDoc.Failure

namespace ApiDoc

/-!
# Values of enumerations

* `EnumBase` — what the members of an enumeration are besides members;
* `EnumBase.value` — the value of a member as its base makes it from what is given;
* `enumValues` — the values of an enumeration: a member with the value of an earlier one is only
  another name of it.
-/

/-- What the members of an enumeration are besides members. -/
inductive EnumBase where
  | text
  | integer
deriving DecidableEq, Repr

namespace EnumBase

/-- What a base is given for a member: the items of a tuple, or the one value. -/
def arguments : Data → List Data
  | .tuple xs _ => xs
  | v => [v]

/-! ### Integers -/

/-- The integer that a value makes. -/
def integerOf : Data → Except Failure Int
  | .scalar (.bool b) => .ok (if b then 1 else 0)
  | .scalar (.int n) => .ok n
  | .scalar (.float x) =>
    if x.isNaN then .error (.noMember .missingNumber)
    else if x.isFinite then .ok (x.units.tdiv Binary64.unitsPerOne)
    else .error (.noMember .infinite)
  | .scalar (.str s) => (Numeral.integer? 10 s).mapError .noNumber
  | v => .error (.noMember (.notInteger v.typeName))

/-- The integer that a text spells in a base. -/
def integerIn (v base : Data) : Except Failure Int :=
  match base with
  | .scalar s => match s.integer? with
    | none => .error (.noMember (.notIndex s.typeName))
    | some b =>
      if b < 0 || b == 1 || b > 36 then .error (.noMember .baseRange)
      else match v with
        | .scalar (.str t) => (Numeral.integer? b.toNat t).mapError .noNumber
        | _ => .error (.noMember .baseForNumber)
  | b => .error (.noMember (.notIndex b.typeName))

/-- The integer that arguments make; zero if there are none. -/
def integerFrom : List Data → Except Failure Int
  | [] => .ok 0
  | [v] => integerOf v
  | [v, base] => integerIn v base
  | args => .error (.noMember (.integerArguments args.length))

/-! ### Texts -/

/-- The text that a value makes. -/
def textOf : Data → Except Failure String
  | .scalar (.int n) => (Numeral.text? n).mapError .noNumber
  | v => .ok v.plain

/-- A position of the arguments that has to hold a text. -/
def requireText (position : String) (v : Data) : Except Failure Unit :=
  match v with
  | .scalar (.str _) => .ok ()
  | .scalar .null => .error (.noMember (.notEncoding position "None"))
  | v => .error (.noMember (.notEncoding position v.typeName))

/-- The text that arguments make; an empty one if there are none. With an encoding only octets
    make a text, and no octets are given. -/
def textFrom : List Data → Except Failure String
  | [] => .ok ""
  | [v] => textOf v
  | v :: encodings => do
    if encodings.length > 2 then throw (.noMember (.textArguments (encodings.length + 1)))
    (["encoding", "errors"].zip encodings).forM fun e => requireText e.1 e.2
    match v with
    | .scalar (.str _) => throw (.noMember .decodesText)
    | v => throw (.noMember (.decodesOther v.typeName))

/-- The value of a member as its base makes it. -/
def value (base? : Option EnumBase) (given : Data) : Except Failure Data :=
  match base? with
  | some .text => Data.str <$> textFrom (arguments given)
  | some .integer => Data.int <$> integerFrom (arguments given)
  | none => match given with
    | .tuple [] _ => .ok (.bare 0)
    | v => .ok v

end EnumBase

/-! ### Members -/

/-- Whether a name starts and ends with so many underscores, and not with one more. -/
def isEnclosed (count : Nat) (name : List Char) : Bool :=
  let marks := List.replicate count '_'
  let inner := (name.drop count).take (name.length - 2 * count)
  2 * count < name.length && marks.isPrefixOf name && marks.isPrefixOf name.reverse
    && inner.head? != some '_' && inner.getLast? != some '_'

/-- Whether a name is that of no member: one in double underscores, or one private to the
    enumeration. -/
def isNoMember (enumeration name : String) : Bool :=
  let cs := name.toList
  let own := ('_' :: enumeration.toList) ++ ['_', '_']
  isEnclosed 2 cs || (own.isPrefixOf cs && own.length < cs.length
    && !(['_', '_'].isPrefixOf cs.reverse))

/-- The names of members, the last one first, checked: none in single underscores, and none
    twice. -/
def checkMembers : List (String × Data) → Except Failure Unit
  | [] => .ok ()
  | (name, _) :: earlier => do
    checkMembers earlier
    if isEnclosed 1 name.toList then throw (.reservedMember name)
    match earlier.reverse.lookup name with
    | some v => throw (.repeatedMember name v)
    | none => return

/-- The values of the members of an enumeration. -/
def enumValues (enumeration : String) (base? : Option EnumBase) (given : List (String × Data)) :
    Except Failure (List Data) := do
  let members := given.filter fun m => !isNoMember enumeration m.1
  checkMembers members.reverse
  match members.find? fun m => m.1 == "mro" || m.1 == "" with
  | some m => throw (.badMember m.1)
  | none =>
    let values ← members.mapM fun m => EnumBase.value base? m.2
    return values.foldl (fun acc v => if v.among acc then acc else acc ++ [v]) []

end ApiDoc
