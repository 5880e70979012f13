namespace ApiDoc

/-!
# Type expressions

The types that serializer configuration declares: `string`, `array<Point>`,
`DateTime<'Y-m-d'>`.

* `TypeExpr`, `TypeParam` — a named type and its parameters, types or quoted literals;
* `TypeExpr.param?` — a parameter that is itself a type;
* `TypeExpr.text` — a type as it is written.
-/

mutual

/-- A named type with its parameters. -/
inductive TypeExpr where
  | mk (name : String) (params : List TypeParam)

/-- A parameter: a type or a quoted literal. -/
inductive TypeParam where
  | type (t : TypeExpr)
  | literal (text : String)

end

instance : Inhabited TypeExpr := ⟨.mk "" []⟩

namespace TypeExpr

/-- The name of the type. -/
def name : TypeExpr → String
  | mk n _ => n

/-- The parameters of the type. -/
def params : TypeExpr → List TypeParam
  | mk _ ps => ps

/-- The type at a position of the parameters; none for a literal. -/
def param? (t : TypeExpr) (i : Nat) : Option TypeExpr :=
  match t.params[i]? with
  | some (.type u) => some u
  | _ => none

mutual

/-- A type as it is written, its parameters in angle brackets. -/
def text : TypeExpr → String
  | mk n [] => n
  | mk n ps => n ++ "<" ++ ", ".intercalate (paramTexts ps) ++ ">"

/-- Parameters as they are written, literals in single quotes. -/
def paramTexts : List TypeParam → List String
  | [] => []
  | .type t :: ps => text t :: paramTexts ps
  | .literal s :: ps => ("'" ++ s ++ "'") :: paramTexts ps

end

mutual

/-- Equality of types. -/
def decEq : (t u : TypeExpr) → Decidable (t = u)
  | mk n ps, mk m qs =>
    match (inferInstance : Decidable (n = m)), decEqParams ps qs with
    | isTrue h, isTrue h' => isTrue (by rw [h, h'])
    | isFalse h, _ => isFalse (by simp [h])
    | _, isFalse h => isFalse (by simp [h])

/-- Equality of parameters. -/
def decEqParams : (ps qs : List TypeParam) → Decidable (ps = qs)
  | [], [] => isTrue rfl
  | [], _ :: _ => isFalse (by simp)
  | _ :: _, [] => isFalse (by simp)
  | .type t :: ps, .type u :: qs =>
    match decEq t u, decEqParams ps qs with
    | isTrue h, isTrue h' => isTrue (by rw [h, h'])
    | isFalse h, _ => isFalse (by simp [h])
    | _, isFalse h => isFalse (by simp [h])
  | .literal a :: ps, .literal b :: qs =>
    match (inferInstance : Decidable (a = b)), decEqParams ps qs with
    | isTrue h, isTrue h' => isTrue (by rw [h, h'])
    | isFalse h, _ => isFalse (by simp [h])
    | _, isFalse h => isFalse (by simp [h])
  | .type _ :: _, .literal _ :: _ => isFalse (by simp)
  | .literal _ :: _, .type _ :: _ => isFalse (by simp)

end

instance : DecidableEq TypeExpr := decEq

end TypeExpr

end ApiDoc
