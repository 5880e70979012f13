import ApiDoc.Describe.ObjectModel
import ApiDoc.Proofs.TypeExpr.Reading

namespace ApiDoc

/-!
# Types that metadata and annotations share

* `PlainType` — the types that are written out under a name and perhaps a format;
* `SharedType` — those and classes, with lists and mappings of them;
* `SharedType.annotation`, `SharedType.infer_annotation` — the type as an annotation, and that
  inference finds it;
* `SharedType.Spells`, `SharedType.Written` — the type as metadata declares it, and as a text;
* `SharedType.written_text` — every such type can be written.
-/

/-! ### Plain types -/

/-- A type that a document writes out. -/
inductive PlainType where
  | text
  | truth
  | integer
  | number
  | moment
  | day
deriving DecidableEq, Repr

namespace PlainType

/-- The name that documents have for the type. -/
def type : PlainType → String
  | text | moment | day => "string"
  | truth => "boolean"
  | integer => "integer"
  | number => "number"

/-- The format that documents give with the name. -/
def format? : PlainType → Option String
  | number => some "float"
  | moment | day => some "date-time"
  | text | truth | integer => none

/-- The names by which metadata declares the type. -/
def names : PlainType → List String
  | text => ["string", "str"]
  | truth => ["boolean", "bool"]
  | integer => ["integer", "int"]
  | number => ["float"]
  | moment => ["datetime.datetime", "datetime", "DateTime", "DateTimeImmutable"]
  | day => ["datetime.date", "date"]

/-- The class of the values, where they have one. -/
def class? : PlainType → Option String
  | moment => some "datetime.datetime"
  | day => some "datetime.date"
  | text | truth | integer | number => none

/-- The built-in name of the type, where it has one. -/
def builtin : PlainType → String
  | text => "string"
  | truth => "bool"
  | integer => "int"
  | number => "float"
  | moment | day => "object"

/-- The type as an annotation. -/
def annotation (p : PlainType) : Annotation :=
  match p.class? with
  | some c => .object c
  | none => .builtin p.builtin

/-- The type as inference finds it. -/
def info (p : PlainType) : TypeInfo :=
  match p.class? with
  | some c => .object c
  | none => .scalar p.builtin

end PlainType

/-! ### Shared types -/

namespace TypeExpr.Name

/-- The text of a name. -/
def text (n : Name) : String := String.ofList n.chars

/-- A text that is made of name characters. -/
def ofText (s : String) (hne : s.toList ≠ []) (h : s.toList.all TypeToken.isNameChar = true) :
    Name :=
  ⟨s.toList, hne, List.all_eq_true.1 h⟩

@[simp] theorem text_ofText (s : String) (hne : s.toList ≠ [])
    (h : s.toList.all TypeToken.isNameChar = true) : (ofText s hne h).text = s :=
  String.ofList_toList

end TypeExpr.Name

/-- A plain type or a class, or a list or a mapping of such. Keys of a mapping are texts. -/
inductive SharedType where
  | plain (p : PlainType)
  | object (c : TypeExpr.Name)
  | list (item : SharedType)
  | mapping (value : SharedType)

namespace SharedType

/-- The type as an annotation. -/
def annotation : SharedType → Annotation
  | plain p => p.annotation
  | object c => .object c.text
  | list a => .sequence "list" a.annotation
  | mapping a => .mapping "dict" (.builtin "string") a.annotation

/-- The type as inference finds it. -/
def info : SharedType → TypeInfo
  | plain p => p.info
  | object c => .object c.text
  | list a => .array false (some (.scalar "int")) (some a.info)
  | mapping a => .array false (some (.scalar "string")) (some a.info)

/-- Inference finds the type, and no other. -/
theorem infer_annotation (T : SharedType) : T.annotation.infer false = [T.info] := by
  induction T with
  | plain p => cases p <;> rfl
  | object c => rfl
  | list a ih =>
    show [TypeInfo.array false _ <| Annotation.onlyOne (a.annotation.infer false)] = _
    rw [ih]
    rfl
  | mapping a ih =>
    show [TypeInfo.array false (some (.scalar "string")) <|
      Annotation.onlyOne (a.annotation.infer false)] = _
    rw [ih]
    rfl

/-- The class that the type is made of. -/
def class? : SharedType → Option String
  | plain _ => none
  | object c => some c.text
  | list a => a.class?
  | mapping a => a.class?

/-- The models that a document needs for the type. -/
def models (T : SharedType) : List Model := T.class?.toList.map fun c => .ofClass c .null

/-! ### Texts -/

/-- A type expression that stands for the type. -/
inductive Spells : SharedType → TypeExpr → Prop
  | plain {p : PlainType} {name : String} (hname : name ∈ p.names) :
    Spells (.plain p) (.mk name [])
  | object (c : TypeExpr.Name) : Spells (.object c) (.mk c.text [])
  | list {a : SharedType} {t : TypeExpr} (h : Spells a t) :
    Spells (.list a) (.mk "array" [.type t])
  | mapping {a : SharedType} {key : String} {t : TypeExpr} (hkey : key ∈ PlainType.text.names)
    (h : Spells a t) : Spells (.mapping a) (.mk "array" [.type (.mk key []), .type t])

/-- A text that is read as the type. -/
def Written (T : SharedType) (text : String) : Prop :=
  ∃ t, TypeExpr.parse text = .ok t ∧ T.Spells t

open TypeExpr

/-- No blanks. -/
def tight : Blanks := ⟨[], fun _ h => absurd h List.not_mem_nil⟩

/-- One blank. -/
def spaced : Blanks := ⟨[' '], List.forall_mem_singleton.2 (by decide)⟩

/-- The first name by which metadata declares a plain type. -/
def plainName : PlainType → Name
  | .text => .ofText "string" (by decide) (by decide +kernel)
  | .truth => .ofText "boolean" (by decide) (by decide +kernel)
  | .integer => .ofText "integer" (by decide) (by decide +kernel)
  | .number => .ofText "float" (by decide) (by decide +kernel)
  | .moment => .ofText "datetime.datetime" (by decide) (by decide +kernel)
  | .day => .ofText "datetime.date" (by decide) (by decide +kernel)

theorem text_plainName_mem (p : PlainType) : (plainName p).text ∈ p.names := by
  cases p <;> simp [plainName, PlainType.names]

/-- The name of arrays. -/
def arrayName : Name := .ofText "array" (by decide) (by decide +kernel)

theorem text_arrayName : arrayName.text = "array" := Name.text_ofText _ _ _

/-- A derivation of a type expression for the type. -/
def form (before : Blanks) : SharedType → TypeForm
  | plain p => .bare before (plainName p)
  | object c => .bare before c
  | list a => .applied before arrayName tight (.last (.type (form tight a)) tight)
  | mapping a => .applied before arrayName tight
    (.more (.type (.bare tight (plainName .text))) tight (.last (.type (form spaced a)) tight))

/-- The type as it is written in metadata: `array<string, Point>` for a mapping of points. -/
def text (T : SharedType) : String := Derivation.text ⟨T.form tight, tight⟩

theorem spells_form (T : SharedType) (before : Blanks) : T.Spells (T.form before).tree := by
  induction T generalizing before with
  | plain p => exact .plain (text_plainName_mem p)
  | object c => exact .object c
  | list a ih =>
    show Spells _ (.mk arrayName.text _)
    rw [text_arrayName]
    exact .list (ih tight)
  | mapping a ih =>
    show Spells _ (.mk arrayName.text _)
    rw [text_arrayName]
    exact .mapping (text_plainName_mem .text) (ih spaced)

/-- Every type can be written. -/
theorem written_text (T : SharedType) : T.Written T.text :=
  ⟨_, Derivation.parse_text _, T.spells_form tight⟩

/-- A mapping of lists of moments. -/
example : (mapping (list (.plain .moment))).text = "array<string, array<datetime.datetime>>" := by
  decide +kernel

end SharedType

end ApiDoc
