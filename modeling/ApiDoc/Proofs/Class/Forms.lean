import ApiDoc.Class.Annotation

namespace ApiDoc

/-!
# What annotations stand for

Stripped of what is attached to it, and with its unions flattened, an annotation stands for forms:

* `Form` — a built-in type, the objects of a class, a mapping, a sequence;
* `Annotation.form?` — the form of an annotation that is no union and has nothing attached;
* `Annotation.forms` — the forms of an annotation, each with whether null is a value of it;
* `Annotation.infer_eq` — inference tells the types of the forms, one after the other;
* `Annotation.classes_subset`, `Form.classes_item` — inference meets the classes of the forms and of
  their items;
* `Annotation.admitsNull` — whether null is a value of an annotation; the forms say so where every
  member of a union stands for a type (`Annotation.flag_of_admitsNull`).
-/

/-- What an annotation stands for that is no union and has nothing attached. -/
inductive Form where
  /-- A built-in type by its name. -/
  | builtin (name : String)
  | object (className : String)
  | mapping (key? value? : Option Annotation)
  | sequence (item? : Option Annotation)

namespace Annotation

/-- The form of an annotation. Unions have no form of their own, nor has what says nothing. -/
def form? : Annotation → Option Form
  | builtin name => some (.builtin (builtinType name))
  | nothing => some (.builtin "null")
  | object c => some (.object c)
  | generic c _ => some (.object c)
  | mapping _ k v => some (.mapping (some k) (some v))
  | bareMapping _ => some (.mapping none none)
  | sequence _ a => some (.sequence (some a))
  | bareSequence _ => some (.sequence none)
  | tuple [a] => some (.sequence (some a))
  | tuple [a, ellipsis] => some (.sequence (some a))
  | tuple _ => some (.sequence none)
  | _ => none

/-- Whether an annotation is no union and has nothing attached. -/
def isPlain : Annotation → Bool
  | annotated _ _ => false
  | union _ _ => false
  | _ => true

mutual

/-- The forms of an annotation, each with whether null is a value of it: it is where null is a
    member of a union around the form. -/
def forms (nullable : Bool) : Annotation → List (Bool × Form)
  | annotated a _ => forms nullable a
  | union _ ms => formsOf (nullable || ms.any isNull) ms
  | a => (a.form?.map fun f => (nullable, f)).toList

/-- The forms of the members of a union, null aside. -/
def formsOf (nullable : Bool) : List Annotation → List (Bool × Form)
  | [] => []
  | a :: rest => (if a.isNull then [] else forms nullable a) ++ formsOf nullable rest

end

end Annotation

namespace Form

/-- The annotation of the items of a collection. -/
def item? : Form → Option Annotation
  | mapping _ v => v
  | sequence a => a
  | _ => none

/-- Whether the form is a collection. -/
def isCollection : Form → Bool
  | mapping _ _ => true
  | sequence _ => true
  | _ => false

/-- Whether the form is of objects: those of a class, or of no class in particular. -/
def isObject : Form → Bool
  | object _ => true
  | builtin name => name == "object"
  | _ => false

/-- An object is no collection. -/
theorem not_isCollection {f : Form} (h : f.isObject = true) : f.isCollection ≠ true := by
  cases f with
  | builtin _ | object _ => exact Bool.false_ne_true
  | mapping _ _ | sequence _ => cases h

/-- The type that is inferred for an annotation inside a collection. -/
def inner (a? : Option Annotation) : Option TypeInfo :=
  a?.bind fun a => Annotation.onlyOne (a.infer false)

/-- The type of a form. -/
def typeInfo (nullable : Bool) : Form → TypeInfo
  | builtin name => .scalar name nullable
  | object c => .object c nullable
  | mapping k v => .array nullable (inner k) (inner v)
  | sequence a => .array nullable (some (.scalar "int")) (inner a)

@[simp] theorem nullable_typeInfo (nullable : Bool) (f : Form) :
    (f.typeInfo nullable).nullable = nullable := by
  cases f <;> rfl

@[simp] theorem collection_typeInfo (nullable : Bool) (f : Form) :
    (f.typeInfo nullable).collection = f.isCollection := by
  cases f <;> rfl

/-- The classes that inference meets. -/
def classes : Form → List String
  | builtin _ => []
  | object c => [c]
  | mapping k v => (k.map Annotation.classes).getD [] ++ (v.map Annotation.classes).getD []
  | sequence a => (a.map Annotation.classes).getD []

/-- The classes of the items of a collection are classes of the collection. -/
theorem classes_item {f : Form} {a : Annotation} (h : f.item? = some a) :
    a.classes ⊆ f.classes := by
  cases f with
  | builtin name => cases h
  | object c => cases h
  | mapping k v =>
    obtain rfl : v = some a := h
    exact List.subset_append_right _ _
  | sequence b =>
    obtain rfl : b = some a := h
    exact List.Subset.refl _

/-- What has items is a collection. -/
theorem isCollection_of_item {f : Form} {a : Annotation} (h : f.item? = some a) :
    f.isCollection = true := by
  cases f with
  | mapping _ _ | sequence _ => rfl
  | builtin _ | object _ => cases h

end Form

namespace Annotation

/-- The type of an annotation that has a form. -/
theorem infer_of_form? {a : Annotation} {f : Form} (h : a.form? = some f) (nullable : Bool) :
    a.infer nullable = [f.typeInfo nullable] := by
  unfold form? at h
  split at h <;> cases h <;> simp [infer, Form.typeInfo, Form.inner]

/-- What has no form stands for no type. -/
theorem infer_of_form?_eq_none {a : Annotation} (h : a.form? = none) (ha : a.isPlain = true)
    (nullable : Bool) : a.infer nullable = [] := by
  unfold form? at h
  split at h
  all_goals cases h
  cases a <;> simp_all [infer, isPlain]

/-- The classes of the form are those of the annotation. -/
theorem classes_of_form? {a : Annotation} {f : Form} (h : a.form? = some f) :
    f.classes = a.classes := by
  cases a with
  | tuple as =>
    unfold form? classes at *
    split at h <;> cases h <;> simp_all [Form.classes]
  | _ => first | cases h; rfl | cases h

/-- The forms of an annotation that is no union and has nothing attached. -/
theorem forms_of_isPlain {a : Annotation} (ha : a.isPlain = true) (nullable : Bool) :
    a.forms nullable = (a.form?.map fun f => (nullable, f)).toList := by
  cases a with
  | union _ _ | annotated _ _ => cases ha
  | _ => rfl

mutual

/-- Inference tells the types of the forms of an annotation. -/
theorem infer_eq (nullable : Bool) (a : Annotation) :
    a.infer nullable = (a.forms nullable).map fun p => p.2.typeInfo p.1 := by
  match a with
  | annotated b _ => exact infer_eq nullable b
  | union _ ms => exact inferMembers_eq _ ms
  | builtin _ | any | nothing | mute _ | literal _ | object _ | sequence _ _ | bareSequence _
  | mapping _ _ _ | bareMapping _ | tuple _ | ellipsis | classMember _ | generic _ _ | quoted _
  | deferred _ =>
    rw [forms_of_isPlain rfl]
    cases h : form? _ with
    | some f => exact infer_of_form? h nullable
    | none => exact infer_of_form?_eq_none h rfl nullable

/-- The types of the members of a union come from their forms. -/
theorem inferMembers_eq (nullable : Bool) (ms : List Annotation) :
    inferMembers nullable ms = (formsOf nullable ms).map fun p => p.2.typeInfo p.1 := by
  match ms with
  | [] => rfl
  | a :: rest =>
    rw [inferMembers, formsOf, List.map_append, inferMembers_eq nullable rest]
    split
    · rfl
    · rw [infer_eq nullable a]

end

mutual

/-- The classes of a form are classes of the annotation. -/
theorem classes_subset (nullable : Bool) (a : Annotation) :
    ∀ p ∈ a.forms nullable, p.2.classes ⊆ a.classes := by
  match a with
  | annotated b _ => exact classes_subset nullable b
  | union _ ms => exact classesOf_subset _ ms
  | builtin _ | any | nothing | mute _ | literal _ | object _ | sequence _ _ | bareSequence _
  | mapping _ _ _ | bareMapping _ | tuple _ | ellipsis | classMember _ | generic _ _ | quoted _
  | deferred _ =>
    rw [forms_of_isPlain rfl]
    rintro ⟨n, f⟩ hp
    obtain ⟨f', hf, he⟩ := Option.map_eq_some_iff.1 (Option.mem_toList.1 hp)
    cases he
    rw [classes_of_form? hf]
    exact List.Subset.refl _

/-- The classes of the forms are among those of the members. -/
theorem classesOf_subset (nullable : Bool) (ms : List Annotation) :
    ∀ p ∈ formsOf nullable ms, p.2.classes ⊆ classesOf ms := by
  match ms with
  | [] => exact fun _ h => absurd h List.not_mem_nil
  | a :: rest =>
    intro p hp
    rw [classesOf]
    rcases List.mem_append.1 hp with hp | hp
    · split at hp
      · exact absurd hp List.not_mem_nil
      · exact List.Subset.trans (classes_subset nullable a p hp) (List.subset_append_left _ _)
    · exact List.Subset.trans (classesOf_subset nullable rest p hp) (List.subset_append_right _ _)

end

/-! ### Null -/

mutual

/-- Whether null is a value of an annotation, stripped of what is attached to it and with its unions
    flattened. -/
def admitsNull : Annotation → Bool
  | annotated a _ => admitsNull a
  | union _ ms => anyAdmitsNull ms
  | a => a.isNull

/-- Whether null is a value of one of several annotations. -/
def anyAdmitsNull : List Annotation → Bool
  | [] => false
  | a :: rest => admitsNull a || anyAdmitsNull rest

end

mutual

/-- Whether each member of a union stands for a type, null aside. -/
def isSpoken : Annotation → Bool
  | annotated a _ => isSpoken a
  | union _ ms => areSpoken ms
  | _ => true

/-- Whether each of several members stands for a type, null aside. -/
def areSpoken : List Annotation → Bool
  | [] => true
  | a :: rest => (a.isNull || (!(forms false a).isEmpty && isSpoken a)) && areSpoken rest

end

/-- The form of null is null. -/
theorem form?_of_isNull {a : Annotation} (ha : a.isNull = true) :
    a.form? = some (.builtin "null") := by
  unfold isNull at ha
  split at ha
  · rfl
  · rfl
  · cases ha

/-- Null admits null. -/
theorem admitsNull_of_isNull {a : Annotation} (ha : a.isNull = true) : a.admitsNull = true := by
  cases a with
  | builtin _ | nothing => exact ha
  | _ => cases ha

/-- A union with null among its members admits null. -/
theorem anyAdmitsNull_of_any {ms : List Annotation} (h : ms.any isNull = true) :
    anyAdmitsNull ms = true := by
  induction ms with
  | nil => cases h
  | cons a rest ih =>
    rw [List.any_cons, Bool.or_eq_true] at h
    rw [anyAdmitsNull, Bool.or_eq_true]
    exact h.imp admitsNull_of_isNull ih

mutual

/-- How many forms there are does not depend on unions around an annotation. -/
theorem length_forms (m n : Bool) (a : Annotation) :
    (a.forms m).length = (a.forms n).length := by
  match a with
  | annotated b _ => exact length_forms m n b
  | union _ ms => exact length_formsOf _ _ ms
  | builtin _ | any | nothing | mute _ | literal _ | object _ | sequence _ _ | bareSequence _
  | mapping _ _ _ | bareMapping _ | tuple _ | ellipsis | classMember _ | generic _ _ | quoted _
  | deferred _ =>
    rw [forms_of_isPlain rfl, forms_of_isPlain rfl]
    cases form? _ <;> rfl

/-- How many forms there are does not depend on the flag of null. -/
theorem length_formsOf (m n : Bool) (ms : List Annotation) :
    (formsOf m ms).length = (formsOf n ms).length := by
  match ms with
  | [] => rfl
  | a :: rest =>
    rw [formsOf, formsOf, List.length_append, List.length_append, length_formsOf m n rest]
    split
    · rfl
    · rw [length_forms m n a]

end

mutual

/-- Null is a value of the forms of an annotation where it is a member of a union around it. -/
theorem forms_flagged {a : Annotation} : ∀ p ∈ a.forms true, p.1 = true := by
  match a with
  | annotated b _ => exact forms_flagged (a := b)
  | union _ ms => exact formsOf_flagged ms
  | builtin _ | any | nothing | mute _ | literal _ | object _ | sequence _ _ | bareSequence _
  | mapping _ _ _ | bareMapping _ | tuple _ | ellipsis | classMember _ | generic _ _ | quoted _
  | deferred _ =>
    rw [forms_of_isPlain rfl]
    rintro p hp
    obtain ⟨f, -, rfl⟩ := Option.map_eq_some_iff.1 (Option.mem_toList.1 hp)
    rfl

/-- A flag given to the union is given to all its forms. -/
theorem formsOf_flagged (ms : List Annotation) : ∀ p ∈ formsOf true ms, p.1 = true := by
  match ms with
  | [] => exact fun _ h => absurd h List.not_mem_nil
  | a :: rest =>
    intro p hp
    rcases List.mem_append.1 hp with hp | hp
    · split at hp
      · exact absurd hp List.not_mem_nil
      · exact forms_flagged (a := a) p hp
    · exact formsOf_flagged rest p hp

end

mutual

/-- Null is a value of a form only where the annotation has it. -/
theorem admitsNull_of_forms {nullable : Bool} {a : Annotation} :
    ∀ p ∈ a.forms nullable, p.1 = true → nullable = true ∨ a.admitsNull = true := by
  match a with
  | annotated b _ => exact admitsNull_of_forms (a := b)
  | union _ ms =>
    intro p hp htrue
    rcases anyAdmitsNull_of_formsOf ms p hp htrue with h | h
    · exact (Bool.or_eq_true _ _ ▸ h).imp_right anyAdmitsNull_of_any
    · exact .inr h
  | builtin _ | any | nothing | mute _ | literal _ | object _ | sequence _ _ | bareSequence _
  | mapping _ _ _ | bareMapping _ | tuple _ | ellipsis | classMember _ | generic _ _ | quoted _
  | deferred _ =>
    rw [forms_of_isPlain rfl]
    rintro p hp htrue
    obtain ⟨f, -, rfl⟩ := Option.map_eq_some_iff.1 (Option.mem_toList.1 hp)
    exact .inl htrue

/-- A form is flagged only where null is admitted. -/
theorem anyAdmitsNull_of_formsOf {nullable : Bool} (ms : List Annotation) :
    ∀ p ∈ formsOf nullable ms, p.1 = true → nullable = true ∨ anyAdmitsNull ms = true := by
  match ms with
  | [] => exact fun _ h => absurd h List.not_mem_nil
  | a :: rest =>
    intro p hp htrue
    rw [anyAdmitsNull, Bool.or_eq_true]
    rcases List.mem_append.1 hp with hp | hp
    · split at hp
      · exact absurd hp List.not_mem_nil
      · exact (admitsNull_of_forms (a := a) p hp htrue).imp_right .inl
    · exact (anyAdmitsNull_of_formsOf rest p hp htrue).imp_right .inr

end

/-- What stands for a type has a form, whatever unions are around it. -/
theorem forms_ne_nil {a : Annotation} (h : (!(a.forms false).isEmpty) = true) (nullable : Bool) :
    a.forms nullable ≠ [] := by
  intro hnil
  have hlength := length_forms false nullable a
  rw [hnil, List.length_nil, List.length_eq_zero_iff] at hlength
  rw [hlength] at h
  cases h

/-- Where no member has a form and each stands for a type, the members are null. -/
theorem any_isNull_of_formsOf_eq_nil {nullable : Bool} {ms : List Annotation}
    (h : formsOf nullable ms = []) (hspoken : areSpoken ms = true)
    (hnull : anyAdmitsNull ms = true) : ms.any isNull = true := by
  match ms with
  | [] => cases hnull
  | a :: rest =>
    rw [areSpoken, Bool.and_eq_true, Bool.or_eq_true, Bool.and_eq_true] at hspoken
    rw [List.any_cons, Bool.or_eq_true]
    by_cases ha : a.isNull = true
    · exact .inl ha
    · obtain ⟨hsome, -⟩ := hspoken.1.resolve_left ha
      rw [formsOf, if_neg ha] at h
      exact absurd (List.append_eq_nil_iff.1 h).1 (forms_ne_nil hsome nullable)

mutual

/-- Where each member of a union stands for a type, and an annotation for one type other than null,
    null is a value of its form if the annotation has it. -/
theorem flag_of_admitsNull {nullable n : Bool} {f : Form} {a : Annotation}
    (h : a.forms nullable = [(n, f)]) (hf : f ≠ .builtin "null") (hspoken : a.isSpoken = true)
    (hnull : a.admitsNull = true) : n = true := by
  match a with
  | annotated b _ => exact flag_of_admitsNull (a := b) h hf hspoken hnull
  | union _ ms =>
    exact flag_of_anyAdmitsNull ms h hf hspoken (fun hany => by rw [hany, Bool.or_true]) hnull
  | builtin _ | nothing =>
    rw [forms_of_isPlain rfl, form?_of_isNull hnull] at h
    cases h
    exact absurd rfl hf
  | any | mute _ | literal _ | object _ | sequence _ _ | bareSequence _ | mapping _ _ _
  | bareMapping _ | tuple _ | ellipsis | classMember _ | generic _ _ | quoted _ | deferred _ =>
    cases hnull

/-- The one form of members that all stand for types is flagged where null is admitted. -/
theorem flag_of_anyAdmitsNull {nullable n : Bool} {f : Form} (ms : List Annotation)
    (h : formsOf nullable ms = [(n, f)]) (hf : f ≠ .builtin "null") (hspoken : areSpoken ms = true)
    (hany : ms.any isNull = true → nullable = true) (hnull : anyAdmitsNull ms = true) :
    n = true := by
  -- A member that is null itself decides.
  have hflagged : ms.any isNull = true → n = true := fun hmember => by
    rw [hany hmember] at h
    exact formsOf_flagged _ (n, f) (by rw [h]; exact List.mem_singleton_self _)
  match ms with
  | [] => cases hnull
  | a :: rest =>
    by_cases ha : a.isNull = true
    · exact hflagged (by rw [List.any_cons, ha, Bool.true_or])
    rw [areSpoken, Bool.and_eq_true, Bool.or_eq_true, Bool.and_eq_true] at hspoken
    obtain ⟨hmember, hrest⟩ := hspoken
    obtain ⟨hsome, hinside⟩ := hmember.resolve_left ha
    rw [formsOf, if_neg ha] at h
    rcases List.append_eq_singleton_iff.1 h with ⟨hnil, -⟩ | ⟨hone, hnil⟩
    · exact absurd hnil (forms_ne_nil hsome nullable)
    rw [anyAdmitsNull, Bool.or_eq_true] at hnull
    rcases hnull with hnull | hnull
    · exact flag_of_admitsNull (a := a) hone hf hinside hnull
    · refine hflagged ?_
      rw [List.any_cons, any_isNull_of_formsOf_eq_nil hnil hrest hnull, Bool.or_true]

end

end Annotation

end ApiDoc
