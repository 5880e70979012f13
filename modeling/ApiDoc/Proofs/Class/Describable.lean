import ApiDoc.Class.Reflection
import ApiDoc.Proofs.Class.Forms

namespace ApiDoc

/-!
# Annotations that can be described

* `Annotation.Describable` — an annotation that stands for one type that a document has a name for,
  for objects of a class, or for a collection of what can be described;
* `Flaw`, `Annotation.Spoiled`, `Annotation.Flawed` — what keeps an annotation from being described,
  at any depth;
* `Annotation.describable_or_flawed`, `Flawed.not_describable`, `Flawed.unique` — an annotation can
  be described, or it has one flaw;
* `ClassTable.annotation` — the annotation of a property of a class.
-/

/-- The built-in types that documents have names for. -/
def writtenTypes : List String := ["string", "bool", "int", "float"]

/-- What keeps an annotation from being described. -/
inductive Flaw where
  /-- It stands for no type. -/
  | untyped
  /-- It is of a collection whose items do not have exactly one type. -/
  | untypedItems
  /-- It stands for several types. -/
  | ambiguous
  /-- In the end it is of a built-in type without a name in documents. -/
  | unsupported (builtin : String)
deriving DecidableEq

/-- The failure to describe a property of a class. -/
def Flaw.failure (className property : String) : Flaw → Failure
  | untyped => .untyped className property
  | untypedItems => .untypedItems className property
  | ambiguous => .ambiguous className property
  | unsupported builtin => .unsupported className property builtin

namespace Annotation

/-- The annotations that can be described: they stand for one type only. -/
inductive Describable : Annotation → Prop
  | builtin {a : Annotation} {nullable : Bool} {name : String}
    (hforms : a.forms false = [(nullable, .builtin name)]) (hname : name ∈ writtenTypes) :
    Describable a
  | object {a : Annotation} {nullable : Bool} {f : Form}
    (hforms : a.forms false = [(nullable, f)]) (hobject : f.isObject = true) : Describable a
  | collection {a item : Annotation} {nullable : Bool} {f : Form}
    (hforms : a.forms false = [(nullable, f)]) (hitem : f.item? = some item)
    (hdescribable : Describable item) : Describable a

/-- The flaws of annotations that stand for one type only. -/
inductive Spoiled : Annotation → Flaw → Prop
  | unsupported {a : Annotation} {nullable : Bool} {name : String}
    (hforms : a.forms false = [(nullable, .builtin name)]) (hname : name ∉ writtenTypes)
    (hobject : name ≠ "object") : Spoiled a (.unsupported name)
  | untypedItems {a : Annotation} {nullable : Bool} {f : Form}
    (hforms : a.forms false = [(nullable, f)]) (hcollection : f.isCollection = true)
    (hitem : ∀ item, f.item? = some item → (item.forms false).length ≠ 1) :
    Spoiled a .untypedItems
  | inside {a item : Annotation} {nullable : Bool} {f : Form} {flaw : Flaw}
    (hforms : a.forms false = [(nullable, f)]) (hitem : f.item? = some item)
    (hspoiled : Spoiled item flaw) : Spoiled a flaw

/-- The flaws of annotations. -/
inductive Flawed (a : Annotation) : Flaw → Prop
  | untyped (hforms : a.forms false = []) : Flawed a .untyped
  | ambiguous (hforms : 1 < (a.forms false).length) : Flawed a .ambiguous
  | spoiled {flaw : Flaw} (hspoiled : a.Spoiled flaw) : Flawed a flaw

variable {a : Annotation} {flaw flaw' : Flaw}

/-! ### One type only -/

/-- What can be described has one form. -/
theorem Describable.exists_form (h : a.Describable) : ∃ p, a.forms false = [p] := by
  cases h with
  | builtin hforms | object hforms | collection hforms => exact ⟨_, hforms⟩

/-- What is spoiled inside has one form. -/
theorem Spoiled.exists_form (h : a.Spoiled flaw) : ∃ p, a.forms false = [p] := by
  cases h with
  | unsupported hforms | untypedItems hforms | inside hforms => exact ⟨_, hforms⟩

/-- An annotation of one type is of one form. -/
theorem exists_form_of_infer {T : TypeInfo} (h : a.infer false = [T]) :
    ∃ nullable f, a.forms false = [(nullable, f)] ∧ f.typeInfo nullable = T := by
  rw [infer_eq] at h
  obtain ⟨⟨nullable, f⟩, hp, rfl⟩ := List.map_eq_singleton_iff.1 h
  exact ⟨nullable, f, hp, rfl⟩

/-- From one form one type is inferred. -/
theorem infer_of_forms {p : Bool × Form} (h : a.forms false = [p]) :
    a.infer false = [p.2.typeInfo p.1] := by
  rw [infer_eq, h]
  rfl

/-- The classes of the form are among those of the annotation. -/
theorem classes_of_forms {p : Bool × Form} (h : a.forms false = [p]) : p.2.classes ⊆ a.classes :=
  classes_subset false a p (by rw [h]; exact List.mem_singleton_self p)

/-- The classes of the items of a collection are classes of the annotation. -/
theorem classes_of_item {p : Bool × Form} {item : Annotation} (h : a.forms false = [p])
    (hitem : p.2.item? = some item) : item.classes ⊆ a.classes :=
  List.Subset.trans (Form.classes_item hitem) (classes_of_forms h)

/-- The type that is inferred is the one of the form. -/
theorem typeInfo_of_infer {nullable : Bool} {f : Form} {T : TypeInfo}
    (h : a.forms false = [(nullable, f)]) (hT : a.infer false = [T]) :
    f.typeInfo nullable = T :=
  List.singleton_inj.1 ((infer_of_forms h).symm.trans hT)

/-- What can be described has one type. -/
theorem Describable.exists_infer (h : a.Describable) : ∃ T, a.infer false = [T] :=
  let ⟨_, hp⟩ := h.exists_form
  ⟨_, infer_of_forms hp⟩

/-- What is spoiled inside has one type. -/
theorem Spoiled.exists_infer (h : a.Spoiled flaw) : ∃ T, a.infer false = [T] :=
  let ⟨_, hp⟩ := h.exists_form
  ⟨_, infer_of_forms hp⟩

/-- The type of the items of a collection is that of an annotation of one type. -/
theorem inner_of_forms {p : Bool × Form} (h : a.forms false = [p]) :
    Form.inner (some a) = some (p.2.typeInfo p.1) := by
  show onlyOne (a.infer false) = _
  rw [infer_eq, h]
  rfl

/-- Without one form there is no type inside. -/
theorem inner_of_length_ne_one (h : (a.forms false).length ≠ 1) : Form.inner (some a) = none := by
  show onlyOne (a.infer false) = _
  rw [infer_eq]
  match a.forms false, h with
  | [], _ => rfl
  | [_], h => exact absurd rfl h
  | _ :: _ :: _, _ => rfl

/-- The type of a collection whose items are of one type. -/
theorem typeInfo_of_item {f : Form} {item : Annotation} {V : TypeInfo} (h : f.item? = some item)
    (hV : item.infer false = [V]) (nullable : Bool) :
    ∃ key?, f.typeInfo nullable = .array nullable key? (some V) := by
  have hinner : Form.inner f.item? = some V := by
    show f.item?.bind _ = _
    rw [h]
    exact congrArg onlyOne hV
  cases f with
  | builtin _ | object _ => cases h
  | mapping k v => exact ⟨Form.inner k, congrArg (TypeInfo.array nullable _) hinner⟩
  | sequence b => exact ⟨_, congrArg (TypeInfo.array nullable _) hinner⟩

/-- The type of a collection whose items are not of one type. -/
theorem typeInfo_of_untypedItems {f : Form} (h : f.isCollection = true)
    (hitem : ∀ item, f.item? = some item → (item.forms false).length ≠ 1) (nullable : Bool) :
    ∃ key?, f.typeInfo nullable = .array nullable key? none := by
  have hinner : Form.inner f.item? = none := by
    cases hf : f.item? with
    | none => rfl
    | some item => exact inner_of_length_ne_one (hitem item hf)
  cases f with
  | builtin _ | object _ => cases h
  | mapping k v => exact ⟨Form.inner k, congrArg (TypeInfo.array nullable _) hinner⟩
  | sequence b => exact ⟨_, congrArg (TypeInfo.array nullable _) hinner⟩

/-- An annotation of one type can be described, or it has a flaw. -/
theorem describable_or_spoiled (T : TypeInfo) (a : Annotation) (h : a.infer false = [T]) :
    a.Describable ∨ ∃ flaw, a.Spoiled flaw := by
  obtain ⟨nullable, f, hforms, hT⟩ := exists_form_of_infer h
  -- The items of a collection are annotated themselves.
  have hcollection : f.isCollection = true → T.value? = Form.inner f.item? →
      a.Describable ∨ ∃ flaw, a.Spoiled flaw := by
    intro hcollection hvalue
    by_cases hone : ∃ item p, f.item? = some item ∧ item.forms false = [p]
    · obtain ⟨item, p, hitem, hp⟩ := hone
      have hinfer := infer_of_forms hp
      rw [hitem, inner_of_forms hp] at hvalue
      match T, hvalue with
      | .mk _ _ _ _ _ (some V), hvalue =>
        rw [← Option.some.inj hvalue] at hinfer
        rcases describable_or_spoiled V item hinfer with hd | ⟨flaw, hs⟩
        · exact .inl (.collection hforms hitem hd)
        · exact .inr ⟨flaw, .inside hforms hitem hs⟩
    · refine .inr ⟨_, .untypedItems hforms hcollection fun item hitem hlength => hone ?_⟩
      obtain ⟨p, hp⟩ := List.length_eq_one_iff.1 hlength
      exact ⟨item, p, hitem, hp⟩
  cases f with
  | builtin name =>
    by_cases hname : name ∈ writtenTypes
    · exact .inl (.builtin hforms hname)
    by_cases hobject : name = "object"
    · exact .inl (.object hforms (beq_iff_eq.2 hobject))
    · exact .inr ⟨_, .unsupported hforms hname hobject⟩
  | object c => exact .inl (.object hforms rfl)
  | mapping k v | sequence b => exact hcollection rfl (by rw [← hT]; rfl)

/-! ### Describable or flawed -/

/-- Every annotation can be described or has a flaw. -/
theorem describable_or_flawed (a : Annotation) : a.Describable ∨ ∃ flaw, a.Flawed flaw := by
  match hforms : a.forms false with
  | [] => exact .inr ⟨_, .untyped hforms⟩
  | [p] =>
    refine (describable_or_spoiled _ a (infer_of_forms hforms)).imp_right ?_
    exact fun ⟨flaw, h⟩ => ⟨flaw, .spoiled h⟩
  | p :: q :: rest => exact .inr ⟨_, .ambiguous (by rw [hforms]; simp)⟩

/-- What can be described is not spoiled. -/
theorem Describable.not_spoiled (h : a.Describable) : ∀ flaw, ¬a.Spoiled flaw := by
  induction h with
  | builtin hforms hname =>
    rintro flaw (⟨hforms', hname', -⟩ | ⟨hforms', hcollection, -⟩ | ⟨hforms', hitem, -⟩)
    all_goals cases hforms.symm.trans hforms'
    · exact hname' hname
    · cases hcollection
    · cases hitem
  | object hforms hobject =>
    rintro flaw (⟨hforms', -, hname⟩ | ⟨hforms', hcollection, -⟩ | ⟨hforms', hitem, -⟩)
    all_goals cases hforms.symm.trans hforms'
    · exact hname (beq_iff_eq.1 hobject)
    · exact Form.not_isCollection hobject hcollection
    · exact Form.not_isCollection hobject (Form.isCollection_of_item hitem)
  | collection hforms hitem hd ih =>
    rintro flaw (⟨hforms', -⟩ | ⟨hforms', -, hnone⟩ | ⟨hforms', hitem', hs⟩)
    all_goals cases hforms.symm.trans hforms'
    · cases hitem
    · obtain ⟨p, hp⟩ := hd.exists_form
      exact hnone _ hitem (by rw [hp]; rfl)
    · cases hitem.symm.trans hitem'
      exact ih flaw hs

/-- An annotation is spoiled by one flaw at most. -/
theorem Spoiled.unique (h : a.Spoiled flaw) : ∀ {flaw'}, a.Spoiled flaw' → flaw' = flaw := by
  induction h with
  | unsupported hforms hname =>
    rintro flaw' (⟨hforms', -⟩ | ⟨hforms', hcollection, -⟩ | ⟨hforms', hitem, -⟩)
    all_goals cases hforms.symm.trans hforms'
    · rfl
    · cases hcollection
    · cases hitem
  | untypedItems hforms hcollection hnone =>
    rintro flaw' (⟨hforms', -⟩ | ⟨hforms', -, -⟩ | ⟨hforms', hitem, hs⟩)
    all_goals cases hforms.symm.trans hforms'
    · cases hcollection
    · rfl
    · obtain ⟨p, hp⟩ := hs.exists_form
      exact absurd (by rw [hp]; rfl) (hnone _ hitem)
  | inside hforms hitem hs ih =>
    rintro flaw' (⟨hforms', -⟩ | ⟨hforms', -, hnone⟩ | ⟨hforms', hitem', hs'⟩)
    all_goals cases hforms.symm.trans hforms'
    · cases hitem
    · obtain ⟨p, hp⟩ := hs.exists_form
      exact absurd (by rw [hp]; rfl) (hnone _ hitem)
    · cases hitem.symm.trans hitem'
      exact ih hs'

/-- What has a flaw cannot be described. -/
theorem Flawed.not_describable (h : a.Flawed flaw) : ¬a.Describable := by
  intro hd
  obtain ⟨p, hp⟩ := hd.exists_form
  cases h with
  | untyped hforms => cases hforms.symm.trans hp
  | ambiguous hforms =>
    rw [hp] at hforms
    exact absurd hforms (by simp)
  | spoiled hs => exact hd.not_spoiled _ hs

/-- An annotation has one flaw at most. -/
theorem Flawed.unique (h : a.Flawed flaw) (h' : a.Flawed flaw') : flaw' = flaw := by
  have hspoiled : ∀ {flaw}, a.Spoiled flaw → (a.forms false).length = 1 := by
    intro flaw hs
    obtain ⟨p, hp⟩ := hs.exists_form
    rw [hp]
    rfl
  rcases h with hnone | hmany | hs <;> rcases h' with hnone' | hmany' | hs'
  · rfl
  · exact absurd hmany' (by simp [hnone])
  · exact absurd (hspoiled hs') (by simp [hnone])
  · exact absurd hmany (by simp [hnone'])
  · rfl
  · exact absurd (hspoiled hs') (Nat.ne_of_gt hmany)
  · exact absurd (hspoiled hs) (by simp [hnone'])
  · exact absurd (hspoiled hs) (Nat.ne_of_gt hmany')
  · exact hs.unique hs'

end Annotation

/-! ### Properties -/

namespace ClassTable

/-- The annotation from which the types of a property are inferred; one that says nothing where
    there is none. -/
def annotation (t : ClassTable) (owner property : String) : Annotation :=
  (t.inferable? owner property).getD .any

/-- The types of a property are those inferred from its annotation. -/
theorem types_eq (t : ClassTable) (owner property : String) :
    t.types owner property = (t.annotation owner property).infer false := by
  unfold types annotation
  cases t.inferable? owner property <;> rfl

/-- The classes of a property are those of its annotation. -/
theorem typeClasses_eq (t : ClassTable) (owner property : String) :
    t.typeClasses owner property = (t.annotation owner property).classes := by
  unfold typeClasses annotation
  cases t.inferable? owner property <;> rfl

end ClassTable

end ApiDoc
