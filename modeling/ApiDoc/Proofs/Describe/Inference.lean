import ApiDoc.Proofs.Class.Describable
import ApiDoc.Proofs.Describe.Agreement
import ApiDoc.Proofs.Describe.Lockstep
import ApiDoc.Proofs.Describe.Upright
import ApiDoc.Proofs.Groups.Exposure
import ApiDoc.Proofs.Policy.Success

namespace ApiDoc

/-!
# Annotations described, or not

An annotation that can be described is described at every depth; one with a flaw fails as the flaw
says:

* `Site.Ready` — a site at which a node can be described;
* `ObjectDescriber.describeType_collection` — the type of a collection is described as the type of
  its items is in a child;
* `Describable.describeType`, `Spoiled.describeType` — by induction on the annotation;
* `ObjectDescriber.Reaches`, `ObjectDescriber.LeavesOpen` — the properties of a model that are
  reached, and those whose types are left to their annotations;
* `ObjectDescriber.describe_fails_iff` — describing a model fails for the first of these whose
  annotation cannot be described, and for no other reason that lies in types.
-/

namespace Results

variable {σ α β : Type} {x : EStateM Failure σ α} {f : α → EStateM Failure σ β} {s u : σ}
  {e : Failure}

/-- Two computations fail if the first does, or the second after it. -/
theorem bind_eq_error : (x >>= f) s = .error e u ↔
    x s = .error e u ∨ ∃ a t, x s = .ok a t ∧ f a t = .error e u := by
  cases hx : x s with
  | ok a t =>
    rw [bind_of_ok hx]
    constructor
    · exact fun h => .inr ⟨a, t, rfl, h⟩
    · rintro (⟨⟨⟩⟩ | ⟨_, _, ⟨⟩, h⟩)
      exact h
  | error e' t =>
    rw [bind_of_error hx]
    constructor
    · rintro ⟨⟩
      exact .inl rfl
    · rintro (⟨⟨⟩⟩ | ⟨_, _, ⟨⟩, _⟩)
      rfl

variable {g : α → EStateM Failure σ Unit} {xs : List α}

/-- A loop fails with a step that fails after all steps before it. -/
theorem forM_eq_error : xs.forM g s = .error e u ↔ ∃ before y after t,
    xs = before ++ y :: after ∧ before.forM g s = .ok () t ∧ g y t = .error e u := by
  induction xs generalizing s with
  | nil =>
    constructor
    · rintro ⟨⟩
    · rintro ⟨before, y, after, _, hxs, -⟩
      exact absurd hxs (by simp)
  | cons x xs ih =>
    show (g x >>= fun _ => xs.forM g) s = _ ↔ _
    rw [bind_eq_error]
    constructor
    -- Either the first name fails or, after it, one of the rest.
    · rintro (h | ⟨⟨⟩, t, hx, h⟩)
      · exact ⟨[], x, xs, s, rfl, rfl, h⟩
      · obtain ⟨before, y, after, t', rfl, hbefore, hy⟩ := ih.1 h
        exact ⟨x :: before, y, after, t', rfl, (bind_of_ok hx).trans hbefore, hy⟩
    · rintro ⟨before, y, after, t, hxs, hbefore, hy⟩
      cases before with
      | nil =>
        cases hxs
        cases hbefore
        exact .inl hy
      | cons x' before =>
        cases hxs
        obtain ⟨⟨⟩, t', hx, hbefore⟩ := bind_eq_ok.1 hbefore
        exact .inr ⟨(), t', hx, ih.2 ⟨before, y, after, t, rfl, hbefore, hy⟩⟩

end Results

/-- The empty name stands for something, or for nothing. -/
theorem ClassTable.exists_resolve_empty (t : ClassTable) (met : List String) :
    ∃ c?, t.resolve met "" = .ok c? := by
  rw [ClassTable.resolve_eq]
  split
  · exact ⟨_, rfl⟩
  · exact ⟨_, rfl⟩

/-! ### New schemas -/

/-- A node that holds nothing yet, in a tree whose nodes have a way up. -/
theorem Forest.Blank.upright {f : Forest} {i : NodeId} {k : Kind} (h : f.Blank i k)
    (hroot : f.Rooted i) : f.Upright fun j => j = i ∨ f.size ≤ j := by
  -- In a set that holds `i` and what is still to come, `i` is the only node of the old forest.
  have hold : ∀ {j}, (j = i ∨ f.size ≤ j) → j < f.size → j = i := fun hj hlt =>
    hj.resolve_right (Nat.not_le_of_lt hlt)
  refine ⟨⟨fun j hj => .inr hj, fun j hj hlt σ p hp => ?_⟩, fun j hj hlt => ?_, fun j hj hlt => ?_⟩
  · obtain rfl := hold hj hlt
    rw [h.slots σ (Kind.mem_slots_of_placement? (h.root.kind ▸ hp))]
    exact .unset
  · exact hold hj hlt ▸ hroot
  · obtain ⟨mark, hes⟩ := h.root.extensions
    exact hold hj hlt ▸ ⟨_, mark, hes⟩

/-! ### Sites at which nodes can be described -/

/-- A site with a desk and a node of an upright tree that can be described, some classes having been
    met. -/
structure Site.Ready (s : Site) (T : NodeId → Prop) (i : NodeId) (classes : List String) :
    Prop where
  isOpen : (Rules.upright T).isOpen s.draft.forest i
  desk : ∃ d, s.desk? = some d
  met : classes ⊆ s.met

/-- A value of a field or a slot can be looked at. -/
theorem Site.isSet_eq {s : Site} {i : NodeId} {name : String}
    (hname : name ∈ (s.draft.forest.get i).kind.attributes) : Describe.isSet i name s
      = .ok (!((s.draft.forest.get i).value name).isUnset) s :=
  Results.bind_of_ok (Describe.edit_of_ok (Edit.read_eq hname))

namespace Site.Ready

open Rules

variable {s s' : Site} {T : NodeId → Prop} {i j : NodeId} {classes classes' : List String}

/-- A node that holds nothing yet can be described at a desk. -/
theorem of_blank {k : Kind} {d : Desk} (h : s.draft.forest.Blank i k)
    (hroot : s.draft.forest.Rooted i) (hdesk : s.desk? = some d) :
    s.Ready (fun j => j = i ∨ s.draft.forest.size ≤ j) i [] :=
  ⟨⟨h.upright hroot, .inl rfl, h.bound, h.root.kind ▸ h.schema⟩, ⟨d, hdesk⟩, List.nil_subset _⟩

/-- A site ready for some classes is ready for fewer. -/
theorem mono (h : s.Ready T i classes) (hsub : classes' ⊆ classes) : s.Ready T i classes' :=
  { h with met := List.Subset.trans hsub h.met }

/-- What a computation that keeps trees upright leaves. -/
theorem does {α : Type} {act : Describe α} {Q : α → Forest → Prop} {a : α}
    (h : s.Ready T i classes) (hdoes : (upright T).Does act s Q) (hact : act s = .ok a s') :
    s'.Ready T i [] ∧ Q a s'.draft.forest := by
  obtain ⟨d, hd⟩ := h.desk
  obtain ⟨hupright, hlater, hQ⟩ := hdoes.upright hd h.isOpen.1 hact
  -- A description never leaves the desk, so what follows finds it open as before.
  obtain ⟨_, _, -, -, hdesk⟩ := hdoes.after hd fun _ _ => trivial
  rw [Describe.after_of_ok hact] at hdesk
  exact ⟨⟨upright_isOpen (fun _ => ⟨hupright, hlater⟩) h.isOpen, ⟨_, hdesk⟩, List.nil_subset _⟩, hQ⟩

/-- An edit of the draft alone. -/
theorem edit {d : Draft} (h : s.Ready T i classes) (hj : (upright T).isOpen d.forest j) :
    Site.Ready { s with draft := d } T j classes :=
  ⟨hj, h.desk, h.met⟩

/-- A field can be set. -/
theorem setField (h : s.Ready T i classes) (name : String) (hname : name ∈ Kind.schemaFields)
    (v : Data) : ∃ s', Describe.setField i name v s = .ok () s' ∧ s'.Ready T i classes := by
  have hfield := Kind.schemaFields_subset _ h.isOpen.2.2.2 hname
  have hok := Edit.assign?_field (d := s.draft) hfield v
  obtain ⟨hleads, -⟩ := (upright_lawful T).field v h.isOpen (.inl hname) _ _ hok
  exact ⟨_, Describe.edit_of_ok hok, h.edit (upright_isOpen hleads h.isOpen)⟩

/-- The child of a slot for items can be had. -/
theorem child (h : s.Ready T i classes) {slot : String} {k : Kind} (hslot : (slot, k) ∈ itemSlots) :
    ∃ j s', Describe.edit (Edit.child i k) s = .ok j s' ∧ s'.Ready T j classes := by
  obtain ⟨hupright, hT, hlt, hkind⟩ := h.isOpen
  -- Both parts hold one schema at most.
  obtain ⟨b, hp⟩ : ∃ b, (s.draft.forest.get i).kind.placement? slot = some (.single k b) := by
    obtain ⟨hitems, hvalues⟩ := SharedType.placement?_parts hkind
    rcases List.mem_cons.1 hslot with he | he
    · cases he
      exact ⟨_, hitems⟩
    · cases List.mem_singleton.1 he
      exact ⟨_, hvalues⟩
  obtain ⟨j, d, hok⟩ := (Edit.Runs.child (S := anywhere T) hupright.formed hT hlt hp).succeeds
  obtain ⟨-, hj⟩ := (upright_lawful T).child h.isOpen hslot _ _ hok
  exact ⟨j, _, Describe.edit_of_ok hok, h.edit hj⟩

/-- A property can be had. -/
theorem property (h : s.Ready T i classes) (v : Data) :
    ∃ j s', Describe.edit (Edit.indexedItem i .property v) s = .ok j s' ∧ s'.Ready T j classes := by
  obtain ⟨hupright, hT, hlt, hkind⟩ := h.isOpen
  obtain ⟨j, d, hok⟩ := (Edit.Runs.indexedItem (S := anywhere T) hupright.formed hT hlt
    (Kind.placement?_properties hkind) v).succeeds
  obtain ⟨-, hj⟩ := (upright_lawful T).property v h.isOpen _ _ hok
  exact ⟨j, _, Describe.edit_of_ok hok, h.edit ((upright_lawful T).isOpen_of_isProperty hj)⟩

/-- A list of properties can be had. -/
theorem ensureProperties (h : s.Ready T i classes) :
    ∃ s', Describe.ensureProperties i s = .ok () s' := by
  have hslot := Kind.mem_slots_of_placement? (Kind.placement?_properties h.isOpen.2.2.2)
  unfold Describe.ensureProperties
  -- Schemas and properties alike have the slot, so asking whether it is set cannot fail.
  rw [Results.bind_of_ok (Site.isSet_eq (List.mem_append_right _ hslot))]
  split
  · exact ⟨_, Describe.edit_of_ok (Edit.assign?_slot hslot _)⟩
  · exact ⟨s, rfl⟩

/-- A model can be registered. -/
theorem register (h : s.Ready T i classes) (missing : Failure) (m : Model) :
    ∃ ref s', Describe.register missing m s = .ok ref s' ∧ s'.Ready T i classes := by
  obtain ⟨d, hd⟩ := h.desk
  refine ⟨_, _, Describe.register_of_some hd missing m, h.isOpen, ?_, h.met⟩
  exact ⟨_, Describe.withRegistry_desk? hd _⟩

end Site.Ready

/-! ### Types -/

namespace ObjectDescriber

open Describe

/-- The types that are written out are those of the table. -/
theorem writtenTypes_eq : writtenTypes = scalarTypes.map Prod.fst := rfl

/-- A type that is written out is found in the table. -/
theorem exists_lookup_scalarTypes {name : String} (h : name ∈ writtenTypes) :
    ∃ p, scalarTypes.lookup name = some p := by
  rw [writtenTypes_eq] at h
  obtain ⟨p, hp, rfl⟩ := List.mem_map.1 h
  rw [← Option.ne_none_iff_exists', ne_eq, List.lookup_eq_none_iff]
  exact fun hnone => by simpa using hnone p hp

/-- Another type is not. -/
theorem lookup_scalarTypes_eq_none {name : String} (h : name ∉ writtenTypes) :
    scalarTypes.lookup name = none := by
  rw [List.lookup_eq_none_iff]
  intro p hp
  rw [writtenTypes_eq] at h
  exact Bool.not_eq_true' _ ▸ beq_false_of_ne fun he => h (he ▸ List.mem_map_of_mem hp)

variable {w : World} {m : Model} {property : String} {s : Site} {T : NodeId → Prop} {i : NodeId}
  {classes : List String}

/-- The mark of null can be written at a ready site. -/
theorem exists_markNullable (h : s.Ready T i classes) (t : TypeInfo) :
    ∃ s', markNullable t i s = .ok () s' := by
  unfold markNullable
  cases t.nullable with
  | true =>
    obtain ⟨s', hs', -⟩ := h.setField "nullable" (by decide) (.bool true)
    exact ⟨s', hs'⟩
  | false => exact ⟨s, rfl⟩

/-- The values of an enumeration can be written, and the site stays ready. -/
theorem exists_describeValues (h : s.Ready T i classes) (values : List Data) :
    ∃ s', describeValues values i s = .ok () s' ∧ s'.Ready T i classes := by
  unfold describeValues
  cases valueType? values with
  | some type =>
    obtain ⟨s₁, h₁, hready⟩ := h.setField "type" (by decide) (.str type)
    obtain ⟨s₂, h₂, hready⟩ := hready.setField "enum" (by decide) (.ofList values)
    exact ⟨s₂, (Results.bind_of_ok h₁).trans h₂, hready⟩
  | none => exact h.setField "enum" (by decide) _

/-- Objects of a class that has been met, or of none, are described. -/
theorem exists_describeObject (h : s.Ready T i classes) {t : TypeInfo}
    (hclass : ∃ c?, w.classes.resolve s.met (t.className?.getD "") = .ok c?) :
    ∃ s', describeObject w m t i s = .ok () s' := by
  obtain ⟨c?, hclass⟩ := hclass
  unfold describeObject
  rw [Results.bind_of_ok (resolve_of_ok hclass)]
  split
  · obtain ⟨s₁, h₁, hready⟩ := h.setField "type" (by decide) (.str "string")
    obtain ⟨s₂, h₂, hready⟩ := hready.setField "format" (by decide) (.str "date-time")
    obtain ⟨s₃, h₃⟩ := exists_markNullable hready t
    exact ⟨s₃, (Results.bind_of_ok h₁).trans ((Results.bind_of_ok h₂).trans h₃)⟩
  -- A class is an enumeration, of which the values are written, or it is registered.
  · cases c?.bind w.classes.enumeration? with
    | some e =>
      obtain ⟨s₁, h₁, hready⟩ := exists_describeValues h e.values
      obtain ⟨s₂, h₂⟩ := exists_markNullable hready t
      exact ⟨s₂, (Results.bind_of_ok h₁).trans h₂⟩
    | none =>
      obtain ⟨ref, s₁, h₁, hready⟩ := h.register missing ⟨.object (t.className?.getD ""), m.groups⟩
      obtain ⟨s₂, h₂, -⟩ := hready.setField "ref" (by decide) (.str ref)
      exact ⟨s₂, (Results.bind_of_ok h₁).trans h₂⟩

/-- The type of a collection is described as the type of its items is in a child. -/
theorem describeType_collection (h : s.Ready T i classes) (nullable : Bool)
    (key? : Option TypeInfo) (value : TypeInfo) : ∃ j s', s'.Ready T j classes ∧
      describeType w m property (.array nullable key? (some value)) i s
        = describeType w m property value j s' := by
  -- Arrays and mappings differ in the name of the type and in the slot of the part.
  have hpart : ∀ type slot k, (slot, k) ∈ Rules.itemSlots → ∃ j s', s'.Ready T j classes ∧
      (do setField i "type" (.str type)
          describeType w m property value (← edit (Edit.child i k)) : Describe Unit) s
        = describeType w m property value j s' := by
    intro type slot k hslot
    obtain ⟨s₁, h₁, hready⟩ := h.setField "type" (by decide) (.str type)
    obtain ⟨j, s₂, h₂, hready⟩ := hready.child hslot
    exact ⟨j, s₂, hready, (Results.bind_of_ok h₁).trans (Results.bind_of_ok h₂)⟩
  unfold TypeInfo.array
  rw [describeType]
  split
  · exact hpart "object" "additional_properties" _ (by decide)
  · exact hpart "array" "items" _ (by decide)

end ObjectDescriber

namespace Annotation

open ObjectDescriber

variable {w : World} {m : Model} {property : String} {s : Site} {T : NodeId → Prop} {i : NodeId}
  {a : Annotation}

/-- An annotation that can be described is described once the classes in it have been met. -/
theorem Describable.exists_describeType (h : a.Describable) {t : TypeInfo}
    (ht : a.infer false = [t]) (hs : s.Ready T i a.classes) :
    ∃ s', describeType w m property t i s = .ok () s' := by
  induction h generalizing s i t with
  | @builtin a nullable name hforms hname =>
    -- A scalar has its type written, then its format, if any, and that it is nullable.
    obtain rfl := typeInfo_of_infer hforms ht
    obtain ⟨⟨type, format?⟩, hlookup⟩ := exists_lookup_scalarTypes hname
    obtain ⟨s₁, h₁, hready⟩ := hs.setField "type" (by decide) (.str type)
    unfold Form.typeInfo TypeInfo.scalar
    rw [describeType, hlookup]
    dsimp only
    rw [Results.bind_of_ok h₁]
    cases format? with
    | none => exact exists_markNullable hready _
    | some format =>
      obtain ⟨s₂, h₂, hready⟩ := hready.setField "format" (by decide) (.str format)
      obtain ⟨s₃, h₃⟩ := exists_markNullable hready (.mk name nullable none false none none)
      exact ⟨s₃, (Results.bind_of_ok h₂).trans h₃⟩
  | @object a nullable f hforms hobject =>
    obtain rfl := typeInfo_of_infer hforms ht
    cases f with
    | builtin name =>
      -- The name of the base class of all asks for no class; any other class has been met before.
      obtain rfl : name = "object" := beq_iff_eq.1 hobject
      exact exists_describeObject hs (ClassTable.exists_resolve_empty w.classes s.met)
    | object c =>
      have hmet : c ∈ s.met := hs.met (classes_of_forms hforms (List.mem_singleton_self c))
      refine exists_describeObject hs ⟨some c, ?_⟩
      exact (ClassTable.resolve_eq ..).trans (if_pos hmet)
    | mapping _ _ | sequence _ => cases hobject
  | @collection a item nullable f hforms hitem hd ih =>
    obtain rfl := typeInfo_of_infer hforms ht
    obtain ⟨value, hvalue⟩ := hd.exists_infer
    obtain ⟨key?, hcollection⟩ := typeInfo_of_item hitem hvalue nullable
    rw [hcollection]
    -- What is inside is described one node further down, where the induction hypothesis applies.
    obtain ⟨j, s₁, hready, hinner⟩ := describeType_collection hs _ key? value
    rw [hinner]
    exact ih hvalue (hready.mono (classes_of_item hforms hitem))

/-- An annotation with a flaw fails as the flaw says. -/
theorem Spoiled.exists_describeType {flaw : Flaw} (h : a.Spoiled flaw) {t : TypeInfo}
    (ht : a.infer false = [t]) (hs : s.Ready T i a.classes) :
    ∃ s', describeType w m property t i s
      = .error (flaw.failure (m.className?.getD "") property) s' := by
  induction h generalizing s i t with
  | @unsupported a nullable name hforms hname hobject =>
    obtain rfl := typeInfo_of_infer hforms ht
    refine ⟨s, ?_⟩
    unfold Form.typeInfo TypeInfo.scalar
    rw [describeType, lookup_scalarTypes_eq_none hname]
    exact congrFun (if_neg fun h => hobject (beq_iff_eq.1 h)) s
  | @untypedItems a nullable f hforms hcollection hitem =>
    obtain rfl := typeInfo_of_infer hforms ht
    obtain ⟨key?, heq⟩ := typeInfo_of_untypedItems hcollection hitem nullable
    rw [heq]
    exact ⟨s, rfl⟩
  | @inside a item nullable f flaw hforms hitem hspoiled ih =>
    -- The flaw is in what is inside, which is described one node further down.
    obtain rfl := typeInfo_of_infer hforms ht
    obtain ⟨value, hvalue⟩ := hspoiled.exists_infer
    obtain ⟨key?, hcollection⟩ := typeInfo_of_item hitem hvalue nullable
    rw [hcollection]
    obtain ⟨j, s₁, hready, hinner⟩ := describeType_collection hs _ key? value
    rw [hinner]
    exact ih hvalue (hready.mono (classes_of_item hforms hitem))

end Annotation

/-! ### Properties -/

/-- Whether neither type nor reference of a node is set. -/
def Node.Undecided (n : Node) : Prop := n.value "type" = .unset ∧ n.value "ref" = .unset

/-- A node is undecided if it has neither type nor reference. -/
theorem Node.undecided_iff {n : Node} :
    n.Undecided ↔ ((n.value "type").isUnset && (n.value "ref").isUnset) = true := by
  rw [Undecided, Bool.and_eq_true, Data.isUnset_iff, Data.isUnset_iff]

/-- The question for a type is answered at a ready site. -/
theorem Site.Ready.isDecided {s : Site} {T : NodeId → Prop} {i : NodeId} {classes : List String}
    (h : s.Ready T i classes) : Describe.isDecided i s = .ok (!(
      ((s.draft.forest.get i).value "type").isUnset &&
        ((s.draft.forest.get i).value "ref").isUnset)) s := by
  have hfield : ∀ name ∈ Kind.schemaFields, name ∈ (s.draft.forest.get i).kind.attributes :=
    fun name hname => List.mem_append_left _ (Kind.schemaFields_subset _ h.isOpen.2.2.2 hname)
  refine (Results.bind_of_ok (Site.isSet_eq (hfield "type" (by decide)))).trans ?_
  cases ((s.draft.forest.get i).value "type").isUnset with
  | true => exact Site.isSet_eq (hfield "ref" (by decide))
  | false => rfl

namespace ObjectDescriber

open Describe
open Annotation (infer_eq describable_or_flawed)

section Properties

variable (w : World) (r : Reader) (m : Model) (owner : String) (schema : NodeId)

/-- A property whose type is left to its annotation: at its node neither type nor reference is set
    after its overrides. -/
def LeavesOpen (property : String) (s : Site) (i : NodeId) (s' : Site) : Prop :=
  propertyNode w r m owner property schema s = .ok i s' ∧ (s'.draft.forest.get i).Undecided

/-- The overrides of a property merge into its node. -/
def OverridesMerge (property : String) (s : Site) : Prop :=
  ∀ reflection, Reflection.ofClass w.classes owner property = .ok reflection → ∀ i s₁,
    edit (Edit.indexedItem schema .property (Reader.propertyName reflection (.str property))) s
      = .ok i s₁ →
    ∃ s₂, r.updateProperty w reflection
      ((Groups.nested m.groups (.str property)).getD m.groups) i s₁ = .ok () s₂

variable {w r m owner schema} {property : String} {s s' : Site} {T : NodeId → Prop} {i : NodeId}

/-- Where there are no overrides they merge. -/
theorem OverridesMerge.of_nil (h : ∀ reflection,
    Reflection.ofClass w.classes owner property = .ok reflection → reflection.overrides = []) :
    OverridesMerge w r m owner schema property s := by
  intro reflection href i s₁ _
  exact ⟨s₁, by rw [Reader.updateProperty_of_nil (h reflection href)]; rfl⟩

/-- The node of a property whose overrides merge. -/
theorem exists_propertyNode (hs : s.Ready T schema [])
    (hmerge : OverridesMerge w r m owner schema property s) :
    ∃ i s', propertyNode w r m owner property schema s = .ok i s' := by
  unfold propertyNode
  cases href : Reflection.ofClass w.classes owner property with
  | error e =>
    -- Without a reflection there is nothing to merge: the node is created under the name itself.
    obtain ⟨i, s₁, h₁, -⟩ := hs.property (.str property)
    exact ⟨i, s₁, h₁⟩
  | ok reflection =>
    obtain ⟨i, s₁, h₁, -⟩ := hs.property (Reader.propertyName reflection (.str property))
    obtain ⟨s₂, h₂⟩ := hmerge reflection href i s₁ h₁
    exact ⟨i, s₂, (Results.bind_of_ok h₁).trans (Results.bind_of_ok h₂)⟩

/-- A property that has been opened leaves a site ready for it. -/
theorem ready_propertyNode (hs : s.Ready T schema [])
    (h : propertyNode w r m owner property schema s = .ok i s') : s'.Ready T i [] := by
  have hdoes := Rules.Does.objectNode (R := .upright T) (Rules.upright_lawful T)
    (Rules.upright_covers w) r (m := m) owner property trivial hs.isOpen
  obtain ⟨hready, hproperty⟩ := hs.does hdoes h
  exact { hready with isOpen := (Rules.upright_lawful T).isOpen_of_isProperty hproperty }

/-- A property whose type is decided is described by that. -/
theorem describeProperty_of_decided (hs : s.Ready T schema [])
    (hnode : propertyNode w r m owner property schema s = .ok i s')
    (hdecided : ¬(s'.draft.forest.get i).Undecided) :
    describeProperty w r m owner property schema s = .ok () s' := by
  refine (Results.bind_of_ok hnode).trans ?_
  refine (Results.bind_of_ok (ready_propertyNode hs hnode).isDecided).trans ?_
  rw [Node.undecided_iff, Bool.not_eq_true] at hdecided
  rw [hdecided]
  rfl

/-- A property whose type is left to its annotation. -/
theorem describeProperty_of_open (hs : s.Ready T schema [])
    (hopen : LeavesOpen w r m owner schema property s i s') :
    ∃ s₁, s₁.Ready T i (w.classes.annotation owner property).classes ∧
      describeProperty w r m owner property schema s
        = match (w.classes.annotation owner property).infer false with
          | [] => .error (.untyped (m.className?.getD "") property) s₁
          | [t] => describeType w m property t i s₁
          | _ => .error (.ambiguous (m.className?.getD "") property) s₁ := by
  obtain ⟨hnode, hundecided⟩ := hopen
  have hready := ready_propertyNode hs hnode
  let classes := w.classes.typeClasses owner property
  refine ⟨{ s' with met := s'.met ++ classes.filter fun n => !s'.met.contains n }, ?_, ?_⟩
  -- Reading the types meets every class that the annotation names.
  · refine ⟨hready.isOpen, hready.desk, fun c hc => ?_⟩
    rw [← ClassTable.typeClasses_eq] at hc
    exact ClassTable.mem_meet.2 (.inr hc)
  -- The node is undecided, so what happens is a matter of the types read alone.
  · refine (Results.bind_of_ok hnode).trans ?_
    refine (Results.bind_of_ok hready.isDecided).trans ?_
    rw [Node.undecided_iff.1 hundecided, ← ClassTable.types_eq]
    unfold onlyType
    cases w.classes.types owner property with
    | nil => rfl
    | cons t rest => cases rest <;> rfl

/-- An open property whose annotation can be described is described. -/
theorem describeProperty_of_describable (hs : s.Ready T schema [])
    (hopen : LeavesOpen w r m owner schema property s i s')
    (h : (w.classes.annotation owner property).Describable) :
    ∃ s₁, describeProperty w r m owner property schema s = .ok () s₁ := by
  obtain ⟨s₁, hready, heq⟩ := describeProperty_of_open hs hopen
  obtain ⟨t, ht⟩ := h.exists_infer
  rw [heq, ht]
  exact h.exists_describeType ht hready

/-- An open property whose annotation has a flaw fails with the failure of the flaw. -/
theorem describeProperty_of_flawed (hs : s.Ready T schema [])
    (hopen : LeavesOpen w r m owner schema property s i s') {flaw : Flaw}
    (h : (w.classes.annotation owner property).Flawed flaw) :
    ∃ s₁, describeProperty w r m owner property schema s
      = .error (flaw.failure (m.className?.getD "") property) s₁ := by
  obtain ⟨s₁, hready, heq⟩ := describeProperty_of_open hs hopen
  rw [heq]
  cases h with
  -- The first two flaws are about the number of readings, the third about the only one.
  | untyped hforms => exact ⟨s₁, by rw [infer_eq, hforms]; rfl⟩
  | ambiguous hforms =>
    refine ⟨s₁, ?_⟩
    rw [infer_eq]
    match hall : (w.classes.annotation owner property).forms false with
    | [] | [_] => simp [hall] at hforms
    | _ :: _ :: _ => rfl
  | spoiled hspoiled =>
    obtain ⟨t, ht⟩ := hspoiled.exists_infer
    rw [ht]
    exact hspoiled.exists_describeType ht hready

/-- Describing a property whose overrides merge fails if its type is left to an annotation with a
    flaw, and only then. -/
theorem describeProperty_eq_error (hs : s.Ready T schema [])
    (hmerge : OverridesMerge w r m owner schema property s) {e : Failure} :
    (∃ s₁, describeProperty w r m owner property schema s = .error e s₁) ↔
      ∃ i s' flaw, LeavesOpen w r m owner schema property s i s' ∧
        (w.classes.annotation owner property).Flawed flaw ∧
          e = flaw.failure (m.className?.getD "") property := by
  constructor
  · rintro ⟨s₁, h⟩
    obtain ⟨i, s', hnode⟩ := exists_propertyNode hs hmerge
    -- The node exists, so the failure comes after it: a decided node is left as it is, and an
    -- undecided one fails if the annotation has a flaw.
    by_cases hundecided : (s'.draft.forest.get i).Undecided
    · rcases (w.classes.annotation owner property).describable_or_flawed with hd | ⟨flaw, hflaw⟩
      · obtain ⟨s₂, hok⟩ := describeProperty_of_describable hs ⟨hnode, hundecided⟩ hd
        cases hok.symm.trans h
      · obtain ⟨s₂, herror⟩ := describeProperty_of_flawed hs ⟨hnode, hundecided⟩ hflaw
        cases herror.symm.trans h
        exact ⟨i, s', flaw, ⟨hnode, hundecided⟩, hflaw, rfl⟩
    · cases (describeProperty_of_decided hs hnode hundecided).symm.trans h
  · rintro ⟨i, s', flaw, hopen, hflaw, rfl⟩
    exact describeProperty_of_flawed hs hopen hflaw

/-- A property that has been described leaves a ready site. -/
theorem ready_describeProperty (hs : s.Ready T schema [])
    (h : describeProperty w r m owner property schema s = .ok () s') : s'.Ready T schema [] :=
  (hs.does (Rules.Does.objectProperty (Rules.upright_lawful T) (Rules.upright_covers w) r (m := m)
    owner property trivial hs.isOpen) h).1

end Properties

/-! ### Models -/

section Models

variable (w : World) (r : Reader) (m : Model) (owner : String) (schema : NodeId)

/-- The schema of a model before its properties: an object, with the override of the class. -/
def opening : Describe Unit := do
  setField schema "type" (.str "object")
  r.updateSchema w owner schema

/-- The properties that a model exposes; none where they cannot be listed. -/
def visible : List String :=
  match w.classes.properties owner (requestedGroups m.groups) with
  | .ok names? => names?.getD []
  | .error _ => []

/-- A visible property that is reached from an opening site: those before it have been described. -/
def Reaches (s₀ : Site) (before : List String) (property : String) (s : Site) : Prop :=
  (∃ after, visible w m owner = before ++ property :: after) ∧
    before.forM (fun p => describeProperty w r m owner p schema) s₀ = .ok () s

/-- A reached property whose type is left to an annotation with a flaw. -/
def Stuck (s₀ : Site) (before : List String) (property : String) (flaw : Flaw) : Prop :=
  ∃ s i s', Reaches w r m owner schema s₀ before property s ∧
    LeavesOpen w r m owner schema property s i s' ∧
      (w.classes.annotation owner property).Flawed flaw

variable {w r m owner schema} {property : String} {s s₀ s' : Site} {T : NodeId → Prop} {i : NodeId}
  {before : List String}

/-- The site is ready whenever a run comes to a property. -/
theorem Reaches.ready (hs₀ : s₀.Ready T schema [])
    (h : Reaches w r m owner schema s₀ before property s) : s.Ready T schema [] :=
  Yields.forM (I := fun _ s => s.Ready T schema []) hs₀
    (fun _ _ _ _ _ hs _ _ h => ready_describeProperty hs h) _ _ h.2

/-- Where the overrides of all reached properties merge, describing the visible properties fails for
    the one that is stuck. -/
theorem forM_describeProperty_eq_error (hs₀ : s₀.Ready T schema [])
    (hmerge : ∀ before property s, Reaches w r m owner schema s₀ before property s →
      OverridesMerge w r m owner schema property s) {e : Failure} :
    (∃ s', (visible w m owner).forM (fun p => describeProperty w r m owner p schema) s₀
      = .error e s') ↔ ∃ before property flaw, Stuck w r m owner schema s₀ before property flaw ∧
        e = flaw.failure (m.className?.getD "") property := by
  constructor
  · rintro ⟨s', h⟩
    obtain ⟨before, property, after, s, hnames, hbefore, herror⟩ := Results.forM_eq_error.1 h
    have hreaches : Reaches w r m owner schema s₀ before property s := ⟨⟨after, hnames⟩, hbefore⟩
    -- The properties before the failing one have been described, so the site is ready for it.
    obtain ⟨i, s₁, flaw, hopen, hflaw, rfl⟩ := (describeProperty_eq_error (hreaches.ready hs₀)
      (hmerge _ _ _ hreaches)).1 ⟨s', herror⟩
    exact ⟨before, property, flaw, ⟨s, i, s₁, hreaches, hopen, hflaw⟩, rfl⟩
  · rintro ⟨before, property, flaw, ⟨s, i, s₁, hreaches, hopen, hflaw⟩, rfl⟩
    obtain ⟨s', herror⟩ := describeProperty_of_flawed (hreaches.ready hs₀) hopen hflaw
    obtain ⟨after, hnames⟩ := hreaches.1
    exact ⟨s', Results.forM_eq_error.2 ⟨before, property, after, s, hnames, hreaches.2, herror⟩⟩

/-- No property is stuck that stands before a reached one. -/
theorem Reaches.describable_before (hs₀ : s₀.Ready T schema [])
    (h : Reaches w r m owner schema s₀ before property s) {before' : List String}
    {property' : String} {t t' : Site} {j : NodeId}
    (h' : Reaches w r m owner schema s₀ before' property' t)
    (hlength : before'.length < before.length)
    (hopen : LeavesOpen w r m owner schema property' t j t') :
    (w.classes.annotation owner property').Describable := by
  obtain ⟨⟨after, hnames⟩, hbefore⟩ := h
  obtain ⟨after', hnames'⟩ := h'.1
  obtain ⟨rest, hrest⟩ : ∃ rest, before = before' ++ property' :: rest := by
    -- Both lists are beginnings of the listed properties, and the shorter begins the longer.
    obtain ⟨rest, hrest⟩ : before' ++ [property'] <+: before := by
      refine List.prefix_of_prefix_length_le ⟨after', ?_⟩ ⟨property :: after, hnames.symm⟩ ?_
      · rw [List.append_assoc, hnames']
        rfl
      · rw [List.length_append]
        exact hlength
    exact ⟨rest, by rw [← hrest, List.append_assoc]; rfl⟩
  refine (describable_or_flawed _).resolve_right fun ⟨flaw, hflaw⟩ => ?_
  -- With a flaw the earlier property would have failed, and the later never been reached.
  obtain ⟨u, herror⟩ := describeProperty_of_flawed (h'.ready hs₀) hopen hflaw
  have hfails := Results.forM_eq_error.2 ⟨before', property', rest, t, hrest, h'.2, herror⟩
  cases hbefore.symm.trans hfails

/-- Describing a model is an opening, and then its properties. -/
theorem describe_eq {d : Desk} (hdesk : s.desk? = some d)
    (hclass : w.classes.resolve s.met (m.className?.getD "") = .ok (some owner))
    (hopening : opening w (Reader.ofDesk d) owner schema s = .ok () s₀) :
    describe w m schema s = (do
      let names? ← ofExcept (w.classes.properties owner (requestedGroups m.groups))
      (names?.getD []).forM fun p => describeProperty w (Reader.ofDesk d) m owner p schema
      ensureProperties schema) s₀ := by
  obtain ⟨⟨⟩, s₁, hset, hupdate⟩ := Results.bind_eq_ok.1 hopening
  refine (Results.bind_of_ok hset).trans ?_
  obtain ⟨draft, -, rfl⟩ := edit_eq_ok hset
  refine (Results.bind_of_ok (resolve_of_ok (s := { s with draft := draft }) hclass)).trans ?_
  refine (Results.bind_of_ok (desk_of_some (s := { s with draft := draft }) hdesk _)).trans ?_
  exact Results.bind_of_ok hupdate

/-- A model is not described because a property is stuck, or because its properties cannot be
    listed. -/
theorem describe_eq_error {d : Desk} (hs₀ : s₀.Ready T schema []) (hdesk : s.desk? = some d)
    (hclass : w.classes.resolve s.met (m.className?.getD "") = .ok (some owner))
    (hopening : opening w (Reader.ofDesk d) owner schema s = .ok () s₀)
    (hmerge : ∀ before property t, Reaches w (Reader.ofDesk d) m owner schema s₀ before property t →
      OverridesMerge w (Reader.ofDesk d) m owner schema property t) {e : Failure} :
    (∃ s', describe w m schema s = .error e s') ↔
      (∃ before property flaw, Stuck w (Reader.ofDesk d) m owner schema s₀ before property flaw ∧
        e = flaw.failure (m.className?.getD "") property) ∨
      w.classes.properties owner (requestedGroups m.groups) = .error e := by
  rw [describe_eq hdesk hclass hopening, ← forM_describeProperty_eq_error hs₀ hmerge]
  unfold visible
  cases hlisted : w.classes.properties owner (requestedGroups m.groups) with
  | error e' =>
    -- Listing the properties fails before the first of them is described.
    constructor
    · rintro ⟨s', ⟨⟩⟩
      exact .inr rfl
    · rintro (⟨s', ⟨⟩⟩ | ⟨⟨⟩⟩)
      exact ⟨s₀, rfl⟩
  | ok names? =>
    -- Only the properties can fail: the list of properties is ensured of any ready site.
    have hready : Yields ((names?.getD []).forM
        fun p => describeProperty w (Reader.ofDesk d) m owner p schema) s₀
        fun _ s => s.Ready T schema [] :=
      .forM (I := fun _ s => s.Ready T schema []) hs₀
        fun _ _ _ _ _ hs _ _ h => ready_describeProperty hs h
    show (∃ s', (do
      (names?.getD []).forM fun p => describeProperty w (Reader.ofDesk d) m owner p schema
      ensureProperties schema : Describe Unit) s₀ = .error e s') ↔ _
    constructor
    · rintro ⟨s', h⟩
      rcases Results.bind_eq_error.1 h with h | ⟨⟨⟩, t, ht, h⟩
      · exact .inl ⟨s', h⟩
      · obtain ⟨t', hok⟩ := (hready () t ht).ensureProperties
        cases hok.symm.trans h
    · rintro (⟨s', h⟩ | ⟨⟨⟩⟩)
      exact ⟨s', Results.bind_of_error h⟩

end Models

end ObjectDescriber

/-- Whether a failure lies in the type of a property. -/
def Failure.ConcernsType (e : Failure) : Prop :=
  ∃ (flaw : Flaw) (className property : String), e = flaw.failure className property

/-- Groups that cannot be read have nothing to do with types. -/
theorem Groups.NotMembers.not_concernsType {e : Failure} (h : NotMembers e) : ¬e.ConcernsType := by
  rintro ⟨flaw, className, property, rfl⟩
  cases flaw <;> cases h

namespace ObjectDescriber

open Describe
open Annotation (describable_or_flawed)

variable {w : World} {m : Model} {s s₀ : Site} {d : Desk} {i : NodeId} {k : Kind} {owner : String}

/-- A model of a class that is known is described onto a schema that holds nothing yet, and the
    overrides merge. Describing fails for a reason that lies in a type if and only if a visible
    property is reached whose type is left to an annotation that cannot be described. It fails for
    the first such property, and as the flaw of its annotation says. Otherwise it succeeds, if the
    properties can be listed at all. -/
theorem describe_fails_iff (hblank : s.draft.forest.Blank i k) (hroot : s.draft.forest.Rooted i)
    (hdesk : s.desk? = some d)
    (hclass : w.classes.resolve s.met (m.className?.getD "") = .ok (some owner))
    (hopening : opening w (Reader.ofDesk d) owner i s = .ok () s₀)
    (hmerge : ∀ before property t, Reaches w (Reader.ofDesk d) m owner i s₀ before property t →
      OverridesMerge w (Reader.ofDesk d) m owner i property t) :
    ((∃ e s', describe w m i s = .error e s' ∧ e.ConcernsType) ↔ ∃ before property t j t',
      Reaches w (Reader.ofDesk d) m owner i s₀ before property t ∧
        LeavesOpen w (Reader.ofDesk d) m owner i property t j t' ∧
          ¬(w.classes.annotation owner property).Describable) ∧
    (∀ e s', describe w m i s = .error e s' → e.ConcernsType → ∃ before property flaw,
      Stuck w (Reader.ofDesk d) m owner i s₀ before property flaw ∧
        e = flaw.failure (m.className?.getD "") property ∧
        ∀ before' property' t j t', before'.length < before.length →
          Reaches w (Reader.ofDesk d) m owner i s₀ before' property' t →
            LeavesOpen w (Reader.ofDesk d) m owner i property' t j t' →
              (w.classes.annotation owner property').Describable) ∧
    ((∃ s', describe w m i s = .ok () s') ↔
      (∃ names?, w.classes.properties owner (requestedGroups m.groups) = .ok names?) ∧
        ∀ before property t j t',
          Reaches w (Reader.ofDesk d) m owner i s₀ before property t →
            LeavesOpen w (Reader.ofDesk d) m owner i property t j t' →
              (w.classes.annotation owner property).Describable) := by
  let T : NodeId → Prop := fun j => j = i ∨ s.draft.forest.size ≤ j
  have hs : s.Ready T i [] := .of_blank hblank hroot hdesk
  have hs₀ : s₀.Ready T i [] := by
    have hlawful := Rules.upright_lawful T
    refine (hs.does (Q := fun _ _ => True) ?_ hopening).1
    refine .bind hlawful (.setField hlawful hs.isOpen (.inl (by decide))) fun _ t ht _ => ?_
    exact .updateSchema hlawful (Rules.upright_covers w) _ owner
      (hlawful.isOpen_of_leads ht hs.isOpen)
  have hfails := fun {e} => describe_eq_error (e := e) hs₀ hdesk hclass hopening hmerge
  -- A property that is left to an annotation that cannot be described is stuck.
  have hstuck : ∀ before property t j t',
      Reaches w (Reader.ofDesk d) m owner i s₀ before property t →
        LeavesOpen w (Reader.ofDesk d) m owner i property t j t' →
          ¬(w.classes.annotation owner property).Describable →
            ∃ e s', describe w m i s = .error e s' ∧ e.ConcernsType := by
    intro before property t j t' hreaches hopen hnot
    obtain ⟨flaw, hflaw⟩ := (describable_or_flawed _).resolve_left hnot
    obtain ⟨s', herror⟩ :=
      hfails.2 (.inl ⟨before, property, flaw, ⟨t, j, t', hreaches, hopen, hflaw⟩, rfl⟩)
    exact ⟨_, s', herror, flaw, _, property, rfl⟩
  refine ⟨⟨?_, fun ⟨before, property, t, j, t', hreaches, hopen, hnot⟩ =>
    hstuck before property t j t' hreaches hopen hnot⟩, ?_, ?_, ?_⟩
  · rintro ⟨e, s', herror, htype⟩
    rcases hfails.1 ⟨s', herror⟩ with ⟨before, property, flaw, hstuck, -⟩ | hunlisted
    · obtain ⟨t, j, t', hreaches, hopen, hflaw⟩ := hstuck
      exact ⟨before, property, t, j, t', hreaches, hopen, hflaw.not_describable⟩
    · exact absurd htype (ClassTable.properties_eq_error hunlisted).not_concernsType
  · intro e s' herror htype
    rcases hfails.1 ⟨s', herror⟩ with ⟨before, property, flaw, hstuck, rfl⟩ | hunlisted
    · obtain ⟨t, j, t', hreaches, -⟩ := id hstuck
      exact ⟨before, property, flaw, hstuck, rfl, fun _ _ _ _ _ hlength hreaches' hopen' =>
        hreaches.describable_before hs₀ hreaches' hlength hopen'⟩
    · exact absurd htype (ClassTable.properties_eq_error hunlisted).not_concernsType
  · rintro ⟨s', hok⟩
    constructor
    · cases hlisted : w.classes.properties owner (requestedGroups m.groups) with
      | ok names? => exact ⟨names?, rfl⟩
      | error e =>
        obtain ⟨s'', herror⟩ := hfails.2 (.inr hlisted)
        cases hok.symm.trans herror
    · intro before property t j t' hreaches hopen
      by_contra hnot
      obtain ⟨e, s'', herror, -⟩ := hstuck before property t j t' hreaches hopen hnot
      cases hok.symm.trans herror
  · rintro ⟨⟨names?, hlisted⟩, hall⟩
    cases hresult : describe w m i s with
    | ok a s' => exact ⟨s', rfl⟩
    | error e s' =>
      rcases hfails.1 ⟨s', hresult⟩ with ⟨before, property, flaw, hstuck, -⟩ | hunlisted
      · obtain ⟨t, j, t', hreaches, hopen, hflaw⟩ := hstuck
        exact absurd (hall before property t j t' hreaches hopen) hflaw.not_describable
      · cases hlisted.symm.trans hunlisted

/-- A class with a title and with lists of lists of bytes. -/
def albumClasses : ClassTable :=
  [{ decl := { module := "shop", name := "Album", kind := .plain
               fields := [⟨"title", .builtin "string", .null, none⟩,
                 ⟨"covers", .sequence "list" (.sequence "list" (.builtin "bytes")), .null, none⟩] }
     order := ["shop.Album", rootClass], recordFields? := none }]

/-- The bytes keep the model from being described. -/
theorem describe_fails_album :
    (∃ s', describe { classes := albumClasses } (.ofClass "shop.Album" .null) 0 emptySchemaSite
      = .error (.unsupported "shop.Album" "covers" "bytes") s') ∧
    ∃ s₀ before property flaw, Stuck { classes := albumClasses } ⟨true, none⟩
      (.ofClass "shop.Album" .null) "shop.Album" 0 s₀ before property flaw ∧
        Failure.unsupported "shop.Album" "covers" "bytes" = flaw.failure "shop.Album" property := by
  let w : World := { classes := albumClasses }
  let m : Model := .ofClass "shop.Album" .null
  obtain ⟨e, s', herror, he⟩ : ∃ e s', describe w m 0 emptySchemaSite = .error e s' ∧
      (match e with
        | .unsupported c p b => c == "shop.Album" && p == "covers" && b == "bytes"
        | _ => false) = true := Results.exists_of_failsIn (by decide +kernel)
  obtain ⟨s₀, hopening⟩ : ∃ s₀, opening w (Reader.ofDesk ⟨Registry.create "#/components/schemas/"
      none [], {}⟩) "shop.Album" 0 emptySchemaSite = .ok () s₀ :=
    Results.exists_ok (by decide +kernel)
  -- The schema is the root of the draft, and the draft is empty.
  have hblank : emptySchemaSite.draft.forest.Blank 0 .schema :=
    ⟨by decide, by decide, .fresh (fun _ h => absurd h List.not_mem_nil) _, fun _ _ => rfl⟩
  -- No property has an override, so there is no merge that could fail.
  have hplain : ∀ property ∈ ["title", "covers"], ∀ x,
      Reflection.ofClass albumClasses "shop.Album" property = .ok x → x.overrides = [] := by
    intro property hproperty x hx
    rcases List.mem_cons.1 hproperty with rfl | hproperty
    · cases hx
      rfl
    · obtain rfl := List.mem_singleton.1 hproperty
      cases hx
      rfl
  have hvisible : visible w m "shop.Album" = ["title", "covers"] := by decide +kernel
  have hclass : albumClasses.resolve [] "shop.Album" = .ok (some "shop.Album") := by rfl
  -- The first failure is that of a property which is stuck.
  obtain ⟨-, hfirst, -⟩ := describe_fails_iff hblank (.root (by decide) rfl) rfl hclass hopening
    fun before property t hreaches => .of_nil (hplain property (by
      obtain ⟨after, hnames⟩ := hreaches.1
      rw [← hvisible, hnames]
      exact List.mem_append_right _ List.mem_cons_self))
  cases e with
  | unsupported c p b =>
    simp only [Bool.and_eq_true, beq_iff_eq] at he
    obtain ⟨⟨rfl, rfl⟩, rfl⟩ := he
    obtain ⟨before, property, flaw, hstuck, heq, -⟩ :=
      hfirst _ s' herror ⟨.unsupported "bytes", "shop.Album", "covers", rfl⟩
    exact ⟨⟨s', herror⟩, s₀, before, property, flaw, hstuck, heq⟩
  | _ => cases he

end ObjectDescriber

end ApiDoc
