import ApiDoc.Proofs.Class.Describable
import ApiDoc.Proofs.Describe.Agreement
import ApiDoc.Proofs.Describe.WellShaped

namespace ApiDoc

/-!
# Null in inferred schemas

An annotation is followed into the node that it has been written into, through the items of
collections:

* `Annotation.At` — an annotation at some depth of another, and the tree that it has become;
* `ObjectDescriber.Writes.at` — at every depth a tree is a sketch of the annotation there;
* `ObjectDescriber.describeProperty_nullable` — which trees say that null is a value: those of
  annotations that have it, unless they are references or collections.
-/

/-- An annotation at some depth of another that has been written into a tree, with the tree at that
    depth: the annotations of items are written into the children of collections. -/
inductive Annotation.At : Annotation → Tree → Annotation → Tree → Prop
  | here {a : Annotation} {t : Tree} : At a t a t
  | inside {a item b : Annotation} {t c u : Tree} {nullable : Bool} {f : Form} {σ : String}
    (hforms : a.forms false = [(nullable, f)]) (hitem : f.item? = some item)
    (hσ : σ ∈ Sketch.slots) (hc : c ∈ (t.slot σ).trees) (h : At item c b u) : At a t b u

namespace Sketch

/-- Whether a sketch sets the mark of null. -/
def nullable : Sketch → Bool
  | plain _ _ nullable => nullable
  | values _ nullable => nullable
  | _ => false

variable {renews : Bool} {k : Kind} {a : Sketch}

theorem text?_nullable (a : Sketch) :
    a.fields.text? "nullable" = if a.nullable then some (.bool true) else none := by
  have hnil : ∀ s, Entries.text? [] s = none := fun _ => rfl
  have hself := @Entries.text?_cons_self
  cases a with
  | nothing | reference _ | anything | items _ | mapping _ =>
    simp [fields, nullable, Entries.text?_cons_of_ne, hnil]
  | plain type format? n =>
    cases format? <;> cases n <;>
      simp [fields, nullMark, nullable, Entries.text?_cons_of_ne, hnil, hself]
  | values vs n =>
    simp only [fields, nullable]
    cases ObjectDescriber.valueType? vs <;> cases n <;>
      simp [nullMark, Entries.text?_cons_of_ne, hnil, hself]

theorem nullable_fresh (hk : k ∈ Kind.schemas) :
    (a.draw renews (.fresh k [])).field "nullable" = .bool true ↔ a.nullable = true := by
  rw [field_fresh hk, text?_nullable]
  cases a.nullable with
  | true => exact ⟨fun _ => rfl, fun _ => rfl⟩
  | false => exact ⟨nofun, nofun⟩

end Sketch

namespace ObjectDescriber

open Describe Annotation

variable {w : World} {T : TypeInfo} {x : Sketch} {k : Kind} {a b : Annotation} {u : Tree}

/-- A collection is written as a child in one slot. -/
theorem Writes.part {nullable : Bool} {key? : Option TypeInfo} {V : TypeInfo}
    (h : Writes w (.array nullable key? (some V)) x) (k : Kind) :
    ∃ y σ, Writes w V y ∧ σ ∈ Sketch.slots ∧ ∃ c ∈ Kind.schemas, ∀ τ,
      ((x.draw false (.fresh k [])).slot τ).trees
        = if τ = σ then [y.draw false (.fresh c [])] else [] := by
  cases h with
  | plain hT | values hT | reference hT => cases hT.1
  | @items _ _ _ _ _ y _ hvalue =>
    refine ⟨y, "items", hvalue, by decide, .items, by decide, fun τ => ?_⟩
    rw [Sketch.slot_fresh]
    dsimp only
    split <;> rfl
  | @mapping _ _ _ _ _ y _ hvalue =>
    refine ⟨y, "additional_properties", hvalue, by decide, .additionalProperties, by decide,
      fun τ => ?_⟩
    rw [Sketch.slot_fresh]
    dsimp only
    split <;> rfl

/-- What is no reference has the mark of its type, unless it is a collection. -/
theorem Writes.nullable_eq (h : Writes w T x) (href : x.ref? = none) :
    x.nullable = (T.nullable && !T.collection) := by
  cases h with
  | plain hT | values hT => rw [hT.1, Bool.not_false, Bool.and_true]; rfl
  | reference hT => cases href
  | items _ _ | mapping _ _ => exact (Bool.and_false _).symm

/-- The items of a collection that is written are of one type. -/
theorem Writes.item {f : Form} {nullable : Bool} {item : Annotation}
    (h : Writes w (f.typeInfo nullable) x) (hitem : f.item? = some item) :
    ∃ V key?, item.infer false = [V] ∧ f.typeInfo nullable = .array nullable key? (some V) := by
  by_cases hone : ∃ p, item.forms false = [p]
  · obtain ⟨p, hp⟩ := hone
    obtain ⟨key?, hcollection⟩ := typeInfo_of_item hitem (infer_of_forms hp) nullable
    exact ⟨_, key?, infer_of_forms hp, hcollection⟩
  · obtain ⟨key?, hcollection⟩ := typeInfo_of_untypedItems (Form.isCollection_of_item hitem)
      (fun item' hitem' hlength => by
        cases hitem.symm.trans hitem'
        exact hone (List.length_eq_one_iff.1 hlength)) nullable
    rw [hcollection] at h
    cases h with
    | plain hT | values hT | reference hT => cases hT.1

/-- At every depth the tree of an annotation is a sketch of its type in a new node. -/
theorem Writes.at (hx : Writes w T x) (ha : a.infer false = [T]) (hk : k ∈ Kind.schemas)
    (h : a.At (x.draw false (.fresh k [])) b u) : ∃ V y c, Writes w V y ∧ b.infer false = [V] ∧
      c ∈ Kind.schemas ∧ u = y.draw false (.fresh c []) := by
  generalize ht : x.draw false (.fresh k []) = t at h
  induction h generalizing T x k with
  | here => exact ⟨T, x, k, hx, ha, hk, ht.symm⟩
  | @inside a item b t c u nullable f σ hforms hitem hσ hc h ih =>
    obtain rfl := typeInfo_of_infer hforms ha
    obtain ⟨V, key?, hV, hcollection⟩ := hx.item hitem
    rw [hcollection] at hx
    obtain ⟨y, τ, hy, -, c', hc', hslot⟩ := hx.part k
    rw [← ht, hslot] at hc
    split at hc
    · exact ih hy hV hc' (List.mem_singleton.1 hc).symm
    · cases hc

/-- A tree into which an annotation has been written, by the form of the annotation and whether null
    is a value of it. -/
structure Marks (b : Annotation) (u : Tree) (nullable : Bool) (f : Form) : Prop where
  forms : b.forms false = [(nullable, f)]
  /-- The tree says that null is a value if it is one of the form, unless the form is a
      collection. -/
  mark : u.field "ref" = .unset →
    (u.field "nullable" = .bool true ↔ nullable = true ∧ f.isCollection = false)
  /-- What is a value of the form is one of the annotation. -/
  admits : nullable = true → b.admitsNull = true
  /-- Where all members of unions stand for types it is the other way round, too. -/
  admitted : b.isSpoken = true → b.admitsNull = true → nullable = true
  /-- Items are written into a child. -/
  item : ∀ item, f.item? = some item → ∃ σ ∈ Sketch.slots, ∃ c, (u.slot σ).trees = [c]

/-- The sketch of a type in a new node says that null is a value where it is one of a form that is
    no collection. -/
theorem Writes.marked (hx : Writes w T x) (hb : b.infer false = [T]) (hk : k ∈ Kind.schemas) :
    ∃ nullable f, Marks b (x.draw false (.fresh k [])) nullable f := by
  obtain ⟨nullable, f, hforms, rfl⟩ := exists_form_of_infer hb
  -- Each type that is described has a name other than that of the absent value.
  have hnot : f ≠ .builtin "null" := by
    rintro rfl
    cases hx with
    | plain hT | values hT | reference hT => exact hT.2 rfl
  have hvalue : nullable = true → b.admitsNull = true := fun htrue =>
    (admitsNull_of_forms (nullable, f) (by rw [hforms]; exact List.mem_singleton_self _)
      htrue).resolve_left Bool.false_ne_true
  refine ⟨nullable, f, hforms, fun href => ?_, hvalue, flag_of_admitsNull hforms hnot,
    fun item hitem => ?_⟩
  -- A reference leaves no room for the mark of nullable types, and a collection does not write it.
  · have hnone : x.ref? = none := by
      rw [Sketch.ref_fresh hk] at href
      cases h : x.ref? with
      | none => rfl
      | some ref =>
        rw [h] at href
        cases href
    rw [Sketch.nullable_fresh hk, hx.nullable_eq hnone, Form.nullable_typeInfo,
      Form.collection_typeInfo, Bool.and_eq_true, Bool.not_eq_true']
  -- What stands inside a collection is drawn into one of its two parts.
  · obtain ⟨V, key?, -, hcollection⟩ := hx.item hitem
    rw [hcollection] at hx
    obtain ⟨y, σ, -, hσ, c, -, hslot⟩ := hx.part k
    exact ⟨σ, hσ, _, (hslot σ).trans (if_pos rfl)⟩

theorem onlyType_eq_ok {owner className property : String} {s s' : Site}
    (h : onlyType w owner className property s = .ok T s') :
    (w.classes.annotation owner property).infer false = [T] ∧ s'.draft = s.draft := by
  obtain ⟨⟨⟩, s₁, ⟨⟩, h⟩ := Results.bind_eq_ok.1 h
  rw [← ClassTable.types_eq]
  match htypes : w.classes.types owner property, h with
  | [_], h =>
    cases h
    exact ⟨rfl, rfl⟩

/-- A property without overrides is described from its annotation at a node that holds nothing yet.
    At every depth of the annotation the tree of the node says that null is a value if it is one of
    the form of the annotation there, unless the form is a collection or the tree a reference. -/
theorem describeProperty_nullable {r : Reader} {m : Model} {owner property : String}
    {schema i : NodeId} {s s' : Site} {d : Draft}
    (hplain : ∀ x, Reflection.ofClass w.classes owner property = .ok x → x.overrides = [])
    (hnode : Edit.indexedItem schema .property (.str property) s.draft = .ok i d)
    (hblank : d.forest.Blank i .property)
    (h : describeProperty w r m owner property schema s = .ok () s') :
    ∃ t, d.Turned i {i} t s'.draft ∧ ∀ b u,
      (w.classes.annotation owner property).At t b u → ∃ nullable f, Marks b u nullable f := by
  obtain ⟨j, s₁, hj, h⟩ := Results.bind_eq_ok.1 h
  cases (propertyNode_eq hplain hnode).symm.trans hj
  obtain ⟨decided, s₂, hdecided, h⟩ := Results.bind_eq_ok.1 h
  cases (isDecided_eq (s := { s with draft := d }) hblank).symm.trans hdecided
  rw [if_neg Bool.false_ne_true] at h
  obtain ⟨T, s₃, hT, h⟩ := Results.bind_eq_ok.1 h
  obtain ⟨hinfer, hdraft⟩ := onlyType_eq_ok hT
  have hholds : s₃.draft.forest.Holds (.fresh .property []) i {i} := hdraft ▸ hblank.holds
  obtain ⟨x, hx, -, hturned⟩ := describeType_draws T s₃ i {i} _ hholds
    (.leaf (Tree.typed_fresh rfl) rfl) hblank.schema () s' h
  refine ⟨_, hturned.congr (by rw [hdraft]) rfl, fun b u hat => ?_⟩
  obtain ⟨V, y, c, hy, hb, hc, rfl⟩ := hx.at hinfer hblank.schema hat
  exact hy.marked hb hc

/-- A shirt with sizes, each of which may be missing, as all of them may. -/
def shirtClasses : ClassTable :=
  [{ decl := { module := "shop", name := "Shirt", kind := .plain
               fields := [⟨"sizes", .union false [.sequence "list" (.union false
                 [.builtin "int", .builtin "null"]), .builtin "null"], .null, none⟩] }
     order := ["shop.Shirt", rootClass], recordFields? := none }]

theorem describeProperty_nullable_sizes : ∃ (d : Draft) (s' : Site) (t : Tree),
    describeProperty { classes := shirtClasses } ⟨true, none⟩ (.ofClass "shop.Shirt" .null)
      "shop.Shirt" "sizes" 0 emptySchemaSite = .ok () s' ∧ d.Turned 1 {1} t s'.draft ∧
    ∀ b u, (shirtClasses.annotation "shop.Shirt" "sizes").At t b u →
      ∃ nullable f, Marks b u nullable f := by
  obtain ⟨s', hs'⟩ : ∃ s', describeProperty { classes := shirtClasses } ⟨true, none⟩
      (.ofClass "shop.Shirt" .null) "shop.Shirt" "sizes" 0 emptySchemaSite = .ok () s' :=
    Results.exists_ok (by decide +kernel)
  have hof : Reflection.ofClass shirtClasses "shop.Shirt" "sizes" = .ok ⟨"shop.Shirt", "sizes",
      some (shirtClasses.annotation "shop.Shirt" "sizes"), none⟩ := by rfl
  obtain ⟨d, hnode, hblank⟩ : ∃ d, Edit.indexedItem 0 .property (.str "sizes") emptySchemaSite.draft
      = .ok 1 d ∧ d.forest.Blank 1 .property := ⟨_, rfl, .of_values (by decide) rfl rfl rfl⟩
  obtain ⟨t, hturned, hall⟩ := describeProperty_nullable
    (fun x hx => by cases hof.symm.trans hx; rfl) hnode hblank hs'
  exact ⟨d, s', t, hs', hturned, hall⟩

/-- Null in place of the list is lost: the annotation has it, and the node, which is no reference,
    does not say so. -/
theorem describeProperty_loses_null :
    (shirtClasses.annotation "shop.Shirt" "sizes").admitsNull = true ∧ ∃ s',
      describeProperty { classes := shirtClasses } ⟨true, none⟩ (.ofClass "shop.Shirt" .null)
        "shop.Shirt" "sizes" 0 emptySchemaSite = .ok () s' ∧
      (s'.draft.forest.get 1).value "type" = .str "array" ∧
        (s'.draft.forest.get 1).value "ref" = .unset ∧
          (s'.draft.forest.get 1).value "nullable" = .unset := by
  refine ⟨by decide +kernel, ?_⟩
  obtain ⟨s', hs', hnode⟩ : ∃ s', describeProperty { classes := shirtClasses } ⟨true, none⟩
      (.ofClass "shop.Shirt" .null) "shop.Shirt" "sizes" 0 emptySchemaSite = .ok () s' ∧
      (((s'.draft.forest.get 1).value "type").str? == some "array" &&
        ((s'.draft.forest.get 1).value "ref").isUnset &&
          ((s'.draft.forest.get 1).value "nullable").isUnset) = true :=
    Results.exists_of_endsIn (by decide +kernel)
  simp only [Bool.and_eq_true, beq_iff_eq, Data.isUnset_iff] at hnode
  exact ⟨s', hs', Data.str?_eq_some.1 hnode.1.1, hnode.1.2, hnode.2⟩

end ObjectDescriber

end ApiDoc
