import ApiDoc.Proofs.Describe.Nullability

namespace ApiDoc

/-!
# Mappings and sequences in inferred schemas

Inference gives mappings and sequences one form of type, in which only the keys differ:

* `Annotation.isText`, `Form.hasTextKeys` — annotations of texts, and mappings with texts as keys;
* `ObjectDescriber.Shapes` — a tree that is an object or an array, by the form of the annotation;
* `ObjectDescriber.describeProperty_shapes` — mappings with texts as keys become objects, all other
  collections arrays;
* `ObjectDescriber.describeProperty_lists_mapping` — a mapping that becomes an array.
-/

/-- Whether an annotation stands for texts and for nothing else. -/
def Annotation.isText (a : Annotation) : Bool :=
  match a.forms false with
  | [(_, .builtin name)] => name == "string"
  | _ => false

namespace Form

/-- Whether a form is that of mappings with texts as keys. -/
def hasTextKeys : Form → Bool
  | mapping (some k) _ => k.isText
  | _ => false

variable {f : Form}

theorem isCollection_of_hasTextKeys (h : f.hasTextKeys = true) : f.isCollection = true := by
  cases f with
  | mapping _ _ => rfl
  | builtin _ | object _ | sequence _ => cases h

/-- Only texts have the name of texts. -/
theorem builtin_inner (k : Annotation) :
    (inner (some k)).map TypeInfo.builtin = some "string" ↔ k.isText = true := by
  have hother : ∀ name : String, name ≠ "string" → (some name = some "string" ↔ false = true) :=
    fun name hname => ⟨fun h => absurd (Option.some.inj h) hname, nofun⟩
  have hnone : (none : Option String) = some "string" ↔ false = true := ⟨nofun, nofun⟩
  show Option.map _ (k.infer false |> Annotation.onlyOne) = _ ↔ _
  rw [k.infer_eq, Annotation.isText]
  -- The types of all other forms have names of their own, and several types have none together.
  match k.forms false with
  | [] => exact hnone
  | (_, f) :: _ :: _ => cases f <;> exact hnone
  | [(_, .builtin name)] => exact Option.some_inj.trans beq_iff_eq.symm
  | [(_, .object _)] => exact hother "object" (by decide)
  | [(_, .mapping _ _)] => exact hother "array" (by decide)
  | [(_, .sequence _)] => exact hother "array" (by decide)

/-- The keys of the type of a form are texts if those of the form are. -/
theorem key?_typeInfo (nullable : Bool) (f : Form) :
    (f.typeInfo nullable).key?.map TypeInfo.builtin = some "string" ↔ f.hasTextKeys = true := by
  cases f with
  | builtin _ | object _ => exact ⟨nofun, nofun⟩
  | sequence _ => exact ⟨fun h => absurd (Option.some.inj h) (by decide), nofun⟩
  | mapping k? _ =>
    cases k? with
    | none => exact ⟨nofun, nofun⟩
    | some k => exact builtin_inner k

/-- What gives items a type is the annotation of the items. -/
theorem exists_item {nullable : Bool} {V : TypeInfo} (h : (f.typeInfo nullable).value? = some V) :
    ∃ item, f.item? = some item := by
  cases f with
  | builtin _ | object _ => cases h
  | mapping _ v? | sequence v? =>
    cases v? with
    | none => cases h
    | some item => exact ⟨item, rfl⟩

end Form

namespace ObjectDescriber

open Describe Annotation

variable {w : World} {T : TypeInfo} {x : Sketch} {k : Kind} {b : Annotation}

/-- A tree into which an annotation has been written, by the form of the annotation. -/
structure Shapes (b : Annotation) (u : Tree) (nullable : Bool) (f : Form) : Prop where
  forms : b.forms false = [(nullable, f)]
  /-- An object with a description of its values comes from texts as keys. -/
  object : (u.field "type" = .str "object" ∧ ∃ c, (u.slot "additional_properties").trees = [c]) ↔
    f.hasTextKeys = true
  /-- An array with a description of its items comes from any other collection. -/
  array : (u.field "type" = .str "array" ∧ ∃ c, (u.slot "items").trees = [c]) ↔
    f.isCollection = true ∧ f.hasTextKeys = false
  /-- What is described there is what the items of the collection are annotated with. -/
  parts : ∀ σ ∈ Sketch.slots, ∀ c ∈ (u.slot σ).trees, ∃ item, f.item? = some item ∧ b.At u item c

/-- A sketch in a new node is an object with a description of its values where it is a mapping, and
    an array with a description of its items where it has items. -/
theorem Writes.shape_fresh (hx : Writes w T x) (hk : k ∈ Kind.schemas) :
    (((x.draw false (.fresh k [])).field "type" = .str "object" ∧
        ∃ c, ((x.draw false (.fresh k [])).slot "additional_properties").trees = [c]) ↔
      T.collection = true ∧ T.key?.map TypeInfo.builtin = some "string") ∧
    (((x.draw false (.fresh k [])).field "type" = .str "array" ∧
        ∃ c, ((x.draw false (.fresh k [])).slot "items").trees = [c]) ↔
      T.collection = true ∧ T.key?.map TypeInfo.builtin ≠ some "string") := by
  have hslot := Sketch.slot_fresh k false x
  rw [Sketch.type_fresh hk, Sketch.type_fresh hk, hslot, hslot]
  cases hx with
  -- These sketches put nothing into slots, and their types are no collections.
  | plain hT | values hT | reference hT =>
    refine ⟨⟨fun ⟨_, c, hc⟩ => (nomatch hc), fun ⟨hc, _⟩ => ?_⟩,
      ⟨fun ⟨_, c, hc⟩ => (nomatch hc), fun ⟨hc, _⟩ => ?_⟩⟩ <;>
    · rw [hT.1] at hc
      cases hc
  | items hkey _ =>
    refine ⟨⟨fun ⟨htype, _⟩ => ?_, fun ⟨_, h⟩ => absurd h hkey⟩,
      ⟨fun _ => ⟨rfl, hkey⟩, fun _ => ⟨rfl, _, rfl⟩⟩⟩
    exact absurd (Option.some.inj htype) (by decide)
  | mapping hkey _ =>
    refine ⟨⟨fun _ => ⟨rfl, hkey⟩, fun _ => ⟨rfl, _, rfl⟩⟩,
      ⟨fun ⟨htype, _⟩ => ?_, fun ⟨_, h⟩ => absurd hkey h⟩⟩
    exact absurd (Option.some.inj htype) (by decide)

/-- What a sketch puts into a slot of a new node is there for the items of a collection. -/
theorem Writes.exists_value {σ : String} {c : Tree} (hx : Writes w T x)
    (hc : c ∈ ((x.draw false (.fresh k [])).slot σ).trees) : ∃ V, T.value? = some V := by
  cases hx with
  | plain | values | reference =>
    rw [Sketch.slot_fresh] at hc
    exact absurd hc List.not_mem_nil
  | items | mapping => exact ⟨_, rfl⟩

/-- The sketch of a type in a new node has the shape of the annotation. -/
theorem Writes.shapes (hx : Writes w T x) (hb : b.infer false = [T]) (hk : k ∈ Kind.schemas) :
    ∃ nullable f, Shapes b (x.draw false (.fresh k [])) nullable f := by
  obtain ⟨nullable, f, hforms, hT⟩ := exists_form_of_infer hb
  have hcollection : T.collection = f.isCollection := by rw [← hT, Form.collection_typeInfo]
  have hkeys := Form.key?_typeInfo nullable f
  rw [hT] at hkeys
  obtain ⟨hobject, harray⟩ := hx.shape_fresh hk
  rw [hcollection, hkeys] at hobject
  rw [hcollection, ne_eq, hkeys, Bool.not_eq_true] at harray
  refine ⟨nullable, f, hforms, hobject.trans ⟨And.right, fun h => ?_⟩, harray, fun σ hσ c hc => ?_⟩
  · exact ⟨Form.isCollection_of_hasTextKeys h, h⟩
  · obtain ⟨V, hV⟩ := hx.exists_value hc
    obtain ⟨item, hitem⟩ := Form.exists_item (hT.symm ▸ hV)
    exact ⟨item, hitem, .inside hforms hitem hσ hc .here⟩

/-- A property without overrides at a node that holds nothing yet becomes a sketch of the one type of
    its annotation. -/
theorem describeProperty_draws {r : Reader} {m : Model} {owner property : String}
    {schema i : NodeId} {s s' : Site} {d : Draft}
    (hplain : ∀ x, Reflection.ofClass w.classes owner property = .ok x → x.overrides = [])
    (hnode : Edit.indexedItem schema .property (.str property) s.draft = .ok i d)
    (hblank : d.forest.Blank i .property)
    (h : describeProperty w r m owner property schema s = .ok () s') :
    ∃ T x, (w.classes.annotation owner property).infer false = [T] ∧ Writes w T x ∧
      d.Turned i {i} (x.draw false (.fresh .property [])) s'.draft := by
  obtain ⟨j, s₁, hj, h⟩ := Results.bind_eq_ok.1 h
  -- The node holds nothing yet, so that its type is left to the annotation.
  cases (propertyNode_eq hplain hnode).symm.trans hj
  obtain ⟨decided, s₂, hdecided, h⟩ := Results.bind_eq_ok.1 h
  cases (isDecided_eq (s := { s with draft := d }) hblank).symm.trans hdecided
  rw [if_neg Bool.false_ne_true] at h
  obtain ⟨T, s₃, hT, h⟩ := Results.bind_eq_ok.1 h
  obtain ⟨hinfer, hdraft⟩ := onlyType_eq_ok hT
  have hholds : s₃.draft.forest.Holds (.fresh .property []) i {i} := hdraft ▸ hblank.holds
  obtain ⟨x, hx, -, hturned⟩ := describeType_draws T s₃ i {i} _ hholds
    (.leaf (Tree.typed_fresh rfl) rfl) hblank.schema () s' h
  exact ⟨T, x, hinfer, hx, hturned.congr (by rw [hdraft]) rfl⟩

/-- A property without overrides is described from its annotation at a node that holds nothing yet.
    At every depth of the annotation the tree of the node is an object with a description of its
    values exactly for mappings with texts as keys, and an array with a description of its items
    exactly for all other collections. -/
theorem describeProperty_shapes {r : Reader} {m : Model} {owner property : String}
    {schema i : NodeId} {s s' : Site} {d : Draft}
    (hplain : ∀ x, Reflection.ofClass w.classes owner property = .ok x → x.overrides = [])
    (hnode : Edit.indexedItem schema .property (.str property) s.draft = .ok i d)
    (hblank : d.forest.Blank i .property)
    (h : describeProperty w r m owner property schema s = .ok () s') :
    ∃ t, d.Turned i {i} t s'.draft ∧ ∀ b u,
      (w.classes.annotation owner property).At t b u → ∃ nullable f, Shapes b u nullable f := by
  obtain ⟨T, x, hinfer, hx, hturned⟩ := describeProperty_draws hplain hnode hblank h
  refine ⟨_, hturned, fun b u hat => ?_⟩
  obtain ⟨V, y, c, hy, hb, hc, rfl⟩ := hx.at hinfer hblank.schema hat
  exact hy.shapes hb hc

/-- A shop with the numbers of its shirts by size, and the names of its shirts by number. -/
def shopClasses : ClassTable :=
  [{ decl := { module := "shop", name := "Shop", kind := .plain
               fields := [⟨"stock", .mapping "dict" (.builtin "string")
                   (.mapping "dict" (.builtin "int") (.builtin "int")), .null, none⟩,
                 ⟨"names", .mapping "dict" (.builtin "int") (.builtin "string"), .null, none⟩] }
     order := ["shop.Shop", rootClass], recordFields? := none }]

theorem describeProperty_shapes_stock : ∃ (d : Draft) (s' : Site) (t : Tree),
    describeProperty { classes := shopClasses } ⟨true, none⟩ (.ofClass "shop.Shop" .null)
      "shop.Shop" "stock" 0 emptySchemaSite = .ok () s' ∧ d.Turned 1 {1} t s'.draft ∧
    ∀ b u, (shopClasses.annotation "shop.Shop" "stock").At t b u →
      ∃ nullable f, Shapes b u nullable f := by
  obtain ⟨s', hs'⟩ : ∃ s', describeProperty { classes := shopClasses } ⟨true, none⟩
      (.ofClass "shop.Shop" .null) "shop.Shop" "stock" 0 emptySchemaSite = .ok () s' :=
    Results.exists_ok (by decide +kernel)
  have hof : Reflection.ofClass shopClasses "shop.Shop" "stock" = .ok ⟨"shop.Shop", "stock",
      some (shopClasses.annotation "shop.Shop" "stock"), none⟩ := by rfl
  obtain ⟨d, hnode, hblank⟩ : ∃ d, Edit.indexedItem 0 .property (.str "stock") emptySchemaSite.draft
      = .ok 1 d ∧ d.forest.Blank 1 .property := ⟨_, rfl, .of_values (by decide) rfl rfl rfl⟩
  obtain ⟨t, hturned, hall⟩ := describeProperty_shapes
    (fun x hx => by cases hof.symm.trans hx; rfl) hnode hblank hs'
  exact ⟨d, s', t, hs', hturned, hall⟩

/-- A mapping from numbers is written as an array of its values. -/
theorem describeProperty_lists_mapping :
    (shopClasses.annotation "shop.Shop" "names").forms false = [(false,
      .mapping (some (.builtin "int")) (some (.builtin "string")))] ∧ ∃ s',
      describeProperty { classes := shopClasses } ⟨true, none⟩ (.ofClass "shop.Shop" .null)
        "shop.Shop" "names" 0 emptySchemaSite = .ok () s' ∧
      (s'.draft.forest.get 1).value "type" = .str "array" ∧
        (s'.draft.forest.get 1).value "items" = .node 2 ∧
          (s'.draft.forest.get 1).value "additional_properties" = .unset := by
  refine ⟨by rfl, ?_⟩
  obtain ⟨s', hs', hnode⟩ : ∃ s', describeProperty { classes := shopClasses } ⟨true, none⟩
      (.ofClass "shop.Shop" .null) "shop.Shop" "names" 0 emptySchemaSite = .ok () s' ∧
      (((s'.draft.forest.get 1).value "type").str? == some "array" &&
        ((s'.draft.forest.get 1).value "items").node? == some 2 &&
          ((s'.draft.forest.get 1).value "additional_properties").isUnset) = true :=
    Results.exists_of_endsIn (by decide +kernel)
  simp only [Bool.and_eq_true, beq_iff_eq, Data.isUnset_iff, Data.node?_eq_some] at hnode
  exact ⟨s', hs', Data.str?_eq_some.1 hnode.1.1, hnode.1.2, hnode.2⟩

end ObjectDescriber

end ApiDoc
