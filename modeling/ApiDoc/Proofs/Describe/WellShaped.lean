import ApiDoc.Proofs.Describe.Sketches

namespace ApiDoc

/-!
# The shape of inferred schemas

What a classifier writes into a new node is well shaped at every depth:

* `Tree.WellShaped` — which names of a schema go with which type;
* `Sketch.all_draw` — every tree below one that a sketch has made is made by a sketch;
* `Sketch.wellShaped` — a sketch drawn into a new node is well shaped;
* `inferred_wellShaped` — both classifiers leave well-shaped trees, in which only values of
  different types have neither a type nor a reference.
-/

/-! ### Shapes -/

/-- A schema in which the names that are set go together. The key by which a parent knows the node
    does not count. -/
structure Tree.WellShaped (t : Tree) : Prop where
  /-- A reference stands alone. -/
  reference : (t.field "ref").isUnset = false → (∀ name, name ≠ "ref" → t.field name = .unset) ∧
    (∀ σ, t.slot σ = .empty) ∧ t.extensions = []
  /-- Arrays, and nothing else, have items. -/
  items : t.field "type" = .str "array" ∧ (∃ c, t.slot "items" = .child c) ∨
    t.field "type" ≠ .str "array" ∧ t.slot "items" = .empty
  /-- Objects, and nothing else, have additional properties: any, or those of a schema. -/
  additionalProperties : t.field "type" = .str "object" ∧
      (t.slot "additional_properties" = .flag true ∨
        ∃ c, t.slot "additional_properties" = .child c) ∨
    t.field "type" ≠ .str "object" ∧ t.slot "additional_properties" = .empty
  /-- Texts and numbers alone have a format. -/
  format : (t.field "format").isUnset = false →
    t.field "type" = .str "string" ∨ t.field "type" = .str "number"

/-- The values of an enumeration are texts or integers if they have a type. -/
theorem ObjectDescriber.valueType?_mem {vs : List Data} {type : String}
    (h : valueType? vs = some type) : type = "string" ∨ type = "integer" := by
  unfold valueType? at h
  split at h
  · exact .inl (Option.some.inj h).symm
  split at h
  · exact .inr (Option.some.inj h).symm
  · cases h

namespace Sketch

variable {renews : Bool} {P : Sketch → Prop} {a : Sketch} {k : Kind}

/-- Every tree below one that a sketch has made in a new node is made by one of its parts. -/
theorem all_draw (ha : a.Each P) (hk : k ∈ Kind.schemas) :
    (a.draw renews (.fresh k [])).All fun c =>
      c.kind ∈ Kind.schemas ∧ ∃ b, P b ∧ c = b.draw renews (.fresh c.kind []) := by
  -- At the root the sketch itself is what is drawn.
  have hown : ∀ {b : Sketch} {k : Kind}, P b → k ∈ Kind.schemas →
      (b.draw renews (.fresh k [])).kind ∈ Kind.schemas ∧ ∃ b', P b' ∧
        b.draw renews (.fresh k []) = b'.draw renews (.fresh (b.draw renews (.fresh k [])).kind []) := by
    intro b k hb hk
    rw [(draw_frame renews b (.fresh k [])).1]
    exact ⟨hk, b, hb, rfl⟩
  have hpart : ∀ c : Kind, part renews .empty c = .fresh c [] := fun c => by
    cases renews <;> rfl
  -- Only the shapes with a part fill a slot: all other trees are leaves.
  have hslot : ∀ fs : Entries, ((Tree.fresh k []).putFields fs).slot = fun _ => .empty :=
    fun fs => ((Tree.fresh k []).putFields_frame fs).2.2.1
  have hleaf : ∀ {u : Tree}, u.slot = (fun _ => .empty) → ∀ σ, ∀ c ∈ (u.slot σ).trees,
      c.All fun c => c.kind ∈ Kind.schemas ∧ ∃ b, P b ∧ c = b.draw renews (.fresh c.kind []) := by
    intro u hu σ c hc
    rw [hu] at hc
    cases hc
  induction ha generalizing k with
  | nothing h => exact .mk (hown h hk) (hleaf (hslot _))
  | plain h => exact .mk (hown h hk) (hleaf (hslot _))
  | values h => exact .mk (hown h hk) (hleaf (hslot _))
  | reference h => exact .mk (hown h hk) (hleaf (hslot _))
  | anything h =>
    refine .mk (hown h hk) fun σ c hc => ?_
    -- The one slot that is set has no child.
    change c ∈ (if σ = "additional_properties" then _ else
      ((Tree.fresh k []).putFields _).slot σ).trees at hc
    rw [hslot] at hc
    split at hc <;> cases hc
  | @items b h _ ih =>
    refine .mk (hown h hk) fun σ c hc => ?_
    -- The slot of the items holds the part, all others are empty.
    change c ∈ (if σ = "items" then .child (b.draw renews (part renews .empty .items)) else
      ((Tree.fresh k []).putFields _).slot σ).trees at hc
    rw [hslot, hpart] at hc
    split at hc
    · rw [List.mem_singleton.1 hc]
      exact ih (by decide) (fun fs => (Tree.putFields_frame _ fs).2.2.1)
    · cases hc
  | @mapping b h _ ih =>
    refine .mk (hown h hk) fun σ c hc => ?_
    change c ∈ (if σ = "additional_properties" then
      .child (b.draw renews (part renews .empty .additionalProperties)) else
        ((Tree.fresh k []).putFields _).slot σ).trees at hc
    rw [hslot, hpart] at hc
    split at hc
    · rw [List.mem_singleton.1 hc]
      exact ih (by decide) (fun fs => (Tree.putFields_frame _ fs).2.2.1)
    · cases hc

/-- The fields of a tree that a sketch has made in a new node. -/
theorem field_fresh (hk : k ∈ Kind.schemas) (name : String) :
    (a.draw renews (.fresh k [])).field name
      = ((a.fields.text? name).map Forest.shownValue).getD .unset :=
  field_draw renews a (.fresh k []) hk (fun _ _ => List.not_mem_nil) name

theorem type_fresh (hk : k ∈ Kind.schemas) {type : String} :
    (a.draw renews (.fresh k [])).field "type" = .str type ↔ a.type? = some type := by
  rw [field_fresh hk, (text?_fields a).1]
  cases a.type? with
  | none => exact ⟨nofun, nofun⟩
  | some other => exact ⟨fun h => by cases h; rfl, fun h => by cases h; rfl⟩

theorem ref_fresh (hk : k ∈ Kind.schemas) :
    (a.draw renews (.fresh k [])).field "ref" = (a.ref?.map Data.str).getD .unset := by
  rw [field_fresh hk, (text?_fields a).2.1]
  cases a.ref? <;> rfl

theorem format_fresh (hk : k ∈ Kind.schemas) :
    (a.draw renews (.fresh k [])).field "format" = (a.format?.map Data.str).getD .unset := by
  rw [field_fresh hk, (text?_fields a).2.2]
  cases a.format? <;> rfl

/-- The slots of a tree that a sketch has made in a new node. -/
theorem slot_fresh (k : Kind) (renews : Bool) (a : Sketch) (σ : String) :
    (a.draw renews (.fresh k [])).slot σ = match a with
      | anything => if σ = "additional_properties" then .flag true else .empty
      | items b => if σ = "items" then
          .child (b.draw renews (part renews .empty .items)) else .empty
      | mapping b => if σ = "additional_properties" then
          .child (b.draw renews (part renews .empty .additionalProperties)) else .empty
      | _ => .empty := by
  have hslot : ((Tree.fresh k []).putFields a.fields).slot = fun _ => .empty :=
    ((Tree.fresh k []).putFields_frame a.fields).2.2.1
  cases a with
  | nothing | plain | values | reference => exact congrFun hslot σ
  | anything => simp only [draw, Tree.setSlot, hslot]
  | items b | mapping b =>
    simp only [draw, Tree.setSlot, hslot]
    rfl

/-- Sketches of arrays are those with items. -/
theorem Proper.type?_array (ha : a.Proper) : a.type? = some "array" ↔ ∃ b, a = items b := by
  cases a with
  | items b => exact ⟨fun _ => ⟨b, rfl⟩, fun _ => rfl⟩
  | plain type format? nullable =>
    refine ⟨fun h => ?_, by rintro ⟨_, ⟨⟩⟩⟩
    cases h
    exact absurd ha.1 (by decide)
  | values vs nullable =>
    refine ⟨fun h => ?_, by rintro ⟨_, ⟨⟩⟩⟩
    have hmem := ObjectDescriber.valueType?_mem h
    exact absurd hmem (by decide)
  | _ => exact ⟨by simp [type?], by rintro ⟨_, ⟨⟩⟩⟩

/-- Sketches of objects are those with properties under any name. -/
theorem Proper.type?_object (ha : a.Proper) :
    a.type? = some "object" ↔ a = anything ∨ ∃ b, a = mapping b := by
  cases a with
  | anything => exact ⟨fun _ => .inl rfl, fun _ => rfl⟩
  | mapping b => exact ⟨fun _ => .inr ⟨b, rfl⟩, fun _ => rfl⟩
  | plain type format? nullable =>
    refine ⟨fun h => ?_, by rintro (h | ⟨_, h⟩) <;> cases h⟩
    cases h
    exact absurd ha.1 (by decide)
  | values vs nullable =>
    refine ⟨fun h => ?_, by rintro (h | ⟨_, h⟩) <;> cases h⟩
    have hmem := ObjectDescriber.valueType?_mem h
    exact absurd hmem (by decide)
  | _ => exact ⟨by simp [type?], by rintro (h | ⟨_, h⟩) <;> cases h⟩

/-- A sketch drawn into a new node is well shaped. -/
theorem wellShaped (hk : k ∈ Kind.schemas) (ha : a.Proper) :
    (a.draw renews (.fresh k [])).WellShaped := by
  have hslot := slot_fresh k renews a
  refine ⟨fun h => ?_, ?_, ?_, fun h => ?_⟩
  -- References stand alone.
  · rw [ref_fresh hk] at h
    cases a with
    | reference ref =>
      refine ⟨fun name hname => ?_, hslot, (draw_frame renews _ _).2.2⟩
      rw [field_fresh hk, Entries.text?_eq_none_iff.2]
      · rfl
      · intro e he
        rw [List.mem_singleton.1 he]
        simpa using Ne.symm hname
    | _ => cases h
  -- Arrays have items, and nothing else has them.
  · rw [Ne, type_fresh hk, ha.type?_array, hslot]
    by_cases hitems : ∃ b, a = items b
    · obtain ⟨b, rfl⟩ := hitems
      exact .inl ⟨⟨b, rfl⟩, _, if_pos rfl⟩
    · refine .inr ⟨hitems, ?_⟩
      cases a with
      | items b => exact absurd ⟨b, rfl⟩ hitems
      | _ => rfl
  -- Objects have values, and nothing else has them.
  · rw [Ne, type_fresh hk, ha.type?_object, hslot]
    by_cases hobject : a = anything ∨ ∃ b, a = mapping b
    · obtain rfl | ⟨b, rfl⟩ := hobject
      · exact .inl ⟨.inl rfl, .inl (if_pos rfl)⟩
      · exact .inl ⟨.inr ⟨b, rfl⟩, .inr ⟨_, if_pos rfl⟩⟩
    · refine .inr ⟨hobject, ?_⟩
      cases a with
      | anything => exact absurd (.inl rfl) hobject
      | mapping b => exact absurd (.inr ⟨b, rfl⟩) hobject
      | _ => rfl
  -- A format comes with a type.
  · rw [format_fresh hk] at h
    simp only [type_fresh hk]
    cases a with
    | plain type format? nullable =>
      cases format? with
      | none => cases h
      | some format => simpa [type?] using ha.2 rfl
    | _ => cases h

/-- A sketch drawn into a new node leaves the type undecided only if the sketch does. -/
theorem left_of_undecided (hk : k ∈ Kind.schemas)
    (h : (a.draw renews (.fresh k [])).Undecided) : a.Left := by
  obtain ⟨htype, href⟩ := h
  cases a with
  | nothing => exact .nothing
  | values vs nullable =>
    refine .values ?_
    by_contra hsome
    obtain ⟨type, hsome⟩ := Option.ne_none_iff_exists'.1 hsome
    exact nomatch htype.symm.trans ((type_fresh hk).2 hsome)
  | reference ref =>
    rw [ref_fresh hk] at href
    cases href
  | plain | anything | items | mapping =>
    have hset := htype.symm.trans ((type_fresh hk).2 rfl)
    exact nomatch hset

end Sketch

/-! ### Inferred schemas -/

/-- A schema of the values of the enumeration that a type names, some of them no texts and some no
    integers. Truth values count as integers. -/
def Tree.Mixed (w : World) (T : TypeInfo) (t : Tree) : Prop :=
  ∃ met c e, w.classes.resolve met (T.leaf.className?.getD "") = .ok (some c) ∧
    w.classes.enumeration? c = some e ∧ t.field "enum" = .ofList e.values ∧
      (∃ v ∈ e.values, v.str? = none) ∧
        ∃ v ∈ e.values, ∀ x, v = .scalar x → x.integer? = none

/-- Values that have no type are not all texts, and not all integers. -/
theorem ObjectDescriber.valueType?_eq_none {vs : List Data} (h : valueType? vs = none) :
    (∃ v ∈ vs, v.str? = none) ∧ ∃ v ∈ vs, ∀ x, v = .scalar x → x.integer? = none := by
  unfold valueType? at h
  split at h
  · cases h
  rename_i htexts
  split at h
  · cases h
  rename_i hintegers
  obtain ⟨v, hv, htext⟩ : ∃ v ∈ vs, ¬v.str?.isSome = true := by simpa using htexts
  obtain ⟨u, hu, hinteger⟩ := List.all_eq_false.1 (Bool.not_eq_true _ ▸ hintegers)
  refine ⟨⟨v, hv, by simpa using htext⟩, u, hu, ?_⟩
  rintro x rfl
  simpa using hinteger

theorem Sketch.mixed_of_undecided {w : World} {T : TypeInfo} {a : Sketch} {k : Kind}
    {renews : Bool} (hk : k ∈ Kind.schemas) (ha : ObjectDescriber.Infers w T a)
    (h : (a.draw renews (.fresh k [])).Undecided) : (a.draw renews (.fresh k [])).Mixed w T := by
  obtain ⟨-, hsome, hvalues⟩ := ha
  cases left_of_undecided hk h with
  | nothing => exact absurd rfl hsome
  | @values vs nullable hnone =>
    obtain ⟨met, c, e, hclass, henum, rfl⟩ := hvalues vs nullable rfl
    refine ⟨met, c, e, hclass, henum, ?_, ObjectDescriber.valueType?_eq_none hnone⟩
    have hmem : (Data.str "enum", Data.ofList e.values) ∈ (values e.values nullable).fields :=
      List.mem_append_right _ List.mem_cons_self
    rw [field_fresh hk, ((fields_distinct _).text?_eq_some_iff).2 hmem]
    rfl

/-- Whatever type is classified into a node that shows nothing, the node becomes a tree that is
    well shaped throughout. An inferred type is undecided only where the values of an enumeration
    are of different types. -/
theorem inferred_wellShaped (w : World) (s : Site) (i : NodeId) (k : Kind)
    (hi : s.draft.forest.Blank i k) :
    (∀ (d : MetadataDescriber) (groups previous : Data) (T : TypeExpr) (s' : Site),
      MetadataDescriber.describeItem w d groups previous i T s = .ok () s' →
        ∃ t, s.draft.Turned i {i} t s'.draft ∧ t.All Tree.WellShaped) ∧
    ∀ (m : Model) (property : String) (T : TypeInfo) (s' : Site),
      ObjectDescriber.describeType w m property T i s = .ok () s' →
        ∃ t, s.draft.Turned i {i} t s'.draft ∧ t.All fun c =>
          c.WellShaped ∧ (c.Undecided → c.Mixed w T) := by
  have hk := hi.schema
  constructor
  · intro d groups previous T s' h
    obtain ⟨a, ha, -, hturned⟩ :=
      MetadataDescriber.describeItem_draws T s i {i} _ hi.holds hk () s' h
    refine ⟨_, hturned, (Sketch.all_draw ha hk).mono ?_⟩
    rintro c ⟨hc, b, hb, hdraw⟩
    rw [hdraw]
    exact Sketch.wellShaped hc hb
  · intro m property T s' h
    have htyped : (Tree.fresh k []).All Tree.Typed := .leaf (Tree.typed_fresh rfl) rfl
    obtain ⟨a, ha, -, hturned⟩ :=
      ObjectDescriber.describeType_draws T s i {i} _ hi.holds htyped hk () s' h
    refine ⟨_, hturned, (Sketch.all_draw ha.each hk).mono ?_⟩
    rintro c ⟨hc, b, hb, hdraw⟩
    rw [hdraw]
    exact ⟨Sketch.wellShaped hc hb.1, Sketch.mixed_of_undecided hc hb⟩

/-- An enumeration of grades, which are texts and integers. -/
def gradeClasses : ClassTable :=
  [{ decl := { module := "school", name := "Grade", kind := .enumeration,
               members := [("TOP", .str "A"), ("NEXT", .int 2)] }
     order := ["school.Grade", rootClass], recordFields? := none,
     values := [.str "A", .int 2] }]

/-- A list of grades. -/
def gradeList : TypeInfo :=
  .mk "array" false none true none (some (.mk "object" false (some "school.Grade") false none none))

/-- A mapping of numbers. -/
def numberMapping : TypeExpr := .mk "array" [.type (.mk "string" []), .type (.mk "float" [])]

/-- New items of an array. -/
def newItems : Site where
  draft := { forest := ⟨#[{ kind := .items }]⟩ }

/-- A mapping of numbers from metadata, and a list of grades from an annotation. -/
theorem inferred_wellShaped_grades :
    (∃ s' t, MetadataDescriber.describeItem { classes := gradeClasses } ⟨{}, none⟩ .null .null 0
        numberMapping newItems = .ok () s' ∧
      newItems.draft.Turned 0 {0} t s'.draft ∧ t.All Tree.WellShaped) ∧
    ∃ s' t, ObjectDescriber.describeType { classes := gradeClasses } (.ofClass "school.Pupil" .null)
        "grades" gradeList 0 newItems = .ok () s' ∧
      newItems.draft.Turned 0 {0} t s'.draft ∧ t.All fun c =>
        c.WellShaped ∧ (c.Undecided → c.Mixed { classes := gradeClasses } gradeList) := by
  have hblank : newItems.draft.forest.Blank 0 .items :=
    ⟨by decide, by decide, .fresh (fun _ h => absurd h List.not_mem_nil) _, fun _ _ => rfl⟩
  obtain ⟨hmetadata, hobject⟩ :=
    inferred_wellShaped { classes := gradeClasses } newItems 0 .items hblank
  constructor
  · obtain ⟨s', hs'⟩ : ∃ s', MetadataDescriber.describeItem { classes := gradeClasses } ⟨{}, none⟩
        .null .null 0 numberMapping newItems = .ok () s' := Results.exists_ok (by decide +kernel)
    obtain ⟨t, ht⟩ := hmetadata _ _ _ _ s' hs'
    exact ⟨s', t, hs', ht⟩
  · obtain ⟨s', hs'⟩ : ∃ s', ObjectDescriber.describeType { classes := gradeClasses }
        (.ofClass "school.Pupil" .null) "grades" gradeList 0 newItems = .ok () s' :=
      Results.exists_ok (by decide +kernel)
    obtain ⟨t, ht⟩ := hobject _ _ _ s' hs'
    exact ⟨s', t, hs', ht⟩

end ApiDoc
