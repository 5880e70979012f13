import ApiDoc.Proofs.Describe.Agreement
import ApiDoc.Proofs.Describe.Models
import ApiDoc.Proofs.Groups.Narrowing

namespace ApiDoc

/-!
# Models described a second time

A schema that has been described stays as it is when it is described once more:

* `Override.FitsSchema`, `Override.FitsProperty` — overrides that decide a type with whatever they
  give that goes with it;
* `MetadataDescriber.narrowsApart` — what is remembered around a model does not change, for models
  that are narrowed down from it are others;
* `describe_twice` — a second description, by either describer.
-/

open Describe

/-! ### Overrides -/

/-- An override for a schema of a kind. It holds no nodes and names no internal fields, and it gives
    a property what goes with a type only together with a type or a reference. -/
structure Override.FitsSchema (o : Override) (k : Kind) : Prop where
  findable : o.toEntries.All (Entries.Findable Data.EqualsItself) k
  decisive : ∀ item ∈ o.toEntries.properties, item.2.Decisive

/-- An override for a property. -/
structure Override.FitsProperty (o : Override) : Prop where
  forProperty : o.toEntries.ForProperty
  decisive : o.toEntries.Decisive

/-! ### Narrowed models -/

namespace MetadataDescriber

variable {m : Model} {p : PropertyMetadata}

/-- The digest of a model tells it from the models to which the type of a property leads, where groups
    are narrowed down. -/
def DigestTells (m : Model) (p : PropertyMetadata) : Prop :=
  ∀ X ∈ p.type?, ∀ narrowed, Groups.nested m.groups p.name = some narrowed → ∀ name ∈ X.names,
    (Model.ofClass name (Groups.normalized narrowed)).hash = m.hash →
      (Model.ofClass name (Groups.normalized narrowed)).payload = m.payload

theorem narrowsApart (h : DigestTells m p) : NarrowsApart m p :=
  fun X hX narrowed hnarrowed name hname he =>
    Model.payload_ne_of_nested hnarrowed name (h X hX narrowed hnarrowed name hname he)

end MetadataDescriber

/-! ### Twice -/

variable {w : World} {m : Model} {s s' : Site} {T : NodeId → Prop} {i : NodeId} {A : Finset NodeId}
  {t : Tree} {e : Desk}

/-- A model described a second time. No two of its properties have one name in the schema, and the
    classes that are met the first time make no difference. -/
theorem describe_twice (hd : s.draft.Stands T i A t) (hk : t.kind ∈ Kind.schemas)
    (horderly : Members.Orderly t.properties) (hagree : w.classes.Agree s.met s'.met) :
    (∀ d c class? found name, MetadataDescriber.Starts w d m s e c class? →
      MetadataDescriber.Exposed w d m i s e c class? found name →
      (∀ o ∈ MetadataDescriber.classOverrides w class?, o.FitsSchema t.kind) →
      (∀ p ∈ MetadataDescriber.visible m c, MetadataDescriber.DigestTells m p ∧
        ∀ o ∈ Reflection.given (found p), o.FitsProperty) →
      MetadataDescriber.describe w d m i s = .ok () s' →
        Recurs (MetadataDescriber.describe w d m i) i s') ∧
    ∀ owner names?, ObjectDescriber.Starts w m s e owner names? →
      ((names?.getD []).map (ObjectDescriber.exposedName w owner)).Nodup →
      (∀ o ∈ (w.classes.schemaOverride? owner).toList, o.FitsSchema t.kind) →
      (∀ property ∈ names?.getD [],
        ∀ o ∈ Reflection.given (ObjectDescriber.reflection? w owner property), o.FitsProperty) →
      ObjectDescriber.describe w m i s = .ok () s' →
        Recurs (ObjectDescriber.describe w m i) i s' := by
  constructor
  · intro d c class? found name hstarts hexposed hclass hproperty h
    -- What describing does to the tree at the node follows a plan, which says nothing of the site.
    obtain ⟨p, hsuits, hplays⟩ := MetadataDescriber.plays_describe (some m.hash) (T := T)
      (C := True) (fun _ => ⟨rfl, fun p hp => MetadataDescriber.narrowsApart (hproperty p hp).1⟩)
      hstarts hexposed (fun o ho => (hclass o ho).findable)
      (fun p hp o ho => ((hproperty p hp).2 o ho).forProperty) hd.holds hd.typed hk h
    have hsound := hsuits.sound hk (fun o ho => (hclass o ho).findable)
      (fun p hp o ho => ((hproperty p hp).2 o ho).forProperty) hexposed.nodup
    have hdecisive := hsuits.decisive (fun o ho => (hclass o ho).decisive)
      fun p hp o ho => ((hproperty p hp).2 o ho).decisive
    -- The desk is a later one by now, but what the describer looks up there is the same.
    obtain ⟨e', hstarts', he'⟩ := hstarts.later (hplays.later trivial) hagree
    have hrecurs := hplays.twice hsound hdecisive hd hk horderly ⟨e, hstarts.desk⟩ hagree
    unfold Recurs at hrecurs ⊢
    rwa [MetadataDescriber.describe_writes hstarts', he']
  · intro owner names? hstarts hnames hclass hproperty h
    obtain ⟨p, hsuits, hplays⟩ := ObjectDescriber.plays_describe (some m.hash) (T := T)
      (C := True) hstarts hnames (fun o ho => (hclass o ho).findable)
      (fun p hp o ho => (hproperty p hp o ho).forProperty) hd.holds hd.typed hk h
    have hsound := hsuits.sound hk (fun o ho => (hclass o ho).findable)
      (fun p hp o ho => (hproperty p hp o ho).forProperty) hnames
    have hdecisive := hsuits.decisive (fun o ho => (hclass o ho).decisive)
      fun p hp o ho => (hproperty p hp o ho).decisive
    -- As before, with the plan of the annotations.
    obtain ⟨e', hstarts', he'⟩ := hstarts.later (hplays.later trivial) hagree
    have hrecurs := hplays.twice hsound hdecisive hd hk horderly ⟨e, hstarts.desk⟩ hagree
    unfold Recurs at hrecurs ⊢
    rwa [ObjectDescriber.describe_writes hstarts', he']

/-! ### Orders -/

/-- Classes of orders and of their lines. -/
def orderClasses : ClassTable :=
  [{ decl := { module := "shop", name := "Line", kind := .plain
               fields := [⟨"count", .builtin "int", .null, none⟩] }
     order := ["shop.Line", rootClass], recordFields? := none },
   { decl := { module := "shop", name := "Order", kind := .plain
               fields := [⟨"note", .annotated (.builtin "string") [.override
                   ⟨.property, [("description", .str "For the packer")], [], none⟩], .null, none⟩,
                 ⟨"lines", .sequence "list" (.object "shop.Line"), .null, none⟩]
               schema? := some ⟨.schema, [("title", .str "An order")], [], none⟩ }
     order := ["shop.Order", rootClass], recordFields? := none }]

/-- Metadata of a property of an order. -/
def orderProperty (name : String) (type : TypeExpr) : PropertyMetadata :=
  { className := .str "shop.Order", name := .str name, type? := some type }

/-- The metadata of orders and of their lines. -/
def orderMetadata : Metadata :=
  ⟨[⟨.str "shop.Line",
      [{ className := .str "shop.Line", name := .str "count", type? := some (.mk "int" []) }]⟩,
    ⟨.str "shop.Order", [orderProperty "note" (.mk "string" []),
      orderProperty "lines" (.mk "array" [.type (.mk "shop.Line" [])])]⟩]⟩

/-- Orders in which the lines are seen through groups of their own. -/
def orderModel : Model :=
  .ofClass "shop.Order" (.ofList [.str "Default",
    .ofEntries [(.str "lines", .ofList [.str "Default", .str "x"])]])

/-- What the class of orders has under a name. -/
def orderReflection (name : String) : Option Reflection :=
  (Reflection.ofClass orderClasses "shop.Order" name).toOption

theorem describe_twice_order :
    let w : World := { classes := orderClasses }
    (∃ s', MetadataDescriber.describe w ⟨orderMetadata, none⟩ orderModel 0 emptySchemaSite = .ok () s' ∧
      Recurs (MetadataDescriber.describe w ⟨orderMetadata, none⟩ orderModel 0) 0 s') ∧
    ∃ s', ObjectDescriber.describe w orderModel 0 emptySchemaSite = .ok () s' ∧
      Recurs (ObjectDescriber.describe w orderModel 0) 0 s' := by
  intro w
  have hblank := blank_emptySchemaSite
  -- The schema stands alone, and its overrides give a title and a description only.
  have hroot : emptySchemaSite.draft.forest.Rooted 0 := .root (by decide) rfl
  have hstands : emptySchemaSite.draft.Stands (fun j => j = 0 ∨ 1 ≤ j) 0 {0} (.fresh .schema []) :=
    ⟨hblank.holds, .leaf (Tree.typed_fresh rfl) rfl, hblank.upright hroot, .inl rfl⟩
  have horderly : Members.Orderly (Tree.fresh .schema []).properties :=
    ⟨fun _ h => (nomatch h), List.nodup_nil⟩
  have hself : w.classes.resolve [] "shop.Order" = .ok (some "shop.Order") := by rfl
  have hschema : ∀ o ∈ (w.classes.schemaOverride? "shop.Order").toList, o.FitsSchema .schema := by
    intro o ho
    obtain rfl := List.mem_singleton.1 ho
    refine ⟨Entries.findable_alone _ (by decide) (.str "An order"), fun item hitem => ?_⟩
    obtain ⟨_, _, _, _, _, hproperties, -⟩ := Entries.mem_properties.1 hitem
    have hne : "title" ≠ "properties" := by decide
    exact nomatch (Entries.text?_alone _ hne).symm.trans hproperties
  have hproperty : ∀ name ∈ ["note", "lines"],
      ∀ o ∈ Reflection.given (orderReflection name), o.FitsProperty := by
    intro name hname o ho
    rcases List.mem_pair.1 hname with rfl | rfl
    · obtain rfl := List.mem_singleton.1 ho
      have hapart : ∀ name ∈ "property" :: "type" :: "$ref" ::
          (Sketch.names ++ Sketch.slots).map wireName, "description" ≠ name := by decide
      have hnone := fun name hname => Entries.text?_alone (.str "For the packer") (hapart name hname)
      refine ⟨⟨Entries.findable_alone _ (by decide) (.str "For the packer"), hnone _ (by simp)⟩,
        fun name hname hsome => absurd (hnone _ ?_) hsome, ?_, ?_⟩
      · exact List.mem_cons_of_mem _ (List.mem_cons_of_mem _ (List.mem_cons_of_mem _
          (List.mem_map_of_mem hname)))
      · exact fun h => nomatch (hnone "type" (by simp)).symm.trans h
      · exact fun h => nomatch (hnone "$ref" (by simp)).symm.trans h
    · cases ho
  -- Which classes the two describers meet, and which properties are listed.
  obtain ⟨hmetadata, hobject, hsome⟩ : Results.endsIn
        (MetadataDescriber.describe w ⟨orderMetadata, none⟩ orderModel 0) (·.met.isEmpty)
        emptySchemaSite = true ∧
      Results.endsIn (ObjectDescriber.describe w orderModel 0) (·.met == ["shop.Line"])
        emptySchemaSite = true ∧
      (w.classes.properties "shop.Order" (ObjectDescriber.requestedGroups orderModel.groups)).toOption
        = some (some ["note", "lines"]) := by
    decide +kernel
  constructor
  · obtain ⟨s', hs', hmet⟩ := Results.exists_of_endsIn hmetadata
    -- No class has been met on the way.
    have hagree : w.classes.Agree emptySchemaSite.met s'.met := by
      rw [List.isEmpty_iff.1 hmet]
      exact .refl _ _
    have hreflection : ∀ (s₁ : Site), ∀ name ∈ ["note", "lines"], ∀ type,
        MetadataDescriber.reflection? w (orderProperty name type) s₁ = .ok (orderReflection name) s₁ := by
      intro s₁ name hname type
      rcases List.mem_pair.1 hname with rfl | rfl
      · exact MetadataDescriber.reflection?_of_self rfl rfl rfl hself (by rfl) s₁
      · exact MetadataDescriber.reflection?_of_self rfl rfl rfl hself (by rfl) s₁
    let properties := [orderProperty "note" (.mk "string" []),
      orderProperty "lines" (.mk "array" [.type (.mk "shop.Line" [])])]
    have hname : ∀ p ∈ properties, p = orderProperty "note" (.mk "string" []) ∨
        p = orderProperty "lines" (.mk "array" [.type (.mk "shop.Line" [])]) := fun p hp =>
      List.mem_pair.1 hp
    have hfind : orderMetadata.find? "shop.Order" = some ⟨.str "shop.Order", properties⟩ :=
      List.find?_cons_of_pos (Data.same_refl _)
    refine ⟨s', hs', (describe_twice hstands (by decide) horderly hagree).1 ⟨orderMetadata, none⟩
      ⟨.str "shop.Order", properties⟩ (some "shop.Order")
      (fun p => orderReflection (p.name.str?.getD "")) (fun p => p.name.str?.getD "")
      ⟨hfind, rfl, hself, ?_⟩ ⟨?_, ?_⟩ hschema ?_ hs'⟩
    -- Both properties are found by the names of their metadata.
    · intro p hp
      rcases hname p hp with rfl | rfl <;> exact ⟨_, rfl⟩
    · rintro before p s₁ ⟨after, s₀, hvisible, -⟩
      have hp : p ∈ properties := List.mem_of_mem_filter
        (hvisible ▸ List.mem_append_right _ List.mem_cons_self)
      rcases hname p hp with rfl | rfl
      · exact ⟨hreflection s₁ "note" (by simp) _, by rfl⟩
      · exact ⟨hreflection s₁ "lines" (by simp) _, by rfl⟩
    · exact (List.filter_sublist.map _).nodup (by decide)
    -- Only the lines have their groups narrowed down, and they lead to another class.
    · intro p hp
      rcases hname p (List.mem_of_mem_filter hp) with rfl | rfl
      · refine ⟨fun X hX narrowed hnarrowed => ?_, hproperty "note" (by simp)⟩
        have hnone : (Groups.nested orderModel.groups (.str "note")).isNone = true := by decide +kernel
        exact nomatch (Option.isNone_iff_eq_none.1 hnone).symm.trans hnarrowed
      · refine ⟨fun X hX narrowed hnarrowed name hname he => ?_, hproperty "lines" (by simp)⟩
        have hapart : ((Groups.nested orderModel.groups (.str "lines")).all fun narrowed =>
            (TypeExpr.mk "array" [.type (.mk "shop.Line" [])]).names.all fun name =>
              (Model.ofClass name (Groups.normalized narrowed)).hash != orderModel.hash) = true := by
          decide +kernel
        have hnarrowed : Groups.nested orderModel.groups (.str "lines") = some narrowed := hnarrowed
        cases hX
        rw [hnarrowed, Option.all_some] at hapart
        exact absurd he (bne_iff_ne.1 (List.all_eq_true.1 hapart name hname))
  · obtain ⟨s', hs', hmet⟩ := Results.exists_of_endsIn hobject
    -- The class of the lines has been met on the way. It stands for itself in any case.
    have hagree : w.classes.Agree emptySchemaSite.met s'.met := by
      rw [beq_iff_eq.1 hmet]
      intro name
      by_cases hname : name = "shop.Line"
      · subst hname
        exact .inl rfl
      · exact .inr (by simpa [emptySchemaSite] using hname)
    have hlisted : w.classes.properties "shop.Order"
        (ObjectDescriber.requestedGroups orderModel.groups) = .ok (some ["note", "lines"]) := by
      cases hproperties : w.classes.properties "shop.Order"
          (ObjectDescriber.requestedGroups orderModel.groups) with
      | ok names? =>
        rw [hproperties] at hsome
        exact congrArg _ (Option.some.inj hsome)
      | error e =>
        rw [hproperties] at hsome
        cases hsome
    exact ⟨s', hs', (describe_twice hstands (by decide) horderly hagree).2 "shop.Order"
      (some ["note", "lines"]) ⟨rfl, hself, hlisted⟩ (by decide +kernel) hschema hproperty hs'⟩

/-- Orders with an override that refers to the class of lines itself, which is attached to nothing. -/
def detachedClasses : ClassTable :=
  [{ decl := { module := "shop", name := "Line", kind := .plain, isLocal := true }
     order := ["shop.Line", rootClass], recordFields? := none },
   { decl := { module := "shop", name := "Order", kind := .plain
               fields := [⟨"lines", .annotated (.builtin "int") [.override
                 ⟨.property, [("type", .str "array"),
                   ("items", .modelRef (.itself "shop.Line") .null)], [], none⟩], .null, none⟩] }
     order := ["shop.Order", rootClass], recordFields? := none }]

/-- The metadata of orders that have a line apart from the others. -/
def detachedMetadata : Metadata :=
  ⟨[⟨.str "shop.Order", [orderProperty "first" (.mk "shop.Line" []),
    orderProperty "lines" (.mk "string" [])]⟩]⟩

/-- The first description meets a class that is found by its name only after that, and the second
    describes a property that was left without a type. -/
theorem describe_twice_meets :
    let describe := MetadataDescriber.describe { classes := detachedClasses }
      ⟨detachedMetadata, none⟩ (.ofClass "shop.Order" .null) 0
    ∃ s₁ s₂ es fs, describe emptySchemaSite = .ok () s₁ ∧ describe s₁ = .ok () s₂ ∧
      s₁.draft.forest.content 0 = .ok es ∧ s₂.draft.forest.content 0 = .ok fs ∧
      (Data.ofEntries es).same (.ofEntries fs) = false := by
  intro describe
  -- Both runs, and the comparison of what they leave, in one evaluation.
  have hends : Results.endsIn describe (fun s₁ => Results.endsIn describe (fun s₂ =>
      ((s₁.draft.forest.content 0).toOption.bind fun es =>
        (s₂.draft.forest.content 0).toOption.map fun fs =>
          (Data.ofEntries es).same (.ofEntries fs)) == some false) s₁) emptySchemaSite = true := by
    decide +kernel
  have hcontent : ∀ {f : Forest} {es : Entries}, (f.content 0).toOption = some es →
      f.content 0 = .ok es := by
    intro f es h
    cases hes : f.content 0 with
    | ok fs =>
      rw [hes] at h
      exact congrArg Except.ok (Option.some.inj h)
    | error e =>
      rw [hes] at h
      cases h
  obtain ⟨s₁, hs₁, hagain⟩ := Results.exists_of_endsIn hends
  obtain ⟨s₂, hs₂, hdiffers⟩ := Results.exists_of_endsIn hagain
  obtain ⟨es, hes, hdiffers⟩ := Option.bind_eq_some_iff.1 (beq_iff_eq.1 hdiffers)
  obtain ⟨fs, hfs, hdiffers⟩ := Option.map_eq_some_iff.1 hdiffers
  exact ⟨s₁, s₂, es, fs, hs₁, hs₂, hcontent hes, hcontent hfs, hdiffers⟩

end ApiDoc
