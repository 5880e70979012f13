import ApiDoc.Proofs.Describe.Models

namespace ApiDoc

/-!
# The properties that a description lists

A schema that has been described lists the properties that are exposed, in the order in which they
are declared:

* `Forest.ListsProperties` — a node with a list of properties of these names;
* `Override.decides`, `Override.Keeps`, `Override.BringsNone` — overrides that give a type, that do
  not rename the property, and that add no properties;
* `PropertyPlan.Suits.isSome_outcome`, `Plan.names_run` — the properties that a plan leaves;
* `describe_lists` — the properties that either describer lists.
-/

open Describe

variable {w : World} {s s' : Site} {m : Model} {i : NodeId} {A : Finset NodeId} {t : Tree}
  {e : Desk}

/-! ### Lists of properties -/

namespace Forest

/-- A node has a list of properties that have these names, in order. -/
def ListsProperties (f : Forest) (i : NodeId) (names : List String) : Prop :=
  ∃ (ids : List NodeId) (mark : Nat),
    (f.get i).value "properties" = .list (ids.map Data.node) mark ∧
      ids.map (fun j => (f.get j).value "property") = names.map Data.str

theorem Holds.listsProperties {f : Forest} {ts : List Tree} (hf : f.Holds t i A)
    (ht : t.All Tree.Typed) (hk : t.kind ∈ Kind.schemas) (hts : t.slot "properties" = .members ts) :
    f.ListsProperties i (Members.names ts) := by
  have hp := Kind.placement?_properties hk
  cases hf with
  | mk ids part own children =>
    have hshows := own.slots "properties" (Kind.mem_slots_of_placement? hp)
    rw [hts] at hshows
    obtain ⟨hlength, mark, hvalue⟩ := hshows
    refine ⟨ids "properties", mark, hvalue, List.ext_getElem ?_ fun n hn hn' => ?_⟩
    · rw [List.length_map, List.length_map, Members.names, List.length_map, hlength]
    · rw [List.length_map] at hn
      have hlt : n < ts.length := hlength ▸ hn
      have hc : (t.slot "properties").trees[n]? = some ts[n] := by
        rw [hts]
        exact List.getElem?_eq_getElem _
      have hfor := (ht.root _ _ hp).isFor _ (List.mem_of_getElem? hc)
      have hkey : "property" ∈ ts[n].keys := by
        rw [hfor.keys]
        exact List.mem_singleton_self _
      have hchild := children _ n _ _ hc (List.getElem?_eq_getElem hn)
      simpa [Members.names] using hchild.value_of_text hkey hfor.field_property

end Forest

/-! ### What plans leave -/

namespace Override

/-- Whether an override gives a property its type or a reference in place of it. -/
def decides (o : Override) : Bool :=
  (o.toEntries.text? "type").isSome || (o.toEntries.text? "$ref").isSome

/-- An override that does not rename its property, and sets the type or the reference that it
    gives. -/
structure Keeps (o : Override) : Prop where
  forProperty : o.toEntries.ForProperty
  given : o.toEntries.text? "type" ≠ some .unset ∧ o.toEntries.text? "$ref" ≠ some .unset

/-- An override for a schema of a kind that gives it no properties. It holds no nodes and names no
    internal fields. -/
structure BringsNone (o : Override) (k : Kind) : Prop where
  findable : o.toEntries.All (Entries.Findable Data.EqualsItself) k
  apart : o.toEntries.text? "properties" = none

theorem decides_eq_false {o : Override} {es : Entries} (h : Entries.Resolves o.toEntries es) :
    o.decides = false ↔ es.text? "type" = none ∧ es.text? "$ref" = none := by
  rw [h.text?_eq_none, h.text?_eq_none, decides, Bool.or_eq_false_iff, Option.isSome_eq_false_iff,
    Option.isSome_eq_false_iff, Option.isNone_iff_eq_none, Option.isNone_iff_eq_none]

end Override

/-- A property without anything in it stays if it has a type, or an override gives it one. -/
theorem PropertyPlan.Suits.isSome_outcome {renews : Bool} {p : PropertyPlan} {name : String}
    {os : List Override} {typed : Bool} (h : p.Suits name os typed) (hos : ∀ o ∈ os, o.Keeps)
    (q : String) :
    (p.outcome renews (Members.new q)).isSome = (typed || os.any Override.decides) := by
  have hfor := h.forProperty fun o ho => (hos o ho).forProperty
  have hgiven : ∀ es ∈ p.overrides,
      es.text? "type" ≠ some .unset ∧ es.text? "$ref" ≠ some .unset := by
    intro es hes
    obtain ⟨o, ho, hres⟩ := exists_of_forall₂ h.overrides.flip hes
    have hset := (hos o ho).given
    exact ⟨hres.text?_ne_unset hset.1, hres.text?_ne_unset hset.2⟩
  -- Nothing that an override gives is lost when references are resolved.
  have hdecides : os.any Override.decides = false ↔
      ∀ es ∈ p.overrides, es.text? "type" = none ∧ es.text? "$ref" = none := by
    rw [List.any_eq_false]
    constructor
    · intro hnone es hes
      obtain ⟨o, ho, hres⟩ := exists_of_forall₂ h.overrides.flip hes
      exact (Override.decides_eq_false hres).1 (Bool.eq_false_iff.2 (hnone o ho))
    · intro hnone o ho
      obtain ⟨es, hes, hres⟩ := exists_of_forall₂ h.overrides ho
      exact Bool.eq_false_iff.1 ((Override.decides_eq_false hres).2 (hnone es hes))
  have hnew := Members.isProperty_new q
  -- Either the overrides have decided it, or what is left open is drawn from the type.
  rcases p.outcome_cases renews (Members.new q) with ⟨hdecided, he⟩ | ⟨hundecided, he⟩
  · have hany : os.any Override.decides = true := by
      by_contra hnone
      have hleft := hnew.undecided_mergeAll hfor (hdecides.1 (Bool.eq_false_iff.2 hnone))
        (Members.undecided_new q)
      rw [Tree.isDecided_eq_false.2 hleft] at hdecided
      cases hdecided
    rw [he, hany, Bool.or_true]
    rfl
  · obtain ⟨-, hnone⟩ := hnew.undecided_of_mergeAll hfor hgiven hundecided
    rw [he, hdecides.2 hnone, Bool.or_false, Option.isSome_map, h.sketch]

namespace Plan

variable {α : Type} {renews : Bool} {p : Plan} {os : List Override} {xs : List α}
  {name : α → String} {given : α → List Override} {typed : α → Bool}

/-- Overrides of a class that give no properties bring none. -/
theorem Suits.given_eq_nil (h : p.Suits os xs name given typed)
    (hos : ∀ o ∈ os, o.toEntries.text? "properties" = none) : p.given = [] := by
  obtain ⟨ws, hsources, hws⟩ := h.sources
  refine List.flatMap_eq_nil_iff.2 fun es hes => ?_
  rw [hsources] at hes
  rcases List.mem_cons.1 hes with rfl | hes
  · exact Entries.properties_ofObject
  · obtain ⟨o, ho, hres⟩ := exists_of_forall₂ hws.flip hes
    rw [Entries.properties, hres.text?_eq_none.2 (hos o ho)]
    rfl

/-- The properties that a plan leaves in a schema that had none. -/
theorem Suits.names_run (h : p.Suits os xs name given typed) (hp : p.Sound t.kind)
    (ht : t.All Tree.Typed) (hk : t.kind ∈ Kind.schemas) (hfresh : t.properties = [])
    (hos : ∀ o ∈ os, o.toEntries.text? "properties" = none)
    (hgiven : ∀ x ∈ xs, ∀ o ∈ given x, o.Keeps) :
    Members.names (p.run renews t).properties
      = (xs.filter fun x => typed x || (given x).any Override.decides).map name := by
  have hnil : Members.Orderly [] := ⟨fun _ h => absurd h List.not_mem_nil, List.nodup_nil⟩
  rw [properties_run hp ht hk, hfresh, h.given_eq_nil hos]
  refine (Members.names_settleAll_new renews hnil hp.overrides hp.names
    fun _ _ => List.not_mem_nil).trans ?_
  -- Plans and properties go in step.
  have hsuits := h.properties
  clear h
  show (p.properties.filter _).map _ = _
  generalize p.properties = qs at hsuits
  induction hsuits with
  | nil => rfl
  | cons hq _ ih =>
    obtain ⟨hx, hrest⟩ := List.forall_mem_cons.1 hgiven
    rw [List.filter_cons, List.filter_cons, hq.isSome_outcome hx]
    split
    · rw [List.map_cons, List.map_cons, ih hrest, hq.name]
    · exact ih hrest

/-- What a plan makes of a schema has a list of properties. -/
theorem listsProperties {A : Finset NodeId} {d d' : Draft} (h : d.Turned i A (p.run renews t) d')
    (ht : (p.run renews t).All Tree.Typed) (hk : t.kind ∈ Kind.schemas) :
    d'.forest.ListsProperties i (Members.names (p.run renews t).properties) := by
  have hkind : (p.run renews t).kind = t.kind := Tree.mergeAll_kind true p.sources t
  refine h.holds.listsProperties ht (hkind.symm ▸ hk) ?_
  rw [run, Tree.properties_withProperties, Tree.withProperties, Tree.setSlot_slot_self]

end Plan

/-! ### What describers list -/

namespace MetadataDescriber

theorem skipped_eq {p : PropertyMetadata} (hrequest : Groups.Asks m.groups)
    (hdeclared : Groups.Declares p.groups) :
    skipped m p = .ok !Groups.exposes m.groups p.groups := by
  unfold skipped
  split
  · rename_i hnull
    rw [hnull]
    rfl
  · rename_i hsome
    exact Exclusion.skips_eq hsome hrequest hdeclared

/-- The properties that a model exposes are those that its groups expose. -/
theorem visible_eq {c : ClassMetadata} (hrequest : Groups.Asks m.groups)
    (hdeclared : ∀ p ∈ c.properties, Groups.Declares p.groups) :
    visible m c = c.properties.filter fun p => Groups.exposes m.groups p.groups := by
  refine List.filter_congr fun p hp => ?_
  rw [skipped_eq hrequest (hdeclared p hp)]
  cases Groups.exposes m.groups p.groups <;> rfl

end MetadataDescriber

namespace ObjectDescriber

/-- What is requested from a class: the names of the groups of the model that are texts. -/
theorem filterMap_names_requestedGroups (g : Data) :
    (Groups.names (requestedGroups g)).filterMap Data.str? = (Groups.names g).filterMap Data.str? ∧
      Groups.Asks (requestedGroups g) := by
  unfold requestedGroups
  split
  · exact ⟨rfl, fun _ => rfl⟩
  · have htext : ∀ x ∈ (Groups.names g).filter (·.str?.isSome), Groups.isName x = true := fun x hx =>
      (List.mem_filter.1 (List.mem_filter.1 hx).1).2
    have hnames : Groups.names (.ofList ((Groups.names g).filter (·.str?.isSome)))
        = (Groups.names g).filter (·.str?.isSome) := List.filter_eq_self.2 htext
    have hfilter : ((Groups.names g).filter (·.str?.isSome)).filterMap Data.str?
        = (Groups.names g).filterMap Data.str? := by
      rw [List.filterMap_filter]
      congr 1
      funext x
      cases x.str? <;> rfl
    unfold Groups.Asks
    rw [hnames]
    refine ⟨hfilter, fun hnone => List.eq_nil_iff_forall_not_mem.2 fun x hx => ?_⟩
    obtain ⟨text, htext⟩ := Option.isSome_iff_exists.1 (List.mem_filter.1 hx).2
    exact List.not_mem_nil (hnone ▸ List.mem_filterMap.2 ⟨x, hx, htext⟩)

theorem exposes_requestedGroups (g declared : Data) :
    Groups.exposes (requestedGroups g) declared = Groups.exposes g declared := by
  have hnames : Groups.requestedNames (requestedGroups g) = Groups.requestedNames g := by
    unfold Groups.requestedNames
    rw [(filterMap_names_requestedGroups g).1]
  by_cases hnull : g = .null
  · rw [hnull]
    rfl
  · have hsome : requestedGroups g ≠ .null := by
      unfold requestedGroups
      split
      · exact absurd rfl hnull
      · nofun
    unfold Groups.exposes
    split
    · contradiction
    · rfl
    · rw [hnames]

/-- The properties of a class that are listed for a model: those that its groups expose. -/
theorem Starts.names_eq {owner : String} {names? : Option (List String)}
    (h : Starts w m s e owner names?)
    (hdeclared : ∀ ps ∈ w.classes.declaredGroups? owner, ∀ p ∈ ps, Groups.Declares p.2) :
    names?.getD [] = (((w.classes.declaredGroups? owner).getD []).filter fun p =>
      Groups.exposes m.groups p.2).map (·.1) := by
  have hlisted := h.listed
  rw [ClassTable.properties_eq _ _ (filterMap_names_requestedGroups _).2 hdeclared] at hlisted
  rw [← Except.ok.inj hlisted]
  simp only [exposes_requestedGroups]
  cases w.classes.declaredGroups? owner <;> rfl

end ObjectDescriber

/-- A schema that had no properties lists those that are exposed, in the order in which they are
    declared. Of the properties in metadata, those are left out that have no type and are given none by
    an override. -/
theorem describe_lists (hd : s.draft.forest.Holds t i A) (ht : t.All Tree.Typed)
    (hk : t.kind ∈ Kind.schemas) (hfresh : t.properties = []) :
    (∀ d c class? found name, MetadataDescriber.Starts w d m s e c class? →
      MetadataDescriber.Exposed w d m i s e c class? found name →
      (∀ o ∈ MetadataDescriber.classOverrides w class?, o.BringsNone t.kind) →
      (∀ p ∈ MetadataDescriber.visible m c, ∀ o ∈ Reflection.given (found p), o.Keeps) →
      Groups.Asks m.groups → (∀ p ∈ c.properties, Groups.Declares p.groups) →
      MetadataDescriber.describe w d m i s = .ok () s' →
        s'.draft.forest.ListsProperties i ((c.properties.filter fun p =>
          Groups.exposes m.groups p.groups &&
            (p.type?.isSome || (Reflection.given (found p)).any Override.decides)).map name)) ∧
    ∀ owner names?, ObjectDescriber.Starts w m s e owner names? →
      ((names?.getD []).map (ObjectDescriber.exposedName w owner)).Nodup →
      (∀ o ∈ (w.classes.schemaOverride? owner).toList, o.BringsNone t.kind) →
      (∀ property ∈ names?.getD [],
        ∀ o ∈ Reflection.given (ObjectDescriber.reflection? w owner property), o.Keeps) →
      (∀ ps ∈ w.classes.declaredGroups? owner, ∀ p ∈ ps, Groups.Declares p.2) →
      ObjectDescriber.describe w m i s = .ok () s' →
        s'.draft.forest.ListsProperties i ((((w.classes.declaredGroups? owner).getD []).filter fun p =>
          Groups.exposes m.groups p.2).map fun p => ObjectDescriber.exposedName w owner p.1) := by
  constructor
  · intro d c class? found name hstarts hexposed hclass hproperty hrequest hdeclared h
    have hgiven := fun p hp o ho => (hproperty p hp o ho).forProperty
    have hfind := fun o ho => (hclass o ho).findable
    -- Only the plan of the first description counts, so nothing is asked of a second one.
    obtain ⟨p, hsuits, hplays⟩ := MetadataDescriber.plays_describe none (T := fun _ => True)
      (C := False) False.elim hstarts hexposed hfind hgiven hd ht hk h
    have hlists := Plan.listsProperties hplays.turned hplays.typed hk
    rw [hsuits.names_run (hsuits.sound hk hfind hgiven hexposed.nodup) ht hk hfresh
      (fun o ho => (hclass o ho).apart) hproperty,
      MetadataDescriber.visible_eq hrequest hdeclared, List.filter_filter] at hlists
    simpa only [Bool.and_comm] using hlists
  · intro owner names? hstarts hnames hclass hproperty hdeclared h
    have hgiven := fun p hp o ho => (hproperty p hp o ho).forProperty
    have hfind := fun o ho => (hclass o ho).findable
    obtain ⟨p, hsuits, hplays⟩ := ObjectDescriber.plays_describe none (T := fun _ => True)
      (C := False) hstarts hnames hfind hgiven hd ht hk h
    have hlists := Plan.listsProperties hplays.turned hplays.typed hk
    -- Annotations give every property a type.
    have hall : (names?.getD []).filter (fun property => true ||
        (Reflection.given (ObjectDescriber.reflection? w owner property)).any Override.decides)
          = names?.getD [] := List.filter_eq_self.2 fun _ _ => rfl
    rwa [hsuits.names_run (hsuits.sound hk hfind hgiven hnames) ht hk hfresh
      (fun o ho => (hclass o ho).apart) hproperty, hall, hstarts.names_eq hdeclared,
      List.map_map] at hlists

/-! ### Items -/

/-- The class of items, with a code that is written as a text. -/
def itemClasses : ClassTable :=
  let fields : List FieldDecl :=
    [⟨"code", .annotated (.builtin "int") [.override ⟨.property, [("type", .str "string")], [], none⟩],
        .null, none⟩,
      ⟨"note", .builtin "string", .ofList [.str "list"], none⟩,
      ⟨"price", .builtin "int", .ofList [.str "staff"], none⟩]
  [{ decl := { module := "shop", name := "Item", kind := .record, fields := fields }
     order := ["shop.Item", rootClass], recordFields? := some fields }]

/-- Metadata of a property of an item. -/
def itemProperty (name : String) (type? : Option TypeExpr) (groups : Data) : PropertyMetadata :=
  { className := .str "shop.Item", name := .str name, type? := type?, groups := groups }

/-- The metadata of items, in which neither the code nor the note has a type. -/
def itemProperties : List PropertyMetadata :=
  [itemProperty "code" none .null, itemProperty "note" none (.ofList [.str "list"]),
    itemProperty "price" (some (.mk "int" [])) (.ofList [.str "staff"])]

/-- Items as lists show them. -/
def itemModel : Model := .ofClass "shop.Item" (.ofList [.str "Default", .str "list"])

/-- What the class of items has under a name. -/
def itemReflection (name : String) : Option Reflection :=
  (Reflection.ofClass itemClasses "shop.Item" name).toOption

theorem describe_lists_items :
    let w : World := { classes := itemClasses }
    let d : MetadataDescriber := ⟨⟨[⟨.str "shop.Item", itemProperties⟩]⟩, none⟩
    (∃ s', MetadataDescriber.describe w d itemModel 0 emptySchemaSite = .ok () s' ∧
      s'.draft.forest.ListsProperties 0 ["code"]) ∧
    ∃ s', ObjectDescriber.describe w itemModel 0 emptySchemaSite = .ok () s' ∧
      s'.draft.forest.ListsProperties 0 ["code", "note"] := by
  intro w d
  have hblank := blank_emptySchemaSite
  have htyped : (Tree.fresh .schema []).All Tree.Typed := .leaf (Tree.typed_fresh rfl) rfl
  have hself : w.classes.resolve [] "shop.Item" = .ok (some "shop.Item") := by rfl
  have hasks : Groups.Asks itemModel.groups := fun h => absurd h (by decide)
  have hlisted : ∀ name : String, Groups.Declares (.ofList [.str name]) := fun name => .names [name] 0
  have hclass : ∀ o ∈ (w.classes.schemaOverride? "shop.Item").toList, o.BringsNone .schema :=
    fun _ ho => absurd ho List.not_mem_nil
  have hkeeps : ∀ name ∈ ["code", "note"], ∀ o ∈ Reflection.given (itemReflection name), o.Keeps := by
    intro name hname o ho
    rcases List.mem_pair.1 hname with rfl | rfl
    · obtain rfl := List.mem_singleton.1 ho
      refine ⟨⟨Entries.findable_alone _ (by decide) (.str "string"),
        Entries.text?_alone _ (by decide)⟩, ?_, ?_⟩
      · exact fun h => nomatch Entries.text?_cons_self.symm.trans h
      · exact fun h => nomatch (Entries.text?_alone _ (by decide)).symm.trans h
    · cases ho
  constructor
  · obtain ⟨s', hs'⟩ : ∃ s', MetadataDescriber.describe w d itemModel 0 emptySchemaSite = .ok () s' :=
      Results.exists_ok (by decide +kernel)
    have hproperty : ∀ p ∈ itemProperties, Groups.Declares p.groups ∧ ∃ name type? groups,
        p = itemProperty name type? groups ∧ name ∈ ["code", "note", "price"] := by
      intro p hp
      simp only [itemProperties, List.mem_cons, List.not_mem_nil, or_false] at hp
      rcases hp with rfl | rfl | rfl
      · exact ⟨.none, _, _, _, rfl, by decide⟩
      · exact ⟨hlisted _, _, _, _, rfl, by decide⟩
      · exact ⟨hlisted _, _, _, _, rfl, by decide⟩
    -- The groups asked for leave out the last property.
    have hvisible : MetadataDescriber.visible itemModel ⟨.str "shop.Item", itemProperties⟩
        = [itemProperty "code" none .null, itemProperty "note" none (.ofList [.str "list"])] := by
      rw [MetadataDescriber.visible_eq hasks fun p hp => (hproperty p hp).1]
      rfl
    -- Of the others the second one has neither a type nor an override that decides it.
    have hleft : (itemProperties.filter fun p => Groups.exposes itemModel.groups p.groups &&
        (p.type?.isSome || (Reflection.given (itemReflection (p.name.str?.getD ""))).any
          Override.decides)).map (fun p => p.name.str?.getD "") = ["code"] := by decide +kernel
    refine ⟨s', hs', hleft ▸ (describe_lists hblank.holds htyped (by decide) rfl).1 d
      ⟨.str "shop.Item", itemProperties⟩ (some "shop.Item")
      (fun p => itemReflection (p.name.str?.getD "")) (fun p => p.name.str?.getD "")
      ⟨List.find?_cons_of_pos (Data.same_refl _), rfl, hself, ?_⟩ ⟨?_, ?_⟩ hclass ?_ hasks
      (fun p hp => (hproperty p hp).1) hs'⟩
    · exact fun p hp => ⟨_, MetadataDescriber.skipped_eq hasks (hproperty p hp).1⟩
    · rintro before p s₁ ⟨after, s₀, hreached, -⟩
      have hp := hreached ▸ List.mem_append_right before List.mem_cons_self
      rw [hvisible] at hp
      rcases List.mem_pair.1 hp with rfl | rfl
      · exact ⟨MetadataDescriber.reflection?_of_self rfl rfl rfl hself (by rfl) s₁, by rfl⟩
      · exact ⟨MetadataDescriber.reflection?_of_self rfl rfl rfl hself (by rfl) s₁, by rfl⟩
    · rw [hvisible]
      decide
    · intro p hp
      rw [hvisible] at hp
      rcases List.mem_pair.1 hp with rfl | rfl
      · exact hkeeps "code" (by decide)
      · exact hkeeps "note" (by decide)
  · obtain ⟨s', hs'⟩ : ∃ s', ObjectDescriber.describe w itemModel 0 emptySchemaSite = .ok () s' :=
      Results.exists_ok (by decide +kernel)
    have hdeclared : ∀ ps ∈ w.classes.declaredGroups? "shop.Item", ∀ p ∈ ps, Groups.Declares p.2 := by
      intro ps hps p hp
      cases hps
      rcases List.mem_cons.1 hp with rfl | hp
      · exact .none
      rcases List.mem_pair.1 hp with rfl | rfl
      · exact hlisted _
      · exact hlisted _
    have hproperties : w.classes.properties "shop.Item"
        (ObjectDescriber.requestedGroups itemModel.groups) = .ok (some ["code", "note"]) := by
      rw [ClassTable.properties_eq _ _ (ObjectDescriber.filterMap_names_requestedGroups _).2 hdeclared]
      rfl
    exact ⟨s', hs', (describe_lists hblank.holds htyped (by decide) rfl).2 "shop.Item"
      (some ["code", "note"]) ⟨rfl, hself, hproperties⟩ (by decide +kernel) hclass hkeeps
      hdeclared hs'⟩

/-- A class of parts, whose override gives the key of a property as one of its other fields. -/
def partClasses : ClassTable :=
  let fields : List FieldDecl := [⟨"code", .annotated (.builtin "int")
    [.override ⟨.property, [], [("property_", .str "number")], none⟩], .null, none⟩]
  [{ decl := { module := "shop", name := "Part", kind := .record, fields := fields }
     order := ["shop.Part", rootClass], recordFields? := some fields }]

/-- A property that an override lists under another name than its own. -/
theorem describe_lists_renamed :
    let w : World := { classes := partClasses }
    w.classes.declaredGroups? "shop.Part" = some [("code", .null)] ∧
    ObjectDescriber.exposedName w "shop.Part" "code" = "code" ∧
    ∃ s', ObjectDescriber.describe w (.ofClass "shop.Part" .null) 0 emptySchemaSite = .ok () s' ∧
      s'.draft.forest.ListsProperties 0 ["number"] := by
  intro w
  obtain ⟨hexposed, hends⟩ : ObjectDescriber.exposedName w "shop.Part" "code" = "code" ∧
      Results.endsIn (ObjectDescriber.describe w (.ofClass "shop.Part" .null) 0) (fun s' =>
        (s'.draft.forest.members 0 "properties").map Data.node? == [some 1] &&
          ((s'.draft.forest.get 1).value "property").str? == some "number") emptySchemaSite = true := by
    decide +kernel
  obtain ⟨s', hs', hlists⟩ := Results.exists_of_endsIn hends
  simp only [Bool.and_eq_true, beq_iff_eq] at hlists
  obtain ⟨hmembers, hname⟩ := hlists
  refine ⟨by rfl, hexposed, s', hs', ?_⟩
  cases hvalue : (s'.draft.forest.get 0).value "properties" with
  | list items mark =>
    rw [Forest.members_of_list hvalue] at hmembers
    obtain ⟨x, rfl, hx⟩ := List.map_eq_singleton_iff.1 hmembers
    rw [Data.node?_eq_some.1 hx] at hvalue
    exact ⟨[1], mark, hvalue, congrArg (fun v => [v]) (Data.str?_eq_some.1 hname)⟩
  | _ =>
    rw [Forest.members, hvalue] at hmembers
    cases hmembers

end ApiDoc
