import ApiDoc.Proofs.Describe.Properties

namespace ApiDoc

/-!
# Plans for schemas

What a description makes of a whole schema is told by a plan, too: sources are merged into it, and
then the plans of its properties are followed:

* `Entries.properties`, `Tree.merge_withProperties` — what a source brings for properties;
* `Plan`, `Plan.run` — a plan for a schema, and what becomes of a schema;
* `Plan.run_run` — a plan followed once more;
* `Plan.steady_run` — where it has been followed it can be followed again.
-/

/-! ### Sources of properties -/

namespace Entries

variable {P : Data → Prop} {k : Kind} {es : Entries}

/-- The properties that a source brings, each with its content. -/
def properties (es : Entries) : List (String × Entries) :=
  ((es.text? "properties").map fun v => (Placement.items (.keyed .property "property") v).map
    fun item => (((item.1.text? "property").bind Data.str?).getD "", item.2)).getD []

/-- What a source brings for a property. -/
theorem All.property (hes : es.All (Findable P) k) (hk : k ∈ Kind.schemas) {v : Data}
    (hv : es.text? "properties" = some v) {item : Entries × Entries}
    (hitem : item ∈ Placement.items (.keyed .property "property") v) :
    (∃ name : String, item.1 = [(.str "property", .str name)]) ∧
      item.2.All (Findable P) .property ∧ item.2.text? "property" = none := by
  have hp := Kind.placement?_properties hk
  have hfinds := hes.root.finds _ _ v hp hv
  refine ⟨?_, hes.item hp hv hitem, ?_⟩ <;>
    rcases Placement.mem_items hitem with ⟨_, _, fs, mark, e, gs, mark', he, rfl, hmem, hgs, rfl⟩ |
      ⟨_, _, _, _, _, he, _⟩ <;> cases he
  · obtain ⟨name, hname⟩ := (hfinds fs mark rfl).1.1 e hmem
    exact ⟨name, by rw [hname]⟩
  · exact ((hfinds fs mark rfl).2 e hmem).2 gs mark' hgs

/-- A source for a property is a mapping under its name among the properties. -/
theorem mem_properties {item : String × Entries} : item ∈ es.properties ↔ ∃ gs mark e hs mark',
    es.text? "properties" = some (.map gs mark) ∧ e ∈ gs ∧ e.2 = .map hs mark' ∧
      item = (e.1.str?.getD "", hs) := by
  have hname : ∀ key : Data, ((Entries.text? [(.str "property", key)] "property").bind Data.str?).getD ""
      = key.str?.getD "" := fun key => by
    rw [text?_cons_self]
    rfl
  unfold properties
  constructor
  · intro h
    cases hv : es.text? "properties" with
    | none =>
      rw [hv] at h
      cases h
    | some v =>
      rw [hv] at h
      obtain ⟨item', hitem', rfl⟩ := List.mem_map.1 h
      rcases Placement.mem_items hitem' with ⟨_, _, gs, mark, e, hs, mark', he, rfl, hmem, hhs, rfl⟩ |
        ⟨_, _, _, _, _, he, _⟩ <;> cases he
      exact ⟨gs, mark, e, hs, mark', rfl, hmem, hhs, Prod.ext (hname e.1) rfl⟩
  · rintro ⟨gs, mark, e, hs, mark', hv, hmem, hhs, rfl⟩
    rw [hv]
    exact List.mem_map.2 ⟨_, Placement.mem_items_of_keyed .property "property" mark hmem hhs,
      Prod.ext (hname e.1) rfl⟩

/-- A property that a resolved source brings comes from an entry of the source. -/
theorem Resolves.property {fs : Entries} (h : Entries.Resolves es fs) {item : String × Entries}
    (hitem : item ∈ fs.properties) : ∃ gs mark e mark', es.text? "properties" = some (.map gs mark) ∧
      e ∈ gs ∧ e.2.Resolves (.map item.2 mark') := by
  obtain ⟨hs, mark, f, item', mark', hv, hf, hcontent, rfl⟩ := mem_properties.1 hitem
  obtain ⟨u, hu, hres⟩ := h.exists_text? hv
  rcases hres.of_map with ⟨ref, rfl⟩ | ⟨gs, mark'', rfl, hgs⟩
  · rw [List.mem_singleton.1 hf] at hcontent
    cases hcontent
  · obtain ⟨e, he, -, hef⟩ := hgs.exists_mem hf
    exact ⟨gs, mark'', e, mark', hu, he, hcontent ▸ hef⟩

/-- A schema that holds nothing but a reference. -/
theorem decisive_reference (ref : String) : Entries.Decisive [(.str "$ref", .str ref)] where
  whole _ _ _ := .inr (by rw [text?_cons_self]; exact nofun)
  given := by
    rw [text?_cons_self, text?_cons_of_ne (by simp)]
    exact ⟨nofun, nofun⟩

/-- Decisive sources for properties stay so when they are resolved. -/
theorem Resolves.decisive_properties {fs : Entries} (hes : ∀ item ∈ es.properties, item.2.Decisive)
    (h : Entries.Resolves es fs) : ∀ item ∈ fs.properties, item.2.Decisive := by
  intro item hitem
  obtain ⟨gs, mark, e, mark', hv, he, hres⟩ := h.property hitem
  rcases hres.of_map with ⟨ref, href⟩ | ⟨hs, mark'', heq, hhs⟩
  · rw [href]
    exact decisive_reference ref
  · exact hhs.decisive (hes _ (mem_properties.2 ⟨gs, mark, e, hs, mark'', hv, he, heq, rfl⟩))

/-- The sources for properties in a good source are good for properties. -/
theorem forProperty_of_mem (hes : es.All (Findable Data.EqualsItself) k) (hk : k ∈ Kind.schemas) :
    ∀ item ∈ es.properties, item.2.ForProperty := by
  intro item hitem
  obtain ⟨gs, mark, e, hs, mark', hv, hmem, hhs, rfl⟩ := mem_properties.1 hitem
  obtain ⟨-, hfindable, hkey⟩ := hes.property hk hv
    (Placement.mem_items_of_keyed .property "property" mark hmem hhs)
  exact ⟨hfindable, hkey⟩

end Entries

namespace Tree

open Members

variable {es : Entries} {ws : List Entries} {t : Tree} {ts : List Tree}

/-- Members put into a list are sources absorbed. -/
theorem foldl_putMember_eq (hts : ∀ c ∈ ts, c.IsProperty) {items : List (Entries × Entries)}
    (hitems : ∀ item ∈ items, (∃ name : String, item.1 = [(.str "property", .str name)]) ∧
      item.2.ForProperty) :
    items.foldl (putMember (merge true) (.keyed .property "property")) ts
      = absorbAll ts (items.map fun item =>
          (((item.1.text? "property").bind Data.str?).getD "", item.2)) := by
  induction items generalizing ts with
  | nil => rfl
  | cons item items ih =>
    obtain ⟨⟨⟨name, hname⟩, hfor⟩, hrest⟩ := List.forall_mem_cons.1 hitems
    obtain ⟨fields, gs⟩ := item
    obtain rfl : fields = [(.str "property", .str name)] := hname
    have hput : putMember (merge true) (.keyed .property "property") ts
        ([(.str "property", .str name)], gs) = absorb ts (name, gs) :=
      upsert_eq_put hts name (merge true gs)
    rw [List.foldl_cons, hput]
    have hnext : ∀ c ∈ absorb ts (name, gs), c.IsProperty :=
      forall_put hts ((isProperty_getD hts name).1.merge hfor).1
    rw [ih hnext hrest, List.map_cons, Entries.text?_cons_self]
    rfl

/-- Sources absorbed leave properties. -/
theorem isProperty_absorbAll (hts : ∀ c ∈ ts, c.IsProperty) {items : List (String × Entries)}
    (hitems : ∀ item ∈ items, item.2.ForProperty) : ∀ c ∈ absorbAll ts items, c.IsProperty := by
  induction items generalizing ts with
  | nil => exact hts
  | cons item items ih =>
    obtain ⟨hitem, hitems⟩ := List.forall_mem_cons.1 hitems
    exact ih (forall_put hts ((isProperty_getD hts _).1.merge hitem).1) hitems

/-- What a source makes of the slot of properties. -/
theorem list_mergeSlot (hts : ∀ c ∈ ts, c.IsProperty)
    (hes : es.All (Entries.Findable Data.EqualsItself) t.kind) (hk : t.kind ∈ Kind.schemas)
    {s : Slot Tree} (hs : s.list = ts) :
    mergeSlot (merge true) true (.keyed .property "property") (es.text? "properties") s
      = s.grow (absorbAll ts es.properties) := by
  unfold Entries.properties
  cases hv : es.text? "properties" with
  | none =>
    show s = s.grow ts
    rw [← hs, Slot.grow_list]
  | some v =>
    show s.grow (((Placement.keyed .property "property").items v).foldl _ s.list) = _
    rw [hs, foldl_putMember_eq hts fun item hitem => ?_]
    · rfl
    · obtain ⟨hname, hfindable, hkey⟩ := hes.property hk hv hitem
      exact ⟨hname, hfindable, hkey⟩

/-- Where sources leave no property there was none. -/
theorem absorbAll_eq_nil {items : List (String × Entries)} (h : absorbAll ts items = []) :
    ts = [] := by
  induction items generalizing ts with
  | nil => exact h
  | cons item items ih => exact absurd (ih h) (upsert_ne_nil _ _ _ _)

/-- What a merge makes of the properties of a schema. -/
theorem properties_merge (ht : t.All Typed) (hk : t.kind ∈ Kind.schemas)
    (hes : es.All (Entries.Findable Data.EqualsItself) t.kind) :
    (merge true es t).properties = absorbAll t.properties es.properties := by
  rw [properties, merge_slot _ _ _ (Kind.placement?_properties hk)]
  show (mergeSlot (merge true) true _ (es.text? "properties") _).list = _
  rw [list_mergeSlot (ht.isProperty hk) hes hk rfl]
  exact Slot.list_grow fun hnil => absorbAll_eq_nil hnil

/-- A merge into a schema with other properties. -/
theorem merge_withProperties (hk : t.kind ∈ Kind.schemas) (hts : ∀ c ∈ ts, c.IsProperty)
    (hes : es.All (Entries.Findable Data.EqualsItself) t.kind) : merge true es (t.withProperties ts)
      = (merge true es t).withProperties (absorbAll ts es.properties) := by
  have hplace : ∀ σ, (t.withProperties ts).kind.placement? σ = t.kind.placement? σ := fun _ => rfl
  refine eq_of ?_ ?_ ?_ (fun name => ?_) fun σ => ?_
  · exact (merge_kind ..).trans (merge_kind es t true).symm
  · exact (merge_keys ..).trans (merge_keys es t true).symm
  · exact (merge_extensions ..).trans (merge_extensions es t true).symm
  · exact merge_field_congr hes.root.distinct hes.root.distinct rfl rfl rfl fun _ => rfl
  · by_cases hσ : σ = "properties"
    · subst hσ
      rw [merge_slot _ _ _ ((hplace _).trans (Kind.placement?_properties hk)), withProperties,
        withProperties, setSlot_slot_self, setSlot_slot_self]
      show mergeSlot (merge true) true _ (es.text? "properties") _ = _
      rw [list_mergeSlot hts hes hk rfl, Slot.grow]
      split
      · rename_i hnil
        have hnil := List.isEmpty_iff.1 hnil
        rw [hnil, absorbAll_eq_nil hnil]
      · rfl
    · have hother : ∀ (u : Tree) us, (u.withProperties us).slot σ = u.slot σ := fun _ _ => if_neg hσ
      rw [hother]
      cases hp : t.kind.placement? σ with
      | none =>
        rw [merge_slot_of_none _ _ _ ((hplace σ).trans hp), merge_slot_of_none _ _ _ hp, hother]
      | some p => rw [merge_slot _ _ _ ((hplace σ).trans hp), merge_slot _ _ _ hp, hother]

/-- Sources absorbed in two steps or in one. -/
theorem absorbAll_append (ts : List Tree) (items items' : List (String × Entries)) :
    absorbAll ts (items ++ items') = absorbAll (absorbAll ts items) items' := List.foldl_append

variable (hws : ∀ es ∈ ws, es.All (Entries.Findable Data.EqualsItself) t.kind)

include hws

/-- The properties after several sources are merged into a schema. -/
theorem properties_mergeAll (ht : t.All Typed) (hk : t.kind ∈ Kind.schemas) :
    (mergeAll true ws t).properties
      = absorbAll t.properties (ws.flatMap Entries.properties) := by
  induction ws generalizing t with
  | nil => rfl
  | cons es ws ih =>
    obtain ⟨hes, hrest⟩ := List.forall_mem_cons.1 hws
    have hkind := merge_kind es t true
    show (mergeAll true ws (merge true es t)).properties = _
    rw [ih (fun fs hfs => hkind.symm ▸ hrest fs hfs) (All.typed_merge hes ht) (hkind.symm ▸ hk),
      properties_merge ht hk hes, List.flatMap_cons, absorbAll_append]

/-- Sources merged into a schema with other properties. -/
theorem mergeAll_withProperties (hk : t.kind ∈ Kind.schemas) (hts : ∀ c ∈ ts, c.IsProperty) :
    mergeAll true ws (t.withProperties ts)
      = (mergeAll true ws t).withProperties (absorbAll ts (ws.flatMap Entries.properties)) := by
  induction ws generalizing t ts with
  | nil => rfl
  | cons es ws ih =>
    obtain ⟨hes, hrest⟩ := List.forall_mem_cons.1 hws
    have hkind := merge_kind es t true
    show mergeAll true ws (merge true es (t.withProperties ts)) = _
    rw [merge_withProperties hk hts hes, ih (fun fs hfs => hkind.symm ▸ hrest fs hfs)
      (hkind.symm ▸ hk) (isProperty_absorbAll hts (Entries.forProperty_of_mem hes hk)),
      List.flatMap_cons, absorbAll_append]
    rfl

end Tree

/-! ### Plans for schemas -/

/-- What becomes of a schema: sources that are merged into it, and then plans for its properties. -/
structure Plan where
  sources : List Entries
  properties : List PropertyPlan

namespace Plan

variable {renews : Bool} {p : Plan} {t : Tree}

/-- A plan followed. -/
noncomputable def run (renews : Bool) (p : Plan) (t : Tree) : Tree :=
  let u := Tree.mergeAll true p.sources t
  u.withProperties (Members.settleAll renews u.properties p.properties)

/-- The properties that the sources bring. -/
def given (p : Plan) : List (String × Entries) := p.sources.flatMap Entries.properties

/-- A plan that can be followed: its sources can be merged, and it has one plan for each name. -/
structure Sound (p : Plan) (k : Kind) : Prop where
  sources : ∀ es ∈ p.sources, es.All (Entries.Findable Data.EqualsItself) k
  overrides : ∀ q ∈ p.properties, ∀ es ∈ q.overrides, es.ForProperty
  names : (p.properties.map PropertyPlan.name).Nodup

/-- A plan whose sources give what goes with the type of a property only together with a type. -/
def Decisive (p : Plan) : Prop :=
  ∀ q ∈ p.properties, ∀ es ∈ Members.given p.given q.name ++ q.overrides, es.Decisive

section

variable (hp : p.Sound t.kind) (ht : t.All Tree.Typed) (hk : t.kind ∈ Kind.schemas)

include hp

/-- The sources that a sound plan gives are good for properties. -/
theorem Sound.given (hk : t.kind ∈ Kind.schemas) : ∀ item ∈ p.given, item.2.ForProperty := by
  intro item hitem
  obtain ⟨es, hes, hitem⟩ := List.mem_flatMap.1 hitem
  exact Entries.forProperty_of_mem (hp.sources es hes) hk item hitem

include ht hk

/-- The properties after a plan has been run. -/
theorem properties_run : (p.run renews t).properties
    = Members.settleAll renews (Members.absorbAll t.properties p.given) p.properties := by
  rw [run, Tree.properties_withProperties, Tree.properties_mergeAll hp.sources ht hk]
  rfl

variable (horderly : Members.Orderly t.properties) (hdecisive : p.Decisive)

include horderly

/-- They are orderly. -/
theorem orderly_run : Members.Orderly (p.run renews t).properties := by
  rw [properties_run hp ht hk]
  exact Members.orderly_settleAll renews (Members.absorbAll_spec (hp.given hk) horderly).1 hp.overrides

/-- The sources of a plan, merged into what the plan has made of a schema. -/
theorem mergeAll_run : Tree.mergeAll true p.sources (p.run renews t)
    = (p.run renews t).withProperties
        (Members.absorbAll (p.run renews t).properties p.given) := by
  obtain ⟨n, hn⟩ := Tree.exists_bound p.sources
  have hkind := Tree.mergeAll_kind true p.sources t
  have hproperties : ∀ u ∈ (p.run renews t).properties, u.IsProperty :=
    (orderly_run hp ht hk horderly).property
  generalize hus : (p.run renews t).properties = us at hproperties ⊢
  have hrun : p.run renews t = (Tree.mergeAll true p.sources t).withProperties us := by
    rw [← hus, run, Tree.properties_withProperties]
  rw [hrun, Tree.mergeAll_withProperties (hkind.symm ▸ hp.sources) (hkind.symm ▸ hk) hproperties,
    Tree.mergeAll_twice n (fun es hes => ⟨hp.sources es hes, hn es hes⟩) t rfl ht]
  exact (Tree.setSlot_setSlot ..).symm

include hdecisive

/-- A plan followed once more. -/
theorem run_run : p.run renews (p.run renews t) = p.run renews t := by
  have htwice : Members.settleAll renews _ _ = _ :=
    Members.settleAll_twice horderly (hp.given hk) hp.overrides hp.names hdecisive
  have hproperties : (p.run renews t).properties = _ := properties_run hp ht hk
  show (Tree.mergeAll true p.sources (p.run renews t)).withProperties (Members.settleAll renews
    (Tree.mergeAll true p.sources (p.run renews t)).properties p.properties) = _
  rw [mergeAll_run hp ht hk horderly, Tree.properties_withProperties, hproperties, htwice]
  rw [Tree.withProperties, Tree.withProperties, Tree.setSlot_setSlot, ← hproperties]
  show (p.run renews t).setSlot "properties" _ = _
  have hslot : (p.run renews t).slot "properties" = .members (p.run renews t).properties := by
    rw [run, Tree.properties_withProperties, Tree.withProperties, Tree.setSlot_slot_self]
  rw [← hslot, Tree.setSlot_self]

/-- What the plans of the properties find the second time can be described again. -/
theorem steady_run : ∀ q ∈ p.properties, q.Steady (Members.getD
    (Tree.mergeAll true p.sources (p.run renews t)).properties q.name) := by
  intro q hq
  have hgiven := hp.given hk
  obtain ⟨habsorbed, -⟩ := Members.absorbAll_spec hgiven horderly
  have hdone : Members.Orderly (p.run renews t).properties := orderly_run hp ht hk horderly
  -- All that is given for the property is made for a property.
  have hall : ∀ es ∈ Members.given p.given q.name ++ q.overrides, es.ForProperty := by
    refine List.forall_mem_append.2 ⟨fun es hes => ?_, hp.overrides q hq⟩
    obtain ⟨item, hitem, rfl⟩ := List.mem_map.1 hes
    exact hgiven item (List.mem_of_mem_filter hitem)
  have hself := (Members.isProperty_getD horderly.property q.name).1
  -- What stands under the name is the outcome of everything given for it.
  have hfound : Members.get? (p.run renews t).properties q.name = PropertyPlan.outcome renews
      { q with overrides := Members.given p.given q.name ++ q.overrides }
      (Members.getD t.properties q.name) := by
    rw [properties_run hp ht hk, Members.get?_settleAll habsorbed hp.overrides hp.names hq,
      Members.getD_absorbAll hgiven horderly, PropertyPlan.outcome_mergeAll]
  rw [mergeAll_run hp ht hk horderly, Tree.properties_withProperties,
    Members.getD_absorbAll hgiven hdone]
  refine PropertyPlan.steady_mergeAll ?_
  -- Withdrawn, it would be withdrawn again; kept, it is decided and stays.
  cases hget : Members.get? (p.run renews t).properties q.name with
  | none =>
    rw [hget] at hfound
    rw [Members.getD, hget]
    exact PropertyPlan.steady_of_none (PropertyPlan.outcome_new_of_none hall (hdecisive q hq) hself
      hfound.symm q.name)
  | some c =>
    rw [hget] at hfound
    rw [Members.getD, hget]
    exact PropertyPlan.steady_of_outcome hall (hdecisive q hq)
      (hdone.property c (Members.mem_of_get? hget))
      (PropertyPlan.outcome_again hall (hdecisive q hq) hself hfound.symm)

end

end Plan

end ApiDoc
