import ApiDoc.Proofs.Data.Entries
import ApiDoc.Proofs.Describe.Overrides

namespace ApiDoc.Rules

/-!
# Describers keep the rules

* `Does.describeItem` — a declared type described, by recursion on the type;
* `Does.describeType` — an inferred type described, by recursion on the type;
* `Does.metadata`, `Does.object`, `Does.outline` — models described;
* `Does.describer` — every describer keeps the rules that cover it.
-/

variable {R : Rules} {w : World} {s : Site}

namespace Does

/-! ### Declared types -/

/-- A name looked up breaks no rule. -/
theorem resolve? (hR : R.Lawful) (name : String) :
    R.Does (MetadataDescriber.resolve? w name) s fun _ _ => True := by
  refine of_still hR ?_
  unfold MetadataDescriber.resolve?
  split
  · exact .inl ⟨_, rfl, trivial⟩
  · exact .inl ⟨_, rfl, trivial⟩
  · exact .inr ⟨_, rfl⟩

/-- Neither does the question for moments. -/
theorem isMoment (hR : R.Lawful) (name : String) :
    R.Does (MetadataDescriber.isMoment w name) s fun _ _ => True := by
  unfold MetadataDescriber.isMoment
  refine .ite (fun _ => .pure hR trivial) fun _ => ?_
  refine .bind hR (.resolve? hR name) fun c? _ _ _ => ?_
  split
  · exact .pure hR trivial
  · exact .pure hR trivial

/-- Neither does the question for classes. -/
theorem isClass (hR : R.Lawful) (d : MetadataDescriber) (name : String) :
    R.Does (MetadataDescriber.isClass w d name) s fun _ _ => True := by
  refine .bind hR (.resolve? hR name) fun c? _ _ _ => ?_
  split
  · exact .pure hR trivial
  · exact .pure hR trivial

/-- The groups remembered around one more model. -/
theorem keeps_remember {c : Cache} {key : String} {groups : Data} (hc : R.Keeps c)
    (hgroups : R.groups groups) : R.Keeps (c.remember key groups) := by
  intro e he
  rcases Entries.mem_insert he with h | h
  · exact hc e h
  · rw [h]; exact hgroups

/-- A reference to a class, which is registered; the groups around it are remembered. -/
theorem describeClass (hR : R.Lawful) {name : String} {groups previous : Data} {i : NodeId}
    (hname : R.names name) (hgroups : R.groups groups) (hprevious : R.groups previous)
    (hi : R.isOpen s.draft.forest i) : R.Does (do
      let reference ← Describe.register MetadataDescriber.missing (.ofClass name groups)
      Describe.setField i "ref" (.str reference)
      if previous.truthy then
        let desk ← Describe.desk MetadataDescriber.missing
        Describe.setCache (desk.cache.remember (Model.ofClass name groups).hash previous))
      s fun _ _ => True := by
  refine .bind hR (.register hR _ ⟨name, groups, hname, hgroups, rfl⟩) fun reference t ht _ => ?_
  refine .bind hR (.setField hR (hR.isOpen_of_leads ht hi) (.inl (by decide))) fun _ u _ _ => ?_
  split
  · exact .bind hR (.desk hR _) fun desk v _ hdesk => .setCache hR (keeps_remember hdesk hprevious)
  · exact .pure hR trivial

/-- A type that is no collection of known items. -/
theorem describeLeaf (hR : R.Lawful) (d : MetadataDescriber) {name : String}
    {groups previous : Data} {i : NodeId} (hname : R.names name) (hgroups : R.groups groups)
    (hprevious : R.groups previous) (hi : R.isOpen s.draft.forest i) :
    R.Does (MetadataDescriber.describeLeaf w d name groups previous i) s fun _ _ => True := by
  -- The type, and another field after it.
  have htwo : ∀ {t : Site} {v v' : Data} {b : String}, R.isOpen t.draft.forest i →
      (b ∈ Kind.schemaFields ∨ (b = "additional_properties" ∧ v' = .bool true) ∨
        (b = "properties" ∧ v' = .ofList [])) →
      R.Does (do Describe.setField i "type" v; Describe.setField i b v') t fun _ _ => True := by
    intro t v v' b ht hb
    exact .bind hR (.setField hR ht (.inl (by decide))) fun _ _ hu _ =>
      .setField hR (hR.isOpen_of_leads hu ht) hb
  unfold MetadataDescriber.describeLeaf
  split
  · exact htwo hi (.inr (.inl ⟨rfl, rfl⟩))
  split
  · exact .setField hR hi (.inl (by decide))
  split
  · exact .setField hR hi (.inl (by decide))
  split
  · exact htwo hi (.inl (by decide))
  refine .bind hR (.isMoment hR name) fun b t ht _ => ?_
  split
  · exact htwo (hR.isOpen_of_leads ht hi) (.inl (by decide))
  refine .bind hR (.isClass hR d name) fun b u hu _ => ?_
  split
  · exact describeClass hR hname hgroups hprevious (hR.isOpen_of_leads (hR.trans ht hu) hi)
  · exact .pure hR trivial

/-- The child of an open node for items is open. -/
theorem renewChild (hR : R.Lawful) {i : NodeId} {slot : String} {k : Kind}
    (hslot : (slot, k) ∈ itemSlots) (hi : R.isOpen s.draft.forest i) :
    R.Does (MetadataDescriber.renewChild i slot k) s fun c f => R.isOpen f c :=
  .edit (hR.renewed hi hslot)

mutual

/-- A declared type described. -/
theorem describeItem (hR : R.Lawful) (d : MetadataDescriber) {groups previous : Data}
    (hgroups : R.groups groups) (hprevious : R.groups previous) (i : NodeId) (t : TypeExpr)
    (hnames : ∀ name ∈ t.names, R.names name) (s : Site) (hi : R.isOpen s.draft.forest i) :
    R.Does (MetadataDescriber.describeItem w d groups previous i t) s fun _ _ => True := by
  match t with
  | .mk name params =>
    have hparams : ∀ n ∈ TypeExpr.paramNames params, R.names n := fun n hn =>
      hnames n (List.mem_cons_of_mem _ hn)
    unfold MetadataDescriber.describeItem
    split
    · exact .describeLeaf hR d (hnames name List.mem_cons_self) hgroups hprevious hi
    · refine .bind hR (.setField hR hi (.inl (by decide))) fun _ u hu _ => ?_
      split
      · exact .setField hR (hR.isOpen_of_leads hu hi) (.inr (.inl ⟨rfl, rfl⟩))
      · refine .bind hR (.renewChild hR (by decide) (hR.isOpen_of_leads hu hi)) fun c v _ hc => ?_
        exact .describeParam hR d hgroups hprevious c 1 params hparams v hc
    · refine .bind hR (.setField hR hi (.inl (by decide))) fun _ u hu _ => ?_
      refine .bind hR (.renewChild hR (by decide) (hR.isOpen_of_leads hu hi)) fun c v _ hc => ?_
      exact .describeParam hR d hgroups hprevious c 0 params hparams v hc

/-- The type at a position of parameters described. -/
theorem describeParam (hR : R.Lawful) (d : MetadataDescriber) {groups previous : Data}
    (hgroups : R.groups groups) (hprevious : R.groups previous) (i : NodeId) (n : Nat)
    (params : List TypeParam) (hnames : ∀ name ∈ TypeExpr.paramNames params, R.names name)
    (s : Site) (hi : R.isOpen s.draft.forest i) :
    R.Does (MetadataDescriber.describeParam w d groups previous i n params) s
      fun _ _ => True := by
  match n, params with
  | 0, [] => exact .pure hR trivial
  | _ + 1, [] => exact .pure hR trivial
  | 0, .type t :: _ =>
    exact .describeItem hR d hgroups hprevious i t
      (fun name hname => hnames name (List.mem_append_left _ hname)) s hi
  | 0, .literal _ :: _ => exact .pure hR trivial
  | n + 1, .type _ :: rest =>
    exact .describeParam hR d hgroups hprevious i n rest
      (fun name hname => hnames name (List.mem_append_right _ hname)) s hi
  | n + 1, .literal _ :: rest =>
    exact .describeParam hR d hgroups hprevious i n rest hnames s hi

end

/-! ### Models from metadata -/

/-- Finding out whether a type uses groups breaks no rule. -/
theorem typeUsesGroups? (hR : R.Lawful) (d : MetadataDescriber) (t : TypeExpr) :
    R.Does (d.typeUsesGroups? t) s fun _ _ => True := by
  refine .bind hR (.desk hR _) fun desk u _ hdesk => ?_
  split
  · exact .pure hR trivial
  · exact .bind hR (.setCache hR hdesk) fun _ _ _ _ => .pure hR trivial

/-- The groups that a cache remembers, or none. -/
theorem groups_previous (hR : R.Lawful) {c : Cache} (hc : R.Keeps c) (key : String) :
    R.groups (c.previous key) := by
  unfold Cache.previous
  cases h : Entries.get? c.previousGroups (.str key) with
  | none => exact hR.null
  | some v =>
    obtain ⟨e, he, rfl⟩ := Entries.mem_of_get? h
    exact hc e he

/-- The groups of a property and those around it are among the groups of the rules. -/
theorem propertyGroups (hR : R.Lawful) (d : MetadataDescriber) {m : Model}
    (p : PropertyMetadata) (hm : R.groups m.groups) :
    R.Does (d.propertyGroups m p) s fun g _ => R.groups g.1 ∧ R.groups g.2 := by
  unfold MetadataDescriber.propertyGroups
  cases hn : Groups.nested m.groups p.name with
  | some narrowed => exact .pure hR ⟨hR.nested hm hn, hm⟩
  | none =>
    refine .bind hR (.desk hR _) fun desk t _ hdesk => ?_
    have hprevious := groups_previous hR hdesk m.hash
    refine .ite (fun _ => .pure hR ⟨hm, hR.null⟩) fun _ => ?_
    cases p.type? with
    | none => exact .pure hR ⟨hprevious, hR.null⟩
    | some ty =>
      refine .bind hR (.typeUsesGroups? hR d ty) fun uses _ _ _ => ?_
      exact .ite (fun _ => .pure hR ⟨hR.null, hR.null⟩) fun _ => .pure hR ⟨hprevious, hR.null⟩

/-- A property that is found by the name of its class is one that the class has. -/
theorem overrides_ofName (hw : R.Covers w) {met : List String} {className name : Data}
    {r : Reflection} (h : Reflection.ofName w.classes met className name = .ok r) :
    ∀ o ∈ r.overrides, R.propertyOverrides o := by
  unfold Reflection.ofName at h
  split at h
  · cases hc : w.classes.resolve met ‹_› with
    | error e => rw [hc] at h; exact nomatch h
    | ok owner? =>
      rw [hc] at h
      cases owner? with
      | none => exact nomatch h
      | some owner =>
        replace h : Reflection.ofOwner w.classes owner name = .ok r := h
        unfold Reflection.ofOwner at h
        split at h
        · exact hw.property _ _ r h
        · exact nomatch h
  · exact nomatch h

/-- The overrides of what a class has under the name of a property are those of the rules. -/
theorem reflection? (hR : R.Lawful) (hw : R.Covers w) {p : PropertyMetadata}
    (hp : R.CoversProperty p) : R.Does (MetadataDescriber.reflection? w p) s fun r? _ =>
      ∀ r, r? = some r → ∀ o ∈ r.overrides, R.propertyOverrides o := by
  refine of_still hR ?_
  unfold MetadataDescriber.reflection?
  -- A reflection that is given is covered by assumption, one that is looked up by the class table.
  cases hr : p.reflection? with
  | some r =>
    refine .inl ⟨some r, rfl, ?_⟩
    rintro r' hr'
    cases hr'
    exact hp.reflection r hr
  | none =>
    cases hname : Reflection.ofName w.classes s.met p.className p.name with
    | ok r =>
      refine .inl ⟨some r, rfl, ?_⟩
      rintro r' hr'
      cases hr'
      exact overrides_ofName hw hname
    | error e =>
      -- Of the failures of the lookup, those that say that nothing is known stand for no
      -- reflection.
      dsimp only
      split
      · rename_i h
        exact nomatch h
      · exact .inl ⟨none, rfl, fun _ h => nomatch h⟩
      · exact .inl ⟨none, rfl, fun _ h => nomatch h⟩
      · exact .inr ⟨_, rfl⟩

/-- The node of a property, its overrides applied. -/
theorem metadataNode (hR : R.Lawful) (hw : R.Covers w) (r : Reader) {p : PropertyMetadata}
    {groups name : Data} {schema : NodeId} (hp : R.CoversProperty p) (hgroups : R.groups groups)
    (hi : R.isOpen s.draft.forest schema) :
    R.Does (MetadataDescriber.propertyNode w r p groups name schema) s
      fun i f => R.isProperty f i := by
  refine .bind hR (reflection? hR hw hp) fun reflection? t ht hoverrides => ?_
  cases reflection? with
  | none => exact .edit (hR.property _ (hR.isOpen_of_leads ht hi))
  | some reflection =>
    refine .bind hR (.edit (hR.property _ (hR.isOpen_of_leads ht hi))) fun i u _ hu => ?_
    refine .bind hR (.updateProperty hR r (hoverrides reflection rfl) hgroups hu) fun _ v hv _ => ?_
    exact .pure hR (hR.isProperty_of_leads hv hu)

/-- A property described by metadata, of an open schema. -/
theorem metadataProperty (hR : R.Lawful) (hw : R.Covers w) (d : MetadataDescriber) (r : Reader)
    {m : Model} {p : PropertyMetadata} {schema : NodeId} (hp : R.CoversProperty p)
    (hm : R.groups m.groups) (hi : R.isOpen s.draft.forest schema) :
    R.Does (MetadataDescriber.describeProperty w d r m p schema) s fun _ _ => True := by
  refine .bind hR (propertyGroups hR d p hm) fun g t₁ h₁ hg => ?_
  refine .bind hR (.ofExcept hR (Q := fun _ _ => True) fun _ _ => trivial) fun name t₂ h₂ _ => ?_
  refine .bind hR (metadataNode hR hw r hp (hR.normalized hg.1)
    (hR.isOpen_of_leads (hR.trans h₁ h₂) hi)) fun i t₃ h₃ hnode => ?_
  refine .bind hR (.isDecided hR i) fun decided t₄ h₄ _ => .ite (fun _ => .pure hR trivial)
    fun _ => ?_
  cases ht : p.type? with
  | none =>
    -- Without a type the property is taken out of its schema again.
    have hschema := hR.isOpen_of_leads (hR.trans (hR.trans h₁ h₂) (hR.trans h₃ h₄)) hi
    refine .edit fun a d' hact => ?_
    obtain ⟨v, d₁, hread, hact⟩ := Results.bind_eq_ok.1 hact
    obtain ⟨_, d₂, hremove, hpure⟩ := Results.bind_eq_ok.1 hact
    cases hpure
    obtain ⟨hleads, -⟩ := Allows.read hR _ i "property" v d₁ hread
    obtain ⟨hleads', -⟩ := hR.removed v (hR.isOpen_of_leads hleads hschema) _ _ hremove
    exact ⟨hR.trans hleads hleads', trivial⟩
  | some ty =>
    exact .describeItem hR d (hR.normalized hg.1) hg.2 i ty (hp.type ty ht) t₄
      (hR.isOpen_of_leads h₄ (hR.isOpen_of_isProperty hnode))

/-- A property described, unless the groups of the model leave it out. -/
theorem unlessSkipped (hR : R.Lawful) {groups declared : Data} {act : Describe Unit}
    (hact : ∀ t, R.leads s.draft.forest t.draft.forest → R.Does act t fun _ _ => True) :
    R.Does (do
      let skipped ← match groups with
        | .scalar .null => pure false
        | g => Describe.ofExcept ((Exclusion.ofGroups g Groups.defaultGroup).skips declared)
      if !skipped then act) s fun _ _ => True := by
  dsimp only
  split
  · exact .bind hR (Q := fun _ _ => True) (.pure hR trivial) fun skipped t ht _ =>
      .ite (fun _ => hact t ht) fun _ => .pure hR trivial
  · exact .bind hR (Q := fun _ _ => True) (.ofExcept hR fun _ _ => trivial) fun skipped t ht _ =>
      .ite (fun _ => hact t ht) fun _ => .pure hR trivial

/-- A model described from its metadata. -/
theorem metadata (hR : R.Lawful) (hw : R.Covers w) {d : MetadataDescriber}
    (hd : R.CoversDescriber (.metadata d)) {m : Model} {schema : NodeId}
    (hm : R.groups m.groups) (hi : R.isOpen s.draft.forest schema) :
    R.Does (d.describe w m schema) s fun _ _ => True := by
  unfold MetadataDescriber.describe
  extract_lets className
  cases hfind : d.metadata.find? className with
  | none => exact .throw _
  | some c =>
    refine .bind hR (.desk hR _) fun desk t₁ h₁ _ => ?_
    refine .bind hR (.setField hR (hR.isOpen_of_leads h₁ hi) (.inl (by decide))) fun _ t₂ h₂ _ => ?_
    refine .bind hR (.resolve hR w _) fun class? t₃ h₃ _ => ?_
    have h := hR.trans (hR.trans h₁ h₂) h₃
    -- What follows the override of the class, if there is one.
    have hrest : ∀ t, R.leads s.draft.forest t.draft.forest → R.Does (do
        c.properties.forM fun p => do
          let skipped ← match m.groups with
            | .scalar .null => pure false
            | g => Describe.ofExcept ((Exclusion.ofGroups g Groups.defaultGroup).skips p.groups)
          if !skipped then d.describeProperty w (Reader.ofDesk desk) m p schema
        Describe.ensureProperties schema) t fun _ _ => True := by
      intro t ht
      refine .bind hR (.forM hR fun p hp u hu => unlessSkipped hR fun v hv => ?_) fun _ u hu _ =>
        .ensureProperties hR (hR.isOpen_of_leads (hR.trans ht hu) hi)
      exact metadataProperty hR hw d _ (hd _ c hfind p hp) hm
        (hR.isOpen_of_leads (hR.trans (hR.trans ht hu) hv) hi)
    cases class? with
    | none => exact hrest t₃ h
    | some name =>
      exact .bind hR (.updateSchema hR hw _ name (hR.isOpen_of_leads h hi)) fun _ u hu _ =>
        hrest u (hR.trans h hu)

/-! ### Models from annotations -/

/-- The mark of null on an open node. -/
theorem markNullable (hR : R.Lawful) (t : TypeInfo) {i : NodeId}
    (hi : R.isOpen s.draft.forest i) :
    R.Does (ObjectDescriber.markNullable t i) s fun _ _ => True :=
  .ite (fun _ => .setField hR hi (.inl (by decide))) fun _ => .pure hR trivial

/-- The values of an enumeration on an open node. -/
theorem describeValues (hR : R.Lawful) (values : List Data) {i : NodeId}
    (hi : R.isOpen s.draft.forest i) :
    R.Does (ObjectDescriber.describeValues values i) s fun _ _ => True := by
  have henum : ∀ t, R.leads s.draft.forest t.draft.forest →
      R.Does (Describe.setField i "enum" (.ofList values)) t fun _ _ => True := fun t ht =>
    .setField hR (hR.isOpen_of_leads ht hi) (.inl (by decide))
  unfold ObjectDescriber.describeValues
  split
  · exact .bind hR (.setField hR hi (.inl (by decide))) fun _ t ht _ => henum t ht
  · exact henum s (hR.refl _)

/-- The objects of a class. A class that is neither written out nor an enumeration is
    registered. -/
theorem describeObject (hR : R.Lawful) {m : Model} {t : TypeInfo} {i : NodeId}
    (hname : R.names (t.className?.getD "")) (hm : R.groups m.groups)
    (hi : R.isOpen s.draft.forest i) :
    R.Does (ObjectDescriber.describeObject w m t i) s fun _ _ => True := by
  refine .bind hR (.resolve hR w _) fun class? t₁ h₁ _ => .ite (fun _ => ?_) fun _ => ?_
  · refine .bind hR (.setField hR (hR.isOpen_of_leads h₁ hi) (.inl (by decide))) fun _ t₂ h₂ _ => ?_
    have h := hR.trans h₁ h₂
    refine .bind hR (.setField hR (hR.isOpen_of_leads h hi) (.inl (by decide))) fun _ t₃ h₃ _ => ?_
    exact .markNullable hR t (hR.isOpen_of_leads (hR.trans h h₃) hi)
  · split
    · exact .bind hR (.describeValues hR _ (hR.isOpen_of_leads h₁ hi)) fun _ t₂ h₂ _ =>
        .markNullable hR t (hR.isOpen_of_leads (hR.trans h₁ h₂) hi)
    · exact .bind hR (.register hR _ ⟨_, _, hname, hm, rfl⟩) fun reference t₂ h₂ _ =>
        .setField hR (hR.isOpen_of_leads (hR.trans h₁ h₂) hi) (.inl (by decide))

/-- An inferred type described. -/
theorem describeType (hR : R.Lawful) {m : Model} (hm : R.groups m.groups) (property : String)
    (t : TypeInfo) (hnames : ∀ name ∈ t.classNames, R.names name) (i : NodeId) (s : Site)
    (hi : R.isOpen s.draft.forest i) :
    R.Does (ObjectDescriber.describeType w m property t i) s fun _ _ => True := by
  match t with
  | .mk _ _ _ true _ none => exact .throw _
  -- A collection: what is inside has no class name that the whole has not.
  | .mk _ _ _ true key? (some value) =>
    have hvalue : ∀ name ∈ value.classNames, R.names name := fun name hname =>
      hnames name (List.mem_cons_of_mem _ hname)
    unfold ObjectDescriber.describeType
    refine .ite (fun _ => ?_) fun _ => ?_
    · refine .bind hR (.setField hR hi (.inl (by decide))) fun _ t₁ h₁ _ => ?_
      have hslot : ("additional_properties", Kind.additionalProperties) ∈ itemSlots := by decide
      refine .bind hR (.edit (hR.child (hR.isOpen_of_leads h₁ hi) hslot)) fun c t₂ _ hc => ?_
      exact describeType hR hm property value hvalue c t₂ hc
    · refine .bind hR (.setField hR hi (.inl (by decide))) fun _ t₁ h₁ _ => ?_
      have hslot : ("items", Kind.items) ∈ itemSlots := by decide
      refine .bind hR (.edit (hR.child (hR.isOpen_of_leads h₁ hi) hslot)) fun c t₂ _ hc => ?_
      exact describeType hR hm property value hvalue c t₂ hc
  | .mk builtin nullable className? false key? value? =>
    -- A scalar writes its fields, an object describes its class, and all else is refused.
    have hname : R.names (className?.getD "") := by
      apply hnames
      cases value? <;> exact List.mem_cons_self
    unfold ObjectDescriber.describeType
    extract_lets t
    split
    · refine .bind hR (.setField hR hi (.inl (by decide))) fun _ t₁ h₁ _ => ?_
      split
      · refine .bind hR (.setField hR (hR.isOpen_of_leads h₁ hi) (.inl (by decide)))
          fun _ t₂ h₂ _ => ?_
        exact .markNullable hR t (hR.isOpen_of_leads (hR.trans h₁ h₂) hi)
      · exact .markNullable hR t (hR.isOpen_of_leads h₁ hi)
    · exact .ite (fun _ => .describeObject hR (t := t) hname hm hi) fun _ => .throw _

/-- The one type of a property names classes that rules cover. -/
theorem onlyType (hR : R.Lawful) (hw : R.Covers w) (owner className property : String) :
    R.Does (ObjectDescriber.onlyType w owner className property) s fun t _ =>
      ∀ name ∈ t.classNames, R.names name := by
  refine .bind hR (.meet hR _) fun _ _ _ _ => ?_
  split
  · exact .throw _
  · rename_i t ht
    exact .pure hR (hw.type owner property t (by rw [ht]; exact List.mem_singleton.2 rfl))
  · exact .throw _

/-- The node of a property, its overrides applied. -/
theorem objectNode (hR : R.Lawful) (hw : R.Covers w) (r : Reader) {m : Model}
    (owner property : String) {schema : NodeId} (hm : R.groups m.groups)
    (hi : R.isOpen s.draft.forest schema) :
    R.Does (ObjectDescriber.propertyNode w r m owner property schema) s
      fun i f => R.isProperty f i := by
  have hgroups : R.groups ((Groups.nested m.groups (.str property)).getD m.groups) := by
    cases hn : Groups.nested m.groups (.str property) with
    | none => exact hm
    | some g => exact hR.nested hm hn
  unfold ObjectDescriber.propertyNode
  cases hr : Reflection.ofClass w.classes owner property with
  | error e => exact .edit (hR.property _ hi)
  | ok reflection =>
    refine .bind hR (.edit (hR.property _ hi)) fun i t _ ht => ?_
    refine .bind hR (.updateProperty hR r (hw.property owner property reflection hr) hgroups ht)
      fun _ u hu _ => ?_
    exact .pure hR (hR.isProperty_of_leads hu ht)

/-- An annotated property of an open schema. -/
theorem objectProperty (hR : R.Lawful) (hw : R.Covers w) (r : Reader) {m : Model}
    (owner property : String) {schema : NodeId} (hm : R.groups m.groups)
    (hi : R.isOpen s.draft.forest schema) :
    R.Does (ObjectDescriber.describeProperty w r m owner property schema) s fun _ _ => True := by
  refine .bind hR (objectNode hR hw r owner property hm hi) fun i t₁ _ hnode => ?_
  refine .bind hR (.isDecided hR i) fun decided t₂ h₂ _ => .ite (fun _ => .pure hR trivial)
    fun _ => ?_
  refine .bind hR (onlyType hR hw owner _ property) fun t t₃ h₃ hnames => ?_
  exact .describeType hR hm property t hnames i t₃
    (hR.isOpen_of_leads (hR.trans h₂ h₃) (hR.isOpen_of_isProperty hnode))

/-- A model described from the annotations of its class. -/
theorem object (hR : R.Lawful) (hw : R.Covers w) {m : Model} {schema : NodeId}
    (hm : R.groups m.groups) (hi : R.isOpen s.draft.forest schema) :
    R.Does (ObjectDescriber.describe w m schema) s fun _ _ => True := by
  refine .bind hR (.setField hR hi (.inl (by decide))) fun _ t₁ h₁ _ => ?_
  refine .bind hR (.resolve hR w _) fun class? t₂ h₂ _ => ?_
  cases class? with
  | none => exact .throw _
  | some owner =>
    refine .bind hR (.desk hR _) fun desk t₃ h₃ _ => ?_
    have h := hR.trans (hR.trans h₁ h₂) h₃
    refine .bind hR (.updateSchema hR hw _ owner (hR.isOpen_of_leads h hi)) fun _ t₄ h₄ _ => ?_
    refine .bind hR (.ofExcept hR (Q := fun _ _ => True) fun _ _ => trivial)
      fun names t₅ h₅ _ => ?_
    replace h := hR.trans (hR.trans h h₄) h₅
    refine .bind hR (.forM hR fun property _ u hu => ?_) fun _ u hu _ =>
      .ensureProperties hR (hR.isOpen_of_leads (hR.trans h hu) hi)
    exact objectProperty hR hw _ owner property hm (hR.isOpen_of_leads (hR.trans h hu) hi)

/-! ### All describers -/

/-- A describer that only registers what a model refers to. -/
theorem outline (hR : R.Lawful) {o : Outline} (ho : R.CoversDescriber (.outline o)) {m : Model}
    {schema : NodeId} (hm : R.groups m.groups) (hi : R.isOpen s.draft.forest schema) :
    R.Does (o.describe m schema) s fun _ _ => True := by
  refine .bind hR (.setField hR hi (.inl (by decide))) fun _ t₁ h₁ _ => ?_
  refine .forM hR fun target htarget t ht => ?_
  refine .bind hR (.register hR _ ⟨target, m.groups, ?_, hm, rfl⟩) fun _ _ _ _ =>
    .pure hR trivial
  cases hl : m.className?.bind fun c => o.references.lookup c with
  | none =>
    rw [hl] at htarget
    exact absurd htarget List.not_mem_nil
  | some targets =>
    rw [hl] at htarget
    obtain ⟨c, -, hc⟩ := Option.bind_eq_some_iff.1 hl
    exact ho c targets hc target htarget

/-- Every describer keeps the rules that cover it. -/
theorem describer (hR : R.Lawful) (hw : R.Covers w) {x : ModelDescriber}
    (hx : R.CoversDescriber x) {m : Model} {schema : NodeId} (hm : R.groups m.groups)
    (hi : R.isOpen s.draft.forest schema) :
    R.Does ((x.toDescriber w).describe m schema) s fun _ _ => True := by
  cases x with
  | metadata d => exact .metadata hR hw hx hm hi
  | object => exact .object hR hw hm hi
  | outline o => exact .outline hR hx hm hi

end Does

/-- Rules that name all classes and all overrides of properties cover every describer. -/
theorem coversDescriber_of_all (hnames : ∀ name, R.names name)
    (hoverrides : ∀ o, R.propertyOverrides o) (x : ModelDescriber) : R.CoversDescriber x := by
  cases x with
  | metadata d =>
    exact fun _ _ _ p _ => ⟨fun _ _ name _ => hnames name, fun _ _ o _ => hoverrides o⟩
  | object => trivial
  | outline o => exact fun _ _ _ target _ => hnames target

/-! ### No rules -/

/-- Rules that allow everything. -/
def free : Rules where
  names _ := True
  groups _ := True
  overrides _ := True
  propertyOverrides _ := True
  isOpen _ _ := True
  isProperty _ _ := True
  leads _ _ := True

/-- No rules at all are lawful. -/
theorem free_lawful : free.Lawful :=
  .of_anyEdit (fun _ _ => trivial) (fun _ _ => trivial) (fun _ _ => trivial) trivial
    (fun _ _ => trivial) (fun _ => trivial) fun _ _ _ => ⟨trivial, fun _ => trivial⟩

/-- No rules cover every world. -/
theorem free_covers (w : World) : free.Covers w :=
  ⟨fun _ _ _ => trivial, fun _ _ _ _ _ _ => trivial, fun _ _ _ _ _ _ => trivial⟩

/-- No rules cover every describer. -/
theorem free_coversDescriber (x : ModelDescriber) : free.CoversDescriber x :=
  coversDescriber_of_all (fun _ => trivial) (fun _ => trivial) x

end ApiDoc.Rules
