import ApiDoc.Proofs.Describe.Describers
import ApiDoc.Proofs.Document.Fragments

namespace ApiDoc

/-!
# Describers keep documents sound

A describer edits nothing but the schema that it describes and what stands inside that schema:

* `Kind.InSchema` — the kinds of nodes inside schemas;
* `Override.LeavesKey` — an override that does not set the key of a component schema;
* `Rules.sound`, `Rules.sound_lawful` — the rules that edits inside schemas keep;
* `Rules.sound_covers` — the rules cover all describers if the overrides of classes leave the key.
-/

open Forest

/-- The kinds of nodes inside schemas. -/
def Kind.InSchema (k : Kind) : Prop := k ∈ Kind.externalDocumentation :: Kind.schemas

instance : DecidablePred Kind.InSchema := fun k =>
  inferInstanceAs (Decidable (k ∈ Kind.externalDocumentation :: Kind.schemas))

/-- An override that does not set the key of a component schema. -/
def Override.LeavesKey (o : Override) : Prop := .str "schema" ∉ o.toEntries.map Prod.fst

/-- An override leaves the key of a schema if none of its entries is for it. -/
theorem Override.leavesKey_iff {o : Override} :
    (∀ e ∈ o.toEntries, e.1.same (.str "schema") = false) ↔ o.LeavesKey := by
  simp only [LeavesKey, List.mem_map, not_exists, not_and, ← Bool.not_eq_true, Data.same_str_iff]

instance : DecidablePred Override.LeavesKey := fun _ =>
  decidable_of_iff _ Override.leavesKey_iff

namespace Kind

/-- What stands below a schema is what may stand in one. -/
theorem inSchema_closed : Closed InSchema := by
  intro k hk
  cases k <;> revert hk <;> decide

/-- A schema may stand in a schema. -/
theorem inSchema_of_schemas {k : Kind} (h : k ∈ schemas) : k.InSchema := List.mem_cons_of_mem _ h

/-- All schemas have the fields and the slots of schemas. -/
theorem schemaFields_subset : ∀ k ∈ schemas, schemaFields ⊆ k.fields := by decide

/-- The key of a schema is none of the fields of all schemas. -/
theorem key_notMem_schemaFields : "schema" ∉ schemaFields := by decide

/-- A schema has one slot for items, and one for additional properties. -/
theorem itemSlots_singular : ∀ k ∈ schemas, ∀ p ∈ Rules.itemSlots,
    (p.2, p.1) ∈ k.layout.singular ∧ p.2 ∈ schemas := by decide

/-- A schema has a list of properties. -/
theorem properties_lists : ∀ k ∈ schemas, (property, "properties") ∈ k.layout.lists := by decide

end Kind

namespace Rules

/-- The rules that edits inside schemas keep. -/
def sound : Rules where
  names _ := True
  groups _ := True
  overrides := Override.LeavesKey
  propertyOverrides _ := True
  isOpen f i := f.Sound ∧ i < f.size ∧ (f.get i).kind ∈ Kind.schemas
  isProperty f i := f.Sound ∧ i < f.size ∧ (f.get i).kind = .property
  leads f g := f.Sound → g.Sound ∧ Changes Kind.InSchema f g

/-- Edits inside schemas are allowed. -/
theorem sound_allows {α : Type} {act : Edit α} {d : Draft} {P Q : α → Forest → Prop}
    (h : Edit.Keeps Kind.InSchema act d P) (hPQ : ∀ a f, f.Sound → P a f → Q a f) :
    sound.Allows act d Q := by
  intro a d' hact
  obtain ⟨hs, hc, hP⟩ := h a d' hact
  exact ⟨fun _ => ⟨hs, hc⟩, hPQ a _ hs hP⟩

/-- A schema that is a child in a sound forest is open. -/
theorem isOpen_of_isChild {f : Forest} {p j : NodeId} {k : Kind} (hs : f.Sound)
    (hj : f.IsChild p k j) (hk : k ∈ Kind.schemas) : sound.isOpen f j :=
  ⟨hs, hj.1, by rw [hj.2.1]; exact hk⟩

/-- What can be described is inside a schema. -/
theorem sound_has {f : Forest} {i : NodeId} (h : sound.isOpen f i) : f.Has Kind.InSchema i :=
  ⟨h.2.1, Kind.inSchema_of_schemas h.2.2⟩

/-- The rules that keep a forest sound are lawful. -/
theorem sound_lawful : sound.Lawful where
  refl f h := ⟨h, .refl _ f⟩
  trans hfg hgh hf := by
    obtain ⟨hg, hc⟩ := hfg hf
    obtain ⟨hh, hc'⟩ := hgh hg
    exact ⟨hh, hc.trans hc'⟩
  isOpen_of_leads := by
    rintro f g i hfg ⟨hf, hi, hkind⟩
    obtain ⟨hg, hc⟩ := hfg hf
    exact ⟨hg, Nat.lt_of_lt_of_le hi hc.size_le, by rw [hc.kind_eq i hi]; exact hkind⟩
  isProperty_of_leads := by
    rintro f g i hfg ⟨hf, hi, hkind⟩
    obtain ⟨hg, hc⟩ := hfg hf
    exact ⟨hg, Nat.lt_of_lt_of_le hi hc.size_le, by rw [hc.kind_eq i hi]; exact hkind⟩
  isOpen_of_isProperty := by
    rintro f i ⟨hf, hi, hkind⟩
    exact ⟨hf, hi, by rw [hkind]; decide⟩
  null := trivial
  nested _ _ := trivial
  normalized _ := trivial
  reference _ _ _ := ⟨trivial, fun _ => trivial⟩
  field := by
    intro d i name v hopen hname
    have hhas := sound_has hopen
    obtain ⟨hs, hi, hkind⟩ := hopen
    -- What is set is a field, or a slot that is left without children.
    have hset : name ∉ Edit.Keeps.reserved ∧
        d.forest.SlotsOk i ((d.forest.get i).putValue name v) ∧
        (d.forest.IsComponentSchema i → name ≠ "schema") := by
      rcases hname with hname | ⟨rfl, rfl⟩ | ⟨rfl, rfl⟩
      · have hfield := Kind.schemaFields_subset _ hkind hname
        refine ⟨Kind.field_notMem_reserved _ _ hfield, (hs.slots i hi).putField hfield v, ?_⟩
        rintro - rfl
        exact Kind.key_notMem_schemaFields hname
      · have hslot : ("additional_properties", Kind.additionalProperties) ∈ itemSlots := by decide
        have hsingular := (Kind.itemSlots_singular _ hkind _ hslot).1
        refine ⟨by decide, (hs.slots i hi).putSingular hsingular rfl ?_, fun _ => by decide⟩
        exact fun _ h => nomatch h
      · refine ⟨by decide, (hs.slots i hi).putList (Kind.properties_lists _ hkind) [] 0 ?_ ?_,
          fun _ => by decide⟩
        · exact fun _ h => absurd h List.not_mem_nil
        · exact fun _ _ => List.Pairwise.nil
    exact sound_allows (Edit.Keeps.assign? hs hhas hset.1 (fun _ => hset.2.1) hset.2.2)
      fun _ _ _ _ => trivial
  renewed := by
    intro d i slot k hopen hslot
    obtain ⟨hsingular, hk⟩ := Kind.itemSlots_singular _ hopen.2.2 _ hslot
    exact sound_allows (.renewChild hopen.1 (sound_has hopen) hsingular) fun c f hf hc =>
      isOpen_of_isChild hf hc hk
  child := by
    intro d i slot k hopen hslot
    obtain ⟨-, hk⟩ := Kind.itemSlots_singular _ hopen.2.2 _ hslot
    exact sound_allows (.child hopen.1 (sound_has hopen)) fun c f hf hc =>
      isOpen_of_isChild hf hc.1 hk
  property := by
    intro d i v hopen
    exact sound_allows (.indexedItem hopen.1 (sound_has hopen) v) fun c f hf hc =>
      ⟨hf, hc.1.1, hc.1.2.1⟩
  removed := by
    intro d i v hopen
    exact sound_allows (.removeIndexed hopen.1 (sound_has hopen) v) fun _ _ _ _ => trivial
  merged := by
    rintro d i o es policy happlies hes
    have hmerge : sound.isOpen d.forest i →
        (d.forest.IsComponentSchema i → .str "schema" ∉ es.map Prod.fst) →
        sound.Allows (Edit.mergeEntries ⟨true, policy⟩ es i) d fun _ _ => True := by
      intro hopen hkey
      refine sound_allows (.mergeSchema Kind.inSchema_closed hopen.1 (sound_has hopen) ?_ ?_ hkey)
        fun _ _ _ _ => trivial
      · intro h; exact absurd (h ▸ hopen.2.2) (by decide)
      · intro h; exact absurd (h ▸ hopen.2.2) (by decide)
    -- Only overrides of classes can come to a component schema; a property is none.
    rcases happlies with ⟨hopen, ho⟩ | ⟨hproperty, -⟩
    · exact hmerge hopen fun _ => hes ▸ ho
    · refine hmerge ⟨hproperty.1, hproperty.2.1, by rw [hproperty.2.2]; decide⟩ fun hschema => ?_
      exact nomatch hproperty.2.2.symm.trans hschema.1

/-- The rules cover all classes whose overrides leave the key of their schema. -/
theorem sound_covers {w : World}
    (h : ∀ name o, w.classes.schemaOverride? name = some o → o.LeavesKey) : sound.Covers w :=
  ⟨h, fun _ _ _ _ _ _ => trivial, fun _ _ _ _ _ _ => trivial⟩

/-- They cover every describer. -/
theorem sound_coversDescriber (x : ModelDescriber) : sound.CoversDescriber x :=
  coversDescriber_of_all (fun _ => trivial) (fun _ => trivial) x

end Rules

end ApiDoc
