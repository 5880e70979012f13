import ApiDoc.Proofs.Document.Members

namespace ApiDoc

/-!
# The schemas among the components of a document

* `Forest.componentSchemas`, `Forest.schemasNamed` — the component schemas, and those under a name;
* `Sound.schemasNamed_eq` — there is no more than one under a name;
* `Forest.Extends` — a document that is described further, in which the component schemas stay;
* `Keeps.componentSchema` — the component schema of a name, found or made.
-/

namespace Forest

/-- The schemas among the components of the document. -/
def componentSchemas (f : Forest) : List NodeId :=
  match (f.get 0).value "components" with
  | .node c => (f.members c "schemas").filterMap Data.node?
  | _ => []

/-- The name under which a component schema stands. -/
def schemaName? (f : Forest) (j : NodeId) : Option String := ((f.get j).value "schema").str?

/-- The component schemas under a name. -/
def schemasNamed (f : Forest) (name : String) : List NodeId :=
  f.componentSchemas.filter fun j => f.schemaName? j == some name

variable {K : Kind → Prop} {f g h : Forest} {j c : NodeId} {name : String}

/-- The schemas of the document are those of its components. -/
theorem componentSchemas_of_node (hc : (f.get 0).value "components" = .node c) :
    f.componentSchemas = (f.members c "schemas").filterMap Data.node? := by
  rw [componentSchemas, hc]

/-- A schema of the document stands among those of its components. -/
theorem mem_componentSchemas : j ∈ f.componentSchemas ↔
    ∃ c, (f.get 0).value "components" = .node c ∧ .node j ∈ f.members c "schemas" := by
  unfold componentSchemas
  split
  · rename_i c hc
    simp [hc, Data.node?_eq_some]
  · rename_i hnone
    simp only [List.not_mem_nil, false_iff]
    rintro ⟨c, hc, -⟩
    exact hnone c hc

/-- A schema of a name is one of the document that has the name. -/
theorem mem_schemasNamed :
    j ∈ f.schemasNamed name ↔ j ∈ f.componentSchemas ∧ f.schemaName? j = some name := by
  simp [schemasNamed]

namespace Sound

/-- The components are those of the document. -/
theorem isChild_components (hs : f.Sound) (hc : (f.get 0).value "components" = .node c) :
    f.IsChild 0 .components c :=
  (hs.slots 0 hs.nonempty).singular _ "components" (by rw [hs.document]; decide) c hc

/-- In a sound forest the schemas of the document are what they should be. -/
theorem isComponentSchema (hs : f.Sound) (hj : j ∈ f.componentSchemas) :
    j < f.size ∧ f.IsComponentSchema j := by
  obtain ⟨c, hc, hmem⟩ := mem_componentSchemas.1 hj
  obtain ⟨hsize, hkind, -⟩ := hs.isChild_components hc
  obtain ⟨i, hi, hchild, hschema⟩ := hs.isComponentSchema_of_mem hsize hkind hmem
  cases hi
  exact ⟨hchild.1, hschema⟩

/-- No two component schemas stand under one name. -/
theorem schemasNamed_eq (hs : f.Sound) (hj : j ∈ f.schemasNamed name) :
    f.schemasNamed name = [j] := by
  -- Any two of them would share the name, which no two members of the list do.
  have hpairwise : (f.schemasNamed name).Pairwise fun _ _ => False := by
    obtain ⟨c, hc, -⟩ := mem_componentSchemas.1 (mem_schemasNamed.1 hj).1
    obtain ⟨hsize, hkind, -⟩ := hs.isChild_components hc
    rw [schemasNamed, componentSchemas_of_node hc]
    refine (List.pairwise_filter.2 ?_)
    refine (List.pairwise_filterMap.2 ?_)
    refine (hs.keysApart hsize hkind).imp ?_
    intro x y hxy i hi l hl hname hname'
    refine hxy name ?_ ?_
    · rw [keyOf, hi]; exact beq_iff_eq.1 hname
    · rw [keyOf, hl]; exact beq_iff_eq.1 hname'
  -- A list without a pair has one item at most.
  match hlist : f.schemasNamed name with
  | [] =>
    rw [hlist] at hj
    exact absurd hj List.not_mem_nil
  | [i] =>
    rw [hlist] at hj
    rw [List.mem_singleton.1 hj]
  | i :: l :: rest =>
    rw [hlist] at hpairwise
    exact absurd (List.rel_of_pairwise_cons hpairwise List.mem_cons_self) id

end Sound

/-! ### Documents described further -/

/-- A document that is described further: the component schemas stay, under the names that they
    have. -/
def Extends (f g : Forest) : Prop :=
  Changes (fun _ => True) f g ∧ f.componentSchemas ⊆ g.componentSchemas

/-- A forest extends itself. -/
theorem Extends.refl (f : Forest) : f.Extends f := ⟨.refl _ f, List.Subset.refl _⟩

/-- Two extensions, one after the other. -/
theorem Extends.trans (hfg : f.Extends g) (hgh : g.Extends h) : f.Extends h :=
  ⟨hfg.1.trans hgh.1, List.Subset.trans hfg.2 hgh.2⟩

/-- A schema of a name stays one. -/
theorem Extends.schemasNamed (hs : f.Sound) (hfg : f.Extends g) (hj : j ∈ f.schemasNamed name) :
    j ∈ g.schemasNamed name := by
  obtain ⟨hmem, hname⟩ := mem_schemasNamed.1 hj
  obtain ⟨hsize, hschema⟩ := hs.isComponentSchema hmem
  refine mem_schemasNamed.2 ⟨hfg.2 hmem, ?_⟩
  rw [schemaName?, hfg.1.key_eq j hsize hschema]
  exact hname

/-- Where neither the document nor its components change, the component schemas stay. -/
theorem Changes.extends (hfg : Changes K f g) (hs : f.Sound) (hdocument : ¬K .openApi)
    (hcomponents : ¬K .components) : f.Extends g := by
  refine ⟨hfg.mono fun _ _ => trivial, fun j hj => ?_⟩
  obtain ⟨c, hc, hmem⟩ := mem_componentSchemas.1 hj
  obtain ⟨hsize, hkind, -⟩ := hs.isChild_components hc
  have hroot := hfg.rest_eq 0 hs.nonempty (by rw [hs.document]; exact hdocument)
  have hnode := hfg.rest_eq c hsize (by rw [hkind]; exact hcomponents)
  refine mem_componentSchemas.2 ⟨c, by rw [hroot]; exact hc, ?_⟩
  rw [members, hnode]
  exact hmem

end Forest

/-! ### The schema of a name -/

namespace Kind

/-- A document has its components in one place. -/
theorem components_slot : ∀ p ∈ openApi.layout.singular, p.1 = components → p.2 = "components" := by
  decide

/-- Components have their schemas in one place. -/
theorem schemas_slot : ∀ p ∈ components.layout.indexed, p.1 = schema →
    p.2 = ⟨"schemas", "schema"⟩ := by decide

end Kind

open Forest

/-- The component schema of a name, found or made. -/
theorem Edit.Keeps.componentSchema {d : Draft} (hs : d.forest.Sound) (name : String) :
    Keeps (fun _ => True) (Edit.componentSchema 0 (.str name)) d fun j f =>
      (f.get j).kind = .schema ∧ j ∈ f.schemasNamed name ∧ d.forest.Extends f := by
  refine .bind (child hs ⟨hs.nonempty, trivial⟩) fun c d₁ hs₁ hc₁ h₁ => ?_
  obtain ⟨hchild, slot, hslot, hvalue, hsame⟩ := h₁
  rw [hs.document] at hslot
  obtain rfl : slot = "components" := Kind.components_slot _ hslot rfl
  -- Only the components change from here on.
  have hcomponents : d₁.forest.Has (fun k => k = .components) c := hchild.has rfl
  intro j d₂ hact
  obtain ⟨hs₂, hc₂, hj, slot', hslot', hmem, hsub, hkey⟩ :=
    indexedItem hs₁ hcomponents (.str name) j d₂ hact
  rw [hchild.2.1] at hslot'
  obtain rfl : slot' = ⟨"schemas", "schema"⟩ := Kind.schemas_slot _ hslot' rfl
  have hroot : (d₂.forest.get 0).value "components" = .node c := by
    rw [hc₂.rest_eq 0 hs₁.nonempty (by rw [hs₁.document]; decide)]
    exact hvalue
  have hc := hc₁.trans (hc₂.mono fun _ _ => trivial)
  refine ⟨hs₂, hc₂.mono fun _ _ => trivial, hj.2.1, mem_schemasNamed.2 ⟨?_, ?_⟩, hc, ?_⟩
  · exact mem_componentSchemas.2 ⟨c, hroot, hmem⟩
  · rw [schemaName?, hkey name rfl]
    rfl
  · -- If there were component schemas before, the components are still the same node.
    intro i hi
    obtain ⟨c', hc', hmem'⟩ := mem_componentSchemas.1 hi
    have hforest := hsame c' hc'
    rw [hforest] at hsub hvalue
    cases hc'.symm.trans hvalue
    exact mem_componentSchemas.2 ⟨c, hroot, hsub hmem'⟩

end ApiDoc
