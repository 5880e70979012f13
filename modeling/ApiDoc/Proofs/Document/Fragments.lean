import ApiDoc.Proofs.Document.Sources

namespace ApiDoc

/-!
# Sources merged into schemas and documents

A source can set any field of what it is merged into, also the key of a component schema:

* `Data.CarriesKey`, `Entries.CarriesKey` — a source of a schema, and a fragment of a document, that
  can set the key of a component schema;
* `Keeps.mergeSchema` — entries merged into any node but the document and its components;
* `Keeps.mergeComponents`, `Keeps.mergeDocument` — fragments merged into components and documents.
-/

open Forest Merge

/-! ### Keys of component schemas -/

/-- A source of a schema that can set its key: a mapping that has the key, or a node, whose content
    is only known when it is read. -/
def Data.CarriesKey : Data → Prop
  | .node _ => True
  | .map es _ => .str "schema" ∈ es.map Prod.fst
  | _ => False

/-- A fragment of components one of whose schemas carries a key. -/
def Entries.SchemaCarriesKey (es : Entries) : Prop :=
  match es.text? "schemas" with
  | some (.map ms _) => ∃ e ∈ ms, e.2.CarriesKey
  | _ => False

/-- A fragment of a document one of whose component schemas carries a key. A node in the place of
    the components counts as one that does. -/
def Entries.CarriesKey (es : Entries) : Prop :=
  match es.text? "components" with
  | some (.node _) => True
  | some (.map cs _) => Entries.SchemaCarriesKey cs
  | _ => False

namespace Kind

/-- Of the lists of components only one holds schemas. -/
theorem components_indexed : ∀ p ∈ components.layout.indexed,
    p.1 = schema ∧ p.2.name = "schemas" ∨ p.1 ∉ [openApi, components, schema] := by decide

/-- Of the children of a document only one has schemas. -/
theorem openApi_singular : ∀ p ∈ openApi.layout.singular,
    p = (components, "components") ∨ p.1 ∉ [openApi, components, schema] := by decide

theorem openApi_lists : ∀ p ∈ openApi.layout.lists, p.1 ∉ [openApi, components, schema] := by
  decide

end Kind

/-- Children of any kind but three are ordinary. -/
theorem Forest.holdsOrdinary_of_notMem {K : Kind → Prop} {f : Forest} {i : NodeId} {k : Kind}
    (hK : Kind.Closed K) (hi : f.Has K i) (hk : k ∈ (f.get i).kind.layout.kinds)
    (h : k ∉ [Kind.openApi, .components, .schema]) : f.HoldsOrdinary K i k := by
  simp only [List.mem_cons, List.not_mem_nil, or_false, not_or] at h
  exact ⟨hi, hK _ hi.2 k hk, h.1, h.2.1, fun hschema => absurd hschema h.2.2⟩

namespace Merge

variable {o : MergeOptions} {read : Merge.Reader} {es : List (Data × Data)}

/-- The part under a key is that of the entry under the key. -/
theorem find?_parts {key : String} {p : Part} (h : find? (parts o read es) key = some p) :
    ∃ e, Entries.text? es key = some e.2 ∧ p = Part.of o read e := by
  rw [parts_eq_map] at h
  induction es with
  | nil => exact nomatch h
  | cons e rest ih =>
    obtain ⟨k, v⟩ := e
    rw [find?, List.map_cons, List.find?_cons] at h
    unfold Entries.text? Entries.get?
    cases hk : k.same (.str key) with
    | true =>
      rw [show (Part.of o read (k, v)).key.same (.str key) = true from hk] at h
      exact ⟨(k, v), rfl, (Option.some.inj h).symm⟩
    | false =>
      rw [show (Part.of o read (k, v)).key.same (.str key) = false from hk] at h
      exact ih h

theorem key_mem_of_mem_parts {p : Part} (h : p ∈ parts o read es) : p.key ∈ es.map Prod.fst := by
  rw [parts_eq_map] at h
  obtain ⟨e, he, rfl⟩ := List.mem_map.1 h
  exact List.mem_map.2 ⟨e, he, rfl⟩

end Merge

namespace Edit.Keeps

variable {K : Kind → Prop} {d : Draft} {i : NodeId} {o : MergeOptions} {read : Merge.Reader}
  {es : Entries}

/-! ### Schemas -/

/-- The parts of entries merged into a node that is not the document and not its components. -/
theorem mergeKeyless (hK : Kind.Closed K) (hread : read.Safe K) (hs : d.forest.Sound)
    (hi : d.forest.Has K i) (hdocument : (d.forest.get i).kind ≠ .openApi)
    (hcomponents : (d.forest.get i).kind ≠ .components)
    (hkey : d.forest.IsComponentSchema i → .str "schema" ∉ es.map Prod.fst) :
    Keeps K (Merge.content o (parts o read es) i) d fun _ _ => True := by
  refine mergeSafe hK hs hi hdocument hcomponents (fun hschema p hp hpk => ?_)
    (safe_parts hK hread es)
  exact hkey hschema (hpk ▸ key_mem_of_mem_parts hp)

/-- Entries merged into a node that is not the document and not its components. -/
theorem mergeSchema (hK : Kind.Closed K) (hs : d.forest.Sound) (hi : d.forest.Has K i)
    (hdocument : (d.forest.get i).kind ≠ .openApi)
    (hcomponents : (d.forest.get i).kind ≠ .components)
    (hkey : d.forest.IsComponentSchema i → .str "schema" ∉ es.map Prod.fst) :
    Keeps K (Edit.mergeEntries o es i) d fun _ _ => True := by
  refine .after_look .forest fun f _ => .after_look (.ofExcept _) fun ps hps => ?_
  cases hps
  exact mergeKeyless hK (safe_readParts hK o _) hs hi hdocument hcomponents hkey

/-- A value merged into a schema whose key it does not carry. -/
theorem mergeValue (hK : Kind.Closed K) (hread : read.Safe K) (hs : d.forest.Sound)
    (hi : d.forest.Has K i) (hkind : (d.forest.get i).kind = .schema) {v : Data}
    (hkey : ¬v.CarriesKey) : Keeps K (asContent o read v i) d fun _ _ => True := by
  cases v with
  | map es mark =>
    unfold asContent
    exact mergeKeyless hK hread hs hi (by rw [hkind]; decide) (by rw [hkind]; decide) fun _ => hkey
  | node j => exact absurd trivial hkey
  | _ => exact .throw _

/-! ### Documents -/

/-- A fragment merged into the components. -/
theorem mergeComponents (hK : Kind.Closed K) (hread : read.Safe K) (hs : d.forest.Sound)
    (hi : d.forest.Has K i) (hcomponents : (d.forest.get i).kind = .components)
    (hkey : ¬es.SchemaCarriesKey) :
    Keeps K (Merge.content o (parts o read es) i) d fun _ _ => True := by
  refine mergeParts hs hi (fun hschema => ?_) ?_ ?_ ?_
  · rw [hschema.1] at hcomponents
    exact nomatch hcomponents
  · intro k slot p hslot
    rw [hcomponents] at hslot
    exact absurd hslot List.not_mem_nil
  · intro k slot p hslot hp d₁ hs₁ hc₁
    have hk := Layout.mem_kinds_of_indexed hslot
    rw [hcomponents] at hslot
    rcases Kind.components_indexed _ hslot with ⟨rfl, hname⟩ | hother
    -- The schemas, each found or made under its name before its value is merged.
    · obtain ⟨e, he, rfl⟩ := find?_parts hp
      rw [hname, show wireName "schemas" = "schemas" by decide] at he
      show Keeps K (asMembers o read e.2 .schema i) d₁ fun _ _ => True
      cases hv : e.2 with
      | map ms mark =>
        rw [hv] at he
        unfold asMembers
        refine keyed hs₁ (hc₁.has hi) fun p hp d₂ j hs₂ hc₂ hj => ?_
        rw [parts_eq_map] at hp
        obtain ⟨e', he', rfl⟩ := List.mem_map.1 hp
        refine mergeValue hK hread hs₂ (hj.has (hK _ hi.2 _ hk)) hj.2.1 fun hcarries => ?_
        refine hkey ?_
        rw [Entries.SchemaCarriesKey, he]
        exact ⟨e', he', hcarries⟩
      | _ => exact .pure hs₁ trivial
    · refine (safe_parts hK hread es p (List.mem_of_find?_eq_some hp)).asKeyed d₁ i k hs₁ ?_
      exact (holdsOrdinary_of_notMem hK hi hk hother).changes hc₁
  · intro k slot p hslot
    rw [hcomponents] at hslot
    exact absurd hslot List.not_mem_nil

/-- A fragment merged into a document. -/
theorem mergeDocument (hK : Kind.Closed K) (hs : d.forest.Sound) (hdocument : K .openApi)
    (hkey : ¬es.CarriesKey) : Keeps K (Edit.mergeEntries o es 0) d fun _ _ => True := by
  refine .after_look .forest fun f _ => .after_look (.ofExcept _) fun ps hps => ?_
  cases hps
  have hread := safe_readParts hK o f.size
  have hi : d.forest.Has K 0 := ⟨hs.nonempty, by rw [hs.document]; exact hdocument⟩
  refine mergeParts hs hi (fun hschema => ?_) ?_ ?_ ?_
  · exact nomatch hs.document.symm.trans hschema.1
  · intro k slot p hslot hp d₁ j hs₁ hc₁ hj
    have hk := Layout.mem_kinds_of_singular hslot
    rw [hs.document] at hslot
    rcases Kind.openApi_singular _ hslot with heq | hother
    -- The components, which a node could not be merged into without its content being known.
    · cases heq
      obtain ⟨e, he, rfl⟩ := find?_parts hp
      rw [show wireName "components" = "components" by decide] at he
      show Keeps K (asContent o (readParts o f.size) e.2 j) d₁ fun _ _ => True
      cases hv : e.2 with
      | map cs mark =>
        rw [hv] at he
        unfold asContent
        refine mergeComponents hK hread hs₁ (hj.has (hK _ hi.2 _ hk)) hj.2.1 fun hcarries => ?_
        rw [Entries.CarriesKey, he] at hkey
        exact hkey hcarries
      | node n =>
        rw [hv] at he
        rw [Entries.CarriesKey, he] at hkey
        exact absurd trivial hkey
      | _ => exact .throw _
    · have hholds := (holdsOrdinary_of_notMem hK hi hk hother).changes hc₁
      have hsafe := safe_parts hK hread es p (List.mem_of_find?_eq_some hp)
      exact hsafe.asNode d₁ j hs₁ (hholds.ordinary hj)
  · intro k slot p hslot hp d₁ hs₁ hc₁
    have hk := Layout.mem_kinds_of_indexed hslot
    have hother : k ∉ [Kind.openApi, .components, .schema] := by
      rw [hs.document] at hslot
      exact Kind.openApi_lists _ (Layout.mem_lists_of_indexed hslot)
    refine (safe_parts hK hread es p (List.mem_of_find?_eq_some hp)).asKeyed d₁ 0 k hs₁ ?_
    exact (holdsOrdinary_of_notMem hK hi hk hother).changes hc₁
  · intro k slot p hslot hp d₁ hs₁ hc₁
    have hk := Layout.mem_kinds_of_collections hslot
    have hother : k ∉ [Kind.openApi, .components, .schema] := by
      rw [hs.document] at hslot
      exact Kind.openApi_lists _ (Layout.mem_lists_of_collections hslot)
    refine (safe_parts hK hread es p (List.mem_of_find?_eq_some hp)).asListed d₁ 0 k slot hs₁ ?_
    exact (holdsOrdinary_of_notMem hK hi hk hother).changes hc₁

end Edit.Keeps

end ApiDoc
