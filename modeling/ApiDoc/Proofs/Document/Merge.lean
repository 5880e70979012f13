import ApiDoc.Document.Merge
import ApiDoc.Proofs.Document.Members

namespace ApiDoc

/-!
# Merges keep documents sound

* `Keeps.setScalar`, `Keeps.growList`, `Keeps.setExtension`, `Keeps.setPlain` — single values
  merged;
* `Keeps.intoSingular`, `Keeps.intoIndexed`, `Keeps.intoCollection` — a part merged into its slot;
* `Keeps.mergeParts` — parts merged into a node, from what each does in its slot.
-/

open Forest Merge

/-- The key of a schema is spelled as it is. -/
theorem wireName_schema : wireName "schema" = "schema" := by decide

namespace Kind

/-- What a key names is a field with this spelling. -/
theorem mem_fields_of_wire {k : Kind} {key name : String} (h : k.fieldOfWire? key = some name) :
    name ∈ k.fields ∧ wireName name = key :=
  ⟨List.mem_of_find?_eq_some h, by simpa using List.find?_some h⟩

end Kind

/-- A key that is looked at for what it begins with is a text. -/
theorem Merge.keyText_eq {f : Forest} {key : Data} {text : String}
    (h : keyText f key = .ok text) : key = .str text := by
  unfold keyText at h
  split at h
  · rw [Except.ok.inj h]
  all_goals exact nomatch h

namespace Edit.Keeps

variable {K : Kind → Prop} {d : Draft} {i : NodeId} {o : MergeOptions}

/-! ### Single values -/

/-- Refusing a key keeps the forest sound. -/
theorem reject (hs : d.forest.Sound) (key : String) (why : Rejection) :
    Keeps K (Merge.reject o i key why) d fun _ _ => True := by
  refine .after_look (.node i) fun n _ => .after_look (.location i) fun location _ => ?_
  split
  · exact .throw _
  · exact .warn hs _

/-- A value that fills or replaces. -/
theorem setScalar (hs : d.forest.Sound) (hi : d.forest.Has K i) {name : String} {v : Data}
    (hn : d.forest.SlotsOk i ((d.forest.get i).putValue name v))
    (hkey : d.forest.IsComponentSchema i → name ≠ "schema") :
    Keeps K (Merge.setScalar o i name v) d fun _ _ => True := by
  refine .after_look (.node i) fun n _ => .ite (fun _ => ?_) fun _ => .pure hs trivial
  exact (assign hs hi hn hkey).mono fun _ _ _ => trivial

/-- So does making a list longer that is not a key. -/
theorem growList (hs : d.forest.Sound) (hi : d.forest.Has K i) {name : String} (v : Data)
    (hname : name ∈ (d.forest.get i).kind.fields)
    (hkey : d.forest.IsComponentSchema i → name ≠ "schema") :
    Keeps K (Merge.growList i name v) d fun _ _ => True := by
  refine .after_look (.node i) fun n _ => ?_
  exact (assign hs hi ((hs.slots i hi.1).putField hname _) hkey).mono fun _ _ _ => trivial

/-- So does setting an extension. -/
theorem setExtension (hs : d.forest.Sound) (hi : d.forest.Has K i) (key : String) (v : Data) :
    Keeps K (Merge.setExtension o i key v) d fun _ _ => True := by
  refine .after_look (.node i) fun n hn => ?_
  subst hn
  -- Extensions stand in no slot, and are no name of a component schema.
  have hput : ∀ skip : Bool, Keeps K (do
      if !skip then
        let extensions ← Edit.ofExcept (putExtension key v (d.forest.get i).extensions)
        Edit.setNode i { d.forest.get i with extensions := extensions }) d fun _ _ => True := by
    intro skip
    refine .ite (fun _ => .after_look (.ofExcept _) fun extensions _ => ?_) fun _ =>
      .pure hs trivial
    refine (setNode hs hi (n := { d.forest.get i with extensions := extensions }) ?_ rfl rfl
      fun _ => rfl).mono fun _ _ _ => trivial
    exact (hs.slots i hi.1).congr rfl fun _ _ => rfl
  exact .ite (fun _ => hput false) fun _ => .after_look (.ofExcept _) fun skip _ => hput skip

/-- The value under a key that names no slot. -/
theorem setPlain (hs : d.forest.Sound) (hi : d.forest.Has K i) {key : Data} (v : Data)
    (hkey : d.forest.IsComponentSchema i → key ≠ .str "schema") :
    Keeps K (Merge.setPlain o i key v) d fun _ _ => True := by
  refine .after_look .forest fun f _ => .after_look (.ofExcept _) fun text htext => ?_
  refine .ite (fun _ => setExtension hs hi text v) fun _ => ?_
  refine .after_look (.node i) fun n hn => ?_
  subst hn
  extract_lets kind
  split
  · exact reject hs _ _
  · rename_i name hname
    obtain ⟨hfield, hwire⟩ := Kind.mem_fields_of_wire hname
    have hne : d.forest.IsComponentSchema i → name ≠ "schema" := by
      rintro hschema rfl
      refine hkey hschema ?_
      rw [keyText_eq htext, ← hwire, wireName_schema]
    refine .ite (fun _ => growList hs hi v hfield hne) fun _ => ?_
    exact setScalar hs hi ((hs.slots i hi.1).putField hfield v) hne

/-! ### Parts in slots -/

variable {ps : List Part} {k : Kind}

/-- A part into the slot for a single child. -/
theorem intoSingular (hs : d.forest.Sound) (hi : d.forest.Has K i) {slot : String}
    (hslot : (k, slot) ∈ (d.forest.get i).kind.layout.singular)
    (hnode : ∀ p, find? ps (wireName slot) = some p → ∀ d' j, d'.forest.Sound →
      Changes K d.forest d'.forest → d'.forest.IsChild i k j →
      Keeps K (p.asNode j) d' fun _ _ => True) :
    Keeps K (Merge.intoSingular o i ps (d.forest.get i).kind.layout k slot) d fun _ _ => True := by
  unfold Merge.intoSingular
  split
  · exact .pure hs trivial
  · rename_i p hfind
    have hchild : Keeps K (do p.asNode (← Edit.child i k)) d fun _ _ => True :=
      .bind (child hs hi) fun j d' hs' hc hj => hnode p hfind d' j hs' hc hj.1
    split
    · refine .ite (fun _ => ?_) fun _ => reject hs _ _
      refine setScalar hs hi ((hs.slots i hi.1).putSingular hslot rfl ?_) (ne_key_of_singular hslot)
      exact fun _ h => nomatch h
    · exact hchild
    · exact hchild
    · exact reject hs _ _

/-- A part into the slot for children under keys. -/
theorem intoIndexed (hs : d.forest.Sound) (slot : IndexedSlot)
    (hkeyed : ∀ p, find? ps (wireName slot.name) = some p →
      Keeps K (p.asKeyed k i) d fun _ _ => True) :
    Keeps K (Merge.intoIndexed o i ps k slot) d fun _ _ => True := by
  unfold Merge.intoIndexed
  split
  · exact .pure hs trivial
  · rename_i p hfind
    split
    · exact hkeyed p hfind
    · exact reject hs _ _

/-- A part into the slot for a collection. -/
theorem intoCollection (hs : d.forest.Sound) (slot : CollectionSlot)
    (hlisted : ∀ p, find? ps (wireName slot.name) = some p →
      Keeps K (p.asListed k slot i) d fun _ _ => True) :
    Keeps K (Merge.intoCollection o i ps k slot) d fun _ _ => True := by
  unfold Merge.intoCollection
  split
  · exact .pure hs trivial
  · rename_i p hfind
    split
    · exact hlisted p hfind
    · exact hlisted p hfind
    · exact reject hs _ _

/-- Parts merged into a node, from what each does in its slot. -/
theorem mergeParts (hs : d.forest.Sound) (hi : d.forest.Has K i)
    (hplain : d.forest.IsComponentSchema i → ∀ p ∈ ps, p.key ≠ .str "schema")
    (hnode : ∀ k slot p, (k, slot) ∈ (d.forest.get i).kind.layout.singular →
      find? ps (wireName slot) = some p → ∀ d' j, d'.forest.Sound →
      Changes K d.forest d'.forest → d'.forest.IsChild i k j →
      Keeps K (p.asNode j) d' fun _ _ => True)
    (hkeyed : ∀ k slot p, (k, slot) ∈ (d.forest.get i).kind.layout.indexed →
      find? ps (wireName slot.name) = some p → ∀ d', d'.forest.Sound →
      Changes K d.forest d'.forest → Keeps K (p.asKeyed k i) d' fun _ _ => True)
    (hlisted : ∀ k slot p, (k, slot) ∈ (d.forest.get i).kind.layout.collections →
      find? ps (wireName slot.name) = some p → ∀ d', d'.forest.Sound →
      Changes K d.forest d'.forest → Keeps K (p.asListed k slot i) d' fun _ _ => True) :
    Keeps K (Merge.content o ps i) d fun _ _ => True := by
  refine .after_look (.node i) fun n hn => ?_
  subst hn
  extract_lets layout
  -- The slots are gone through by their layout, which is the same in every forest on the way.
  refine .bind (forM hs fun q hq d₁ hs₁ hc₁ => ?_) fun _ d₁ hs₁ hc₁ _ => ?_
  · obtain ⟨k, slot⟩ := q
    have hlayout : layout = (d₁.forest.get i).kind.layout := by rw [hc₁.kind_eq i hi.1]
    rw [hlayout]
    refine intoSingular hs₁ (hc₁.has hi) (hlayout ▸ hq) fun p hp d₂ j hs₂ hc₂ hj => ?_
    exact hnode k slot p hq hp d₂ j hs₂ (hc₁.trans hc₂) hj
  refine .bind (forM hs₁ fun q hq d₂ hs₂ hc₂ => ?_) fun _ d₂ hs₂ hc₂ _ => ?_
  · obtain ⟨k, slot⟩ := q
    exact intoIndexed hs₂ slot fun p hp => hkeyed k slot p hq hp d₂ hs₂ (hc₁.trans hc₂)
  refine .bind (forM hs₂ fun q hq d₃ hs₃ hc₃ => ?_) fun _ d₃ hs₃ hc₃ _ => ?_
  · obtain ⟨k, slot⟩ := q
    exact intoCollection hs₃ slot fun p hp =>
      hlisted k slot p hq hp d₃ hs₃ ((hc₁.trans hc₂).trans hc₃)
  refine forM hs₃ fun p hp d₄ hs₄ hc₄ => ?_
  have hc := ((hc₁.trans hc₂).trans hc₃).trans hc₄
  exact setPlain hs₄ (hc.has hi) p.value fun hschema =>
    hplain (hc.of_isComponentSchema hs hi.1 hschema) p (List.mem_filter.1 hp).1

end Edit.Keeps

end ApiDoc
