import ApiDoc.Proofs.Document.Merge

namespace ApiDoc

/-!
# Sources merged anywhere below the components

A source can hold anything. Merged into a node that is neither the document, nor its components,
nor one of the component schemas, it does not reach any of these:

* `Forest.Ordinary`, `Forest.HoldsOrdinary` — such nodes, and nodes whose children are such nodes;
* `Part.Safe` — parts that keep documents sound wherever they are merged into ordinary nodes;
* `safe_parts` — all parts of all sources are safe, by recursion on the source;
* `Keeps.mergeSafe` — safe parts merged into a node that is not the document and not its
  components. A component schema must not find its key among them.
-/

open Forest

/-! ### Ordinary nodes -/

/-- The kinds of children that a layout has slots for. -/
def Layout.kinds (l : Layout) : List Kind := l.singular.map (·.1) ++ l.lists.map (·.1)

/-- Kinds that contain the kinds of all children. -/
def Kind.Closed (K : Kind → Prop) : Prop := ∀ k, K k → ∀ c ∈ k.layout.kinds, K c

namespace Layout

/-- The kind of a single child is one of the kinds of children. -/
theorem mem_kinds_of_singular {l : Layout} {k : Kind} {slot : String}
    (h : (k, slot) ∈ l.singular) : k ∈ l.kinds :=
  List.mem_append_left _ (List.mem_map.2 ⟨_, h, rfl⟩)

/-- So is the kind of children in a list. -/
theorem mem_kinds_of_lists {l : Layout} {k : Kind} {name : String} (h : (k, name) ∈ l.lists) :
    k ∈ l.kinds :=
  List.mem_append_right _ (List.mem_map.2 ⟨_, h, rfl⟩)

/-- So is the kind of children under keys. -/
theorem mem_kinds_of_indexed {l : Layout} {k : Kind} {slot : IndexedSlot}
    (h : (k, slot) ∈ l.indexed) : k ∈ l.kinds :=
  mem_kinds_of_lists (mem_lists_of_indexed h)

/-- So is the kind of members of a collection. -/
theorem mem_kinds_of_collections {l : Layout} {k : Kind} {slot : CollectionSlot}
    (h : (k, slot) ∈ l.collections) : k ∈ l.kinds :=
  mem_kinds_of_lists (mem_lists_of_collections h)

end Layout

namespace Kind

/-- No node has a document for a child. -/
theorem openApi_notMem_kinds (k : Kind) : openApi ∉ k.layout.kinds := by cases k <;> decide

/-- Only a document has components. -/
theorem components_notMem_kinds {k : Kind} (h : k ≠ openApi) : components ∉ k.layout.kinds := by
  cases k <;> first | exact absurd rfl h | decide

end Kind

namespace Forest

variable {K : Kind → Prop} {f g : Forest} {i j : NodeId} {k : Kind}

/-- A node that is neither the document, nor its components, nor a component schema. -/
def Ordinary (K : Kind → Prop) (f : Forest) (i : NodeId) : Prop :=
  f.Has K i ∧ (f.get i).kind ≠ .openApi ∧ (f.get i).kind ≠ .components ∧ ¬f.IsComponentSchema i

/-- A node whose children of a kind are ordinary. -/
def HoldsOrdinary (K : Kind → Prop) (f : Forest) (i : NodeId) (k : Kind) : Prop :=
  f.Has K i ∧ K k ∧ k ≠ .openApi ∧ k ≠ .components ∧ (k = .schema → (f.get i).kind ≠ .components)

/-- A node that holds ordinary children does so after changes. -/
theorem HoldsOrdinary.changes (h : f.HoldsOrdinary K i k) (hfg : Changes K f g) :
    g.HoldsOrdinary K i k :=
  ⟨hfg.has h.1, h.2.1, h.2.2.1, h.2.2.2.1, fun hk => by
    rw [hfg.kind_eq i h.1.1]; exact h.2.2.2.2 hk⟩

/-- The children that such a node holds are ordinary. -/
theorem HoldsOrdinary.ordinary (h : f.HoldsOrdinary K i k) (hj : f.IsChild i k j) :
    f.Ordinary K j := by
  obtain ⟨-, hk, hdocument, hcomponents, hschema⟩ := h
  refine ⟨hj.has hk, ?_, ?_, ?_⟩
  · rw [hj.2.1]; exact hdocument
  · rw [hj.2.1]; exact hcomponents
  · rintro ⟨hkind, c, -, hparent, hc⟩
    cases hj.2.2.symm.trans hparent
    exact hschema (hj.2.1.symm.trans hkind) hc

/-- Below a node that is not the document and not its components all nodes are ordinary. -/
theorem holdsOrdinary (hK : Kind.Closed K) (hi : f.Has K i) (hdocument : (f.get i).kind ≠ .openApi)
    (hcomponents : (f.get i).kind ≠ .components) (hk : k ∈ (f.get i).kind.layout.kinds) :
    f.HoldsOrdinary K i k := by
  refine ⟨hi, hK _ hi.2 k hk, ?_, ?_, fun _ => hcomponents⟩
  · rintro rfl; exact Kind.openApi_notMem_kinds _ hk
  · rintro rfl; exact Kind.components_notMem_kinds hdocument hk

end Forest

/-! ### Safe parts -/

namespace Merge

/-- The part of an entry. -/
def Part.of (o : MergeOptions) (read : Reader) (e : Data × Data) : Part where
  key := e.1
  value := e.2
  asNode := asContent o read e.2
  asKeyed := asMembers o read e.2
  asListed := asItems o read e.2

/-- The parts of a source are made entry by entry. -/
theorem parts_eq_map (o : MergeOptions) (read : Reader) (es : List (Data × Data)) :
    parts o read es = es.map (Part.of o read) := by
  induction es with
  | nil => rfl
  | cons e rest ih =>
    unfold parts
    rw [ih]
    rfl

/-- Entries are left out by their keys before a source is read as well as after. -/
theorem parts_filter (o : MergeOptions) (read : Reader) (es : List (Data × Data))
    (p : Data → Bool) :
    (parts o read es).filter (fun q => p q.key) = parts o read (es.filter fun e => p e.1) := by
  rw [parts_eq_map, parts_eq_map, List.filter_map]
  rfl

/-- A part that keeps documents sound wherever it is merged into ordinary nodes. -/
structure Part.Safe (K : Kind → Prop) (p : Part) : Prop where
  asNode : ∀ d i, d.forest.Sound → d.forest.Ordinary K i →
    Edit.Keeps K (p.asNode i) d fun _ _ => True
  asKeyed : ∀ d i k, d.forest.Sound → d.forest.HoldsOrdinary K i k →
    Edit.Keeps K (p.asKeyed k i) d fun _ _ => True
  asListed : ∀ d i k slot, d.forest.Sound → d.forest.HoldsOrdinary K i k →
    Edit.Keeps K (p.asListed k slot i) d fun _ _ => True

end Merge

namespace Edit.Keeps

open Merge

variable {K : Kind → Prop} {d : Draft} {i : NodeId} {k : Kind} {o : MergeOptions} {ps : List Part}

/-- Safe parts merged into a node that is not the document and not its components. -/
theorem mergeSafe (hK : Kind.Closed K) (hs : d.forest.Sound) (hi : d.forest.Has K i)
    (hdocument : (d.forest.get i).kind ≠ .openApi)
    (hcomponents : (d.forest.get i).kind ≠ .components)
    (hplain : d.forest.IsComponentSchema i → ∀ p ∈ ps, p.key ≠ .str "schema")
    (hsafe : ∀ p ∈ ps, p.Safe K) : Keeps K (Merge.content o ps i) d fun _ _ => True := by
  have hmem : ∀ {key p}, find? ps key = some p → p.Safe K := fun h =>
    hsafe _ (List.mem_of_find?_eq_some h)
  have hholds : ∀ {k}, k ∈ (d.forest.get i).kind.layout.kinds → d.forest.HoldsOrdinary K i k :=
    holdsOrdinary hK hi hdocument hcomponents
  refine mergeParts hs hi hplain ?_ ?_ ?_
  · intro k slot p hslot hp d' j hs' hc hj
    refine (hmem hp).asNode d' j hs' (HoldsOrdinary.ordinary ?_ hj)
    exact (hholds (Layout.mem_kinds_of_singular hslot)).changes hc
  · intro k slot p hslot hp d' hs' hc
    exact (hmem hp).asKeyed d' i k hs' ((hholds (Layout.mem_kinds_of_indexed hslot)).changes hc)
  · intro k slot p hslot hp d' hs' hc
    exact (hmem hp).asListed d' i k slot hs'
      ((hholds (Layout.mem_kinds_of_collections hslot)).changes hc)

/-- Safe parts merged into an ordinary node keep the forest sound. -/
theorem mergeOrdinary (hK : Kind.Closed K) (hs : d.forest.Sound) (hi : d.forest.Ordinary K i)
    (hsafe : ∀ p ∈ ps, p.Safe K) : Keeps K (Merge.content o ps i) d fun _ _ => True :=
  mergeSafe hK hs hi.1 hi.2.1 hi.2.2.1 (fun h => absurd h hi.2.2.2) hsafe

/-- Parts merged as members under their keys. -/
theorem keyed (hs : d.forest.Sound) (hi : d.forest.Has K i)
    (hnode : ∀ p ∈ ps, ∀ d' j, d'.forest.Sound → Changes K d.forest d'.forest →
      d'.forest.IsChild i k j → Keeps K (p.asNode j) d' fun _ _ => True) :
    Keeps K (Merge.keyed k ps i) d fun _ _ => True := by
  refine forM hs fun p hp d₁ hs₁ hc₁ => ?_
  refine .bind (indexedItem hs₁ (hc₁.has hi) p.key) fun j d₂ hs₂ hc₂ hj => ?_
  exact hnode p hp d₂ j hs₂ (hc₁.trans hc₂) hj.1

/-- Parts merged as one member of a collection. -/
theorem listed (hK : Kind.Closed K) (hs : d.forest.Sound) (hi : d.forest.HoldsOrdinary K i k)
    (slot : CollectionSlot) (hsafe : ∀ p ∈ ps, p.Safe K) :
    Keeps K (Merge.listed o k slot ps i) d fun _ _ => True := by
  unfold Merge.listed
  extract_lets identity rest
  have hfields : Entries.AreFields k identity := by
    intro e he
    obtain ⟨p, -, hp⟩ := List.mem_filterMap.1 he
    obtain ⟨name, hname, rfl⟩ := Option.map_eq_some_iff.1 hp
    refine ⟨name, ?_, rfl⟩
    unfold identifies? at hname
    split at hname
    · exact (Kind.mem_fields_of_wire (Option.filter_eq_some_iff.1 hname).1).1
    · exact nomatch hname
  refine .bind (collectionItem hs hi.1 hfields) fun j d' hs' hc hj => ?_
  exact mergeOrdinary hK hs' ((hi.changes hc).ordinary hj) fun p hp =>
    hsafe p (List.mem_filter.1 hp).1

end Edit.Keeps

/-! ### All sources -/

namespace Merge

variable {K : Kind → Prop} {o : MergeOptions} {read : Reader}

/-- A reader all of whose parts are safe. -/
def Reader.Safe (K : Kind → Prop) (read : Reader) : Prop :=
  ∀ es ps, read es = .ok ps → ∀ p ∈ ps, p.Safe K

/-- A safe reader makes safe parts of any node. -/
theorem Reader.Safe.partsOf (h : read.Safe K) {d : Draft} (source : NodeId) :
    Edit.Looks (partsOf read source) d fun ps => ∀ p ∈ ps, p.Safe K :=
  .bind (.content source) fun es _ => (Edit.Looks.ofExcept _).mono fun ps hps => h es ps hps

mutual

/-- A value as the content of an ordinary node, by recursion on the value. -/
theorem safe_asContent (hK : Kind.Closed K) (hread : read.Safe K) (v : Data) (d : Draft)
    (i : NodeId) (hs : d.forest.Sound) (hi : d.forest.Ordinary K i) :
    Edit.Keeps K (asContent o read v i) d fun _ _ => True := by
  match v with
  | .map es _ =>
    unfold asContent
    exact .mergeOrdinary hK hs hi (safe_parts hK hread es)
  | .node source =>
    unfold asContent
    exact .after_look (hread.partsOf source) fun ps hps => .mergeOrdinary hK hs hi hps
  | .scalar _ => exact .throw _
  | .list _ _ => exact .throw _
  | .tuple _ _ => exact .throw _
  | .set _ _ => exact .throw _
  | .unset => exact .throw _
  | .modelRef _ _ => exact .throw _
  | .bare _ => exact .throw _

/-- A value as children under keys. -/
theorem safe_asMembers (hK : Kind.Closed K) (hread : read.Safe K) (v : Data) (d : Draft)
    (i : NodeId) (k : Kind) (hs : d.forest.Sound) (hi : d.forest.HoldsOrdinary K i k) :
    Edit.Keeps K (asMembers o read v k i) d fun _ _ => True := by
  match v with
  | .map es _ =>
    unfold asMembers
    refine .keyed hs hi.1 fun p hp d' j hs' hc hj => ?_
    exact (safe_parts hK hread es p hp).asNode d' j hs' ((hi.changes hc).ordinary hj)
  | .scalar _ => exact .pure hs trivial
  | .list _ _ => exact .pure hs trivial
  | .tuple _ _ => exact .pure hs trivial
  | .set _ _ => exact .pure hs trivial
  | .unset => exact .pure hs trivial
  | .node _ => exact .pure hs trivial
  | .modelRef _ _ => exact .pure hs trivial
  | .bare _ => exact .pure hs trivial

/-- A value as the items of a collection. -/
theorem safe_asItems (hK : Kind.Closed K) (hread : read.Safe K) (v : Data) (d : Draft)
    (i : NodeId) (k : Kind) (slot : CollectionSlot) (hs : d.forest.Sound)
    (hi : d.forest.HoldsOrdinary K i k) :
    Edit.Keeps K (asItems o read v k slot i) d fun _ _ => True := by
  match v with
  | .list xs _ =>
    unfold asItems
    exact safe_items hK hread xs d i k slot hs hi
  | .tuple xs _ =>
    unfold asItems
    exact safe_items hK hread xs d i k slot hs hi
  | .map _ _ => exact .pure hs trivial
  | .scalar _ => exact .pure hs trivial
  | .set _ _ => exact .pure hs trivial
  | .unset => exact .pure hs trivial
  | .node _ => exact .pure hs trivial
  | .modelRef _ _ => exact .pure hs trivial
  | .bare _ => exact .pure hs trivial

/-- The items of a list, one by one. -/
theorem safe_items (hK : Kind.Closed K) (hread : read.Safe K) (xs : List Data) (d : Draft)
    (i : NodeId) (k : Kind) (slot : CollectionSlot) (hs : d.forest.Sound)
    (hi : d.forest.HoldsOrdinary K i k) :
    Edit.Keeps K (items o read xs k slot i) d fun _ _ => True := by
  match xs with
  | [] => exact .pure hs trivial
  | .map es _ :: rest =>
    unfold items
    refine .bind (.listed hK hs hi slot (safe_parts hK hread es)) fun _ d' hs' hc _ => ?_
    exact safe_items hK hread rest d' i k slot hs' (hi.changes hc)
  | .node source :: rest =>
    unfold items
    refine .after_look (hread.partsOf source) fun ps hps => ?_
    refine .bind (.listed hK hs hi slot hps) fun _ d' hs' hc _ => ?_
    exact safe_items hK hread rest d' i k slot hs' (hi.changes hc)
  | .scalar _ :: _ => exact .throw _
  | .list _ _ :: _ => exact .throw _
  | .tuple _ _ :: _ => exact .throw _
  | .set _ _ :: _ => exact .throw _
  | .unset :: _ => exact .throw _
  | .modelRef _ _ :: _ => exact .throw _
  | .bare _ :: _ => exact .throw _

/-- All parts of a source are safe. -/
theorem safe_parts (hK : Kind.Closed K) (hread : read.Safe K) (es : List (Data × Data)) :
    ∀ p ∈ parts o read es, p.Safe K := by
  match es with
  | [] => exact fun _ h => absurd h List.not_mem_nil
  | (key, v) :: rest =>
    unfold parts
    refine List.forall_mem_cons.2 ⟨⟨?_, ?_, ?_⟩, safe_parts hK hread rest⟩
    · exact fun d i hs hi => safe_asContent hK hread v d i hs hi
    · exact fun d i k hs hi => safe_asMembers hK hread v d i k hs hi
    · exact fun d i k slot hs hi => safe_asItems hK hread v d i k slot hs hi

end

/-- All parts of a source whose nodes are read to some levels are safe. -/
theorem safe_readParts (hK : Kind.Closed K) (o : MergeOptions) (fuel : Nat) :
    Reader.Safe K (readParts o fuel) := by
  induction fuel with
  | zero => exact fun _ _ h => nomatch h
  | succ fuel ih =>
    -- Nodes in the source are read one level less deep.
    intro es ps h
    cases h
    exact safe_parts hK ih es

end Merge

end ApiDoc
