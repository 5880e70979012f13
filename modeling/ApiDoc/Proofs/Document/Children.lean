import ApiDoc.Proofs.Data.Entries
import ApiDoc.Proofs.Document.Keeps

namespace ApiDoc

/-!
# Children created

* `Forest.members` — what stands in a list of a node;
* `Node.createChild_eq`, `Node.putFields_spec` — a new child has the values given, and empty slots;
* `Looks.slotFor`, `Looks.membersOf` — slots and lists of a sound forest looked up;
* `Keeps.child`, `Keeps.renewChild` — the child of a singular slot, found or made, and replaced;
* `Keeps.appendItem` — a new member of a list, in which all others stay.
-/

open Forest

/-! ### New nodes -/

namespace Kind

theorem field_notMem_reserved (k : Kind) : ∀ name ∈ k.fields, name ∉ Edit.Keeps.reserved := by
  cases k <;> decide

theorem slot_notMem_reserved (k : Kind) : ∀ name ∈ k.slots, name ∉ Edit.Keeps.reserved := by
  cases k <;> decide

/-- Members of an indexed slot differ in a field. -/
theorem index_mem_fields (k : Kind) : ∀ p ∈ k.layout.indexed, p.2.key ∈ p.1.fields := by
  cases k <;> decide

/-- The schemas among components differ in their key. -/
theorem key_of_schemas : ∀ p ∈ components.layout.indexed, p.2.name = "schemas" →
    p.2.key = "schema" := by decide

/-- Component schemas have no slot for their key. -/
theorem key_notMem_slots : "schema" ∉ schema.slots := by decide

end Kind

/-- Entries that set fields of a kind of node. -/
def Entries.AreFields (k : Kind) (fields : Entries) : Prop :=
  ∀ e ∈ fields, ∃ name ∈ k.fields, e.1 = .str name

namespace Node

/-- The node with a value set for each of the entries whose key is a text. -/
def putFields (n : Node) (fields : Entries) : Node :=
  fields.foldl (fun n e => n.putValue (e.1.str?.getD "") e.2) n

/-- A name of a field can be set. -/
theorem assign?_field (n : Node) {name : String} (hname : name ∈ n.kind.fields) (v : Data) :
    n.assign? name v = .ok (n.putValue name v) := by
  have hreserved := n.kind.field_notMem_reserved _ hname
  simp only [Edit.Keeps.reserved, List.mem_cons, List.not_mem_nil, or_false, not_or] at hreserved
  have hmem : n.kind.attributes.contains name = true := by
    simpa [Kind.attributes] using Or.inl hname
  unfold assign?
  rw [if_neg (by simpa using hreserved.1), if_neg (by simpa using hreserved.2.1), if_pos hmem]

theorem create_eq {k : Kind} (parent : Data) {fields : Entries} (hfields : fields.AreFields k) :
    create k parent fields = .ok (putFields { kind := k, parent := parent } fields) := by
  -- Whatever fields have been set, the node is of its kind, and so has the next one.
  suffices hfold : ∀ n : Node, n.kind = k →
      fields.foldlM (fun n f => do n.assign? (← nameOf? f.1) f.2) n = .ok (n.putFields fields) from
    hfold _ rfl
  induction fields with
  | nil => exact fun _ _ => rfl
  | cons e fields ih =>
    intro n hn
    obtain ⟨name, hname, he⟩ := hfields e List.mem_cons_self
    have hstep : (do n.assign? (← nameOf? e.1) e.2) = .ok (n.putValue name e.2) := by
      rw [he]
      exact n.assign?_field (by rw [hn]; exact hname) e.2
    rw [List.foldlM_cons, hstep]
    show fields.foldlM _ (n.putValue name e.2)
      = Except.ok ((n.putValue (e.1.str?.getD "") e.2).putFields fields)
    rw [he]
    exact ih (fun e he => hfields e (List.mem_cons_of_mem _ he)) _ hn

/-- A new child has the fields given. -/
theorem createChild_eq {k : Kind} {p : NodeId} {fields : Entries} {n : Node}
    (hfields : fields.AreFields k) (h : createChild k p fields = .ok n) :
    n = putFields { kind := k, parent := .node p } fields := by
  unfold createChild at h
  extract_lets nested at h
  split at h
  · rw [create_eq _ hfields] at h
    exact (Except.ok.inj h).symm
  · exact nomatch h

/-- Fields set leave kind and parent, and the slots. -/
theorem putFields_spec {k : Kind} {fields : Entries} (hfields : fields.AreFields k) (n : Node) :
    (n.putFields fields).kind = n.kind ∧ (n.putFields fields).parent = n.parent ∧
      ∀ slot ∈ k.slots, (n.putFields fields).value slot = n.value slot := by
  induction fields generalizing n with
  | nil => exact ⟨rfl, rfl, fun _ _ => rfl⟩
  | cons e fields ih =>
    obtain ⟨name, hname, he⟩ := hfields e List.mem_cons_self
    obtain ⟨hkind, hparent, hslots⟩ := ih (fun e he => hfields e (List.mem_cons_of_mem _ he))
      (n.putValue (e.1.str?.getD "") e.2)
    refine ⟨hkind, hparent, fun slot hslot => (hslots slot hslot).trans ?_⟩
    refine n.value_putValue_of_ne ?_ _
    rw [he]
    rintro rfl
    exact k.field_notMem_slots _ hname hslot

theorem putFields_single (k : Kind) (parent : Data) (name : String) (v : Data) :
    (putFields { kind := k, parent := parent } [(.str name, v)]).value name = v := by
  cases hv : v.isUnset with
  | false => exact value_putValue_self _ name hv
  | true =>
    obtain rfl : v = .unset := Data.isUnset_iff.1 hv
    simp [putFields, putValue, put, value, Data.str?, Data.isUnset]

end Node

/-! ### Members -/

/-- What stands in a list of a node. -/
def Forest.members (f : Forest) (p : NodeId) (name : String) : List Data :=
  match (f.get p).value name with
  | .list items _ => items
  | _ => []

namespace Forest

variable {f : Forest} {p : NodeId} {name : String}

/-- What stands under the name of a field or a slot is its value. -/
theorem read_attribute (h : name ∈ (f.get p).kind.attributes) :
    f.read p name = .ok ((f.get p).value name) := by
  unfold read
  extract_lets n
  rw [if_pos (List.contains_iff_mem.2 h)]

theorem members_of_list {items : List Data} {mark : Nat}
    (h : (f.get p).value name = .list items mark) : f.members p name = items := by
  rw [members, h]

/-- The key under which a component schema stands. -/
theorem Changes.keyOf_eq {K : Kind → Prop} {g : Forest} (h : Changes K f g) {j : NodeId}
    (hj : j < f.size) (hs : f.IsComponentSchema j) : g.keyOf (.node j) = f.keyOf (.node j) := by
  show ((g.get j).value "schema").str? = ((f.get j).value "schema").str?
  rw [h.key_eq j hj hs]

/-- The members of a list are children of the node. -/
theorem Sound.isChild_of_mem (h : f.Sound) (hp : p < f.size) {k : Kind}
    (hname : (k, name) ∈ (f.get p).kind.layout.lists) {x : Data} (hx : x ∈ f.members p name) :
    ∃ j, x = .node j ∧ f.IsChild p k j := by
  rcases (h.slots p hp).lists k name hname with hunset | ⟨items, mark, hitems, hall⟩
  · rw [members, hunset] at hx
    exact absurd hx List.not_mem_nil
  · rw [members_of_list hitems] at hx
    exact hall x hx

/-- Schemas in the list of components are component schemas. -/
theorem Sound.isComponentSchema_of_mem (h : f.Sound) (hp : p < f.size)
    (hkind : (f.get p).kind = .components) {x : Data} (hx : x ∈ f.members p "schemas") :
    ∃ j, x = .node j ∧ f.IsChild p .schema j ∧ f.IsComponentSchema j := by
  obtain ⟨j, rfl, hj⟩ := h.isChild_of_mem hp (Kind.schemas_mem_lists hkind) hx
  exact ⟨j, rfl, hj, hj.2.1, p, hp, hj.2.2, hkind⟩

/-- No two component schemas stand under one name. -/
theorem Sound.keysApart (h : f.Sound) (hp : p < f.size) (hkind : (f.get p).kind = .components) :
    f.KeysApart (f.members p "schemas") := by
  unfold members
  split
  · exact (h.slots p hp).keys hkind _ _ ‹_›
  · exact List.Pairwise.nil

end Forest

/-! ### Slots -/

namespace Edit.Looks

variable {d : Draft} {p : NodeId} {k : Kind}

theorem slotFor {α : Type} (role : SlotRole) (table : Layout → List (Kind × α)) :
    Looks (slotFor role table p k) d fun slot =>
      (k, slot) ∈ table (d.forest.get p).kind.layout := by
  refine .bind (.node p) fun n hn => ?_
  subst hn
  extract_lets holder
  split
  · rename_i slot hlookup
    exact (Looks.pure slot).mono fun s hs => hs ▸ mem_of_lookup hlookup
  · exact .bind (.location p) fun _ _ => .throw _

/-- A slot of a node can be read. -/
theorem readSlot {name : String} (hname : name ∈ (d.forest.get p).kind.slots) :
    Looks (Edit.read p name) d fun v => v = (d.forest.get p).value name := by
  refine (Looks.read p name).mono fun v hv => ?_
  rw [Forest.read_attribute (List.mem_append_right _ hname)] at hv
  exact (Except.ok.inj hv).symm

/-- The members of a list are read from it. -/
theorem membersOf (hs : d.forest.Sound) (hp : p < d.forest.size) {name : String}
    (hname : (k, name) ∈ (d.forest.get p).kind.layout.lists) :
    Looks (membersOf p name) d fun items => items = d.forest.members p name := by
  refine .bind (readSlot (Kind.lists_mem_slots _ _ hname)) fun v hv => ?_
  refine (Looks.ofExcept _).mono fun items hitems => ?_
  rw [itemsOf, hv] at hitems
  rw [Forest.members]
  rcases (hs.slots p hp).lists k name hname with hunset | ⟨items', mark, hlist, -⟩
  · rw [hunset] at hitems ⊢
    cases hitems
    rfl
  · rw [hlist] at hitems ⊢
    cases items' with
    | nil => cases hitems; rfl
    | cons x xs => cases hitems; rfl

end Edit.Looks

namespace Edit.Keeps

variable {K : Kind → Prop} {d : Draft} {p : NodeId} {k : Kind}

/-! ### Adding children -/

/-- A child attached nowhere. -/
theorem addDetached (hs : d.forest.Sound) (hp : p < d.forest.size) {fields : Entries}
    (hfields : fields.AreFields k) :
    Keeps K (addDetached p k fields) d fun j f => j = d.forest.size ∧
      f = (d.forest.add (Node.putFields { kind := k, parent := .node p } fields)).2 := by
  refine .after_look (.ofExcept _) fun n hn => ?_
  obtain rfl := Node.createChild_eq hfields hn
  obtain ⟨hkind, hparent, hslots⟩ := Node.putFields_spec hfields { kind := k, parent := .node p }
  intro j d' h
  cases h
  obtain ⟨hs', hc⟩ := hs.add (K := K)
    (n := Node.putFields { kind := k, parent := .node p } fields) (by rw [hkind]; exact hslots)
    (by rw [hparent]; rintro _ ⟨⟩; exact hp)
  exact ⟨hs', hc, rfl, rfl⟩

/-- The child that is added is one of its parent. -/
theorem isChild_add (f : Forest) {fields : Entries} (hfields : fields.AreFields k) :
    (f.add (Node.putFields { kind := k, parent := .node p } fields)).2.IsChild p k f.size := by
  obtain ⟨hkind, hparent, -⟩ := Node.putFields_spec hfields { kind := k, parent := .node p }
  refine ⟨by simp, ?_, ?_⟩
  · rw [f.get_add_self]; exact hkind
  · rw [f.get_add_self]; exact hparent

/-- No child stands under the key of component schemas. -/
theorem ne_key_of_singular {slot : String}
    (hslot : (k, slot) ∈ (d.forest.get p).kind.layout.singular) :
    d.forest.IsComponentSchema p → slot ≠ "schema" := by
  rintro ⟨hschema, -⟩ rfl
  rw [hschema] at hslot
  exact Kind.key_notMem_slots (Kind.singular_mem_slots _ _ hslot)

/-- The child of a singular slot. One that is there is answered as it is. -/
theorem child (hs : d.forest.Sound) (hp : d.forest.Has K p) :
    Keeps K (child p k) d fun j f => f.IsChild p k j ∧
      ∃ slot, (k, slot) ∈ (d.forest.get p).kind.layout.singular ∧
        (f.get p).value slot = .node j ∧
        ∀ i, (d.forest.get p).value slot = .node i → f = d.forest := by
  refine .after_look (.slotFor .singular (·.singular)) fun slot hslot => ?_
  refine .after_look (.node p) fun n hn => ?_
  subst hn
  split
  · -- What a singular slot holds is a child of its kind already.
    rename_i i hi
    exact .pure hs ⟨(hs.slots p hp.1).singular k slot hslot i hi, slot, hslot, hi, fun _ _ => rfl⟩
  · rename_i hnone
    have hfields : Entries.AreFields k [] := fun _ h => absurd h List.not_mem_nil
    refine .bind (addDetached hs hp.1 hfields) fun j d₁ hs₁ hc₁ h₁ => ?_
    obtain ⟨rfl, hd₁⟩ := h₁
    have hchild : d₁.forest.IsChild p k d.forest.size := hd₁ ▸ isChild_add d.forest hfields
    have hp₁ := hc₁.has hp
    have hslot₁ : (k, slot) ∈ (d₁.forest.get p).kind.layout.singular := by
      rw [hc₁.kind_eq p hp.1]; exact hslot
    refine .bind (assign hs₁ hp₁ ((hs₁.slots p hp₁.1).putSingular hslot₁ rfl ?_)
      (ne_key_of_singular hslot₁)) fun _ d₂ hs₂ hc₂ hd₂ => ?_
    · rintro j hj
      cases hj
      exact hchild
    · refine .pure hs₂ ⟨hc₂.isChild hchild, slot, hslot, ?_, fun i hi => absurd hi (hnone i)⟩
      rw [hd₂, d₁.forest.get_put_self hp₁.1, Node.value_putValue_self _ _ rfl]

/-- No list of children stands under the key of component schemas. -/
theorem ne_key_of_lists {name : String} (hname : (k, name) ∈ (d.forest.get p).kind.layout.lists) :
    d.forest.IsComponentSchema p → name ≠ "schema" := by
  rintro ⟨hschema, -⟩ rfl
  rw [hschema] at hname
  exact Kind.key_notMem_slots (Kind.lists_mem_slots _ _ hname)

/-- What is no list is replaced by an empty one. -/
theorem ensureList (hs : d.forest.Sound) (hp : d.forest.Has K p) {name : String}
    (hname : (k, name) ∈ (d.forest.get p).kind.layout.lists) :
    Keeps K (ensureList p name) d fun l f => (f.get p).value name = .list l.1 l.2 ∧
      l.1 = d.forest.members p name ∧ f.size = d.forest.size := by
  refine .after_look (.readSlot (Kind.lists_mem_slots _ _ hname)) fun v hv => ?_
  subst hv
  split
  · rename_i items mark hitems
    exact .pure hs ⟨hitems, (members_of_list hitems).symm, rfl⟩
  · rename_i hnone
    have hslots := (hs.slots p hp.1).putList hname [] 0
      (fun _ h => absurd h List.not_mem_nil) fun _ _ => List.Pairwise.nil
    refine .bind (assign? hs hp (Kind.slot_notMem_reserved _ _ (Kind.lists_mem_slots _ _ hname))
      (fun _ => hslots) (ne_key_of_lists hname)) fun _ d₁ hs₁ _ hd₁ => ?_
    refine .pure hs₁ ⟨?_, ?_, ?_⟩
    · rw [hd₁, d.forest.get_put_self hp.1, Node.value_putValue_self _ _ rfl]
    · unfold Forest.members
      split
      · exact absurd ‹_› (hnone _ _)
      · rfl
    · rw [hd₁, size_put]

/-- A new member at the end of a list. A component schema needs a name of its own. -/
theorem appendItem (hs : d.forest.Sound) (hp : d.forest.Has K p) {name : String}
    (hname : (k, name) ∈ (d.forest.get p).kind.layout.lists) {fields : Entries}
    (hfields : fields.AreFields k)
    (hfresh : (d.forest.get p).kind = .components → name = "schemas" →
      ∀ x ∈ d.forest.members p name, ∀ key, d.forest.keyOf x = some key →
        ((Node.putFields { kind := k, parent := .node p } fields).value "schema").str? ≠ some key) :
    Keeps K (appendItem p name k fields) d fun r f => f.IsChild p k r.1 ∧
      f.members p name = d.forest.members p name ++ [.node r.1] ∧
      f.get r.1 = Node.putFields { kind := k, parent := .node p } fields := by
  refine .bind (ensureList hs hp hname) fun l d₁ hs₁ hc₁ h₁ => ?_
  obtain ⟨items, mark⟩ := l
  obtain ⟨hlist, hitems, -⟩ := h₁
  dsimp only at hlist hitems
  refine .bind (addDetached hs₁ (hc₁.has hp).1 hfields) fun j d₂ hs₂ hc₂ h₂ => ?_
  obtain ⟨rfl, hd₂⟩ := h₂
  have hp₁ := hc₁.has hp
  have hp₂ := hc₂.has hp₁
  have hnode : d₂.forest.get p = d₁.forest.get p := by rw [hd₂, get_add_of_lt _ hp₁.1]
  have hlist₂ : (d₂.forest.get p).value name = .list items mark := by rw [hnode]; exact hlist
  have hname₂ : (k, name) ∈ (d₂.forest.get p).kind.layout.lists := by
    rw [hnode, hc₁.kind_eq p hp.1]; exact hname
  have hchild : d₂.forest.IsChild p k d₁.forest.size := hd₂ ▸ isChild_add d₁.forest hfields
  have hnew : d₂.forest.get d₁.forest.size
      = Node.putFields { kind := k, parent := .node p } fields := by rw [hd₂, get_add_self]
  have hall : ∀ x ∈ items, ∃ j, x = .node j ∧ d₂.forest.IsChild p k j := by
    intro x hx
    refine hs₂.isChild_of_mem hp₂.1 hname₂ ?_
    rwa [members_of_list hlist₂]
  -- Among components the new schema has a name that none of the others has.
  have happart : (d₂.forest.get p).kind = .components → name = "schemas" →
      d₂.forest.KeysApart (items ++ [.node d₁.forest.size]) := by
    rintro hkind rfl
    have hkind₀ : (d.forest.get p).kind = .components := by
      rw [← hkind, hnode, hc₁.kind_eq p hp.1]
    refine List.pairwise_append.2 ⟨?_, List.pairwise_singleton _ _, ?_⟩
    · have := hs₂.keysApart hp₂.1 hkind
      rwa [members_of_list hlist₂] at this
    · intro x hx y hy key hkey
      rw [List.mem_singleton.1 hy]
      rw [hitems] at hx
      obtain ⟨i, rfl, hi, hschema⟩ := hs.isComponentSchema_of_mem hp.1 hkind₀ hx
      rw [(hc₁.trans hc₂).keyOf_eq hi.1 hschema] at hkey
      show ((d₂.forest.get d₁.forest.size).value "schema").str? ≠ some key
      rw [hnew]
      exact hfresh hkind₀ rfl _ hx key hkey
  have hslots := (hs₂.slots p hp₂.1).putList hname₂ (items ++ [.node d₁.forest.size]) mark
    (by
      intro x hx
      rcases List.mem_append.1 hx with hx | hx
      · exact hall x hx
      · exact ⟨_, List.mem_singleton.1 hx, hchild⟩)
    happart
  refine .bind (assign? hs₂ hp₂ (Kind.slot_notMem_reserved _ _ (Kind.lists_mem_slots _ _ hname₂))
    (fun _ => hslots) (ne_key_of_lists hname₂)) fun _ d₃ hs₃ hc₃ hd₃ => ?_
  refine .pure hs₃ ⟨hc₃.isChild hchild, ?_, ?_⟩
  · have hself : (d₃.forest.get p).value name = .list (items ++ [.node d₁.forest.size]) mark := by
      rw [hd₃, get_put_self _ hp₂.1, Node.value_putValue_self _ _ rfl]
    rw [members_of_list hself, hitems]
  · rw [hd₃, get_put_of_ne _ (Nat.ne_of_gt hp₁.1), hnew]

/-- A new child in a singular slot, in place of what is there. -/
theorem renewChild (hs : d.forest.Sound) (hp : d.forest.Has K p) {slot : String}
    (hslot : (k, slot) ∈ (d.forest.get p).kind.layout.singular) :
    Keeps K (do let c ← Edit.addDetached p k []; Edit.assign? p slot (.node c); return c) d
      fun j f => f.IsChild p k j := by
  have hfields : Entries.AreFields k [] := fun _ h => absurd h List.not_mem_nil
  refine .bind (addDetached hs hp.1 hfields) fun j d₁ hs₁ hc₁ h₁ => ?_
  obtain ⟨rfl, hd₁⟩ := h₁
  have hchild : d₁.forest.IsChild p k d.forest.size := hd₁ ▸ isChild_add d.forest hfields
  have hp₁ := hc₁.has hp
  have hslot₁ : (k, slot) ∈ (d₁.forest.get p).kind.layout.singular := by
    rw [hc₁.kind_eq p hp.1]; exact hslot
  refine .bind (assign? hs₁ hp₁
    (Kind.slot_notMem_reserved _ _ (Kind.singular_mem_slots _ _ hslot₁)) (fun _ => ?_)
    (ne_key_of_singular hslot₁)) fun _ d₂ hs₂ hc₂ _ => .pure hs₂ (hc₂.isChild hchild)
  refine (hs₁.slots p hp₁.1).putSingular hslot₁ rfl ?_
  rintro j hj
  cases hj
  exact hchild

end Edit.Keeps

end ApiDoc
