import ApiDoc.Document.Forest

namespace ApiDoc

/-!
# The shape of documents

Children stand in the slots for their kind, and know the node that holds them.

* `Forest.get_put_self`, `Forest.get_put_of_ne`, `Forest.get_add_of_lt`, … — nodes replaced and
  added;
* `Forest.IsChild`, `Forest.IsComponentSchema` — a child of a node, a schema among the components;
* `Forest.SlotsOk`, `Forest.Sound` — slots that hold what they are for, and no two component
  schemas under one name;
* `Forest.Changes` — a forest in which some kinds of nodes are edited, and nodes added;
* `Sound.replace`, `Sound.add` — a node replaced and a node added, from which all edits are made.
-/

/-! ### Values of nodes -/

namespace Node

/-- Setting the value under a name leaves the values under all others. -/
theorem value_putValue_of_ne (n : Node) {name other : String} (h : other ≠ name) (v : Data) :
    (n.putValue name v).value other = n.value other := by
  suffices hput : ∀ values, (put name v values).lookup other = values.lookup other by
    show ((put name v n.values).lookup other).getD .unset = _
    rw [hput]
    rfl
  intro values
  induction values with
  | nil =>
    unfold put
    split
    · rfl
    · simp [List.lookup_cons, beq_false_of_ne h]
  | cons p rest ih =>
    obtain ⟨m, w⟩ := p
    unfold put
    split
    · rename_i hm
      rw [beq_iff_eq] at hm
      subst hm
      split
      · simp [List.lookup_cons, beq_false_of_ne h]
      · simp [List.lookup_cons, beq_false_of_ne h]
    · rw [List.lookup_cons, List.lookup_cons, ih]

/-- A value that is set stands under its name. -/
theorem value_putValue_self (n : Node) (name : String) {v : Data} (hv : v.isUnset = false) :
    (n.putValue name v).value name = v := by
  suffices hput : ∀ values, (put name v values).lookup name = some v by
    show ((put name v n.values).lookup name).getD .unset = _
    rw [hput]
    rfl
  intro values
  induction values with
  | nil => simp [put, hv]
  | cons p rest ih =>
    obtain ⟨m, w⟩ := p
    unfold put
    split
    · simp [hv]
    · rename_i hm
      have hne : name ≠ m := fun he => hm (by simp [he])
      rw [List.lookup_cons, beq_false_of_ne hne, ih]

end Node

/-! ### Layouts -/

/-- The slots that hold lists of children, each with the kind of its children. -/
def Layout.lists (l : Layout) : List (Kind × String) :=
  l.collections.map (fun p => (p.1, p.2.name)) ++ l.indexed.map fun p => (p.1, p.2.name)

namespace Layout

variable {l : Layout} {k : Kind}

/-- A slot for children under keys holds a list. -/
theorem mem_lists_of_indexed {slot : IndexedSlot} (h : (k, slot) ∈ l.indexed) :
    (k, slot.name) ∈ l.lists :=
  List.mem_append_right _ (List.mem_map.2 ⟨_, h, rfl⟩)

/-- A slot for a collection holds a list. -/
theorem mem_lists_of_collections {slot : CollectionSlot} (h : (k, slot) ∈ l.collections) :
    (k, slot.name) ∈ l.lists :=
  List.mem_append_left _ (List.mem_map.2 ⟨_, h, rfl⟩)

end Layout

namespace Kind

/-- A field is no slot. -/
theorem field_notMem_slots (k : Kind) : ∀ name ∈ k.fields, name ∉ k.slots := by
  cases k <;> decide

/-- A slot for one child is a slot. -/
theorem singular_mem_slots (k : Kind) : ∀ p ∈ k.layout.singular, p.2 ∈ k.slots := by
  cases k <;> decide

/-- A slot for a list is a slot. -/
theorem lists_mem_slots (k : Kind) : ∀ p ∈ k.layout.lists, p.2 ∈ k.slots := by
  cases k <;> decide

/-- No slot has two kinds of children. -/
theorem singular_unique (k : Kind) :
    ∀ p ∈ k.layout.singular, ∀ q ∈ k.layout.singular, p.2 = q.2 → p.1 = q.1 := by
  cases k <;> decide

/-- A slot for a list is for children of one kind. -/
theorem lists_unique (k : Kind) :
    ∀ p ∈ k.layout.lists, ∀ q ∈ k.layout.lists, p.2 = q.2 → p.1 = q.1 := by
  cases k <;> decide

/-- No slot is for one child and for a list. -/
theorem singular_ne_lists (k : Kind) :
    ∀ p ∈ k.layout.singular, ∀ q ∈ k.layout.lists, p.2 ≠ q.2 := by
  cases k <;> decide

/-- The schemas of components stand in a list. -/
theorem schemas_mem_lists {k : Kind} (h : k = components) :
    (schema, "schemas") ∈ k.layout.lists := by
  subst h
  decide

end Kind

namespace Forest

/-! ### Nodes of a forest -/

/-- A node that has been put is there. -/
theorem get_put_self (f : Forest) {i : NodeId} (h : i < f.size) (n : Node) :
    (f.put i n).get i = n := by
  simp [get, put, Array.getD_eq_getD_getElem?, show i < f.nodes.size from h]

/-- Other nodes stay as they are. -/
theorem get_put_of_ne (f : Forest) {i j : NodeId} (h : j ≠ i) (n : Node) :
    (f.put i n).get j = f.get j := by
  simp [get, put, Array.getD_eq_getD_getElem?, h.symm]

@[simp] theorem size_put (f : Forest) (i : NodeId) (n : Node) : (f.put i n).size = f.size := by
  simp [size, put]

@[simp] theorem size_add (f : Forest) (n : Node) : (f.add n).2.size = f.size + 1 := by
  simp [size, add]

/-- Adding a node leaves those that are there. -/
theorem get_add_of_lt (f : Forest) {i : NodeId} (h : i < f.size) (n : Node) :
    (f.add n).2.get i = f.get i := by
  have hi : i < f.nodes.size := h
  simp [get, add, Array.getD_eq_getD_getElem?, Array.getElem?_push, Nat.ne_of_lt hi]

/-- A node that has been added is the last one. -/
theorem get_add_self (f : Forest) (n : Node) : (f.add n).2.get f.size = n := by
  simp [get, add, size, Array.getD_eq_getD_getElem?]

/-! ### Children -/

/-- A child of a kind that a node holds. -/
def IsChild (f : Forest) (p : NodeId) (k : Kind) (j : NodeId) : Prop :=
  j < f.size ∧ (f.get j).kind = k ∧ (f.get j).parent = .node p

/-- A schema among components. -/
def IsComponentSchema (f : Forest) (j : NodeId) : Prop :=
  (f.get j).kind = .schema ∧
    ∃ c < f.size, (f.get j).parent = .node c ∧ (f.get c).kind = .components

/-- The name under which a component schema stands, if the value is a node with a text as its
    key. -/
def keyOf (f : Forest) (x : Data) : Option String :=
  x.node?.bind fun j => ((f.get j).value "schema").str?

/-- No two values stand under one name. -/
def KeysApart (f : Forest) (items : List Data) : Prop :=
  items.Pairwise fun x y => ∀ name, f.keyOf x = some name → f.keyOf y ≠ some name

/-! ### Soundness -/

/-- A node whose slots hold what they are for. -/
structure SlotsOk (f : Forest) (i : NodeId) (n : Node) : Prop where
  singular : ∀ k slot, (k, slot) ∈ n.kind.layout.singular →
    ∀ j, n.value slot = .node j → f.IsChild i k j
  lists : ∀ k name, (k, name) ∈ n.kind.layout.lists → n.value name = .unset ∨
    ∃ items mark, n.value name = .list items mark ∧ ∀ x ∈ items, ∃ j, x = .node j ∧ f.IsChild i k j
  keys : n.kind = .components → ∀ items mark, n.value "schemas" = .list items mark →
    f.KeysApart items

/-- A forest with a document at the front, in which parents exist and all slots hold what they are
    for. -/
structure Sound (f : Forest) : Prop where
  nonempty : 0 < f.size
  document : (f.get 0).kind = .openApi
  parents : ∀ i < f.size, ∀ p, (f.get i).parent = .node p → p < f.size
  slots : ∀ i < f.size, f.SlotsOk i (f.get i)

/-- A forest in which nodes of some kinds are edited, and nodes added. Kinds and parents stay, and
    so do the names of component schemas. -/
structure Changes (K : Kind → Prop) (f g : Forest) : Prop where
  size_le : f.size ≤ g.size
  kind_eq : ∀ i < f.size, (g.get i).kind = (f.get i).kind
  parent_eq : ∀ i < f.size, (g.get i).parent = (f.get i).parent
  key_eq : ∀ i < f.size, f.IsComponentSchema i →
    (g.get i).value "schema" = (f.get i).value "schema"
  rest_eq : ∀ i < f.size, ¬K (f.get i).kind → g.get i = f.get i

namespace Changes

variable {K : Kind → Prop} {f g h : Forest}

/-- A forest changes into itself. -/
theorem refl (K : Kind → Prop) (f : Forest) : Changes K f f :=
  ⟨Nat.le_refl _, fun _ _ => rfl, fun _ _ => rfl, fun _ _ _ => rfl, fun _ _ _ => rfl⟩

/-- Children stay children. -/
theorem isChild (hfg : Changes K f g) {p : NodeId} {k : Kind} {j : NodeId}
    (hj : f.IsChild p k j) : g.IsChild p k j :=
  ⟨Nat.lt_of_lt_of_le hj.1 hfg.size_le, (hfg.kind_eq j hj.1).trans hj.2.1,
    (hfg.parent_eq j hj.1).trans hj.2.2⟩

/-- The schemas of components stay what they are. -/
theorem isComponentSchema (hfg : Changes K f g) {j : NodeId} (hj : j < f.size)
    (h : f.IsComponentSchema j) : g.IsComponentSchema j := by
  obtain ⟨hkind, c, hc, hparent, hcomponents⟩ := h
  exact ⟨(hfg.kind_eq j hj).trans hkind, c, Nat.lt_of_lt_of_le hc hfg.size_le,
    (hfg.parent_eq j hj).trans hparent, (hfg.kind_eq c hc).trans hcomponents⟩

/-- A node of before that is a schema of components has been one. -/
theorem of_isComponentSchema (hfg : Changes K f g) (hf : f.Sound) {j : NodeId} (hj : j < f.size)
    (h : g.IsComponentSchema j) : f.IsComponentSchema j := by
  obtain ⟨hkind, c, -, hparent, hcomponents⟩ := h
  have hparent' := (hfg.parent_eq j hj).symm.trans hparent
  have hc := hf.parents j hj c hparent'
  exact ⟨(hfg.kind_eq j hj).symm.trans hkind, c, hc, hparent',
    (hfg.kind_eq c hc).symm.trans hcomponents⟩

/-- Two changes, one after the other. -/
theorem trans (hfg : Changes K f g) (hgh : Changes K g h) : Changes K f h where
  size_le := Nat.le_trans hfg.size_le hgh.size_le
  kind_eq i hi := (hgh.kind_eq i (Nat.lt_of_lt_of_le hi hfg.size_le)).trans (hfg.kind_eq i hi)
  parent_eq i hi := (hgh.parent_eq i (Nat.lt_of_lt_of_le hi hfg.size_le)).trans (hfg.parent_eq i hi)
  key_eq i hi hs := (hgh.key_eq i (Nat.lt_of_lt_of_le hi hfg.size_le)
    (hfg.isComponentSchema hi hs)).trans (hfg.key_eq i hi hs)
  rest_eq i hi hk := by
    have hg := hfg.rest_eq i hi hk
    rw [hgh.rest_eq i (Nat.lt_of_lt_of_le hi hfg.size_le) (by rw [hg]; exact hk), hg]

/-- More kinds of nodes may be added. -/
theorem mono {L : Kind → Prop} (hfg : Changes K f g) (hKL : ∀ k, K k → L k) : Changes L f g :=
  ⟨hfg.size_le, hfg.kind_eq, hfg.parent_eq, hfg.key_eq,
    fun i hi hk => hfg.rest_eq i hi fun h => hk (hKL _ h)⟩

end Changes

namespace SlotsOk

variable {K : Kind → Prop} {f g : Forest} {i : NodeId} {n m : Node}

/-- Empty slots. -/
theorem of_unset (hn : ∀ slot ∈ n.kind.slots, n.value slot = .unset) : f.SlotsOk i n := by
  refine ⟨?_, ?_, ?_⟩
  · intro k slot hmem j hj
    rw [hn _ (n.kind.singular_mem_slots _ hmem)] at hj
    exact nomatch hj
  · exact fun k name hmem => .inl (hn _ (n.kind.lists_mem_slots _ hmem))
  · intro hcomponents items mark hitems
    rw [hn _ (n.kind.lists_mem_slots _ (Kind.schemas_mem_lists hcomponents))] at hitems
    exact nomatch hitems

/-- Slots that hold the same are as good. -/
theorem congr (h : f.SlotsOk i n) (hkind : m.kind = n.kind)
    (hvalue : ∀ slot ∈ n.kind.slots, m.value slot = n.value slot) : f.SlotsOk i m := by
  refine ⟨?_, ?_, ?_⟩
  · intro k slot hmem j hj
    rw [hkind] at hmem
    rw [hvalue _ (n.kind.singular_mem_slots _ hmem)] at hj
    exact h.singular k slot hmem j hj
  · intro k name hmem
    rw [hkind] at hmem
    rw [hvalue _ (n.kind.lists_mem_slots _ hmem)]
    exact h.lists k name hmem
  · intro hcomponents items mark hitems
    rw [hkind] at hcomponents
    rw [hvalue _ (n.kind.lists_mem_slots _ (Kind.schemas_mem_lists hcomponents))] at hitems
    exact h.keys hcomponents items mark hitems

/-- A field set. -/
theorem putField (h : f.SlotsOk i n) {name : String} (hname : name ∈ n.kind.fields) (v : Data) :
    f.SlotsOk i (n.putValue name v) := by
  refine h.congr rfl fun slot hslot => n.value_putValue_of_ne ?_ v
  rintro rfl
  exact n.kind.field_notMem_slots _ hname hslot

/-- A singular slot filled with a child, or with what is no node. -/
theorem putSingular (h : f.SlotsOk i n) {k : Kind} {slot : String}
    (hslot : (k, slot) ∈ n.kind.layout.singular) {v : Data} (hset : v.isUnset = false)
    (hv : ∀ j, v = .node j → f.IsChild i k j) : f.SlotsOk i (n.putValue slot v) := by
  refine ⟨?_, ?_, ?_⟩
  · intro k' slot' hmem j hj
    -- The slot is filled with children of one kind only.
    by_cases he : slot' = slot
    · subst he
      rw [n.value_putValue_self _ hset] at hj
      obtain rfl : k' = k := n.kind.singular_unique _ hmem _ hslot rfl
      exact hv j hj
    · rw [n.value_putValue_of_ne he] at hj
      exact h.singular k' slot' hmem j hj
  · intro k' name hmem
    have hne : name ≠ slot := fun he => n.kind.singular_ne_lists _ hslot _ hmem he.symm
    rw [n.value_putValue_of_ne hne]
    exact h.lists k' name hmem
  · intro hcomponents items mark hitems
    have hmem : (Kind.schema, "schemas") ∈ n.kind.layout.lists := Kind.schemas_mem_lists hcomponents
    have hne : "schemas" ≠ slot := fun he => n.kind.singular_ne_lists _ hslot _ hmem he.symm
    rw [n.value_putValue_of_ne hne] at hitems
    exact h.keys hcomponents items mark hitems

/-- A list of children set. -/
theorem putList (h : f.SlotsOk i n) {k : Kind} {name : String}
    (hname : (k, name) ∈ n.kind.layout.lists) (items : List Data) (mark : Nat)
    (hitems : ∀ x ∈ items, ∃ j, x = .node j ∧ f.IsChild i k j)
    (hkeys : n.kind = .components → name = "schemas" → f.KeysApart items) :
    f.SlotsOk i (n.putValue name (.list items mark)) := by
  have hself : (n.putValue name (.list items mark)).value name = .list items mark :=
    n.value_putValue_self name rfl
  refine ⟨?_, ?_, ?_⟩
  · intro k' slot hmem j hj
    rw [n.value_putValue_of_ne (n.kind.singular_ne_lists _ hmem _ hname)] at hj
    exact h.singular k' slot hmem j hj
  · intro k' name' hmem
    by_cases he : name' = name
    · subst he
      obtain rfl : k' = k := n.kind.lists_unique _ hmem _ hname rfl
      exact .inr ⟨items, mark, hself, hitems⟩
    · rw [n.value_putValue_of_ne he]
      exact h.lists k' name' hmem
  · intro hcomponents items' mark' hitems'
    by_cases he : "schemas" = name
    · subst he
      rw [hself] at hitems'
      cases hitems'
      exact hkeys hcomponents rfl
    · rw [n.value_putValue_of_ne he] at hitems'
      exact h.keys hcomponents items' mark' hitems'

/-- Members of the list of component schemas are component schemas. -/
theorem isComponentSchema (h : f.SlotsOk i n) (hi : i < f.size) (hkind : (f.get i).kind = n.kind)
    (hcomponents : n.kind = .components) {items : List Data} {mark : Nat}
    (hitems : n.value "schemas" = .list items mark) :
    ∀ x ∈ items, ∃ j, x = .node j ∧ j < f.size ∧ f.IsComponentSchema j := by
  intro x hx
  have hmem := Kind.schemas_mem_lists hcomponents
  rcases h.lists _ _ hmem with hunset | ⟨items', mark', hitems', hall⟩
  · rw [hitems] at hunset
    exact nomatch hunset
  · rw [hitems] at hitems'
    cases hitems'
    obtain ⟨j, rfl, hj, hjkind, hparent⟩ := hall x hx
    exact ⟨j, rfl, hj, hjkind, i, hi, hparent, hkind.trans hcomponents⟩

/-- Slots stay good while other nodes change. -/
theorem mono (h : f.SlotsOk i n) (hfg : Changes K f g) (hi : i < f.size)
    (hkind : (f.get i).kind = n.kind) : g.SlotsOk i n := by
  refine ⟨?_, ?_, ?_⟩
  · exact fun k slot hmem j hj => hfg.isChild (h.singular k slot hmem j hj)
  · intro k name hmem
    refine (h.lists k name hmem).imp_right ?_
    rintro ⟨items, mark, hitems, hall⟩
    refine ⟨items, mark, hitems, fun x hx => ?_⟩
    obtain ⟨j, hxj, hj⟩ := hall x hx
    exact ⟨j, hxj, hfg.isChild hj⟩
  · intro hcomponents items mark hitems
    -- All that stands in the list is a component schema, and so keeps its name.
    have hkey : ∀ x ∈ items, g.keyOf x = f.keyOf x := by
      intro x hx
      obtain ⟨j, rfl, hj, hs⟩ := h.isComponentSchema hi hkind hcomponents hitems x hx
      show ((g.get j).value "schema").str? = ((f.get j).value "schema").str?
      rw [hfg.key_eq j hj hs]
    have happart := h.keys hcomponents items mark hitems
    refine List.Pairwise.imp_of_mem ?_ happart
    intro x y hx hy hxy name hname
    rw [hkey x hx] at hname
    rw [hkey y hy]
    exact hxy name hname

end SlotsOk

/-! ### Replacing and adding -/

variable {K : Kind → Prop} {f : Forest} {i : NodeId}

/-- A node replaced by one of its kind and parent that holds what it should. The name of a
    component schema has to stay. -/
theorem Sound.replace (h : f.Sound) (hi : i < f.size) {n : Node} (hK : K (f.get i).kind)
    (hn : f.SlotsOk i n) (hkind : n.kind = (f.get i).kind) (hparent : n.parent = (f.get i).parent)
    (hkey : f.IsComponentSchema i → n.value "schema" = (f.get i).value "schema") :
    (f.put i n).Sound ∧ Changes K f (f.put i n) := by
  have hchanges : Changes K f (f.put i n) := by
    refine ⟨by simp, ?_, ?_, ?_, ?_⟩
    · intro j hj
      by_cases hji : j = i
      · subst hji; rw [f.get_put_self hi, hkind]
      · rw [f.get_put_of_ne hji]
    · intro j hj
      by_cases hji : j = i
      · subst hji; rw [f.get_put_self hi, hparent]
      · rw [f.get_put_of_ne hji]
    · intro j hj hs
      by_cases hji : j = i
      · subst hji; rw [f.get_put_self hi, hkey hs]
      · rw [f.get_put_of_ne hji]
    · intro j hj hk
      have hji : j ≠ i := by rintro rfl; exact hk hK
      rw [f.get_put_of_ne hji]
  -- Slots point to children by number, so that they stay good in all other nodes.
  refine ⟨⟨by simpa using h.nonempty, ?_, ?_, ?_⟩, hchanges⟩
  · rw [hchanges.kind_eq 0 h.nonempty]
    exact h.document
  · intro j hj p hp
    rw [size_put] at hj ⊢
    rw [hchanges.parent_eq j hj] at hp
    exact h.parents j hj p hp
  · intro j hj
    rw [size_put] at hj
    by_cases hji : j = i
    · subst hji
      rw [f.get_put_self hi]
      exact hn.mono hchanges hi hkind.symm
    · rw [f.get_put_of_ne hji]
      exact (h.slots j hj).mono hchanges hj rfl

/-- A node added with empty slots. -/
theorem Sound.add (h : f.Sound) {n : Node} (hn : ∀ slot ∈ n.kind.slots, n.value slot = .unset)
    (hparent : ∀ p, n.parent = .node p → p < f.size) :
    (f.add n).2.Sound ∧ Changes K f (f.add n).2 := by
  -- Nodes that stood before are as they were.
  have hchanges : Changes K f (f.add n).2 := by
    refine ⟨by simp, ?_, ?_, ?_, ?_⟩
    all_goals
      intro j hj
      rw [f.get_add_of_lt hj]
      try exact fun _ => rfl
  refine ⟨⟨by simp, ?_, ?_, ?_⟩, hchanges⟩
  · rw [hchanges.kind_eq 0 h.nonempty]
    exact h.document
  -- Parents come before their children, the one of the new node included.
  · intro j hj p hp
    rw [size_add] at hj ⊢
    refine Nat.lt_succ_of_lt ?_
    by_cases hjs : j = f.size
    · subst hjs
      rw [f.get_add_self] at hp
      exact hparent p hp
    · have hj : j < f.size := by omega
      rw [f.get_add_of_lt hj] at hp
      exact h.parents j hj p hp
  · intro j hj
    rw [size_add] at hj
    by_cases hjs : j = f.size
    · subst hjs
      rw [f.get_add_self]
      exact .of_unset hn
    · have hlt : j < f.size := by omega
      rw [f.get_add_of_lt hlt]
      exact (h.slots j hlt).mono hchanges hlt rfl

end Forest

end ApiDoc
