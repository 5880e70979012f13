import ApiDoc.Proofs.Growth.Standing

namespace ApiDoc

/-!
# What edits leave alone

* `Forest.Unmoved`, `Forest.SlotUnmoved` — a tree, and a slot with the trees in it, that have not
  changed from one forest to another;
* `Forest.Touches`, `Edit.Touches` — a change to one slot of one node, besides nodes added;
* `Touches.child`, `Touches.indexedItem`, `Touches.collectionItem` — children found or made;
* `Touches.unmoved`, `Consistent.sibling_unmoved` — the trees that changes to one slot, and changes
  to one child, leave alone.
-/

namespace Forest

variable {f g h : Forest} {i j c : NodeId} {σ τ : String}

/-! ### Trees that do not change -/

/-- A tree that is in a second forest what it is in a first one. -/
def Unmoved (f g : Forest) (i : NodeId) : Prop := ∀ j, f.Below i j → g.get j = f.get j

/-- A slot that holds the same in two forests, and the same trees. -/
structure SlotUnmoved (f g : Forest) (i : NodeId) (σ : String) : Prop where
  value : (g.get i).value σ = (f.get i).value σ
  children : ∀ c, .node c ∈ ((f.get i).value σ).nodes → f.Unmoved g c

/-- No tree moves in one forest. -/
theorem Unmoved.refl (f : Forest) (i : NodeId) : f.Unmoved f i := fun _ _ => rfl

/-- The nodes of a tree that has not moved are below it later, too. -/
theorem Unmoved.below (h : f.Unmoved g i) (hj : f.Below i j) : g.Below i j := by
  induction hj with
  | self => exact .self
  | child hp hσ hj ih =>
    rw [← h _ hp] at hσ hj
    exact ih.child hσ hj

/-- A tree that has not moved in two changes. -/
theorem Unmoved.trans (hfg : f.Unmoved g i) (hgh : g.Unmoved h i) : f.Unmoved h i :=
  fun j hj => (hgh j (hfg.below hj)).trans (hfg j hj)

/-- A part of a tree that has not changed has not changed either. -/
theorem Unmoved.part (h : f.Unmoved g i) (hij : f.Below i j) : f.Unmoved g j :=
  fun _ hj => h _ (hij.trans hj)

/-- No slot of a tree that has not moved has moved. -/
theorem Unmoved.slot (h : f.Unmoved g i) (hσ : σ ∈ (f.get i).kind.slots) :
    f.SlotUnmoved g i σ where
  value := by rw [h i .self]
  children _ hc := h.part (Below.self.child hσ hc)

/-- No slot moves in one forest. -/
theorem SlotUnmoved.refl (f : Forest) (i : NodeId) (σ : String) : f.SlotUnmoved f i σ :=
  ⟨rfl, fun c _ => .refl f c⟩

/-- A slot that has not moved in two changes. -/
theorem SlotUnmoved.trans (hfg : f.SlotUnmoved g i σ) (hgh : g.SlotUnmoved h i σ) :
    f.SlotUnmoved h i σ where
  value := hgh.value.trans hfg.value
  children c hc := (hfg.children c hc).trans (hgh.children c (by rw [hfg.value]; exact hc))

/-! ### Changes to one slot -/

/-- A forest with nodes added to another, all of them alike, in which one slot of one node may hold
    something else. -/
structure Touches (i : NodeId) (σ : String) (new : Node) (f g : Forest) : Prop where
  holder : i < f.size
  size_le : f.size ≤ g.size
  others : ∀ j < f.size, j ≠ i → g.get j = f.get j
  kind : (g.get i).kind = (f.get i).kind
  values : ∀ τ, τ ≠ σ → (g.get i).value τ = (f.get i).value τ
  fresh : ∀ j < g.size, f.size ≤ j → g.get j = new

namespace Touches

variable {new : Node}

/-- Nothing is touched where nothing changes. -/
theorem refl (hi : i < f.size) (σ : String) (new : Node) : f.Touches i σ new f :=
  ⟨hi, Nat.le_refl _, fun _ _ _ => rfl, rfl, fun _ _ => rfl,
    fun _ hj hj' => absurd hj (Nat.not_lt_of_le hj')⟩

/-- Two changes to the same slot. -/
theorem trans (hfg : f.Touches i σ new g) (hgh : g.Touches i σ new h) : f.Touches i σ new h where
  holder := hfg.holder
  size_le := Nat.le_trans hfg.size_le hgh.size_le
  others j hj hne := (hgh.others j (Nat.lt_of_lt_of_le hj hfg.size_le) hne).trans
    (hfg.others j hj hne)
  kind := hgh.kind.trans hfg.kind
  values τ hτ := (hgh.values τ hτ).trans (hfg.values τ hτ)
  fresh j hj hj' := by
    by_cases hlt : j < g.size
    · rw [hgh.others j hlt (Nat.ne_of_gt (Nat.lt_of_lt_of_le hfg.holder hj'))]
      exact hfg.fresh j hlt hj'
    · exact hgh.fresh j hj (Nat.le_of_not_lt hlt)

/-- Another value in the slot. -/
theorem put (hi : i < f.size) (σ : String) (v : Data) (new : Node) :
    f.Touches i σ new (f.put i ((f.get i).putValue σ v)) := by
  have hself := f.get_put_self hi ((f.get i).putValue σ v)
  refine ⟨hi, by rw [size_put], fun j _ hne => f.get_put_of_ne hne _, by rw [hself]; rfl,
    fun τ hτ => ?_, fun j hj hj' => ?_⟩
  · rw [hself, Node.value_putValue_of_ne _ hτ]
  · rw [size_put] at hj
    exact absurd hj (Nat.not_lt_of_le hj')

/-- Another node, attached nowhere. -/
theorem add (hi : i < f.size) (σ : String) (new : Node) : f.Touches i σ new (f.add new).2 := by
  have hself : (f.add new).2.get i = f.get i := get_add_of_lt _ hi new
  refine ⟨hi, by rw [size_add]; exact Nat.le_succ _, fun j hj _ => get_add_of_lt _ hj _, ?_,
    fun τ _ => ?_, fun j hj hj' => ?_⟩
  · rw [hself]
  · rw [hself]
  · rw [size_add] at hj
    obtain rfl : j = f.size := Nat.le_antisymm (Nat.le_of_lt_succ hj) hj'
    exact get_add_self ..

/-- The trees below a node do not change with one of its slots. -/
theorem unmoved (hfg : f.Touches i τ new g) (hf : f.Consistent)
    (hσ : σ ∈ (f.get i).kind.slots) (hc : .node c ∈ ((f.get i).value σ).nodes) :
    f.Unmoved g c := by
  obtain ⟨_, -, hchild, hlt⟩ := hf.child hfg.holder hσ hc
  intro j hj
  obtain ⟨hle, hj⟩ := hf.below_lt hchild.1 hj
  exact hfg.others j hj (Nat.ne_of_gt (Nat.lt_of_lt_of_le hlt hle))

/-- A change to one slot does not move the others. -/
theorem slotUnmoved (hfg : f.Touches i τ new g) (hf : f.Consistent)
    (hσ : σ ∈ (f.get i).kind.slots) (hne : σ ≠ τ) : f.SlotUnmoved g i σ :=
  ⟨hfg.values σ hne, fun _ hc => hfg.unmoved hf hσ hc⟩

end Touches

/-! ### Changes below one child -/

/-- Nodes outside the licence stay as they are. -/
theorem Steps.get_eq {S : Licence} (hrun : Steps S f g) (hj : j < f.size) (hnot : ¬S.nodes j) :
    g.get j = f.get j := by
  induction hrun with
  | refl => rfl
  | tail hrun hlast ih =>
    exact (hlast.get_eq (Nat.lt_of_lt_of_le hj (Steps.later hrun).size_le) hnot).trans ih

/-- What is done in the tree of one child changes neither the parent nor the trees of the others. -/
theorem Consistent.sibling_unmoved (hf : f.Consistent) (hi : i < f.size)
    (hσ : σ ∈ (f.get i).kind.slots) (hc : .node c ∈ ((f.get i).value σ).nodes) {S : Licence}
    (hS : ∀ j < f.size, S.nodes j → f.Below c j) (hrun : Steps S f g) :
    g.get i = f.get i ∧ ∀ τ ∈ (f.get i).kind.slots, ∀ b,
      .node b ∈ ((f.get i).value τ).nodes → b ≠ c → f.Unmoved g b := by
  obtain ⟨_, -, hchild, hlt⟩ := hf.child hi hσ hc
  refine ⟨hrun.get_eq hi fun hnodes => ?_, fun τ hτ b hb hne j hj => ?_⟩
  · have hle := (hf.below_lt hchild.1 (hS i hi hnodes)).1
    exact absurd hlt (Nat.not_lt_of_le hle)
  · obtain ⟨_, -, hchild', -⟩ := hf.child hi hτ hb
    have hj' := (hf.below_lt hchild'.1 hj).2
    exact hrun.get_eq hj' fun hnodes => hf.siblings_apart hi hτ hσ hb hc hne hj (hS j hj' hnodes)

end Forest

/-! ### Edits of one slot -/

/-- A new child of a node. -/
def Node.newChild (i : NodeId) (k : Kind) (fields : Entries) : Node :=
  Node.putFields { kind := k, parent := .node i } fields

namespace Edit

variable {α β : Type} {d : Draft} {i : NodeId} {σ : String} {k : Kind} {fields : Entries}
  {new : Node}

/-- An edit that, where it succeeds, changes one slot of one node, besides adding nodes. -/
def Touches (i : NodeId) (σ : String) (new : Node) (act : Edit α) (d : Draft) : Prop :=
  ∀ a d', act d = .ok a d' → d.forest.Touches i σ new d'.forest

namespace Touches

/-- An edit that looks touches nothing. -/
theorem of_looks {act : Edit α} {P : α → Prop} (hi : i < d.forest.size) (h : Looks act d P) :
    Touches i σ new act d := by
  intro a d' ha
  obtain ⟨rfl, -⟩ := h a d' ha
  exact .refl hi σ new

/-- Two edits of the same slot, one after the other. -/
theorem bind {x : Edit α} {f : α → Edit β} (hx : Touches i σ new x d)
    (hf : ∀ a d', d.forest.Touches i σ new d'.forest → Touches i σ new (f a) d') :
    Touches i σ new (x >>= f) d := by
  intro b d' h
  obtain ⟨a, d₁, ha, hb⟩ := Results.bind_eq_ok.1 h
  have hfirst := hx a d₁ ha
  exact hfirst.trans (hf a d₁ hfirst b d' hb)

/-- An edit that leaves every draft as it is before another. -/
theorem after_peek {x : Edit α} {f : α → Edit β} (hx : Peeks x)
    (hf : ∀ a, Touches i σ new (f a) d) : Touches i σ new (x >>= f) d := by
  intro b d' h
  obtain ⟨a, d₁, ha, hb⟩ := Results.bind_eq_ok.1 h
  obtain rfl : d₁ = d := (after_of_ok ha).symm.trans (hx d)
  exact hf a b d' hb

/-- A look before an edit. -/
theorem after_look {x : Edit α} {f : α → Edit β} {P : α → Prop} (hx : Looks x d P)
    (hf : ∀ a, P a → Touches i σ new (f a) d) : Touches i σ new (x >>= f) d := by
  intro b d' h
  obtain ⟨a, d₁, ha, hb⟩ := Results.bind_eq_ok.1 h
  obtain ⟨rfl, hP⟩ := hx a d₁ ha
  exact hf a hP b d' hb

/-- Writing the slot. -/
theorem assign (hi : i < d.forest.size) (v : Data) : Touches i σ new (Edit.assign i σ v) d := by
  rintro _ d' ⟨⟩
  exact .put hi σ v new

/-- Writing the slot of a node that has it. -/
theorem assign? (hi : i < d.forest.size) (hσ : σ ∈ (d.forest.get i).kind.slots) (v : Data) :
    Touches i σ new (Edit.assign? i σ v) d := by
  intro _ d' h
  rw [assign?_slot hσ v] at h
  cases h
  exact .put hi σ v new

/-- Making a child that is attached nowhere yet. -/
theorem addDetached (hi : i < d.forest.size) (hfree : fields.Unreserved) :
    Touches i σ (.newChild i k fields) (Edit.addDetached i k fields) d := by
  intro j d' h
  obtain ⟨n, d₁, hn, hadd⟩ := Results.bind_eq_ok.1 h
  obtain ⟨rfl, hcreate⟩ := (Looks.ofExcept _) n d₁ hn
  obtain rfl := Node.createChild_eq (Node.areFields_of_createChild hfree hcreate) hcreate
  cases hadd
  exact .add hi σ _

/-- Putting a list into the slot if there is none. -/
theorem ensureList (hi : i < d.forest.size) (hσ : σ ∈ (d.forest.get i).kind.slots) :
    Touches i σ new (Edit.ensureList i σ) d := by
  refine .after_peek (.read i σ) fun v => ?_
  split
  · exact .of_looks hi (.pure _)
  · exact .bind (.assign? hi hσ _) fun _ d' hd' =>
      .of_looks (Nat.lt_of_lt_of_le hi hd'.size_le) (.pure _)

/-- The only child in a slot. -/
theorem child {b : Bool} (hi : i < d.forest.size)
    (hp : (d.forest.get i).kind.placement? σ = some (.single k b)) (hfree : fields.Unreserved) :
    Touches i σ (.newChild i k fields) (Edit.child i k fields) d := by
  refine .after_look (.slotFor .singular (·.singular)) fun τ hτ => ?_
  obtain rfl : τ = σ := Kind.slot_unique (Kind.placement?_singular _ _ hτ) hp rfl
  refine .after_peek (.node i) fun n => ?_
  split
  · exact .of_looks hi (.pure _)
  · refine .bind (.addDetached hi hfree) fun j d₁ hd₁ => ?_
    have hi₁ := Nat.lt_of_lt_of_le hi hd₁.size_le
    exact .bind (.assign hi₁ _) fun _ _ hd₂ =>
      .of_looks (Nat.lt_of_lt_of_le hi₁ hd₂.size_le) (.pure _)

/-- A new member at the end of a list. -/
theorem appendItem (hi : i < d.forest.size) (hσ : σ ∈ (d.forest.get i).kind.slots)
    (k : Kind) (hfree : fields.Unreserved) :
    Touches i σ (.newChild i k fields) (Edit.appendItem i σ k fields) d := by
  refine .bind (.ensureList hi hσ) fun l d₁ hd₁ => ?_
  have hi₁ := Nat.lt_of_lt_of_le hi hd₁.size_le
  refine .bind (.addDetached hi₁ hfree) fun j d₂ hd₂ => ?_
  have hi₂ := Nat.lt_of_lt_of_le hi₁ hd₂.size_le
  have hσ₂ : σ ∈ (d₂.forest.get i).kind.slots := by rwa [(hd₁.trans hd₂).kind]
  exact .bind (.assign? hi₂ hσ₂ _) fun _ _ hd₃ =>
    .of_looks (Nat.lt_of_lt_of_le hi₂ hd₃.size_le) (.pure _)

/-- The member under a key. -/
theorem indexedItem {key : String} (hi : i < d.forest.size)
    (hp : (d.forest.get i).kind.placement? σ = some (.keyed k key)) (v : Data) :
    Touches i σ (.newChild i k [(.str key, v)]) (Edit.indexedItem i k v) d := by
  have hσ := Kind.mem_slots_of_placement? hp
  refine .after_look (.slotFor .indexed (·.indexed)) fun slot hslot => ?_
  have hq := Kind.placement?_indexed _ _ hslot
  obtain rfl : slot.name = σ := Kind.slot_unique hq hp rfl
  cases hq.symm.trans hp
  have hfree : Entries.Unreserved [(.str slot.key, v)] :=
    Entries.AreFields.unreserved (k := k) fun e he =>
      ⟨slot.key, Kind.index_mem_fields _ _ hslot, by rw [List.mem_singleton.1 he]⟩
  refine .after_peek (.membersOf _ _) fun items => .after_peek (.searchIndexed _ _ _) fun i? => ?_
  split
  · exact .of_looks hi (.pure _)
  · exact .bind (.appendItem hi hσ k hfree) fun _ _ hd' =>
      .of_looks (Nat.lt_of_lt_of_le hi hd'.size_le) (.pure _)

/-- The member with some values. -/
theorem collectionItem {slot : CollectionSlot} (hi : i < d.forest.size)
    (hp : (d.forest.get i).kind.placement? slot.name = some (.listed k slot))
    (hfree : fields.Unreserved) :
    Touches i slot.name (.newChild i k fields) (Edit.collectionItem i k fields) d := by
  have hσ := Kind.mem_slots_of_placement? hp
  refine .after_look (.slotFor .collection (·.collections)) fun slot' hslot => ?_
  have hname : slot'.name = slot.name :=
    Kind.slot_unique (Kind.placement?_collections _ _ hslot) hp rfl
  extract_lets answer
  have hanswer : ∀ j? : Option NodeId,
      Touches i slot.name (.newChild i k fields) (answer j?) d := by
    intro j?
    cases j? with
    | some j => exact .of_looks hi (.pure _)
    | none =>
      refine .bind ?_ fun _ _ hd' => .of_looks (Nat.lt_of_lt_of_le hi hd'.size_le) (.pure _)
      rw [hname]
      exact .appendItem hi hσ k hfree
  split
  · exact hanswer none
  · exact .after_peek (.membersOf _ _) fun items => .after_peek (.searchCollection _ _) fun i? =>
      hanswer _

end Touches

end Edit

end ApiDoc
