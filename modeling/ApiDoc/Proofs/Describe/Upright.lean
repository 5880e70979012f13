import ApiDoc.Proofs.Describe.Plans
import ApiDoc.Proofs.Describe.Schemas
import ApiDoc.Proofs.Growth.Location
import ApiDoc.Proofs.Growth.Merge

namespace ApiDoc

/-!
# Describers keep trees upright

What describers do to a tree leaves it upright: its slots hold what they are for, its nodes have a
way up, and its extensions stand under keys. A child can be put in the place of another, and a
member can be taken out of its list; all other edits are steps of a forest that grows:

* `Forest.Upright.put`, `Forest.Upright.add` — a node with other slots, and a new node;
* `Rules.upright`, `Rules.upright_lawful` — the rules that describers keep in an upright forest;
* `Rules.Does.upright` — what a computation leaves of an upright forest.
-/

namespace Forest

variable {T : NodeId → Prop} {f g : Forest} {i j : NodeId}

/-! ### Nodes replaced and added -/

theorem Later.put {n : Node} (hkind : n.kind = (f.get i).kind)
    (hparent : n.parent = (f.get i).parent) (hi : i < f.size) : f.Later (f.put i n) := by
  have hget : ∀ {α : Type} (v : Node → α), v n = v (f.get i) → ∀ j, v ((f.put i n).get j) = v (f.get j) := by
    intro α v hv j
    by_cases he : j = i
    · rw [he, f.get_put_self hi, hv]
    · rw [f.get_put_of_ne he]
  exact ⟨by simp, fun j _ => hget Node.kind hkind j, fun j _ => hget Node.parent hparent j⟩

theorem Later.add (n : Node) : f.Later (f.add n).2 where
  size_le := by simp
  kind_eq j hj := by rw [f.get_add_of_lt hj]
  parent_eq j hj := by rw [f.get_add_of_lt hj]

/-- Nodes stay rooted where only nodes change whose slots hold what they are for. -/
theorem Rooted.later (hfg : f.Later g) (hg : g.Formed T)
    (hsame : ∀ p < f.size, T p ∨ g.get p = f.get p) (h : f.Rooted j) : g.Rooted j := by
  have hsize := fun {j} (hlt : j < f.size) => Nat.lt_of_lt_of_le hlt hfg.size_le
  induction h with
  | root hlt hparent => exact .root (hsize hlt) ((hfg.parent_eq _ hlt).trans hparent)
  | @under p j hlt hparent hsearch hp ih =>
    refine .under (hsize hlt) ((hfg.parent_eq _ hlt).trans hparent) ?_ ih
    have hpsize : p < f.size := by
      cases hp with
      | root hlt => exact hlt
      | under hlt => exact hlt
    rcases hsame p hpsize with hT | hget
    · exact hg.searchable hT (hsize hpsize)
    · rw [hget]
      exact hsearch

/-- An upright forest with another node in the place of one. -/
theorem Upright.put (hf : f.Upright T) (hT : T i) (hi : i < f.size) {n : Node}
    (hkind : n.kind = (f.get i).kind) (hparent : n.parent = (f.get i).parent)
    (hextensions : n.extensions = (f.get i).extensions)
    (hslots : ∀ σ p, (f.get i).kind.placement? σ = some p → f.Fills T i p (n.value σ)) :
    (f.put i n).Upright T := by
  have hlater := Later.put hkind hparent hi
  have hold : ∀ {j}, j < (f.put i n).size → j < f.size := fun {j} hj => by simpa using hj
  have hformed : (f.put i n).Formed T := by
    refine ⟨fun j hj => hf.formed.fresh j (by simpa using hj), fun j hTj hj σ p hp => ?_⟩
    have hj := hold hj
    rw [hlater.kind_eq j hj] at hp
    -- Slots: the new ones are given, all others are as they were.
    by_cases he : j = i
    · subst he
      rw [f.get_put_self hi]
      exact (hslots σ p hp).later hlater
    · rw [f.get_put_of_ne he]
      exact (hf.formed.slots j hTj hj σ p hp).later hlater
  refine ⟨hformed, fun j hTj hj => ?_, fun j hTj hj => ?_⟩
  · refine (hf.rooted j hTj (hold hj)).later hlater hformed fun p _ => ?_
    -- On the way up to the root, the node itself is in the set.
    by_cases he : p = i
    · exact .inl (he ▸ hT)
    · exact .inr (f.get_put_of_ne he n)
  · obtain ⟨es, mark, hes⟩ := hf.extensions j hTj (hold hj)
    refine ⟨es, mark, ?_⟩
    by_cases he : j = i
    · subst he
      rw [f.get_put_self hi, hextensions, hes]
    · rw [f.get_put_of_ne he, hes]

/-- An upright forest with one more node. -/
theorem Upright.add (hf : f.Upright T) (hT : T i) (hi : i < f.size) (k : Kind) :
    (f.add { kind := k, parent := .node i }).2.Upright T := by
  have hlater := Later.add (f := f) { kind := k, parent := .node i }
  -- The node that was added is the only new one.
  have hnew : ∀ {j}, j < (f.add { kind := k, parent := .node i }).2.size → ¬j < f.size → j = f.size := by
    intro j hj hnot
    rw [size_add] at hj
    omega
  have hformed : (f.add { kind := k, parent := .node i }).2.Formed T := by
    refine ⟨fun j hj => hf.formed.fresh j (Nat.le_trans hlater.size_le hj), fun j hTj hj σ p hp => ?_⟩
    by_cases hlt : j < f.size
    · rw [f.get_add_of_lt hlt] at hp ⊢
      exact (hf.formed.slots j hTj hlt σ p hp).later hlater
    · obtain rfl := hnew hj hlt
      rw [f.get_add_self]
      exact .unset
  have hrooted : ∀ j, T j → j < f.size → (f.add { kind := k, parent := .node i }).2.Rooted j :=
    fun j hTj hj => (hf.rooted j hTj hj).later hlater hformed fun p hp => .inr (f.get_add_of_lt hp _)
  refine ⟨hformed, fun j hTj hj => ?_, fun j hTj hj => ?_⟩
  -- The old nodes are rooted as before, and the new one hangs under `i`.
  · by_cases hlt : j < f.size
    · exact hrooted j hTj hlt
    · obtain rfl := hnew hj hlt
      refine .under hj (by rw [f.get_add_self]) ?_ (hrooted i hT hi)
      exact hformed.searchable hT (Nat.lt_of_lt_of_le hi hlater.size_le)
  · by_cases hlt : j < f.size
    · rw [f.get_add_of_lt hlt]
      exact hf.extensions j hTj hlt
    · obtain rfl := hnew hj hlt
      exact ⟨[], 0, by rw [f.get_add_self]⟩

/-- Something that a slot is for put into it. -/
theorem Upright.putSlot (hf : f.Upright T) (hT : T i) (hi : i < f.size) {σ : String} {p : Placement}
    (hp : (f.get i).kind.placement? σ = some p) {v : Data} (hv : f.Fills T i p v)
    (hset : v.isUnset = false) : (f.put i ((f.get i).putValue σ v)).Upright T := by
  refine hf.put hT hi rfl rfl rfl fun τ q hq => ?_
  by_cases he : τ = σ
  · subst he
    rw [Node.value_putValue_self _ _ hset]
    exact (Option.some.inj (hp.symm.trans hq)) ▸ hv
  · rw [Node.value_putValue_of_ne _ he]
    exact hf.formed.slots i hT hi τ q hq

/-- A field set. -/
theorem Upright.putField (hf : f.Upright T) (hT : T i) (hi : i < f.size) {name : String}
    (hname : name ∈ (f.get i).kind.fields) (v : Data) :
    (f.put i ((f.get i).putValue name v)).Upright T := by
  refine hf.put hT hi rfl rfl rfl fun σ p hp => ?_
  have hne : σ ≠ name := by
    rintro rfl
    exact Kind.field_notMem_slots _ _ hname (Kind.mem_slots_of_placement? hp)
  rw [Node.value_putValue_of_ne _ hne]
  exact hf.formed.slots i hT hi σ p hp

end Forest

/-! ### The rules -/

namespace Rules

open Forest

/-- A look before an edit. -/
theorem Allows.after_look {α β : Type} {R : Rules} {d : Draft} {P : α → Prop}
    {Q : β → Forest → Prop} {x : Edit α} {f : α → Edit β} (hx : Edit.Looks x d P)
    (hf : ∀ a, P a → R.Allows (f a) d Q) : R.Allows (x >>= f) d Q := by
  intro b d' h
  obtain ⟨a, d₁, ha, hb⟩ := Results.bind_eq_ok.1 h
  obtain ⟨rfl, hP⟩ := hx a d₁ ha
  exact hf a hP b d' hb

/-- The rules that describers keep in a forest in which some trees are upright. -/
def upright (T : NodeId → Prop) : Rules where
  names _ := True
  groups _ := True
  overrides _ := True
  propertyOverrides _ := True
  isOpen f i := f.Upright T ∧ T i ∧ i < f.size ∧ (f.get i).kind ∈ Kind.schemas
  isProperty f i := f.Upright T ∧ T i ∧ i < f.size ∧ (f.get i).kind = .property
  leads f g := f.Upright T → g.Upright T ∧ f.Later g

variable {T : NodeId → Prop} {f g : Forest} {i j : NodeId}

/-- The licence to do anything to the nodes of some trees. -/
def anywhere (T : NodeId → Prop) : Licence := ⟨T, fun _ _ => True, true⟩

/-- Edits that take steps of a forest that grows are allowed. -/
theorem upright_follows {α : Type} {act : Edit α} {d : Draft} {P Q : α → Forest → Prop}
    (h : d.forest.Upright T → Edit.Follows (anywhere T) act d P)
    (hQ : ∀ a g, g.Upright T → d.forest.Later g → P a g → Q a g) (hd : d.forest.Upright T) :
    (upright T).Allows act d Q := by
  intro a d' hact
  have hrun := (h hd).run hact
  have hupright := Upright.steps (S := anywhere T) hd hrun
  exact ⟨fun _ => ⟨hupright, hrun.later⟩, hQ a _ hupright hrun.later ((h hd).2 a d' hact)⟩

theorem upright_isOpen (hfg : (upright T).leads f g) (h : (upright T).isOpen f i) :
    (upright T).isOpen g i := by
  obtain ⟨hf, hT, hi, hkind⟩ := h
  obtain ⟨hg, hlater⟩ := hfg hf
  exact ⟨hg, hT, Nat.lt_of_lt_of_le hi hlater.size_le, (hlater.kind_eq i hi).symm ▸ hkind⟩

theorem upright_lawful (T : NodeId → Prop) : (upright T).Lawful where
  refl f hf := ⟨hf, .refl f⟩
  trans hfg hgh hf := by
    obtain ⟨hg, hlater⟩ := hfg hf
    obtain ⟨hh, hlater'⟩ := hgh hg
    exact ⟨hh, hlater.trans hlater'⟩
  isOpen_of_leads := upright_isOpen
  isProperty_of_leads := by
    rintro f g i hfg ⟨hf, hT, hi, hkind⟩
    obtain ⟨hg, hlater⟩ := hfg hf
    exact ⟨hg, hT, Nat.lt_of_lt_of_le hi hlater.size_le, (hlater.kind_eq i hi).trans hkind⟩
  isOpen_of_isProperty := by
    rintro f i ⟨hf, hT, hi, hkind⟩
    exact ⟨hf, hT, hi, hkind ▸ by decide⟩
  null := trivial
  nested _ _ := trivial
  normalized _ := trivial
  reference _ _ _ := ⟨trivial, fun _ => trivial⟩
  field := by
    rintro d i name v ⟨hd, hT, hi, hkind⟩ hname a d' hact
    obtain ⟨-, hvalues⟩ := SharedType.placement?_parts hkind
    have hset : Edit.assign? i name v d
        = .ok () (d.to (d.forest.put i ((d.forest.get i).putValue name v))) ∧
        (d.forest.put i ((d.forest.get i).putValue name v)).Upright T := by
      rcases hname with hname | ⟨rfl, rfl⟩ | ⟨rfl, rfl⟩
      · have hfield := Kind.schemaFields_subset _ hkind hname
        exact ⟨Edit.assign?_field hfield v, hd.putField hT hi hfield v⟩
      · exact ⟨Edit.assign?_slot (Kind.mem_slots_of_placement? hvalues) _,
          hd.putSlot hT hi hvalues (.flag _) rfl⟩
      · have hp := Kind.placement?_properties hkind
        exact ⟨Edit.assign?_slot (Kind.mem_slots_of_placement? hp) _,
          hd.putSlot hT hi hp (.list _ rfl fun _ h => absurd h List.not_mem_nil) rfl⟩
    obtain ⟨hok, hupright⟩ := hset
    cases hok.symm.trans hact
    exact ⟨fun _ => ⟨hupright, .put rfl rfl hi⟩, trivial⟩
  renewed := by
    rintro d i slot k ⟨hd, hT, hi, hkind⟩ hslot a d' hact
    obtain ⟨hp, hk⟩ : (∃ b, (d.forest.get i).kind.placement? slot = some (.single k b)) ∧
        k ∈ Kind.schemas := by
      obtain ⟨hitems, hvalues⟩ := SharedType.placement?_parts hkind
      rcases List.mem_cons.1 hslot with he | hslot
      · cases he
        exact ⟨⟨_, hitems⟩, by decide⟩
      · cases List.mem_singleton.1 hslot
        exact ⟨⟨_, hvalues⟩, by decide⟩
    obtain ⟨b, hp⟩ := hp
    rw [Edit.renew_eq rfl hi (Kind.mem_slots_of_placement? hp)] at hact
    cases hact
    have hfields : Entries.AreFields k [] := fun _ h => absurd h List.not_mem_nil
    have hchild : (Edit.withChild d.forest i k [] slot (.node d.forest.size)).IsChild i k
        d.forest.size := isChild_withChild hi hfields
    have hadded := hd.add hT hi k
    have hget := d.forest.get_add_of_lt hi { kind := k, parent := .node i }
    have hupright : (Edit.withChild d.forest i k [] slot (.node d.forest.size)).Upright T := by
      have hlt := Nat.lt_of_lt_of_le hi (Later.add (f := d.forest) { kind := k, parent := .node i }).size_le
      have hput := hadded.putSlot hT hlt (σ := slot) (v := .node d.forest.size) (hget.symm ▸ hp)
        (.child ⟨by simp, by rw [get_add_self], by rw [get_add_self]⟩
          (hd.formed.fresh _ (Nat.le_refl _))) rfl
      rw [hget] at hput
      exact hput
    refine ⟨fun _ => ⟨hupright, ?_⟩, hupright, hd.formed.fresh _ (Nat.le_refl _), hchild.1,
      hchild.2.1.symm ▸ hk⟩
    have hlater := Later.add (f := d.forest) { kind := k, parent := .node i }
    exact hlater.trans (.put (by rw [hget]; rfl) (by rw [hget]; rfl)
      (Nat.lt_of_lt_of_le hi hlater.size_le))
  child := by
    rintro d i slot k ⟨hd, hT, hi, hkind⟩ hslot
    have hk : k ∈ Kind.schemas := (Kind.itemSlots_singular _ hkind _ hslot).2
    refine upright_follows (fun hd => .child hd.formed hT hi fun _ h => absurd h List.not_mem_nil)
      (fun j g hg _ ⟨σ, b, hlinked⟩ => ?_) hd
    exact ⟨hg, hlinked.node, hlinked.child.1, hlinked.child.2.1.symm ▸ hk⟩
  property := by
    rintro d i v ⟨hd, hT, hi, -⟩
    refine upright_follows (fun hd => .indexedItem hd.formed hT hi v)
      (fun j g hg _ ⟨slot, hlinked⟩ => ?_) hd
    exact ⟨hg, hlinked.node, hlinked.child.1, hlinked.child.2.1⟩
  removed := by
    rintro d i v ⟨hd, hT, hi, -⟩
    have hself : (upright T).Allows (pure Data.null) d fun _ _ => True := by
      rintro a d' ⟨⟩
      exact ⟨fun hd => ⟨hd, .refl _⟩, trivial⟩
    refine .after_look (.slotFor .indexed (·.indexed)) fun slot hslot => ?_
    have hp := Kind.placement?_indexed _ _ hslot
    refine .after_look (.node i) fun n hn => ?_
    subst hn
    split
    · rename_i items mark hlist
      refine .after_look (.searchIndexed _ _ _) fun n? _ => ?_
      cases n? with
      | none => exact hself
      | some n =>
        -- What is left in the list are members.
        have hfills := hd.formed.slots i hT hi _ _ hp
        rw [hlist] at hfills
        have hleft : d.forest.Fills T i (.keyed .property slot.key)
            (.list (items.eraseIdx n) mark) := by
          cases hfills with
          | list _ hlist hxs => exact .list _ hlist fun x hx => hxs x (List.mem_of_mem_eraseIdx hx)
        rintro a d' ⟨⟩
        exact ⟨fun _ => ⟨hd.putSlot hT hi hp hleft rfl, .put rfl rfl hi⟩, trivial⟩
    · exact hself
  merged := by
    rintro d i o es policy happlies -
    obtain ⟨hd, hT, hi⟩ : d.forest.Upright T ∧ T i ∧ i < d.forest.size := by
      rcases happlies with ⟨h, -⟩ | ⟨h, -⟩ <;> exact ⟨h.1, h.2.1, h.2.2.1⟩
    refine upright_follows (fun hd => .mergeEntries rfl (Licence.covers_any (fun _ _ => trivial) _)
      ⟨.refl _, hd.formed, hT, hi⟩ trivial) (fun _ _ _ _ _ => trivial) hd

theorem upright_covers (w : World) : (upright T).Covers w :=
  ⟨fun _ _ _ => trivial, fun _ _ _ _ _ _ => trivial, fun _ _ _ _ _ _ => trivial⟩

/-- What a computation leaves of an upright forest, where it succeeds. -/
theorem Does.upright {α : Type} {act : Describe α} {s s' : Site} {Q : α → Forest → Prop} {a : α}
    (h : (upright T).Does act s Q) {d : Desk} (hd : s.desk? = some d)
    (hs : s.draft.forest.Upright T) (hact : act s = .ok a s') :
    s'.draft.forest.Upright T ∧ s.draft.forest.Later s'.draft.forest ∧ Q a s'.draft.forest := by
  obtain ⟨_, _, -, -, hleads⟩ := h d hd fun _ _ => trivial
  rw [hact] at hleads
  obtain ⟨hupright, hlater⟩ := hleads.2.1 hs
  exact ⟨hupright, hlater, hleads.2.2⟩

end Rules

end ApiDoc
