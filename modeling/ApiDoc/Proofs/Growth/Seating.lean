import ApiDoc.Proofs.Growth.Turns

namespace ApiDoc

/-!
# Merges seat their sources

Where a merge that refuses no key succeeds, all that is in the source is found in the tree:

* `Placement.Presentable`, `Merge.Presents` — sources all of whose keys can be found: what they bring
  for a list of members is not empty;
* `Merge.Seating`, `Merge.Seats` — how such a source is merged, and what is to be shown of it;
* `Merge.Placed`, `Seating.placed` — a value merged into a child that is found or made;
* `Seating.members`, `Seating.items` — members one after the other: those under keys are different
  children, those told apart by fields need not be;
* `Seating.content` — a whole source, by induction on its size and on how often it is read from
  nodes.
-/

open Forest

/-! ### Sources that can be found -/

/-- A value that can be found in a slot: it brings at least one member if the slot is a list, under
    different texts, or told apart by fields that are set. -/
def Placement.Presentable (S : Licence) (f : Forest) (p : Placement) (v : Data) : Prop :=
  match p with
  | .single _ _ => True
  | .keyed _ _ => ∀ (fs : Entries) mark, v = .map fs mark → fs ≠ [] ∧ fs.Distinct
  | .listed k slot => ∀ xs, v.items? = some xs → xs ≠ [] ∧ ∀ x ∈ xs, x.Offers S f fun gs =>
      gs.Distinct ∧ ∀ e ∈ gs.identity k slot, e.2 ≠ .unset

namespace Merge

/-- A class of sources all of whose keys can be found afterwards: they write no field that a licence
    does not allow, give a value to each field that they name, and bring members for each list of
    members that they name. -/
structure Presents (S : Licence) (f : Forest) (P : Kind → Entries → Prop) : Prop where
  covers : S.Covers f P
  assigns : Assigns P
  slots : ∀ k es, P k es → ∀ σ p v, k.placement? σ = some p → es.text? (wireName σ) = some v →
    p.Presentable S f v

/-- A merge of such sources that refuses no key, and writes no internal field. -/
structure Seating (S : Licence) (f : Forest) (P : Kind → Entries → Prop) (o : MergeOptions) :
    Prop where
  overwrite : o.overwrite = S.overwrite
  policy : o.policy = .error
  spares : S.Spares
  presents : Presents S f P

theorem Seating.under {S : Licence} {f : Forest} {P : Kind → Entries → Prop} {o : MergeOptions}
    (h : Seating S f P o) : Under S f P o := ⟨h.overwrite, h.presents.covers⟩

/-- A source that is found wherever it is merged. -/
def Seats (S : Licence) (f : Forest) (P : Kind → Entries → Prop) (o : MergeOptions) (n : Nat)
    (es : Entries) : Prop :=
  ∀ d i d', d.forest.Consistent → Edit.Ready S f d i → P (d.forest.get i).kind es →
    content o (parts o (readParts o n) es) i d = .ok () d' →
    (∀ mark, Seated S f d'.forest false (.content (d.forest.get i).kind) i (.map es mark)) ∧
      d.forest.NewKeys d'.forest

/-- A value that is found in a child, with all else as it was in other slots and other children. -/
structure Placed (S : Licence) (f₀ f g : Forest) (i : NodeId) (σ : String) (p : Placement)
    (key v : Data) (j : NodeId) : Prop where
  linked : g.Linked S i σ p key j
  mem : .node j ∈ ((g.get i).value σ).nodes
  seated : Seated S f₀ g false (.content p.kind) j v
  confined : f.Confined g i σ j
  newKeys : f.NewKeys g

/-- The entry for a slot that is found in it, with all else as it was in other slots. -/
structure SlotSeated (S : Licence) (f₀ f g : Forest) (i : NodeId) (es : Entries) (σ : String)
    (p : Placement) : Prop where
  seated : ∀ v, es.text? (wireName σ) = some v → Seated S f₀ g false (.slot σ p) i v
  slots : ∀ τ ∈ (f.get i).kind.slots, τ ≠ σ → f.SlotUnmoved g i τ
  newKeys : f.NewKeys g

namespace Seating

variable {S : Licence} {f₀ : Forest} {P : Kind → Entries → Prop} {o : MergeOptions}
  {d d₁ d' : Draft} {i j : NodeId} {σ : String} {p : Placement} {k : Kind} {n : Nat} {v key : Data}
  {es : Entries}

/-! ### One child -/

/-- The content of a value, be it a mapping or read from a node. -/
theorem opened_eq_ok {act : List Part → Edit Unit} (h : opened o n act v d = .ok () d') :
    (∃ gs mark, v = .map gs mark ∧ act (parts o (readParts o n) gs) d = .ok () d') ∨
      ∃ j m gs, v = .node j ∧ n = m + 1 ∧ d.forest.content j = .ok gs ∧
        act (parts o (readParts o m) gs) d = .ok () d' := by
  cases v with
  | map gs mark => exact .inl ⟨gs, mark, rfl, h⟩
  | node j =>
    obtain ⟨ps, d₁, hps, h⟩ := Results.bind_eq_ok.1 h
    obtain ⟨m, gs, rfl, rfl, hgs, rfl⟩ := partsOf_eq_ok.1 hps
    exact .inr ⟨j, m, gs, rfl, rfl, hgs, h⟩
  | _ => cases h

variable (h : Seating S f₀ P o)

include h

/-- A value as the content of a node. -/
theorem asContent (hd : d.forest.Consistent) (hready : Edit.Ready S f₀ d i)
    (hv : v.Offers S f₀ (P (d.forest.get i).kind))
    (hsmaller : ∀ gs mark, v = .map gs mark → Seats S f₀ P o n gs)
    (hfewer : ∀ m < n, ∀ gs, Seats S f₀ P o m gs)
    (hok : Merge.asContent o (readParts o n) v i d = .ok () d') :
    Seated S f₀ d'.forest false (.content (d.forest.get i).kind) i v ∧
      d.forest.NewKeys d'.forest := by
  have hrun := (h.under.asContent hready n hv).run hok
  rw [asContent_eq_opened] at hok
  rcases opened_eq_ok hok with ⟨gs, mark, rfl, hok⟩ | ⟨j, m, gs, rfl, rfl, hgs, hok⟩
  · obtain ⟨hseated, hnew⟩ := hsmaller gs mark rfl d i d' hd hready hv hok
    exact ⟨hseated mark, hnew⟩
  · obtain ⟨hseated, hnew⟩ := hfewer m (Nat.lt_succ_self m) gs d i d' hd hready
      (hv _ hready.since gs hgs) hok
    exact ⟨.node ⟨_, hready.since, hrun, hgs⟩ (hseated 0), hnew⟩

/-- A value merged into a child that has been found or made. -/
theorem placed (hd : d.forest.Consistent) (hready : Edit.Ready S f₀ d i)
    (hrun : Steps S d.forest d₁.forest) {fields : Entries}
    (htouches : d.forest.Touches i σ (.newChild i p.kind fields) d₁.forest)
    (hlinked : d₁.forest.Linked S i σ p key j)
    (hmem : .node j ∈ ((d₁.forest.get i).value σ).nodes) (hfields : fields.AreFields p.kind)
    (hkey : ∀ c name, p = .keyed c name → ∃ s : String, fields = [(.str name, .str s)])
    (hv : v.Offers S f₀ (P p.kind)) (hsmaller : ∀ gs mark, v = .map gs mark → Seats S f₀ P o n gs)
    (hfewer : ∀ m < n, ∀ gs, Seats S f₀ P o m gs)
    (hok : Merge.asContent o (readParts o n) v j d₁ = .ok () d') :
    Placed S f₀ d.forest d'.forest i σ p key v j := by
  obtain ⟨hready₁, hkind⟩ := hready.linked hrun hlinked
  have hd₁ := h.spares.consistent hd hrun
  rw [← hkind] at hv
  -- What is done to the child does not leave its tree.
  have hwithin := (hd₁.formed.wellFormed (i := j) trivial hlinked.child.1).formed
  have hbelow : ∀ b, d₁.forest.Around j b → S.nodes b := fun b hb => hb.elim
    (fun hb => (hready₁.formed.below hready₁.node hready₁.lt hb).1) (hready₁.formed.fresh b)
  have hinside := ((h.under.within hbelow hready₁.since).asContent
    ⟨.refl _, hwithin, .inl .self, hready₁.lt⟩ n (hv.within hbelow hready₁.since)).run hok
  obtain ⟨hconfined, hself⟩ := htouches.confined hd hd₁ hlinked.placed hmem rfl hinside
  obtain ⟨hseated, hnew⟩ := h.asContent hd₁ hready₁ hv hsmaller hfewer hok
  have hlast := hinside.of_within hbelow
  refine ⟨hlinked.steps hlast, by rwa [hself], hkind ▸ hseated, hconfined, ?_⟩
  exact (htouches.newKeys hd₁ hlinked.placed rfl hfields hkey).trans h.spares.keepsKeys hd₁ hlast
    hnew

/-- The only child in a slot. -/
theorem single {b : Bool} (hd : d.forest.Consistent) (hready : Edit.Ready S f₀ d i)
    (hp : (d.forest.get i).kind.placement? σ = some (.single k b)) (hv : v.Offers S f₀ (P k))
    (hsmaller : ∀ gs mark, v = .map gs mark → Seats S f₀ P o n gs)
    (hfewer : ∀ m < n, ∀ gs, Seats S f₀ P o m gs)
    (hok : (do Merge.asContent o (readParts o n) v (← Edit.child i k)) d = .ok () d') :
    ∃ j, Placed S f₀ d.forest d'.forest i σ (.single k b) .unset v j := by
  have hnone : Entries.Unreserved [] := fun _ h => absurd h List.not_mem_nil
  obtain ⟨j, d₁, hj, hok⟩ := Results.bind_eq_ok.1 hok
  have hchild := Edit.Follows.child (k := k) hready.formed hready.node hready.lt hnone
  have hrun := hchild.run hj
  have hp₁ := (hrun.later.placed hready.lt hp).2
  obtain ⟨τ, c, hlinked⟩ := hchild.2 j d₁ hj
  obtain ⟨rfl, he⟩ := hlinked.slot_eq hp₁ rfl
  cases he
  -- The child has just been found or made, and so it is there.
  obtain ⟨τ', c', hthere⟩ := (Edit.Follows.child (S := { S with overwrite := false }) (k := k)
    hready.formed hready.node hready.lt hnone).2 j d₁ hj
  obtain ⟨rfl, -⟩ := hthere.slot_eq hp₁ rfl
  exact ⟨j, h.placed hd hready hrun (Edit.Touches.child hready.lt hp hnone j d₁ hj) hlinked
    (hthere.slot (.inr rfl)) (fun _ h => absurd h List.not_mem_nil) (fun _ _ => nofun) hv hsmaller
    hfewer hok⟩

/-- The member under a key. -/
theorem member {name s : String} {e : Data × Data} (hd : d.forest.Consistent)
    (hready : Edit.Ready S f₀ d i)
    (hp : (d.forest.get i).kind.placement? σ = some (.keyed k name)) (hs : e.1 = .str s)
    (hv : e.2.Offers S f₀ (P k)) (hsmaller : ∀ gs mark, e.2 = .map gs mark → Seats S f₀ P o n gs)
    (hfewer : ∀ m < n, ∀ gs, Seats S f₀ P o m gs)
    (hok : intoMember o (readParts o n) i k e d = .ok () d') :
    ∃ j, Placed S f₀ d.forest d'.forest i σ (.keyed k name) e.1 e.2 j := by
  obtain ⟨j, d₁, hj, hok⟩ := Results.bind_eq_ok.1 hok
  have hitem := Edit.Follows.indexedItem (k := k) hready.formed hready.node hready.lt e.1
  have hrun := hitem.run hj
  obtain ⟨slot, hlinked⟩ := hitem.2 j d₁ hj
  obtain ⟨rfl, he⟩ := hlinked.slot_eq (hrun.later.placed hready.lt hp).2 rfl
  cases he
  have hfields : Entries.AreFields k [(.str slot.key, e.1)] := by
    intro e he
    rw [List.mem_singleton.1 he]
    exact ⟨slot.key, (Kind.keyed_field hp).1, rfl⟩
  refine ⟨j, h.placed hd hready hrun (Edit.Touches.indexedItem hready.lt hp e.1 j d₁ hj) hlinked
    (hlinked.slot (.inl rfl)) hfields ?_ hv hsmaller hfewer hok⟩
  rintro _ _ ⟨⟩
  exact ⟨s, by rw [hs]⟩

/-! ### Members one after the other -/

/-- Some members under different keys. A member that stands under none of these keys stays as it
    is, and so what has been merged into the first of them is still found after the others. -/
theorem members {name : String} {fs : Entries} (hd : d.forest.Consistent)
    (hready : Edit.Ready S f₀ d i)
    (hp : (d.forest.get i).kind.placement? σ = some (.keyed k name)) (hfs : fs.Distinct)
    (hoffers : ∀ e ∈ fs, e.2.Offers S f₀ (P k))
    (hsmaller : ∀ e ∈ fs, ∀ gs mark, e.2 = .map gs mark → Seats S f₀ P o n gs)
    (hfewer : ∀ m < n, ∀ gs, Seats S f₀ P o m gs)
    (hok : List.forM fs (intoMember o (readParts o n) i k) d = .ok () d') :
    (∀ e ∈ fs, ∃ j, d'.forest.Linked S i σ (.keyed k name) e.1 j ∧
      Seated S f₀ d'.forest false (.content k) j e.2) ∧
    (∀ τ ∈ (d.forest.get i).kind.slots, τ ≠ σ → d.forest.SlotUnmoved d'.forest i τ) ∧
    (∀ b s, d.forest.Linked S i σ (.keyed k name) (.str s) b → (∀ e ∈ fs, e.1 ≠ .str s) →
      d.forest.Unmoved d'.forest b) ∧
    d.forest.NewKeys d'.forest := by
  induction fs generalizing d with
  | nil =>
    cases hok
    exact ⟨fun _ h => absurd h List.not_mem_nil, fun τ _ _ => .refl _ _ τ,
      fun b _ _ _ => .refl _ b, .refl hd⟩
  | cons e fs ih =>
    obtain ⟨⟨⟩, d₁, hfirst, hrest⟩ := Results.bind_eq_ok.1 hok
    obtain ⟨hoffer, hoffers⟩ := List.forall_mem_cons.1 hoffers
    obtain ⟨hsmall, hsmaller⟩ := List.forall_mem_cons.1 hsmaller
    obtain ⟨s, hs⟩ := hfs.1 e List.mem_cons_self
    have hother : ∀ e' ∈ fs, e'.1 ≠ .str s := fun e' he' =>
      hs ▸ Ne.symm ((List.pairwise_cons.1 hfs.2).1 e' he')
    have hrun := (h.under.member hready n hoffer).run hfirst
    have hready₁ := hready.steps hrun
    have hd₁ := h.spares.consistent hd hrun
    obtain ⟨j, hplaced⟩ := h.member hd hready hp hs hoffer hsmall hfewer hfirst
    have hlast := (h.under.members hready₁ n hoffers).run hrest
    obtain ⟨hall, hslots, hothers, hnew⟩ := ih hd₁ hready₁ (hrun.later.placed hready.lt hp).2
      hfs.tail hoffers hsmaller hrest
    refine ⟨List.forall_mem_cons.2 ⟨⟨j, hplaced.linked.steps hlast, ?_⟩, hall⟩, fun τ hτ hne => ?_,
      fun b s' hb hnot => ?_, hplaced.newKeys.trans h.spares.keepsKeys hd₁ hlast hnew⟩
    · exact hplaced.seated.unmoved hlast (hothers j s (hs ▸ hplaced.linked) hother)
    · refine (hplaced.confined.slots τ hτ hne).trans (hslots τ ?_ hne)
      rwa [hrun.later.kind_eq i hready.lt]
    · obtain ⟨hne, hnot⟩ := List.forall_mem_cons.1 hnot
      have hb₁ := hb.steps hrun
      refine (hplaced.confined.members b (hb.slot (.inl rfl)) (hb₁.slot (.inl rfl)) ?_).trans
        (hothers b s' hb₁ hnot)
      -- The member that has just been found has another key.
      rintro rfl
      have hnokey := h.spares.keepsKeys _ _ _ _ hp
      have hkey := hb₁.key k name s' rfl rfl hnokey
      rw [hplaced.linked.key k name s rfl hs hnokey] at hkey
      exact hne (hs.trans hkey)

/-- An item of a list merged into the member that it finds. -/
theorem listed {slot : CollectionSlot} (hd : d.forest.Consistent) (hready : Edit.Ready S f₀ d i)
    (hp : (d.forest.get i).kind.placement? slot.name = some (.listed k slot))
    (hes : P k (es.rest k slot)) (hdistinct : es.Distinct)
    (hset : ∀ e ∈ es.identity k slot, e.2 ≠ .unset) (hseats : Seats S f₀ P o n (es.rest k slot))
    (hfewer : ∀ m < n, ∀ gs, Seats S f₀ P o m gs)
    (hok : Merge.listed o k slot (parts o (readParts o n) es) i d = .ok () d') :
    ∃ j, d'.forest.Linked S i slot.name (.listed k slot) .unset j ∧
      (∀ mark, Seated S f₀ d'.forest true (.item k slot) j (.map es mark)) ∧
      (∀ τ ∈ (d.forest.get i).kind.slots, τ ≠ slot.name → d.forest.SlotUnmoved d'.forest i τ) ∧
      d.forest.NewKeys d'.forest := by
  rw [listed_parts] at hok
  obtain ⟨j, d₁, hj, hok⟩ := Results.bind_eq_ok.1 hok
  have hslot := Kind.identifying_ne_nil hp
  have hfields := areFields_identity k slot es
  have hitem := Edit.Follows.collectionItem (k := k) hready.formed hready.node hready.lt
    hfields.unreserved
  have hrun := hitem.run hj
  obtain ⟨slot', hlinked⟩ := hitem.2 j d₁ hj
  obtain ⟨-, he⟩ := (hlinked .unset).slot_eq (hrun.later.placed hready.lt hp).2 rfl
  cases he
  have hlinked := hlinked .unset
  have hplaced := h.placed (n := n) (v := .ofEntries (es.rest k slot)) hd hready hrun
    (Edit.Touches.collectionItem hready.lt hp hfields.unreserved j d₁ hj) hlinked
    (hlinked.slot (.inl rfl)) hfields (fun _ _ => nofun) hes
    (by rintro _ _ ⟨⟩; exact hseats) hfewer hok
  -- The member keeps the values by which it has been found.
  obtain ⟨hready₁, hkind⟩ := hready.linked hrun hlinked
  have hvalues := (Edit.Follows.collectionItem_values (k := k) hready.formed hready.node hready.lt
    hfields (hdistinct.identity hslot) hset).2 j d₁ hj
  have hleaves : d₁.forest.Leaves (fun _ => False) j (es.rest k slot) := .rest hlinked es
  have hricher := (Edit.Enriches.enriching h.under h.presents.assigns n _ d₁ j hready₁
    (by rw [hkind]; exact hes) hleaves).richer () d' hok
  have hidentifies : ∀ name ∈ slot.identifying, d₁.forest.Identifies j name := fun name hname =>
    ⟨i, _, k, slot, hlinked.holder, hlinked.placed, hlinked.child, hname⟩
  refine ⟨j, hplaced.linked, fun mark => ?_, hplaced.confined.slots, hplaced.newKeys⟩
  refine Seated.later (.itemMap mark (fun name hname => (hidentifies name hname).later hricher.later)
    (fun e he => ?_) hplaced.seated) (.refl _) (.refl _ _) hplaced.linked.child.1
  obtain ⟨name, hname, hkey⟩ := Entries.mem_identity hslot he
  have hvalue := hvalues name e.2 (by rw [← hkey]; exact he)
  have hkept := hricher.identity j hlinked.child.1 (fun h => h) name (hidentifies name hname)
  refine ⟨name, hname, hkey, ?_, by rwa [hkept]⟩
  rw [hkept]
  rcases hvalue with heq | halike
  · rw [heq]
    exact hset e he
  · intro hunset
    have hfalse := Data.isUnset_of_alike halike (Data.isUnset_eq_false (hset e he))
    rw [hunset] at hfalse
    cases hfalse

theorem item {slot : CollectionSlot} {x : Data} (hd : d.forest.Consistent)
    (hready : Edit.Ready S f₀ d i)
    (hp : (d.forest.get i).kind.placement? slot.name = some (.listed k slot))
    (hx : x.Offers S f₀ fun gs => P k (gs.rest k slot))
    (hpresent : x.Offers S f₀ fun gs => gs.Distinct ∧ ∀ e ∈ gs.identity k slot, e.2 ≠ .unset)
    (hsmaller : ∀ (gs : Entries) mark, x = .map gs mark → Seats S f₀ P o n (gs.rest k slot))
    (hfewer : ∀ m < n, ∀ gs, Seats S f₀ P o m gs)
    (hok : opened o n (fun ps => Merge.listed o k slot ps i) x d = .ok () d') :
    ∃ j, d'.forest.Linked S i slot.name (.listed k slot) .unset j ∧
      Seated S f₀ d'.forest true (.item k slot) j x ∧
      (∀ τ ∈ (d.forest.get i).kind.slots, τ ≠ slot.name → d.forest.SlotUnmoved d'.forest i τ) ∧
      d.forest.NewKeys d'.forest := by
  have hrun := (h.under.item hready n hp hx).run hok
  rcases opened_eq_ok hok with ⟨gs, mark, rfl, hok⟩ | ⟨c, m, gs, rfl, rfl, hgs, hok⟩
  · obtain ⟨j, hlinked, hseated, hrest⟩ := h.listed hd hready hp hx hpresent.1 hpresent.2
      (hsmaller gs mark rfl) hfewer hok
    exact ⟨j, hlinked, hseated mark, hrest⟩
  · have hpresent := hpresent _ hready.since gs hgs
    obtain ⟨j, hlinked, hseated, hrest⟩ := h.listed hd hready hp (hx _ hready.since gs hgs)
      hpresent.1 hpresent.2 (hfewer m (Nat.lt_succ_self m) _)
      (fun m' hm' => hfewer m' (Nat.lt_succ_of_lt hm')) hok
    exact ⟨j, hlinked, .itemNode ⟨_, hready.since, hrun, hgs⟩ (hseated 0), hrest⟩

/-- Some items of a list. Two of them may find the same member, but none takes anything away. -/
theorem items {slot : CollectionSlot} {xs : List Data} (hd : d.forest.Consistent)
    (hready : Edit.Ready S f₀ d i)
    (hp : (d.forest.get i).kind.placement? slot.name = some (.listed k slot))
    (hoffers : ∀ x ∈ xs, x.Offers S f₀ fun gs => P k (gs.rest k slot))
    (hpresent : ∀ x ∈ xs, x.Offers S f₀ fun gs =>
      gs.Distinct ∧ ∀ e ∈ gs.identity k slot, e.2 ≠ .unset)
    (hsmaller : ∀ x ∈ xs, ∀ (gs : Entries) mark, x = .map gs mark →
      Seats S f₀ P o n (gs.rest k slot))
    (hfewer : ∀ m < n, ∀ gs, Seats S f₀ P o m gs)
    (hok : xs.forM (opened o n fun ps => Merge.listed o k slot ps i) d = .ok () d') :
    (∀ x ∈ xs, ∃ j, d'.forest.Linked S i slot.name (.listed k slot) .unset j ∧
      Seated S f₀ d'.forest true (.item k slot) j x) ∧
    (∀ τ ∈ (d.forest.get i).kind.slots, τ ≠ slot.name → d.forest.SlotUnmoved d'.forest i τ) ∧
    d.forest.NewKeys d'.forest := by
  induction xs generalizing d with
  | nil =>
    cases hok
    exact ⟨fun _ h => absurd h List.not_mem_nil, fun τ _ _ => .refl _ _ τ, .refl hd⟩
  | cons x xs ih =>
    obtain ⟨⟨⟩, d₁, hfirst, hrest⟩ := Results.bind_eq_ok.1 hok
    obtain ⟨hoffer, hoffers⟩ := List.forall_mem_cons.1 hoffers
    obtain ⟨hpres, hpresent⟩ := List.forall_mem_cons.1 hpresent
    obtain ⟨hsmall, hsmaller⟩ := List.forall_mem_cons.1 hsmaller
    have hrun := (h.under.item hready n hp hoffer).run hfirst
    have hready₁ := hready.steps hrun
    have hd₁ := h.spares.consistent hd hrun
    have hp₁ := (hrun.later.placed hready.lt hp).2
    obtain ⟨j, hlinked, hseated, hslots, hnew⟩ := h.item hd hready hp hoffer hpres hsmall hfewer
      hfirst
    -- The later items take nothing away from what the first one has been merged into.
    have henriches : Edit.Enriches S (fun _ => False)
        (xs.forM (opened o n fun ps => Merge.listed o k slot ps i)) d₁ fun _ _ => True := by
      refine .forM fun x hx d₂ hrun₂ => ?_
      exact .item (hready₁.steps hrun₂) (hrun₂.later.placed hready₁.lt hp₁).2 (hoffers x hx)
        (fun gs mark _ => Edit.Enriches.enriching h.under h.presents.assigns n _)
        fun m _ gs => Edit.Enriches.enriching h.under h.presents.assigns m gs
    have hlast := henriches.follows.run hrest
    obtain ⟨hall, hslots', hnew'⟩ := ih hd₁ hready₁ hp₁ hoffers hpresent hsmaller hrest
    refine ⟨List.forall_mem_cons.2 ⟨⟨j, hlinked.steps hlast, ?_⟩, hall⟩, fun τ hτ hne => ?_,
      hnew.trans h.spares.keepsKeys hd₁ hlast hnew'⟩
    · exact hseated.later hlast (henriches.richer () d' hrest) hlinked.child.1
    · refine (hslots τ hτ hne).trans (hslots' τ ?_ hne)
      rwa [hrun.later.kind_eq i hready.lt]

/-! ### All entries -/

/-- A value taken into a slot. -/
theorem take (hd : d.forest.Consistent) (hready : Edit.Ready S f₀ d i)
    (hp : (d.forest.get i).kind.placement? σ = some p) (hv : p.refuses v = none)
    (hoffers : p.Offers S f₀ P v) (hpresent : p.Presentable S f₀ v)
    (hsmaller : ∀ gs : Entries, sizeOf gs < sizeOf v → Seats S f₀ P o n gs)
    (hfewer : ∀ m < n, ∀ gs, Seats S f₀ P o m gs)
    (hok : Merge.take o (readParts o n) i σ p v d = .ok () d') :
    Seated S f₀ d'.forest false (.slot σ p) i v ∧
      (∀ τ ∈ (d.forest.get i).kind.slots, τ ≠ σ → d.forest.SlotUnmoved d'.forest i τ) ∧
      d.forest.NewKeys d'.forest := by
  have hitems : ∀ item ∈ p.items v, Seats S f₀ P o n item.2 :=
    fun item hitem => hsmaller _ (Placement.sizeOf_items_lt hitem)
  cases p with
  | single k b =>
    -- A mapping or a node goes into the child, which is found or made.
    have hchild : (∀ gs mark, v = .map gs mark → Seats S f₀ P o n gs) →
        (do Merge.asContent o (readParts o n) v (← Edit.child i k)) d = .ok () d' →
        Seated S f₀ d'.forest false (.slot σ (.single k b)) i v ∧
          (∀ τ ∈ (d.forest.get i).kind.slots, τ ≠ σ → d.forest.SlotUnmoved d'.forest i τ) ∧
          d.forest.NewKeys d'.forest := by
      intro hmap hok
      obtain ⟨j, hplaced⟩ := h.single hd hready hp hoffers hmap hfewer hok
      exact ⟨.single hplaced.linked hplaced.mem hplaced.seated, hplaced.confined.slots,
        hplaced.newKeys⟩
    cases v with
    | map gs mark =>
      refine hchild ?_ hok
      rintro _ _ ⟨⟩
      exact hsmaller gs (by rw [Data.map.sizeOf_spec]; omega)
    | node j => exact hchild (fun _ _ => nofun) hok
    | scalar x =>
      cases x with
      | bool c =>
        cases b with
        | false => cases hv
        | true =>
          -- A truth value takes the place of the child, if there is none or overwriting is allowed.
          have hok : Merge.setScalar o i σ (.bool c) d = .ok () d' := hok
          rcases Edit.setScalar_cases hok with hd' | ⟨hd', hset⟩
          · have htouches : d.forest.Touches i σ (.newChild i k []) d'.forest :=
              hd' ▸ .put hready.lt σ _ _
            have hsame : Steps S d.forest d'.forest := by
              refine (Edit.Follows.setScalar h.overwrite hready fun hset => ?_).run hok
              exact .flag c hp hset
            refine ⟨.flag c ?_, fun τ hτ hne => htouches.slotUnmoved hd hτ hne,
              .of_size_eq (h.spares.consistent hd hsame) (by rw [hd', size_put])⟩
            rw [hd', d.forest.get_put_self hready.lt, Node.value_putValue_self _ σ rfl]
            exact nofun
          · rw [hd']
            exact ⟨.flag c hset, fun τ _ _ => .refl _ _ τ, .refl hd⟩
      | _ => cases hv
    | _ => cases hv
  | keyed k name =>
    cases v with
    | map fs mark =>
      obtain ⟨hne, hdistinct⟩ := hpresent fs mark rfl
      have hok : keyed k (parts o (readParts o n) fs) i d = .ok () d' := hok
      -- Keys are distinct, so that each member is written for one entry only.
      rw [keyed_eq_intoMember] at hok
      obtain ⟨hall, hslots, -, hnew⟩ := h.members hd hready hp hdistinct (hoffers fs mark rfl)
        (fun e he gs mark' hgs => hitems _ (Placement.mem_items_of_keyed k name mark he hgs)) hfewer
        hok
      choose! member hmember using hall
      exact ⟨.keyed mark hne member (fun e he => (hmember e he).1) hdistinct.1
        fun e he => (hmember e he).2, hslots, hnew⟩
    | _ => cases hv
  | listed k slot =>
    obtain ⟨-, rfl⟩ := Kind.mem_collections_of_placement? hp
    -- Lists and tuples are alike from here on.
    have hlist : ∀ xs, v.items? = some xs →
        Merge.items o (readParts o n) xs k slot i d = .ok () d' →
        Seated S f₀ d'.forest false (.slot slot.name (.listed k slot)) i v ∧
          (∀ τ ∈ (d.forest.get i).kind.slots, τ ≠ slot.name →
            d.forest.SlotUnmoved d'.forest i τ) ∧
          d.forest.NewKeys d'.forest := by
      intro xs hxs hok
      obtain ⟨hne, hpresent⟩ := hpresent xs hxs
      rw [items_eq_opened] at hok
      obtain ⟨hall, hslots, hnew⟩ := h.items hd hready hp (hoffers xs hxs) hpresent
        (by rintro _ hx gs mark rfl
            exact hitems _ (Placement.mem_items_of_listed k slot hxs hx)) hfewer hok
      choose! member hmember using hall
      exact ⟨.listed hxs hne member (fun x hx => (hmember x hx).1) fun x hx => (hmember x hx).2,
        hslots, hnew⟩
    cases v with
    | list xs mark => exact hlist xs rfl hok
    | tuple xs mark => exact hlist xs rfl hok
    | _ => cases hv

/-- The entry for a slot. -/
theorem slot (hd : d.forest.Consistent) (hready : Edit.Ready S f₀ d i)
    (hp : (d.forest.get i).kind.placement? σ = some p)
    (hoffers : ∀ v, es.text? (wireName σ) = some v → p.Offers S f₀ P v)
    (hpresent : ∀ v, es.text? (wireName σ) = some v → p.Presentable S f₀ v)
    (hsmaller : ∀ gs : Entries, sizeOf gs < sizeOf es → Seats S f₀ P o n gs)
    (hfewer : ∀ m < n, ∀ gs, Seats S f₀ P o m gs)
    (hok : intoSlot o (readParts o n) i es σ p d = .ok () d') :
    SlotSeated S f₀ d.forest d'.forest i es σ p := by
  cases hv : es.text? (wireName σ) with
  | none =>
    rw [intoSlot_of_none hv] at hok
    cases hok
    exact ⟨fun v hv' => (nomatch hv.symm.trans hv'), fun τ _ _ => .refl _ _ τ, .refl hd⟩
  | some v =>
    cases hwhy : p.refuses v with
    | some why =>
      rw [intoSlot_of_refused hv hwhy] at hok
      have hpolicy := (Edit.Follows.reject (S := S) _ why).2 () d' hok
      rw [h.policy] at hpolicy
      cases hpolicy
    | none =>
      rw [intoSlot_of_taken hv hwhy] at hok
      obtain ⟨hseated, hslots, hnew⟩ := h.take hd hready hp hwhy (hoffers v hv) (hpresent v hv)
        (fun gs hgs => hsmaller gs (Nat.lt_trans hgs (Entries.sizeOf_text?_lt hv))) hfewer hok
      refine ⟨fun w hw => ?_, hslots, hnew⟩
      cases hv.symm.trans hw
      exact hseated

/-- The entries for some slots. What has been found in one is still found after the others. -/
theorem slots (hd : d.forest.Consistent) (hready : Edit.Ready S f₀ d i)
    (hk : (d.forest.get i).kind = k) {qs : List (String × Placement)}
    (hqs : ∀ q ∈ qs, q ∈ k.placements) (hnodup : (qs.map Prod.fst).Nodup) (hes : P k es)
    (hsmaller : ∀ gs : Entries, sizeOf gs < sizeOf es → Seats S f₀ P o n gs)
    (hfewer : ∀ m < n, ∀ gs, Seats S f₀ P o m gs)
    (hok : qs.forM (fun q => intoSlot o (readParts o n) i es q.1 q.2) d = .ok () d') :
    (∀ q ∈ qs, ∀ v, es.text? (wireName q.1) = some v →
      Seated S f₀ d'.forest false (.slot q.1 q.2) i v) ∧
    (∀ τ ∈ k.slots, (∀ q ∈ qs, q.1 ≠ τ) → d.forest.SlotUnmoved d'.forest i τ) ∧
    d.forest.NewKeys d'.forest := by
  induction qs generalizing d with
  | nil =>
    cases hok
    exact ⟨fun _ h => absurd h List.not_mem_nil, fun τ _ _ => .refl _ _ τ, .refl hd⟩
  | cons q qs ih =>
    obtain ⟨⟨⟩, d₁, hfirst, hrest⟩ := Results.bind_eq_ok.1 hok
    obtain ⟨hq, hqs⟩ := List.forall_mem_cons.1 hqs
    obtain ⟨hnot, hnodup⟩ := List.nodup_cons.1 hnodup
    -- The slots differ, and so a later one leaves what an earlier one has taken.
    have hother : ∀ q' ∈ qs, q'.1 ≠ q.1 := fun q' hq' he => hnot (he ▸ List.mem_map_of_mem hq')
    have hp := Kind.placement?_of_mem hq
    have hoffers := fun v => h.presents.covers.slots k es hes q.1 q.2 v hp
    have hrun := (h.under.slot hready n (hk ▸ hp) hoffers).run hfirst
    have hk₁ := (hrun.later.kind_eq i hready.lt).trans hk
    have hready₁ := hready.steps hrun
    have hd₁ := h.spares.consistent hd hrun
    obtain ⟨hseated, hslots, hnew⟩ := h.slot hd hready (hk ▸ hp) hoffers
      (fun v => h.presents.slots k es hes q.1 q.2 v hp) hsmaller hfewer hfirst
    have hlast := (h.under.slots hready₁ n hk₁ hqs hes).run hrest
    obtain ⟨hall, hslots', hnew'⟩ := ih hd₁ hready₁ hk₁ hqs hnodup hrest
    refine ⟨List.forall_mem_cons.2 ⟨fun v hv => ?_, hall⟩, fun τ hτ hne => ?_,
      hnew.trans h.spares.keepsKeys hd₁ hlast hnew'⟩
    · exact (hseated v hv).unmoved hlast (hslots' q.1 (Kind.mem_slots_of_placement? hp) hother)
    · obtain ⟨hne, hnes⟩ := List.forall_mem_cons.1 hne
      exact (hslots τ (hk ▸ hτ) (Ne.symm hne)).trans (hslots' τ hτ hnes)

/-- Some entries that name no slot. -/
theorem plain (hd : d.forest.Consistent) (hready : Edit.Ready S f₀ d i)
    (hk : (d.forest.get i).kind = k) (hes : P k es) {fs : Entries} (hfs : ∀ e ∈ fs, e ∈ es)
    (hok : fs.forM (fun e => Merge.setPlain o i e.1 e.2) d = .ok () d') :
    (∀ e ∈ fs, ∃ s, e.1 = .str s ∧ (d'.forest.get i).Tells s) ∧
    (d.forest.get i).Richer (d'.forest.get i) ∧
    (∀ σ ∈ k.slots, d.forest.SlotUnmoved d'.forest i σ) ∧ d.forest.NewKeys d'.forest := by
  induction fs generalizing d with
  | nil =>
    cases hok
    exact ⟨fun _ h => absurd h List.not_mem_nil, .refl _, fun σ _ => .refl _ _ σ, .refl hd⟩
  | cons e fs ih =>
    obtain ⟨⟨⟩, d₁, hfirst, hrest⟩ := Results.bind_eq_ok.1 hok
    obtain ⟨he, hfs⟩ := List.forall_mem_cons.1 hfs
    obtain ⟨s, hs⟩ := text_of_setPlain hfirst
    have hmay : ∀ s name, e.1 = .str s → (d.forest.get i).kind.fieldOfWire? s = some name →
        S.fields (d.forest.get i).kind name := by
      rw [hk]
      exact h.presents.covers.fields k es hes e he
    have hassigns : ∀ s name, e.1 = .str s → (d.forest.get i).kind.fieldOfWire? s = some name →
        e.2 ≠ .unset := by
      rw [hk]
      exact h.presents.assigns k es hes e he
    -- What the node is told from others by does not matter here.
    have hleaves : d.forest.Leaves (fun _ => True) i [e] := .inl trivial
    have henriches := Edit.Enriches.setPlain h.overwrite hready hmay hassigns hleaves
    have hrun := henriches.follows.run hfirst
    have hricher := (henriches.richer () d₁ hfirst).nodes i hready.lt
    have hk₁ := (hrun.later.kind_eq i hready.lt).trans hk
    have hready₁ := hready.steps hrun
    have hd₁ := h.spares.consistent hd hrun
    have htext : Merge.setPlain o i (.str s) e.2 d = .ok () d₁ := hs ▸ hfirst
    -- The key is told right after its entry, and what follows only makes the node richer.
    have htold := Edit.setPlain_told hd hready.lt h.policy
      (fun name hname => ⟨h.spares _ _ (hmay s name hs hname), hassigns s name hs hname⟩) htext
    have hlast := (h.under.plain hready₁ hk₁ es hes hfs).run hrest
    obtain ⟨hall, hricher', hslots, hnew⟩ := ih hd₁ hready₁ hk₁ hfs hrest
    refine ⟨List.forall_mem_cons.2 ⟨⟨s, hs, ?_⟩, hall⟩, hricher.trans hricher', fun σ hσ => ?_,
      (NewKeys.of_size_eq hd₁ htold.size_eq).trans h.spares.keepsKeys hd₁ hlast hnew⟩
    · exact htold.tells.richer (hlast.later.kind_eq i hready₁.lt) hricher'
    · exact (htold.slots σ (hk ▸ hσ)).trans (hslots σ hσ)

/-- All entries of a source, if those of smaller ones and of nodes read in it are found. -/
theorem content (hsmaller : ∀ gs : Entries, sizeOf gs < sizeOf es → Seats S f₀ P o n gs)
    (hfewer : ∀ m < n, ∀ gs, Seats S f₀ P o m gs) : Seats S f₀ P o n es := by
  intro d i d' hd hready hes hok
  rw [content_parts] at hok
  obtain ⟨m, d₁, hm, hok⟩ := Results.bind_eq_ok.1 hok
  obtain ⟨rfl, rfl⟩ := Edit.Looks.node i m d₁ hm
  obtain ⟨⟨⟩, d₂, hfirst, hrest⟩ := Results.bind_eq_ok.1 hok
  have hrun := (h.under.slots hready n rfl (fun _ hq => hq) hes).run hfirst
  have hk := hrun.later.kind_eq i hready.lt
  have hready₂ := hready.steps hrun
  have hd₂ := h.spares.consistent hd hrun
  obtain ⟨hslots, -, hnew⟩ := h.slots hd hready rfl (fun _ hq => hq) (Kind.placements_nodup _) hes
    hsmaller hfewer hfirst
  have hfilter : ∀ e ∈ Merge.plain (d₁.forest.get i).kind es, e ∈ es :=
    fun e he => (List.mem_filter.1 he).1
  have hlast := (h.under.plain hready₂ hk es hes hfilter).run hrest
  obtain ⟨hplain, -, hunmoved, hnew'⟩ := h.plain hd₂ hready₂ hk hes hfilter hrest
  refine ⟨fun mark => .map mark ((hlast.later.kind_eq i hready₂.lt).trans hk) hplain
    fun σ p v hp hv => ?_, hnew.trans h.spares.keepsKeys hd₂ hlast hnew'⟩
  exact (hslots _ (Kind.mem_placements hp) v hv).unmoved hlast
    (hunmoved σ (Kind.mem_slots_of_placement? hp))

end Seating

end Merge

end ApiDoc
