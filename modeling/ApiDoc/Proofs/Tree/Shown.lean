import ApiDoc.Proofs.Tree.Sources

namespace ApiDoc

/-!
# The content of a tree as a source

What a document shows for a tree can be merged into another tree:

* `Tree.Serves` — a tree whose members carry the fields by which they are told apart;
* `Placement.mem_items_gather` — what the content brings for the members of a slot;
* `Tree.All.source_shown`, `Tree.All.accepted_shown` — the content is a source, and is refused by no
  node of the kind;
* `Tree.merge_rest` — the fields by which a tree is told apart can be left out of a source.
-/

/-! ### What is left of an item -/

/-- What is left of an item without the fields by which it is told apart. -/
def Placement.rest (p : Placement) (es : Entries) : Entries :=
  match p with
  | .listed k slot => es.rest k slot
  | _ => es

namespace Kind

variable {k : Kind} {σ : String}

/-- Names of slots are not written like those of fields. -/
theorem wireName_slot_ne {name : String} (hσ : σ ∈ k.slots) (hname : name ∈ k.fields) :
    wireName σ ≠ wireName name := by
  intro h
  have heq := eq_of_wireName_eq (List.mem_append_right _ hσ) (List.mem_append_left _ hname) h
  exact k.field_notMem_slots name hname (heq ▸ hσ)

/-- Every list of members that are told apart by their fields has such fields. -/
theorem identifying_ne_nil {c : Kind} {slot : CollectionSlot}
    (hp : k.placement? σ = some (.listed c slot)) : slot.identifying ≠ [] :=
  (k.identifying_shown _ (mem_collections_of_placement? hp).1).1

theorem identifying_spec {c : Kind} {slot : CollectionSlot}
    (hp : k.placement? σ = some (.listed c slot)) : ∀ name ∈ slot.identifying,
      name ∈ c.shownFields ∧ name ∉ c.arrayFields :=
  (k.identifying_shown _ (mem_collections_of_placement? hp).1).2.2

/-- Keys of members are not among what the document shows of them. -/
theorem key_spec {c : Kind} {key : String} (hp : k.placement? σ = some (.keyed c key)) :
    key ∉ c.shownFields := by
  obtain ⟨slot, hslot, -, rfl⟩ := mem_indexed_of_placement? hp
  exact k.key_notMem_shown _ hslot

end Kind

namespace Entries

variable {Q : Kind → Entries → Prop} {P : Data → Prop} {k : Kind} {es fs : Entries}

/-- What holds of a source and of all that it brings depends on the source itself and on what it
    has for slots. -/
theorem All.of_slots (h : es.All Q k) (hQ : Q k fs)
    (hslots : ∀ σ ∈ k.slots, fs.text? (wireName σ) = es.text? (wireName σ)) : fs.All Q k := by
  cases h with
  | mk own single members =>
    refine .mk hQ (fun σ c b gs mark hp hv => ?_) fun σ p v item hp hv hitem => ?_
    · rw [hslots σ (Kind.mem_slots_of_placement? hp)] at hv
      exact single σ c b gs mark hp hv
    · rw [hslots σ (Kind.mem_slots_of_placement? hp)] at hv
      exact members σ p v item hp hv hitem

variable {c : Kind} {slot : CollectionSlot} {σ : String}

theorem text?_rest_slot (hp : k.placement? σ = some (.listed c slot)) {τ : String}
    (hτ : τ ∈ c.slots) : (es.rest c slot).text? (wireName τ) = es.text? (wireName τ) :=
  text?_rest_of_notMem (Kind.identifying_ne_nil hp) fun name hname =>
    Kind.wireName_slot_ne hτ (Kind.keys_subset_fields hp name hname)

/-- What is left of a source is one. -/
theorem All.rest_source (hp : k.placement? σ = some (.listed c slot))
    (h : es.All (Source P) c) : (es.rest c slot).All (Source P) c := by
  refine h.of_slots ⟨h.root.distinct.filter _, fun τ p v hτ hv => ?_⟩ fun τ hτ => text?_rest_slot hp hτ
  rw [text?_rest_slot hp (Kind.mem_slots_of_placement? hτ)] at hv
  exact h.root.brings τ p v hτ hv

theorem All.rest_accepted (hp : k.placement? σ = some (.listed c slot))
    (h : es.All Accepted c) : (es.rest c slot).All Accepted c := by
  refine h.of_slots ⟨fun τ p v hτ hv => ?_, fun e he => ?_⟩ fun τ hτ => text?_rest_slot hp hτ
  · rw [text?_rest_slot hp (Kind.mem_slots_of_placement? hτ)] at hv
    exact h.root.slots τ p v hτ hv
  · exact h.root.plain e (List.mem_filter.1 he).1

end Entries

/-! ### Members as items -/

namespace Placement

variable {p : Placement} {ts : List Tree} {item : Entries × Entries}

/-- The contents of members as the document shows them. -/
abbrev shownMembers (p : Placement) (ts : List Tree) : Data :=
  p.gather (ts.map fun c => (p.keyOf c.field, .ofEntries c.shown))

/-- The content brings the contents of members for them. -/
theorem mem_items_gather (h : item ∈ p.items (p.shownMembers ts)) :
    ∃ c ∈ ts, item.2 = p.rest c.shown := by
  rcases mem_items h with ⟨k, key, fs, mark, e, gs, mark', rfl, hv, he, hgs, rfl⟩ |
    ⟨k, slot, xs, gs, mark, rfl, hxs, hx, rfl⟩
  · cases hv
    obtain ⟨f, hf, hvalue⟩ := Entries.mem_ofPairs he
    obtain ⟨c, hc, rfl⟩ := List.mem_map.1 hf
    cases hvalue.trans hgs
    exact ⟨c, hc, rfl⟩
  · cases hxs
    obtain ⟨f, hf, hvalue⟩ := List.mem_map.1 hx
    obtain ⟨c, hc, rfl⟩ := List.mem_map.1 hf
    cases hvalue
    exact ⟨c, hc, rfl⟩

end Placement

namespace Tree

variable {P : Data → Prop} {t c : Tree} {σ : String} {p : Placement} {v : Data}

/-- A tree whose members carry the fields by which they are told apart, with values that show in
    some way. -/
structure Serves (P : Data → Prop) (t : Tree) : Prop where
  typed : t.Typed
  extensions : t.extensions.AreExtensions
  carries : ∀ σ k slot, t.kind.placement? σ = some (.listed k slot) → ∀ c ∈ (t.slot σ).trees,
    ∀ name ∈ slot.identifying,
      (c.field name).isUnset = false ∧ P (Forest.shownValue (c.field name))

/-- What a document shows for a slot, by what stands in it. -/
theorem shownSlot_eq_some (h : shownSlot p (t.slot σ) = some v) (hfits : (t.slot σ).Fits p) :
    (∃ k b, p = .single k true ∧ v = .bool b) ∨
    (∃ k b c, p = .single k b ∧ c ∈ (t.slot σ).trees ∧ c.kind = k ∧ v = .ofEntries c.shown) ∨
    p.isSingle = false ∧ v = p.shownMembers (t.slot σ).trees := by
  cases hslot : t.slot σ with
  | empty =>
    rw [hslot, shownSlot_empty] at h
    exact nomatch h
  | flag b =>
    rw [hslot] at h hfits
    rw [shownSlot_flag] at h
    obtain ⟨k, rfl⟩ := hfits
    exact .inl ⟨k, b, rfl, (Option.some.inj h).symm⟩
  | child c =>
    rw [hslot] at h hfits
    rw [shownSlot_child] at h
    obtain ⟨hsingle, hc⟩ := hfits
    cases p with
    | single k b =>
      exact .inr (.inl ⟨k, b, c, rfl, List.mem_singleton_self c, hc.kind, (Option.some.inj h).symm⟩)
    | _ => exact nomatch hsingle
  | members ts =>
    rw [hslot] at h hfits
    rw [shownSlot_members] at h
    exact .inr (.inr ⟨hfits.1, (Option.some.inj h).symm⟩)

theorem Serves.text?_slot (h : t.Serves P) (hp : t.kind.placement? σ = some p)
    (hv : t.shown.text? (wireName σ) = some v) : shownSlot p (t.slot σ) = some v :=
  (text?_shown_slot h.extensions hp).symm.trans hv

/-- The content of a tree is a source. -/
theorem All.source (h : t.All (Serves P)) : t.shown.Source P t.kind where
  distinct := shown_distinct h.root.extensions
  brings σ p v hp hv := by
    have hfits := h.root.typed σ p hp
    rcases shownSlot_eq_some (h.root.text?_slot hp hv) hfits with ⟨k, b, rfl, rfl⟩ |
      ⟨k, b, c, rfl, -, -, rfl⟩ | ⟨hlist, rfl⟩
    · exact fun _ he => nomatch he
    · exact fun _ he => nomatch he
    · have hchildren := hfits.isFor
      cases p with
      | single k b => exact nomatch hlist
      | keyed k key =>
        intro fs mark he
        cases he
        refine ⟨Entries.ofPairs_distinct ?_, fun e he => ?_⟩
        · intro e he
          obtain ⟨c, hc, rfl⟩ := List.mem_map.1 he
          exact (hchildren c hc).text k key rfl
        · obtain ⟨f, hf, hvalue⟩ := Entries.mem_ofPairs he
          obtain ⟨c, hc, rfl⟩ := List.mem_map.1 hf
          refine ⟨fun j hj => (nomatch hvalue.trans hj), fun gs mark hgs => ?_⟩
          cases hvalue.trans hgs
          have hkind := (hchildren c hc).kind
          rw [text?_shown_field (h.child hc).root.extensions (by
            rw [hkind]
            exact Kind.keys_subset_fields hp key (List.mem_singleton_self key)), if_neg]
          rw [hkind]
          exact Kind.key_spec hp
      | listed k slot =>
        intro xs hxs x hx
        cases hxs
        obtain ⟨f, hf, rfl⟩ := List.mem_map.1 hx
        obtain ⟨c, hc, rfl⟩ := List.mem_map.1 hf
        refine ⟨fun j hj => (nomatch hj), fun gs mark hgs => ?_⟩
        cases hgs
        have hkind := (hchildren c hc).kind
        have hextensions := (h.child hc).root.extensions
        refine ⟨shown_distinct hextensions, fun name hname => ?_⟩
        obtain ⟨hset, hP⟩ := h.root.carries σ k slot hp c hc name hname
        refine ⟨Forest.shownValue (c.field name), ?_, by simpa using hset, hP⟩
        rw [text?_shown_field hextensions (by
          rw [hkind]
          exact Kind.keys_subset_fields hp name hname), if_pos, shownField, hset]
        · rfl
        · rw [hkind]
          exact (Kind.identifying_spec hp name hname).1

/-- The content of a tree brings the contents of its children for its slots. -/
theorem All.shown_of_children {Q : Kind → Entries → Prop} (h : t.All (Serves P))
    (hQ : Q t.kind t.shown) (hchild : ∀ σ, ∀ c ∈ (t.slot σ).trees, c.shown.All Q c.kind)
    (hrest : ∀ σ c slot (es : Entries), t.kind.placement? σ = some (.listed c slot) →
      es.All Q c → (es.rest c slot).All Q c) : t.shown.All Q t.kind := by
  refine .mk hQ (fun σ k b fs mark hp hv => ?_) fun σ p v item hp hv hitem => ?_
  · rcases shownSlot_eq_some (h.root.text?_slot hp hv) (h.root.typed σ _ hp) with ⟨_, _, _, he⟩ |
      ⟨k', b', c, he, hc, hkind, hfs⟩ | ⟨hlist, -⟩
    · exact nomatch he
    · cases he
      cases hfs
      exact hkind ▸ hchild σ c hc
    · exact nomatch hlist
  · have hfits := h.root.typed σ p hp
    rcases shownSlot_eq_some (h.root.text?_slot hp hv) hfits with ⟨_, _, rfl, -⟩ |
      ⟨_, _, _, rfl, -⟩ | ⟨-, rfl⟩
    · exact absurd hitem List.not_mem_nil
    · exact absurd hitem List.not_mem_nil
    · obtain ⟨c, hc, hrest'⟩ := Placement.mem_items_gather hitem
      have hc' := hchild σ c hc
      rw [(hfits.isFor c hc).kind] at hc'
      rw [hrest']
      cases p with
      | listed k slot => exact hrest σ k slot _ hp hc'
      | _ => exact hc'

/-- The content of a tree is a source on all its levels. -/
theorem All.source_shown (h : t.All (Serves P)) : t.shown.All (Entries.Source P) t.kind := by
  induction h with
  | mk own below ih =>
    have h := All.mk own below
    exact h.shown_of_children h.source ih fun σ c slot es hp hes => hes.rest_source hp

/-- The content of a tree is refused by no node of the kind. -/
theorem Serves.accepted (h : t.Serves P) : t.shown.Accepted t.kind where
  slots σ p v hp hv := by
    rcases shownSlot_eq_some (h.text?_slot hp hv) (h.typed σ p hp) with ⟨k, b, rfl, rfl⟩ |
      ⟨k, b, c, rfl, -, -, rfl⟩ | ⟨hlist, rfl⟩
    · exact .inr ⟨rfl, b, rfl⟩
    · exact .inl ⟨_, _, rfl⟩
    · cases p with
      | single k b => exact nomatch hlist
      | keyed k key =>
        refine ⟨_, _, rfl, fun e he => ?_⟩
        obtain ⟨f, hf, hvalue⟩ := Entries.mem_ofPairs he
        obtain ⟨c, hc, rfl⟩ := List.mem_map.1 hf
        exact ⟨_, _, hvalue.symm⟩
      | listed k slot =>
        refine ⟨_, rfl, fun x hx => ?_⟩
        obtain ⟨f, hf, rfl⟩ := List.mem_map.1 hx
        obtain ⟨c, hc, rfl⟩ := List.mem_map.1 hf
        exact ⟨_, _, rfl⟩
  plain e he hslot s hs := by
    rw [shown_eq_append h.extensions] at he
    rcases List.mem_append.1 he with he | he
    · obtain ⟨name, hname, hwire, -⟩ := mem_own he
      rcases List.mem_append.1 hname with hfield | hσ
      · refine .inr ⟨name, ?_⟩
        obtain rfl : wireName name = s := by simpa [hs] using hwire.symm
        exact Kind.fieldOfWire?_wireName (List.mem_filter.1 hfield).1
      · rw [Kind.isSlotKey_iff.2 ⟨name, hσ, hwire⟩] at hslot
        exact nomatch hslot
    · exact .inl (h.extensions.2 e he s hs)

theorem All.accepted_shown (h : t.All (Serves P)) : t.shown.All Entries.Accepted t.kind := by
  induction h with
  | mk own below ih =>
    have h := All.mk own below
    exact h.shown_of_children own.accepted ih fun σ c slot es hp hes => hes.rest_accepted hp

end Tree

end ApiDoc
