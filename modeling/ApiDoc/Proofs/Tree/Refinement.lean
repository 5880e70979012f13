import ApiDoc.Proofs.Document.Fragments
import ApiDoc.Proofs.Tree.Edits
import ApiDoc.Proofs.Tree.Sources

namespace ApiDoc

/-!
# Merges into nodes and merges into trees

Where a tree stands at a node, a source merged into the node leaves the merged tree there:

* `Meets.inside` — an edit of a child of a node;
* `Meets.setPlain`, `Meets.intoSingular`, `Meets.intoIndexed`, `Meets.intoCollection` — one entry
  of a source merged;
* `Tree.mergeSlotsOf` — a tree with some of its slots merged already;
* `Meets.mergeContent` — a source merged, by induction on all that it brings;
* `Meets.mergeMap`, `Meets.mergeNode` — a mapping and a node merged into a node.

Refused keys are failures, or they leave the tree as it is. Where there are none a merge succeeds.
-/

open Forest Merge

/-- Slots differ in their names, in the order in which they are merged. -/
theorem Kind.slots_nodup (k : Kind) :
    (k.layout.singular.map (·.2)).Nodup ∧
    (k.layout.singular.map (·.2) ++ k.layout.indexed.map (·.2.name)).Nodup ∧
    (k.layout.singular.map (·.2) ++ k.layout.indexed.map (·.2.name)
      ++ k.layout.collections.map (·.2.name)).Nodup := by
  cases k <;> decide

namespace Draft.Turned

variable {d d' : Draft} {i j : NodeId} {A P : Finset NodeId} {t u : Tree}

/-- A tree that stands where it stood, and the same tree in other words. -/
theorem of_eq (h : d.Turned i A t d') (he : t = u) : d.Turned i A u d' := he ▸ h

end Draft.Turned

/-- What an entry brings for one member under a key. -/
def Placement.keyedItem? (key : String) (e : Data × Data) : Option (Entries × Entries) :=
  match e.2 with
  | .map gs _ => some ([(.str key, e.1)], gs)
  | _ => none

/-- What an item brings for one member of a collection. -/
def Placement.listedItem? (k : Kind) (slot : CollectionSlot) (x : Data) :
    Option (Entries × Entries) :=
  match x with
  | .map gs _ => some (Entries.identity k slot gs, Entries.rest k slot gs)
  | _ => none

namespace Merge

variable {o : MergeOptions} {read : Merge.Reader} {es : Entries} {key : String}

/-- There is no part under a key that a source does not have. -/
theorem find?_parts_eq_none (h : find? (parts o read es) key = none) : es.text? key = none := by
  rw [Entries.text?_eq_none_iff]
  intro e he hkey
  rw [parts_eq_map, find?, List.find?_eq_none] at h
  exact h _ (List.mem_map_of_mem he) (Data.same_str_iff.2 hkey)

end Merge

namespace Merge

variable {o : MergeOptions} {read : Merge.Reader} {k : Kind} {slot : CollectionSlot} {i : NodeId}

/-- Items of a collection are merged in a loop. -/
theorem items_eq_forM (xs : List Data) : items o read xs k slot i = xs.forM fun x =>
    match x with
    | .map es _ => listed o k slot (parts o read es) i
    | .node source => do listed o k slot (← partsOf read source) i
    | v => throw (.notContent v.typeName) := by
  induction xs with
  | nil => rw [items]; rfl
  | cons x xs ih =>
    cases x with
    | map es mark =>
      rw [items]
      dsimp only
      rw [ih]
      rfl
    | node source =>
      rw [items]
      dsimp only
      rw [ih]
      exact (bind_assoc (partsOf read source) _ _).symm
    | _ =>
      rw [items]
      · rfl
      · rintro _ _ ⟨⟩
      · rintro _ ⟨⟩

/-- Members under keys are merged in a loop. -/
theorem keyed_parts (fs : Entries) : keyed k (parts o read fs) i
    = List.forM fs (fun e => do asContent o read e.2 (← Edit.indexedItem i k e.1)) := by
  show ForM.forM (parts o read fs) (fun p : Part => do p.asNode (← Edit.indexedItem i k p.key)) = _
  rw [parts_eq_map, List.forM_map]
  rfl

/-- An item is found by what identifies it, and then takes the rest. -/
theorem listed_parts (es : Entries) : listed o k slot (parts o read es) i = (do
    content o (parts o read (es.rest k slot))
      (← Edit.collectionItem i k (es.identity k slot))) := by
  have hidentity : (parts o read es).filterMap (fun p =>
      (identifies? k slot p.key).map fun name => (Data.str name, p.value)) = es.identity k slot := by
    rw [parts_eq_map, List.filterMap_map]
    rfl
  unfold listed
  rw [hidentity, parts_filter o read es fun key => (identifies? k slot key).isNone]
  rfl

end Merge

namespace Tree

variable {ov : Bool} {es : Entries} {t : Tree}

/-- A tree with some of its slots merged already. -/
noncomputable def mergeSlotsOf (ov : Bool) (es : Entries) (t : Tree) (names : List String) : Tree :=
  { t with slot := fun σ => if σ ∈ names then (merge ov es t).slot σ else t.slot σ }

theorem mergeSlotsOf_nil : mergeSlotsOf ov es t [] = t := by
  obtain ⟨k, keys, extensions, field, slot⟩ := t
  simp only [mergeSlotsOf, List.not_mem_nil, if_false]

/-- One more slot merged. -/
theorem mergeSlotsOf_append {names : List String} {σ : String} {p : Placement} (hσ : σ ∉ names)
    (hp : t.kind.placement? σ = some p) : mergeSlotsOf ov es t (names ++ [σ])
      = (mergeSlotsOf ov es t names).setSlot σ (mergeSlot (merge ov) ov p (es.text? (wireName σ))
          ((mergeSlotsOf ov es t names).slot σ)) := by
  have hslot : (mergeSlotsOf ov es t names).slot σ = t.slot σ := if_neg hσ
  rw [hslot, ← merge_slot es t ov hp]
  simp only [mergeSlotsOf, setSlot, mk.injEq, true_and]
  funext τ
  by_cases hτ : τ = σ
  · simp [hτ]
  · simp [hτ]

/-- Only slots are merged by this. -/
theorem mergeSlotsOf_slots {names : List String} (h : ∀ σ ∈ t.kind.slots, σ ∈ names) :
    mergeSlotsOf ov es t names = mergeSlots (merge ov) ov es t := by
  simp only [mergeSlotsOf, mergeSlots, mk.injEq, true_and]
  funext σ
  cases hp : t.kind.placement? σ with
  | none =>
    rw [merge_slot_of_none es t ov hp]
    exact ite_self _
  | some p =>
    rw [if_pos (h σ (Kind.mem_slots_of_placement? hp)), merge_slot es t ov hp]

/-- With some of its slots merged a tree holds in them what they are for. -/
theorem All.mergeSlotsOf (ht : t.All Typed) (hm : (Tree.merge ov es t).All Typed) (names : List String) :
    (mergeSlotsOf ov es t names).All Typed := by
  refine .mk (fun σ p hp => ?_) fun σ c hc => ?_
  · simp only [Tree.mergeSlotsOf] at hp ⊢
    split
    · exact hm.root σ p (by rw [merge_kind]; exact hp)
    · exact ht.root σ p hp
  · simp only [Tree.mergeSlotsOf] at hc
    split at hc
    · exact hm.child hc
    · exact ht.child hc

/-- A list of members that is put back as it was. -/
theorem setSlot_grow_list (t : Tree) (σ : String) :
    t.setSlot σ ((t.slot σ).grow (t.slot σ).list) = t := by rw [Slot.grow_list, setSlot_self]

/-- A slot of a tree replaced by what it is for. -/
theorem All.setSlot (ht : t.All Typed) {σ : String} {p : Placement} {s : Slot Tree}
    (hp : t.kind.placement? σ = some p) (hfits : s.Fits p) (hs : ∀ c ∈ s.trees, c.All Typed) :
    (t.setSlot σ s).All Typed := by
  refine .mk (fun τ q hq => ?_) fun τ c hc => ?_
  · simp only [Tree.setSlot] at hq ⊢
    split
    · rename_i hτ
      subst hτ
      rw [hp] at hq
      exact Option.some.inj hq ▸ hfits
    · exact ht.root τ q hq
  · simp only [Tree.setSlot] at hc
    split at hc
    · exact hs c hc
    · exact ht.child hc

end Tree

namespace Entries.Findable

variable {P : Data → Prop} {k : Kind} {es : Entries} {σ : String} {p : Placement} {v : Data}
  {item : Entries × Entries} {ov : Bool} (h : es.Findable P k) (hp : k.placement? σ = some p)
  (hv : es.text? (wireName σ) = some v) (hitem : item ∈ p.items v)

include h hp hv hitem

/-- The member that an item makes at first is what a slot is for. -/
theorem member_new : ((Tree.fresh p.kind p.keys).putFields item.1).IsFor p ∧
    ((Tree.fresh p.kind p.keys).putFields item.1).All Tree.Typed := by
  obtain ⟨-, -, hslot, -⟩ := Tree.putFields_frame (.fresh p.kind p.keys) item.1
  exact ⟨h.isFor_new hp hv hitem, .leaf (Tree.typed_fresh hslot) hslot⟩

/-- A member stays what a slot is for when an item is merged into it. -/
theorem member_merge (hes : item.2.All (Entries.Findable P) p.kind) {c : Tree}
    (hc : c.IsFor p ∧ c.All Tree.Typed) :
    (Tree.merge ov item.2 c).IsFor p ∧ (Tree.merge ov item.2 c).All Tree.Typed :=
  ⟨h.isFor_merge hp hv hitem hc.1, hc.2.typed_merge (hc.1.kind.symm ▸ hes)⟩

/-- Members stay what a slot is for when an item is put among them. -/
theorem forall_putMember (hes : item.2.All (Entries.Findable P) p.kind) (ts : List Tree)
    (hts : ∀ c ∈ ts, c.IsFor p ∧ c.All Tree.Typed) :
    ∀ c ∈ Tree.putMember (Tree.merge ov) p ts item, c.IsFor p ∧ c.All Tree.Typed :=
  forall_upsert hts (h.member_merge hp hv hitem hes (h.member_new hp hv hitem))
    fun _ => h.member_merge hp hv hitem hes

end Entries.Findable

namespace Edit.Meets

variable {d : Draft} {F : Prop} {t c c' : Tree} {i j : NodeId} {A : Finset NodeId} {σ : String}
  {p : Placement} {o : MergeOptions} {read : Merge.Reader} {k : Kind} {es : Entries}

/-- An edit of a child of a node. -/
theorem inside (hd : d.forest.Holds t i A) {n : Nat} (hc : (t.slot σ).trees[n]? = some c)
    (hj : ((d.forest.get i).value σ).nodes[n]? = some (.node j)) {act : Edit Unit}
    (hact : ∀ P, d.forest.Holds c j P → Meets act d F fun _ d' => d.Turned j P c' d') :
    Meets act d F fun _ d' => d.Turned i A (t.setSlot σ ((t.slot σ).set n c')) d' := by
  obtain ⟨P, hPA, hP, hback⟩ := hd.focus hc hj
  refine (hact P hP).mono fun _ d' h => ⟨h.grows.mono hPA, ?_⟩
  exact hback _ _ h.grows h.holds

/-- A key that is refused is a failure, or leaves the tree as it is. -/
theorem reject (hd : d.forest.Holds t i A) (hF : ¬F) (key : String) (why : Rejection) :
    Meets (Merge.reject o i key why) d F fun _ d' => d.Turned i A t d' := by
  have hsame := Draft.Turned.refl hd
  unfold Merge.reject
  refine .after_look rfl (.bind (Q := fun _ d' => d' = d) ?_ fun location d' hd' => ?_)
  · show Meets (Edit.ofExcept (d.forest.location i)) d F _
    cases d.forest.location i with
    | ok location => exact .pure rfl
    | error e => exact .throw hF
  · subst hd'
    cases o.policy with
    | error => exact .throw hF
    | warn => exact ⟨hsame.grows, hsame.holds⟩

/-! ### Entries that name no slot -/

/-- A value that fills or replaces. -/
theorem setScalarField (hd : d.forest.Holds t i A) {name : String} (hname : name ∈ t.kind.fields)
    (v : Data) : Meets (Merge.setScalar o i name v) d F fun _ d' => d.Turned i A (t.setField name
      (if o.overwrite || (t.field name).isUnset then Tree.told t.kind t.keys name v
        else t.field name)) d' := by
  have hput := assignField (F := F) hd hname v
  have hself : ∀ w, w = t.field name → t.setField name w = t := by
    rintro w rfl
    obtain ⟨k, keys, extensions, field, slot⟩ := t
    simp only [Tree.setField, Tree.mk.injEq, true_and, and_true]
    funext other
    split
    · rename_i he
      rw [he]
    · rfl
  have htold := hd.root.field name
  unfold Merge.setScalar
  refine .after_look rfl ?_
  by_cases hset : (o.overwrite || !(d.forest.get i).isSet name) = true
  · rw [if_pos hset]
    refine hput.mono fun _ d' h => h.of_eq ?_
    rw [if_pos]
    · rfl
    · rw [Bool.or_eq_true] at hset ⊢
      refine hset.imp_right fun hunset => ?_
      have hv : ((d.forest.get i).value name).isUnset = true := by simpa [Node.isSet] using hunset
      rw [htold, Data.isUnset_iff.1 hv]
      unfold Tree.told
      split
      · rfl
      · split <;> rfl
  · rw [if_neg hset]
    refine .pure ((Draft.Turned.refl hd).of_eq (hself _ ?_).symm)
    split
    · rename_i hor
      -- A field that a tree does not keep is unset in it, whatever its value.
      have hunset : (t.field name).isUnset = true := by
        rcases Bool.or_eq_true_iff.1 hor with hov | hunset
        · exact absurd (by rw [hov]; rfl) hset
        · exact hunset
      have hnone : name ∉ t.keys ∧ name ∉ t.kind.shownFields := by
        refine Classical.byContradiction fun hnot => hset ?_
        rw [Bool.or_eq_true]
        right
        have hv : ((d.forest.get i).value name).isUnset = true := by
          rw [htold] at hunset
          unfold Tree.told at hunset
          split at hunset
          · simpa using hunset
          · split at hunset
            · simpa using hunset
            · exact absurd ⟨‹_›, ‹_›⟩ hnot
        simp [Node.isSet, hv]
      rw [Data.isUnset_iff.1 hunset, Tree.told, if_neg hnone.1, if_neg hnone.2]
    · rfl

/-- A list that grows. -/
theorem growListField (hd : d.forest.Holds t i A) {name : String} (hname : name ∈ t.kind.fields)
    (hshown : name ∈ t.kind.shownFields) (v : Data) :
    Meets (Merge.growList i name v) d F fun _ d' => d.Turned i A (t.setField name
      (Tree.told t.kind t.keys name (.ofList (Merge.unionItems ((t.field name).items?.getD [])
        (Merge.supplied v))))) d' := by
  have hitems : (t.field name).items? = ((d.forest.get i).value name).items? := by
    rw [hd.root.field name]
    unfold Tree.told
    rw [if_pos hshown]
    split <;> cases (d.forest.get i).value name <;> rfl
  rw [hitems]
  exact .after_look rfl (assignField hd hname _)

/-- A value among the extensions. -/
theorem setExtension (hd : d.forest.Holds t i A) (key : String) (v : Data) :
    Meets (Merge.setExtension o i key v) d F fun _ d' => d.Turned i A
      { t with extensions := Tree.extend o.overwrite t.extensions (.str key, v) } d' := by
  obtain ⟨mark, hextensions⟩ := hd.root.extensions
  unfold Merge.setExtension
  refine .after_look rfl ?_
  rw [hextensions]
  have hskip : ∀ skip : Bool, skip = (!o.overwrite && t.extensions.has (.str key)) →
      Meets (do
        if !skip then
          let extensions ← Edit.ofExcept (putExtension key v (.map t.extensions mark))
          Edit.setNode i { d.forest.get i with extensions := extensions }) d F fun _ d' =>
        d.Turned i A { t with extensions := Tree.extend o.overwrite t.extensions (.str key, v) } d' := by
    rintro skip rfl
    unfold Tree.extend
    cases hskip : !o.overwrite && t.extensions.has (.str key) with
    | true =>
      have hneg : (o.overwrite || !t.extensions.has (.str key)) = false := by
        cases hov : o.overwrite <;> simp_all
      simp only [hneg, Bool.false_eq_true, if_false]
      exact .pure ((Draft.Turned.refl hd).of_eq (by cases t; rfl))
    | false =>
      have hpos : (o.overwrite || !t.extensions.has (.str key)) = true := by
        cases hov : o.overwrite <;> simp_all
      simp only [hpos, if_true]
      exact setExtensions hd _ mark
  cases hov : o.overwrite with
  | true =>
    rw [hov] at hskip
    exact .after_look rfl (hskip false rfl)
  | false =>
    rw [hov] at hskip
    exact .after_look rfl (hskip _ rfl)

/-- The value under a key that names no slot. -/
theorem setPlain (hd : d.forest.Holds t i A) (s : String) (v : Data)
    (hF : F → s.startsWith "x-" = true ∨ ∃ name, t.kind.fieldOfWire? s = some name) :
    Meets (Merge.setPlain o i (.str s) v) d F fun _ d' =>
      d.Turned i A (Tree.mergePlain o.overwrite t (.str s, v)) d' := by
  unfold Merge.setPlain Tree.mergePlain
  refine .after_look rfl (.after_look rfl ?_)
  show Meets (if s.startsWith "x-" then _ else _) d F fun _ d' => d.Turned i A
    (if s.startsWith "x-" then _ else _) d'
  by_cases hx : s.startsWith "x-" = true
  · rw [if_pos hx, if_pos hx]
    exact setExtension hd s v
  · rw [if_neg hx, if_neg hx]
    refine .after_look rfl ?_
    rw [hd.kind]
    dsimp only
    cases hfield : t.kind.fieldOfWire? s with
    | none =>
      refine reject hd (fun h => ?_) s _
      rcases hF h with hx' | ⟨name, hname⟩
      · exact hx hx'
      · rw [hfield] at hname
        exact nomatch hname
    | some name =>
      have hname := (Kind.mem_fields_of_wire hfield).1
      show Meets (if t.kind.arrayFields.contains name then _ else _) d F fun _ d' =>
        d.Turned i A (t.setField name (if t.kind.arrayFields.contains name then _ else _)) d'
      by_cases harray : t.kind.arrayFields.contains name = true
      · rw [if_pos harray, if_pos harray]
        exact growListField hd hname
          (t.kind.arrayFields_shown name (List.contains_iff_mem.1 harray)) v
      · rw [if_neg harray, if_neg harray]
        exact setScalarField hd hname v

end Edit.Meets

/-! ### Slots -/

namespace Merge

/-- A source that leaves the merged tree wherever it is merged into a node. -/
def Refines (o : MergeOptions) (read : Reader) (k : Kind) (es : Entries) : Prop :=
  ∀ d i A t, t.kind = k → t.All Tree.Typed → d.forest.Holds t i A →
    Edit.Meets (content o (parts o read es) i) d (es.All Entries.Accepted k) fun _ d' =>
      d.Turned i A (Tree.merge o.overwrite es t) d'

end Merge

namespace Edit.Meets

variable {d : Draft} {F : Prop} {t c c' : Tree} {i j : NodeId} {A : Finset NodeId} {σ : String}
  {p : Placement} {o : MergeOptions} {read : Merge.Reader} {k : Kind} {es : Entries}
  {P : Data → Prop} {v : Data}

/-- The part for one child, merged into it. -/
theorem intoChild (hd : d.forest.Holds t i A) (ht : t.All Tree.Typed) {b : Bool}
    (hp : t.kind.placement? σ = some (.single k b)) (hes : Refines o read k es)
    (hF : F → es.All Entries.Accepted k) :
    Meets (do Merge.content o (parts o read es) (← Edit.child i k)) d F fun _ d' =>
      d.Turned i A (t.setSlot σ (.child (Tree.merge o.overwrite es
        ((t.slot σ).childOr (.fresh k []))))) d' := by
  have hfits := ht.root σ _ hp
  have hchild : ((t.slot σ).childOr (.fresh k [])).kind = k ∧
      ((t.slot σ).childOr (.fresh k [])).All Tree.Typed := by
    cases hslot : t.slot σ with
    | child c =>
      rw [hslot] at hfits
      exact ⟨hfits.2.kind, ht.child (σ := σ) (by rw [hslot]; exact List.mem_singleton_self c)⟩
    | _ => exact ⟨rfl, .mk (Tree.typed_fresh rfl) fun _ _ hc => absurd hc List.not_mem_nil⟩
  refine .bind (child hd ht.root hp) fun j d₁ ⟨hturned, hj⟩ => ?_
  refine (inside hturned.holds (σ := σ) (by rw [Tree.setSlot_slot_self]; rfl) hj fun P hP =>
    (hes d₁ j P _ hchild.1 hchild.2 hP).weaken hF).mono fun _ d₂ h => ?_
  refine (hturned.trans h).of_eq ?_
  rw [Tree.setSlot_slot_self, Tree.setSlot_setSlot]
  rfl

/-- One item merged into its member. -/
theorem intoMember (ht : t.All Tree.Typed) (hp : t.kind.placement? σ = some p)
    {fields : Entries} {find : Edit NodeId}
    (hfind : Meets find d F (d.Located i A t σ p fields))
    (hes : Refines o read p.kind es) (hF : F → es.All Entries.Accepted p.kind) :
    Meets (do Merge.content o (parts o read es) (← find)) d F fun _ d' =>
      d.Turned i A (t.setSlot σ (.members (Tree.putMember (Tree.merge o.overwrite) p
        (t.slot σ).list (fields, es)))) d' := by
  refine .bind hfind fun j d₁ ⟨ts, n, c, hturned, hj, hc, hput⟩ => ?_
  -- What is found is one of the members, or made for the item.
  have hQ : c.kind = p.kind ∧ c.All Tree.Typed := by
    have hself := hput (fun _ c => c) es
    have hsame : ts.set n c = ts := by
      obtain ⟨hn, rfl⟩ := List.getElem?_eq_some_iff.1 hc
      exact List.set_getElem_self hn
    rw [hsame] at hself
    have hmem := List.mem_of_getElem? hc
    rw [← hself] at hmem
    refine forall_upsert (Q := fun c => c.kind = p.kind ∧ c.All Tree.Typed) ?_ ?_ (fun _ h => h) c hmem
    · intro c hc
      have hc := Slot.list_subset _ hc
      exact ⟨((ht.root σ p hp).isFor c hc).kind, ht.child hc⟩
    · obtain ⟨hkind, -, hslot, -⟩ := Tree.putFields_frame (.fresh p.kind p.keys) fields
      refine ⟨hkind, .mk (Tree.typed_fresh hslot) fun τ c hc => ?_⟩
      rw [hslot] at hc
      exact absurd hc List.not_mem_nil
  refine (inside hturned.holds (σ := σ) (by rw [Tree.setSlot_slot_self]; exact hc) hj fun P hP =>
    (hes d₁ j P c hQ.1 hQ.2 hP).weaken hF).mono fun _ d₂ h => ?_
  refine (hturned.trans h).of_eq ?_
  rw [Tree.setSlot_slot_self, Tree.setSlot_setSlot, hput]
  rfl

/-- A truth value in the place of a child. -/
theorem intoFlag (hd : d.forest.Holds t i A) {b : Bool}
    (hp : t.kind.placement? σ = some (.single k b)) (x : Bool)
    (haccept : F → Placement.Accepts (.single k b) (.bool x)) (why : Rejection) :
    Meets (if b then Merge.setScalar o i σ (.bool x) else Merge.reject o i (wireName σ) why) d F
      fun _ d' => d.Turned i A (t.setSlot σ (Tree.mergeSlot (Tree.merge o.overwrite) o.overwrite
        (.single k b) (some (.bool x)) (t.slot σ))) d' := by
  cases b with
  | false =>
    refine (reject hd (fun h => ?_) _ why).mono fun _ _ h =>
      h.of_eq (Tree.setSlot_self t σ).symm
    rcases haccept h with ⟨_, _, he⟩ | ⟨he, -⟩
    · cases he
    · cases he
  | true =>
    refine .after_look rfl ?_
    show Meets (if o.overwrite || !(d.forest.get i).isSet σ then _ else _) d F fun _ d' =>
      d.Turned i A (t.setSlot σ (if true && (o.overwrite || (t.slot σ).isEmpty) then _
        else _)) d'
    rw [hd.isSet_slot (Kind.mem_slots_of_placement? hp), Bool.not_not, Bool.true_and]
    split
    · exact assignFlag hd (Kind.mem_slots_of_placement? hp) x
    · exact .pure ((Draft.Turned.refl hd).of_eq (Tree.setSlot_self t σ).symm)

/-- The part for a singular slot. -/
theorem intoSingular (hd : d.forest.Holds t i A) (ht : t.All Tree.Typed) {b : Bool}
    (hp : t.kind.placement? σ = some (.single k b))
    (hb : t.kind.layout.booleanSlots.contains σ = b)
    (hnode : ∀ v, es.text? (wireName σ) = some v → ∀ j, v ≠ .node j)
    (haccept : F → ∀ v, es.text? (wireName σ) = some v → Placement.Accepts (.single k b) v)
    (hes : ∀ fs mark, es.text? (wireName σ) = some (.map fs mark) → Refines o read k fs ∧
      (F → Entries.All Entries.Accepted k fs)) :
    Meets (Merge.intoSingular o i (parts o read es) t.kind.layout k σ) d F fun _ d' =>
      d.Turned i A (t.setSlot σ (Tree.mergeSlot (Tree.merge o.overwrite) o.overwrite (.single k b)
        (es.text? (wireName σ)) (t.slot σ))) d' := by
  unfold Merge.intoSingular
  cases hfind : find? (parts o read es) (wireName σ) with
  | none =>
    rw [find?_parts_eq_none hfind]
    exact .pure ((Draft.Turned.refl hd).of_eq (Tree.setSlot_self t σ).symm)
  | some part =>
    obtain ⟨⟨key, v⟩, hv, rfl⟩ := find?_parts hfind
    have hrefuse : ∀ why, ¬Placement.Accepts (.single k b) v →
        Meets (Merge.reject o i (wireName σ) why) d F fun _ d' =>
          d.Turned i A (t.setSlot σ (t.slot σ)) d' :=
      fun why hv' => (reject hd (fun h => hv' (haccept h v hv)) _ why).mono fun _ _ h =>
        h.of_eq (Tree.setSlot_self t σ).symm
    rw [hv]
    cases v with
    | map fs mark => exact intoChild hd ht hp (hes fs mark hv).1 (hes fs mark hv).2
    | node j => exact absurd rfl (hnode _ hv j)
    | scalar x =>
      cases x with
      | bool x =>
        show Meets (if t.kind.layout.booleanSlots.contains σ then _ else _) d F _
        rw [hb]
        exact intoFlag hd hp x (fun h => haccept h _ hv) _
      | _ =>
        refine hrefuse _ ?_
        rintro (⟨_, _, h⟩ | ⟨-, _, h⟩) <;> exact nomatch h
    | _ =>
      refine hrefuse _ ?_
      rintro (⟨_, _, h⟩ | ⟨-, _, h⟩) <;> exact nomatch h

/-- Items merged one after the other into the members of a list. -/
theorem intoMembers {α : Type} (hd : d.forest.Holds t i A) (ht : t.All Tree.Typed)
    (hp : t.kind.placement? σ = some p) (hlist : p.isSingle = false) {xs : List α}
    {act : α → Edit Unit} {item : α → Option (Entries × Entries)}
    (hkeep : ∀ x ∈ xs, ∀ it, item x = some it → ∀ ts : List Tree,
      (∀ c ∈ ts, c.IsFor p ∧ c.All Tree.Typed) →
      ∀ c ∈ Tree.putMember (Tree.merge o.overwrite) p ts it, c.IsFor p ∧ c.All Tree.Typed)
    (hact : ∀ x ∈ xs, ∀ d A (u : Tree), u.kind = t.kind → u.All Tree.Typed →
      d.forest.Holds u i A → Meets (act x) d F fun _ d' => ∃ it, item x = some it ∧
        d.Turned i A (u.setSlot σ (.members (Tree.putMember (Tree.merge o.overwrite) p
          (u.slot σ).list it))) d') :
    Meets (xs.forM act) d F fun _ d' => d.Turned i A (t.setSlot σ ((t.slot σ).grow
      ((xs.filterMap item).foldl (Tree.putMember (Tree.merge o.overwrite) p)
        (t.slot σ).list))) d' := by
  let members (done : List α) : List Tree :=
    (done.filterMap item).foldl (Tree.putMember (Tree.merge o.overwrite) p) (t.slot σ).list
  let slot (done : List α) : Slot Tree := (t.slot σ).grow (members done)
  suffices h : Meets (xs.forM act) d F fun _ d' =>
      (∀ c ∈ members xs, c.IsFor p ∧ c.All Tree.Typed) ∧
        d.Turned i A (t.setSlot σ (slot xs)) d' from h.mono fun _ _ h => h.2
  have hfits := ht.root σ p hp
  have hall : ∀ c ∈ (t.slot σ).trees, c.IsFor p ∧ c.All Tree.Typed :=
    fun c hc => ⟨hfits.isFor c hc, ht.child hc⟩
  refine forM (I := fun done d' => (∀ c ∈ members done, c.IsFor p ∧ c.All Tree.Typed) ∧
    d.Turned i A (t.setSlot σ (slot done)) d') ⟨?_, ?_⟩ ?_
  · exact fun c hc => hall c (Slot.list_subset _ hc)
  · refine (Draft.Turned.refl hd).of_eq ?_
    have hslot : slot [] = t.slot σ := by
      show (t.slot σ).grow (t.slot σ).list = t.slot σ
      unfold Slot.grow
      cases hs : t.slot σ with
      | members ts => cases ts <;> rfl
      | _ => rfl
    rw [hslot, Tree.setSlot_self]
  · rintro before x after rfl d₁ ⟨hmembers, hturned⟩
    have hx : x ∈ before ++ x :: after := List.mem_append_right _ List.mem_cons_self
    have hslot : (slot before).list = members before :=
      Slot.list_grow fun h => Tree.foldl_putMember_eq_nil h
    have htyped : (t.setSlot σ (slot before)).All Tree.Typed := by
      refine ht.setSlot hp ?_ fun c hc => ?_
      · unfold slot Slot.grow
        split
        · exact hfits
        · exact ⟨hlist, fun c hc => (hmembers c hc).1⟩
      · exact (Slot.forall_grow hall hmembers c hc).2
    refine (hact x hx d₁ _ (t.setSlot σ (slot before)) rfl htyped hturned.holds).mono
      fun _ d₂ ⟨it, hit, h⟩ => ?_
    rw [Tree.setSlot_slot_self, Tree.setSlot_setSlot, hslot] at h
    have hnext : members (before ++ [x])
        = Tree.putMember (Tree.merge o.overwrite) p (members before) it := by
      show ((before ++ [x]).filterMap item).foldl _ _ = _
      rw [List.filterMap_append, List.foldl_append, List.filterMap_cons, hit]
      rfl
    refine ⟨?_, (hturned.trans h).of_eq ?_⟩
    · rw [hnext]
      exact hkeep x hx it hit _ hmembers
    · unfold slot Slot.grow
      rw [hnext, if_neg]
      rw [Bool.not_eq_true, List.isEmpty_eq_false_iff]
      exact upsert_ne_nil _ _ _ _

/-- A mapping as members under its keys. -/
theorem members (hd : d.forest.Holds t i A) (ht : t.All Tree.Typed) {slot : IndexedSlot}
    (hp : t.kind.placement? slot.name = some (.keyed k slot.key)) (hsource : es.Findable P t.kind)
    {fs : Entries} {mark : Nat} (hv : es.text? (wireName slot.name) = some (.map fs mark))
    (haccept : F → Placement.Accepts (.keyed k slot.key) (.map fs mark))
    (hes : ∀ item ∈ Placement.items (.keyed k slot.key) (.map fs mark),
      item.2.All (Entries.Findable P) k ∧ Refines o read k item.2 ∧
        (F → item.2.All Entries.Accepted k)) :
    Meets (Merge.keyed k (parts o read fs) i) d F fun _ d' =>
      d.Turned i A (t.setSlot slot.name (Tree.mergeSlot (Tree.merge o.overwrite) o.overwrite
        (.keyed k slot.key) (some (.map fs mark)) (t.slot slot.name))) d' := by
  obtain ⟨hdistinct, hfinds⟩ := hsource.finds _ _ _ hp hv fs mark rfl
  let item := Placement.keyedItem? slot.key
  have hslot : Tree.mergeSlot (Tree.merge o.overwrite) o.overwrite (.keyed k slot.key)
      (some (.map fs mark)) (t.slot slot.name)
        = (t.slot slot.name).grow ((fs.filterMap item).foldl
          (Tree.putMember (Tree.merge o.overwrite) (.keyed k slot.key))
          (t.slot slot.name).list) := rfl
  have hmem : ∀ e ∈ fs, ∀ it, item e = some it →
      it ∈ Placement.items (.keyed k slot.key) (.map fs mark) :=
    fun e he it hit => List.mem_filterMap.2 ⟨e, he, hit⟩
  rw [keyed_parts, hslot]
  refine intoMembers hd ht hp rfl (fun e he it hit => ?_) fun e he d' A' u hkind hu hd' => ?_
  · exact hsource.forall_putMember hp hv (hmem e he it hit) (hes it (hmem e he it hit)).1
  · obtain ⟨hnode, -⟩ := hfinds e he
    obtain ⟨s, hs⟩ := hdistinct.1 e he
    obtain ⟨key, w⟩ := e
    dsimp only at hs hnode ⊢
    subst hs
    have hp' : u.kind.placement? slot.name = some (.keyed k slot.key) := by
      rw [hkind]
      exact hp
    have hfind := indexedItem (F := F) hd' hu.root hp' s
    cases w with
    | map gs mark' =>
      obtain ⟨-, hrefines, haccepted⟩ := hes _ (hmem _ he _ rfl)
      have hinto := intoMember hu hp' hfind hrefines haccepted
      exact hinto.mono fun _ _ h => ⟨_, rfl, h⟩
    | node j => exact absurd rfl (hnode j)
    | _ =>
      refine .bind hfind fun j d'' _ => .throw fun h => ?_
      obtain ⟨_, _, he', hmaps⟩ := haccept h
      cases he'
      obtain ⟨_, _, hgs⟩ := hmaps _ he
      cases hgs

/-- The part for members under keys. -/
theorem intoIndexed (hd : d.forest.Holds t i A) (ht : t.All Tree.Typed) {slot : IndexedSlot}
    (hp : t.kind.placement? slot.name = some (.keyed k slot.key))
    (hsource : es.Findable P t.kind)
    (haccept : F → ∀ v, es.text? (wireName slot.name) = some v →
      Placement.Accepts (.keyed k slot.key) v)
    (hes : ∀ v item, es.text? (wireName slot.name) = some v →
      item ∈ Placement.items (.keyed k slot.key) v → item.2.All (Entries.Findable P) k ∧
        Refines o read k item.2 ∧ (F → item.2.All Entries.Accepted k)) :
    Meets (Merge.intoIndexed o i (parts o read es) k slot) d F fun _ d' =>
      d.Turned i A (t.setSlot slot.name (Tree.mergeSlot (Tree.merge o.overwrite) o.overwrite
        (.keyed k slot.key) (es.text? (wireName slot.name)) (t.slot slot.name))) d' := by
  unfold Merge.intoIndexed
  cases hfind : find? (parts o read es) (wireName slot.name) with
  | none =>
    rw [find?_parts_eq_none hfind]
    exact .pure ((Draft.Turned.refl hd).of_eq (Tree.setSlot_self t slot.name).symm)
  | some part =>
    obtain ⟨⟨key, v⟩, hv, rfl⟩ := find?_parts hfind
    rw [hv]
    cases v with
    | map fs mark =>
      exact members hd ht hp hsource hv (fun h => haccept h _ hv) fun item => hes _ item hv
    | _ =>
      refine (reject hd (fun h => ?_) _ _).mono fun _ _ h =>
        h.of_eq (Tree.setSlot_grow_list t slot.name).symm
      obtain ⟨_, _, he, -⟩ := haccept h _ hv
      cases he

/-- A list as members that some fields tell apart. -/
theorem items (hd : d.forest.Holds t i A) (ht : t.All Tree.Typed) {slot : CollectionSlot}
    (hp : t.kind.placement? slot.name = some (.listed k slot)) (hsource : es.Findable P t.kind)
    {v : Data} {xs : List Data} (hv : es.text? (wireName slot.name) = some v)
    (hxs : v.items? = some xs) (haccept : F → Placement.Accepts (.listed k slot) v)
    (hes : ∀ item ∈ Placement.items (.listed k slot) v, item.2.All (Entries.Findable P) k ∧
      Refines o read k item.2 ∧ (F → item.2.All Entries.Accepted k)) :
    Meets (Merge.items o read xs k slot i) d F fun _ d' =>
      d.Turned i A (t.setSlot slot.name (Tree.mergeSlot (Tree.merge o.overwrite) o.overwrite
        (.listed k slot) (some v) (t.slot slot.name))) d' := by
  have hfinds := hsource.finds _ _ _ hp hv xs hxs
  have hidentifying : slot.identifying ≠ [] :=
    (t.kind.identifying_shown _ (Kind.mem_collections_of_placement? hp).1).1
  let item := Placement.listedItem? k slot
  have hslot : Tree.mergeSlot (Tree.merge o.overwrite) o.overwrite (.listed k slot) (some v)
      (t.slot slot.name) = (t.slot slot.name).grow ((xs.filterMap item).foldl
        (Tree.putMember (Tree.merge o.overwrite) (.listed k slot)) (t.slot slot.name).list) := by
    show (t.slot slot.name).grow (((v.items?.getD []).filterMap _).foldl _ _) = _
    rw [hxs]
    rfl
  have hmem : ∀ x ∈ xs, ∀ it, item x = some it → it ∈ Placement.items (.listed k slot) v := by
    intro x hx it hit
    refine List.mem_filterMap.2 ⟨x, ?_, hit⟩
    rw [hxs]
    exact hx
  rw [items_eq_forM, hslot]
  refine intoMembers hd ht hp rfl (fun x hx it hit => ?_) fun x hx d' A' u hkind hu hd' => ?_
  · exact hsource.forall_putMember hp hv (hmem x hx it hit) (hes it (hmem x hx it hit)).1
  · obtain ⟨hnode, hmap⟩ := hfinds x hx
    have hp' : u.kind.placement? slot.name = some (.listed k slot) := by
      rw [hkind]
      exact hp
    cases x with
    | map gs mark =>
      obtain ⟨-, hrefines, haccepted⟩ := hes _ (hmem _ hx _ rfl)
      have hfind := collectionItem (F := F) hd' hu.root hp' (hmap gs mark rfl).2.1
        fun e (he : e ∈ Entries.identity k slot gs) => Entries.mem_identity hidentifying he
      have hinto := intoMember hu hp' hfind hrefines haccepted
      show Meets (Merge.listed o k slot (parts o read gs) i) d' F _
      rw [listed_parts]
      exact hinto.mono fun _ _ h => ⟨_, rfl, h⟩
    | node j => exact absurd rfl (hnode j)
    | _ =>
      refine .throw fun h => ?_
      obtain ⟨ys, hys, hmaps⟩ := haccept h
      obtain rfl : xs = ys := Option.some.inj (hxs.symm.trans hys)
      obtain ⟨_, _, hgs⟩ := hmaps _ hx
      cases hgs

/-- The part for members of a list. -/
theorem intoCollection (hd : d.forest.Holds t i A) (ht : t.All Tree.Typed) {slot : CollectionSlot}
    (hp : t.kind.placement? slot.name = some (.listed k slot)) (hsource : es.Findable P t.kind)
    (haccept : F → ∀ v, es.text? (wireName slot.name) = some v →
      Placement.Accepts (.listed k slot) v)
    (hes : ∀ v item, es.text? (wireName slot.name) = some v →
      item ∈ Placement.items (.listed k slot) v → item.2.All (Entries.Findable P) k ∧
        Refines o read k item.2 ∧ (F → item.2.All Entries.Accepted k)) :
    Meets (Merge.intoCollection o i (parts o read es) k slot) d F fun _ d' =>
      d.Turned i A (t.setSlot slot.name (Tree.mergeSlot (Tree.merge o.overwrite) o.overwrite
        (.listed k slot) (es.text? (wireName slot.name)) (t.slot slot.name))) d' := by
  unfold Merge.intoCollection
  cases hfind : find? (parts o read es) (wireName slot.name) with
  | none =>
    rw [find?_parts_eq_none hfind]
    exact .pure ((Draft.Turned.refl hd).of_eq (Tree.setSlot_self t slot.name).symm)
  | some part =>
    obtain ⟨⟨key, v⟩, hv, rfl⟩ := find?_parts hfind
    have haccept' : F → Placement.Accepts (.listed k slot) v := fun h => haccept h v hv
    rw [hv]
    cases v with
    | list xs mark => exact items hd ht hp hsource hv rfl haccept' fun item => hes _ item hv
    | tuple xs mark => exact items hd ht hp hsource hv rfl haccept' fun item => hes _ item hv
    | _ =>
      refine (reject hd (fun h => ?_) _ _).mono fun _ _ h =>
        h.of_eq (Tree.setSlot_grow_list t slot.name).symm
      obtain ⟨_, he, -⟩ := haccept' h
      cases he

/-! ### All levels -/

/-- A loop over slots of a tree, each of which is merged. -/
theorem forSlots {α : Type} (name : α → String) (place : α → Placement) {ov : Bool}
    (ht : t.All Tree.Typed) (hm : (Tree.merge ov es t).All Tree.Typed) {names : List String}
    {d' : Draft} (hd : d.Turned i A (t.mergeSlotsOf ov es names) d') {xs : List α}
    {act : α → Edit Unit}
    (hnodup : (names ++ xs.map name).Nodup)
    (hplace : ∀ x ∈ xs, t.kind.placement? (name x) = some (place x))
    (hact : ∀ x ∈ xs, ∀ d A (u : Tree), u.kind = t.kind → u.All Tree.Typed →
      d.forest.Holds u i A → Meets (act x) d F fun _ d' =>
        d.Turned i A (u.setSlot (name x) (Tree.mergeSlot (Tree.merge ov) ov (place x)
          (es.text? (wireName (name x))) (u.slot (name x)))) d') :
    Meets (xs.forM act) d' F fun _ d'' =>
      d.Turned i A (t.mergeSlotsOf ov es (names ++ xs.map name)) d'' := by
  refine forM (I := fun done d'' =>
    d.Turned i A (t.mergeSlotsOf ov es (names ++ done.map name)) d'') ?_ ?_
  · rw [List.map_nil, List.append_nil]
    exact hd
  · rintro before x after rfl d₁ hturned
    have hx : x ∈ before ++ x :: after := List.mem_append_right _ List.mem_cons_self
    have hnew : name x ∉ names ++ before.map name := by
      rw [List.map_append, List.map_cons, ← List.append_assoc] at hnodup
      exact fun hmem => (List.nodup_append.1 hnodup).2.2 _ hmem _ List.mem_cons_self rfl
    have hu := ht.mergeSlotsOf hm (names ++ before.map name)
    refine (hact x hx d₁ _ (t.mergeSlotsOf ov es (names ++ before.map name)) rfl hu
      hturned.holds).mono fun _ d₂ h => ?_
    refine (hturned.trans h).of_eq ?_
    rw [List.map_append, ← List.append_assoc]
    exact (Tree.mergeSlotsOf_append hnew (hplace x hx)).symm

/-- What a source brings besides children, merged into the root. -/
theorem forPlain {d' : Draft} (hd : d.Turned i A t d')
    (hes : ∀ e ∈ es, ∃ s, e.1 = .str s)
    (hF : F → ∀ e ∈ es, ∀ s, e.1 = .str s →
      s.startsWith "x-" = true ∨ ∃ name, t.kind.fieldOfWire? s = some name) :
    Meets ((parts o read es).forM fun q => Merge.setPlain o i q.key q.value) d' F fun _ d'' =>
      d.Turned i A (es.foldl (Tree.mergePlain o.overwrite) t) d'' := by
  show Meets (ForM.forM (parts o read es) fun q => Merge.setPlain o i q.key q.value) d' F _
  rw [parts_eq_map, List.forM_map]
  refine forM (I := fun done d'' =>
    d.Turned i A (done.foldl (Tree.mergePlain o.overwrite) t) d'') hd ?_
  rintro before ⟨key, v⟩ after rfl d₁ hturned
  have he : (key, v) ∈ before ++ (key, v) :: after := List.mem_append_right _ List.mem_cons_self
  obtain ⟨s, hs⟩ := hes _ he
  dsimp only at hs
  subst hs
  have hkind := (Tree.foldl_mergePlain_frame o.overwrite before t).1
  refine (setPlain hturned.holds s v fun h => ?_).mono fun _ d₂ h => ?_
  · rw [hkind]
    exact hF h _ he s rfl
  · rw [List.foldl_append]
    exact hturned.trans h

/-- A source leaves the merged tree wherever it is merged into a node. -/
theorem mergeContent (hes : es.All (Entries.Findable P) k) : Refines o read k es := by
  induction hes with
  | @mk k es own single members ihs ihm =>
    rintro d i A t rfl ht hd
    have hm : (Tree.merge o.overwrite es t).All Tree.Typed := ht.typed_merge (.mk own single members)
    have haccept : ∀ {σ p}, t.kind.placement? σ = some p → es.All Entries.Accepted t.kind →
        ∀ v, es.text? (wireName σ) = some v → p.Accepts v :=
      fun hp h v hv => h.root.slots _ _ v hp hv
    have hmember : ∀ {σ p} v item, t.kind.placement? σ = some p →
        es.text? (wireName σ) = some v → item ∈ p.items v →
        item.2.All (Entries.Findable P) p.kind ∧ Refines o read p.kind item.2 ∧
          (es.All Entries.Accepted t.kind → item.2.All Entries.Accepted p.kind) := by
      intro σ p v item hp hv hitem
      have hitem' := fun h : es.All Entries.Accepted t.kind => h.item hp hv hitem
      exact ⟨members σ p v item hp hv hitem, ihm σ p v item hp hv hitem, hitem'⟩
    obtain ⟨hsingular, hindexed, hcollections⟩ := t.kind.slots_nodup
    unfold Merge.content
    refine .after_look rfl ?_
    rw [hd.kind]
    extract_lets layout
    -- The slots, one table of the layout after the other.
    refine .bind (forSlots (fun q : Kind × String => q.2)
      (fun q => .single q.1 (layout.booleanSlots.contains q.2)) ht hm
      ((Draft.Turned.refl hd).of_eq Tree.mergeSlotsOf_nil.symm)
      (by rw [List.nil_append]; exact hsingular) t.kind.placement?_singular
      fun q hq d' A' u hkind hu hd' => ?_) fun _ d₁ h₁ => ?_
    · have hp := t.kind.placement?_singular q hq
      have hu' := intoSingular (F := es.All Entries.Accepted t.kind) (o := o) hd'
        hu (by rw [hkind]; exact hp) (by rw [hkind]) (fun v hv => own.finds _ _ v hp hv)
        (haccept hp) fun fs mark hv =>
          have hfs := fun h : es.All Entries.Accepted t.kind => h.child hp hv
          ⟨ihs _ _ _ fs mark hp hv, hfs⟩
      rw [hkind] at hu'
      exact hu'
    refine .bind (forSlots (fun q : Kind × IndexedSlot => q.2.name)
      (fun q => .keyed q.1 q.2.key) ht hm (by rw [List.nil_append] at h₁; exact h₁) hindexed
      t.kind.placement?_indexed fun q hq d' A' u hkind hu hd' => ?_) fun _ d₂ h₂ => ?_
    · have hp := t.kind.placement?_indexed q hq
      exact intoIndexed hd' hu (by rw [hkind]; exact hp) (by rw [hkind]; exact own) (haccept hp)
        fun v item hv hitem => hmember v item hp hv hitem
    refine .bind (forSlots (fun q : Kind × CollectionSlot => q.2.name)
      (fun q => .listed q.1 q.2) ht hm h₂ hcollections
      t.kind.placement?_collections fun q hq d' A' u hkind hu hd' => ?_)
      fun _ d₃ h₃ => ?_
    · have hp := t.kind.placement?_collections q hq
      exact intoCollection hd' hu (by rw [hkind]; exact hp) (by rw [hkind]; exact own)
        (haccept hp) fun v item hv hitem => hmember v item hp hv hitem
    -- Then all other keys.
    rw [parts_filter o read es fun key => !isSlotKey layout key, Tree.merge_eq]
    refine forPlain (h₃.of_eq (Tree.mergeSlotsOf_slots ?_))
      (fun e he => own.distinct.1 e (List.mem_filter.1 he).1) fun h e he => ?_
    · intro σ hσ
      have hmem : σ ∈ layout.singular.map (·.2) ++ layout.collections.map (·.2.name)
          ++ layout.indexed.map (·.2.name) := hσ
      simp only [List.mem_append] at hmem ⊢
      tauto
    · obtain ⟨hmem, hplain⟩ := List.mem_filter.1 he
      exact h.root.plain e hmem (by simpa using hplain)

/-- Entries merged into a node at which a tree stands. -/
theorem mergeEntries (hes : es.All (Entries.Findable P) t.kind) (hd : d.forest.Holds t i A)
    (ht : t.All Tree.Typed) : Meets (Edit.mergeEntries o es i) d (es.All Entries.Accepted t.kind)
      fun _ d' => d.Turned i A (Tree.merge o.overwrite es t) d' :=
  .after_look rfl (.after_look rfl (mergeContent hes d i A t rfl ht hd))

/-- A mapping merged into a node. -/
theorem mergeMap (hes : es.All (Entries.Findable P) t.kind) (hd : d.forest.Holds t i A)
    (ht : t.All Tree.Typed) (mark : Nat) :
    Meets (Edit.merge o (.map es mark) i) d (es.All Entries.Accepted t.kind) fun _ d' =>
      d.Turned i A (Tree.merge o.overwrite es t) d' :=
  .after_look rfl (mergeEntries hes hd ht)

/-- A node merged into a node. -/
theorem mergeNode {s : Tree} {B : Finset NodeId} (hj : d.forest.Holds s j B)
    (hs : s.All Tree.Typed) (hes : s.shown.All (Entries.Findable P) t.kind)
    (hd : d.forest.Holds t i A) (ht : t.All Tree.Typed) :
    Meets (Edit.merge o (.node j) i) d (s.shown.All Entries.Accepted t.kind) fun _ d' =>
      d.Turned i A (Tree.merge o.overwrite s.shown t) d' := by
  refine .after_look (a := s.shown) ?_ (mergeEntries hes hd ht)
  show Edit.ofExcept (d.forest.content j) d = _
  rw [hj.content_eq hs]
  rfl

end Edit.Meets

end ApiDoc
