import ApiDoc.Proofs.Tree.Content

namespace ApiDoc

/-!
# Sources of merges

* `Entries.Source` — a source in which no node stands where content is expected, and whose items
  carry the fields by which they are told apart; `Entries.Findable` if they carry some of them;
* `Entries.Accepted` — a source that a node takes without refusing any of its keys;
* `Tree.forall_mergeSlot` — what holds of the children in a slot after a merge;
* `Tree.All.merge` — what a merge keeps of all trees below one, from what it keeps of the root;
* `Tree.typed_merge` — slots hold what they are for after a merge, too.
-/

/-! ### What a source may be -/

namespace Data

/-- The entries that a value is. -/
def entries? : Data → Option Entries
  | .map es _ => some es
  | _ => none

/-- Only a mapping has entries. -/
theorem entries?_eq_some {v : Data} {es : Entries} (h : v.entries? = some es) :
    ∃ mark, v = .map es mark := by
  cases v <;> cases h
  exact ⟨_, rfl⟩

end Data

/-- A source that carries the fields by which a collection tells its members apart. -/
def Entries.Carries (P : Data → Prop) (slot : CollectionSlot) (es : Entries) : Prop :=
  ∀ name ∈ slot.identifying,
    ∃ v, es.text? (wireName name) = some v ∧ v.isUnset = false ∧ P v

/-- A value that a source may have for a slot. -/
def Placement.Brings (P : Data → Prop) (p : Placement) (v : Data) : Prop :=
  match p with
  | .single _ _ => ∀ j, v ≠ .node j
  | .keyed _ key => ∀ fs mark, v = .map fs mark → Entries.Distinct fs ∧ ∀ e ∈ fs,
      (∀ j, e.2 ≠ .node j) ∧
        ∀ gs mark, e.2 = .map gs mark → Entries.text? gs (wireName key) = none
  | .listed _ slot => ∀ xs, v.items? = some xs → ∀ x ∈ xs,
      (∀ j, x ≠ .node j) ∧
        ∀ gs mark, x = .map gs mark → Entries.Distinct gs ∧ Entries.Carries P slot gs

/-- A source without nodes where content is expected. Its items carry the fields by which they
    are told apart, with values of some sort, and do not name their keys once more. -/
structure Entries.Source (P : Data → Prop) (k : Kind) (es : Entries) : Prop where
  distinct : es.Distinct
  brings : ∀ σ p v, k.placement? σ = some p → es.text? (wireName σ) = some v → p.Brings P v

/-- An item of a collection that carries values by which its member is found, each of some sort. -/
def Entries.Identifies (P : Data → Prop) (k : Kind) (slot : CollectionSlot) (es : Entries) : Prop :=
  es.identity k slot ≠ [] ∧ ∀ e ∈ es.identity k slot, P e.2

/-- A value with whose parts children are found. -/
def Placement.Finds (P : Data → Prop) (p : Placement) (v : Data) : Prop :=
  match p with
  | .single _ _ => ∀ j, v ≠ .node j
  | .keyed _ key => ∀ fs mark, v = .map fs mark → Entries.Distinct fs ∧ ∀ e ∈ fs,
      (∀ j, e.2 ≠ .node j) ∧
        ∀ gs mark, e.2 = .map gs mark → Entries.text? gs (wireName key) = none
  | .listed k slot => ∀ xs, v.items? = some xs → ∀ x ∈ xs,
      (∀ j, x ≠ .node j) ∧
        ∀ gs mark, x = .map gs mark → Entries.Distinct gs ∧ Entries.Identifies P k slot gs

/-- A source without nodes where content is expected. Its items carry some of the fields by which
    they are told apart, with values of some sort, and do not name their keys once more. -/
structure Entries.Findable (P : Data → Prop) (k : Kind) (es : Entries) : Prop where
  distinct : es.Distinct
  finds : ∀ σ p v, k.placement? σ = some p → es.text? (wireName σ) = some v → p.Finds P v

/-- A value that a slot takes. -/
def Placement.Accepts (p : Placement) (v : Data) : Prop :=
  match p with
  | .single _ boolean => (∃ fs mark, v = .map fs mark) ∨ boolean = true ∧ ∃ b, v = .bool b
  | .keyed _ _ => ∃ fs mark, v = .map fs mark ∧ ∀ e ∈ fs, ∃ gs mark, e.2 = .map gs mark
  | .listed _ _ => ∃ xs, v.items? = some xs ∧ ∀ x ∈ xs, ∃ gs mark, x = .map gs mark

/-- A source that a node takes without refusing any of its keys. -/
structure Entries.Accepted (k : Kind) (es : Entries) : Prop where
  slots : ∀ σ p v, k.placement? σ = some p → es.text? (wireName σ) = some v → p.Accepts v
  plain : ∀ e ∈ es, Merge.isSlotKey k.layout e.1 = false → ∀ s, e.1 = .str s →
    s.startsWith "x-" = true ∨ ∃ name, k.fieldOfWire? s = some name

namespace Entries.All

variable {P Q : Kind → Entries → Prop} {k : Kind} {es : Entries}

/-- What holds of a whole source holds of its entries. -/
theorem root (h : es.All P k) : P k es := by
  cases h with
  | mk own _ _ => exact own

/-- It holds of the source for a single child. -/
theorem child (h : es.All P k) {σ : String} {c : Kind} {b : Bool} {fs : Entries} {mark : Nat}
    (hp : k.placement? σ = some (.single c b)) (hv : es.text? (wireName σ) = some (.map fs mark)) :
    fs.All P c := by
  cases h with
  | mk _ single _ => exact single σ c b fs mark hp hv

/-- It holds of the source for each item. -/
theorem item (h : es.All P k) {σ : String} {p : Placement} {v : Data} {item : Entries × Entries}
    (hp : k.placement? σ = some p) (hv : es.text? (wireName σ) = some v) (hitem : item ∈ p.items v) :
    item.2.All P p.kind := by
  cases h with
  | mk _ _ members => exact members σ p v item hp hv hitem

/-- What holds of a whole source may be weakened. -/
theorem mono (h : es.All P k) (hPQ : ∀ k es, P k es → Q k es) : es.All Q k := by
  induction h with
  | mk own _ _ ihs ihm => exact .mk (hPQ _ _ own) ihs ihm

end Entries.All

/-! ### Items -/

namespace Placement

variable {p : Placement} {v : Data} {item : Entries × Entries}

/-- An item under a key or in a list, with what it is made of. -/
theorem mem_items (h : item ∈ p.items v) :
    (∃ k key fs mark e gs mark', p = .keyed k key ∧ v = .map fs mark ∧ e ∈ fs ∧
      e.2 = .map gs mark' ∧ item = ([(.str key, e.1)], gs)) ∨
    ∃ k slot xs gs mark, p = .listed k slot ∧ v.items? = some xs ∧ .map gs mark ∈ xs ∧
      item = (Entries.identity k slot gs, Entries.rest k slot gs) := by
  unfold items at h
  split at h
  · rename_i k key fs mark
    obtain ⟨e, he, hitem⟩ := List.mem_filterMap.1 h
    split at hitem
    · rename_i gs mark' hgs
      exact .inl ⟨k, key, fs, mark, e, gs, mark', rfl, rfl, he, hgs, (Option.some.inj hitem).symm⟩
    · cases hitem
  · rename_i _ k slot
    obtain ⟨x, hx, hitem⟩ := List.mem_filterMap.1 h
    cases hitems : v.items? with
    | none =>
      rw [hitems] at hx
      exact absurd hx List.not_mem_nil
    | some xs =>
      rw [hitems] at hx
      split at hitem
      · rename_i gs mark
        exact .inr ⟨k, slot, xs, gs, mark, rfl, rfl, hx, (Option.some.inj hitem).symm⟩
      · cases hitem
  · exact absurd h List.not_mem_nil

/-- A mapping under a key is an item, told by the key. -/
theorem mem_items_of_keyed (k : Kind) (key : String) {fs gs : Entries} {e : Data × Data}
    {mark : Nat} (mark' : Nat) (he : e ∈ fs) (hgs : e.2 = .map gs mark) :
    ([(.str key, e.1)], gs) ∈ (Placement.keyed k key).items (.map fs mark') :=
  List.mem_filterMap.2 ⟨e, he, by rw [hgs]⟩

/-- A mapping in a list is an item, told by its identity. -/
theorem mem_items_of_listed (k : Kind) (s : CollectionSlot) {xs : List Data} {gs : Entries}
    {mark : Nat} (hxs : v.items? = some xs) (hx : .map gs mark ∈ xs) :
    (gs.identity k s, gs.rest k s) ∈ (Placement.listed k s).items v := by
  refine List.mem_filterMap.2 ⟨.map gs mark, ?_, rfl⟩
  rw [hxs]
  exact hx

end Placement

namespace Merge

variable {k : Kind} {slot : CollectionSlot} {key : Data} {name : String}

/-- The fields by which a collection tells its members apart are its identifying ones. -/
theorem identifies?_eq_some (hslot : slot.identifying ≠ [])
    (h : identifies? k slot key = some name) :
    name ∈ slot.identifying ∧ name ∈ k.fields ∧ key = .str (wireName name) := by
  unfold identifies? at h
  split at h
  · rename_i s
    obtain ⟨hfield, hname⟩ := Option.filter_eq_some_iff.1 h
    obtain ⟨hmem, hwire⟩ := Kind.mem_fields_of_wire hfield
    have hidentifying : name ∈ slot.identifying := by
      simpa [hslot] using (Bool.and_eq_true_iff.1 hname).2
    exact ⟨hidentifying, hmem, by rw [hwire]⟩
  · exact nomatch h

/-- The spelling of a field that tells members apart is one of their identity. -/
theorem identifies?_wireName (hname : name ∈ slot.identifying) (hfield : name ∈ k.fields) :
    identifies? k slot (.str (wireName name)) = some name := by
  have hslot : k.slotOfWire? (wireName name) = none := by
    rw [Kind.slotOfWire?, List.find?_eq_none]
    intro σ hσ hwire
    have heq := Kind.eq_of_wireName_eq (List.mem_append_right k.fields hσ)
      (List.mem_append_left k.slots hfield) (by simpa using hwire)
    exact k.field_notMem_slots name hfield (heq ▸ hσ)
  unfold identifies?
  simp [Kind.fieldOfWire?_wireName hfield, hslot, hname]

end Merge

namespace Entries

variable {k : Kind} {slot : CollectionSlot} {es : Entries} {name : String}

/-- What identifies an item stands under the names of the identifying fields. -/
theorem text?_identity (hslot : ∀ name ∈ slot.identifying, name ∈ k.fields)
    (hname : name ∈ slot.identifying) :
    (es.identity k slot).text? name = es.text? (wireName name) := by
  have hne : slot.identifying ≠ [] := List.ne_nil_of_mem hname
  unfold identity
  induction es with
  | nil => rfl
  | cons e es ih =>
    obtain ⟨key, v⟩ := e
    rw [List.filterMap_cons]
    by_cases hkey : key = .str (wireName name)
    · subst hkey
      rw [Merge.identifies?_wireName hname (hslot name hname), text?_cons_self]
      exact text?_cons_self
    · rw [text?_cons_of_ne hkey]
      cases hid : Merge.identifies? k slot key with
      | none => exact ih
      | some other =>
        refine (text?_cons_of_ne ?_).trans ih
        intro he
        obtain rfl : other = name := by simpa using he
        exact hkey (Merge.identifies?_eq_some hne hid).2.2

/-- The identity of an item has entries for the fields that tell members apart. -/
theorem mem_identity (hslot : slot.identifying ≠ []) {e : Data × Data}
    (h : e ∈ es.identity k slot) : ∃ name ∈ slot.identifying, e.1 = .str name := by
  obtain ⟨_, _, he⟩ := List.mem_filterMap.1 h
  obtain ⟨name, hname, rfl⟩ := Option.map_eq_some_iff.1 he
  exact ⟨name, (Merge.identifies?_eq_some hslot hname).1, rfl⟩

/-- What identifies an item stands in it under the names of the identifying fields. -/
theorem mem_of_mem_identity (hslot : slot.identifying ≠ []) {e : Data × Data}
    (h : e ∈ es.identity k slot) (hkey : e.1 = .str name) : (.str (wireName name), e.2) ∈ es := by
  obtain ⟨⟨key, v⟩, hf, hid⟩ := List.mem_filterMap.1 h
  obtain ⟨other, hother, rfl⟩ := Option.map_eq_some_iff.1 hid
  obtain rfl : other = name := by simpa using hkey
  rwa [← (Merge.identifies?_eq_some hslot hother).2.2]

/-- What is left of an item does not name the fields that identify it. -/
theorem text?_rest (hslot : ∀ name ∈ slot.identifying, name ∈ k.fields)
    (hname : name ∈ slot.identifying) : (es.rest k slot).text? (wireName name) = none := by
  rw [text?_eq_none_iff]
  intro e he hkey
  have hid := (List.mem_filter.1 he).2
  rw [hkey, Merge.identifies?_wireName hname (hslot name hname)] at hid
  exact nomatch hid

/-- What an item says of anything else is left. -/
theorem text?_rest_of_notMem (hslot : slot.identifying ≠ []) {s : String}
    (h : ∀ name ∈ slot.identifying, s ≠ wireName name) :
    (es.rest k slot).text? s = es.text? s := by
  refine text?_filter fun v => ?_
  cases hid : Merge.identifies? k slot (.str s) with
  | none => rfl
  | some name =>
    obtain ⟨hname, -, hkey⟩ := Merge.identifies?_eq_some hslot hid
    exact absurd (by simpa using hkey) (h name hname)

end Entries

/-! ### What a merge keeps -/

/-- What holds of the children there are and of those put in holds of all. -/
theorem Slot.forall_grow {Q : Tree → Prop} {s : Slot Tree} {ts : List Tree}
    (hs : ∀ c ∈ s.trees, Q c) (hts : ∀ c ∈ ts, Q c) : ∀ c ∈ (s.grow ts).trees, Q c := by
  unfold grow
  split
  · exact hs
  · exact hts

/-- A list of members that takes what it has stays as it is. -/
theorem Slot.grow_list (s : Slot Tree) : s.grow s.list = s := by
  cases s with
  | members ts =>
    show (if ts.isEmpty then Slot.members ts else .members ts) = _
    split <;> rfl
  | _ => rfl

/-- The list of children after some are put in their place. -/
theorem Slot.list_grow {s : Slot Tree} {ts : List Tree} (h : ts = [] → s.list = []) :
    (s.grow ts).list = ts := by
  unfold grow
  cases ts with
  | nil => exact h rfl
  | cons t ts => rfl

/-- The listed children are among all children of a slot. -/
theorem Slot.list_sublist (s : Slot Tree) : s.list.Sublist s.trees := by
  cases s with
  | members ts => exact List.Sublist.refl ts
  | _ => exact List.nil_sublist _

/-- The same without their order. -/
theorem Slot.list_subset (s : Slot Tree) : s.list ⊆ s.trees := s.list_sublist.subset

namespace Tree

variable {Q : Tree → Prop} {absorb : Entries → Tree → Tree} {ov : Bool} {p : Placement}
  {v : Data} {s : Slot Tree}

/-- A child in a slot, or a new one. -/
theorem childOr_spec {Q : Tree → Prop} {c : Kind} (hs : ∀ u ∈ s.trees, Q u)
    (hfresh : Q (fresh c [])) : Q (s.childOr (fresh c [])) := by
  cases s with
  | child u => exact hs u (List.mem_singleton_self u)
  | _ => exact hfresh

/-- What holds of members holds after items are absorbed, if it holds of new members and stays. -/
theorem forall_putMembers {items : List (Entries × Entries)} {ts : List Tree}
    (hts : ∀ c ∈ ts, Q c)
    (hnew : ∀ item ∈ items, Q (absorb item.2 ((fresh p.kind p.keys).putFields item.1)))
    (hchange : ∀ item ∈ items, ∀ c, Q c → Q (absorb item.2 c)) :
    ∀ c ∈ items.foldl (putMember absorb p) ts, Q c := by
  induction items generalizing ts with
  | nil => exact hts
  | cons item items ih =>
    obtain ⟨hn, hnew⟩ := List.forall_mem_cons.1 hnew
    obtain ⟨hc, hchange⟩ := List.forall_mem_cons.1 hchange
    exact ih (forall_upsert hts hn hc) hnew hchange

/-- What holds of all children in a slot after a merge. -/
theorem forall_mergeSlot (hs : ∀ c ∈ s.trees, Q c)
    (hchild : ∀ k b fs mark, p = .single k b → v = .map fs mark →
      Q (absorb fs (fresh k [])) ∧ ∀ c, Q c → Q (absorb fs c))
    (hitem : ∀ item ∈ p.items v, Q (absorb item.2 ((fresh p.kind p.keys).putFields item.1)) ∧
      ∀ c, Q c → Q (absorb item.2 c)) :
    ∀ c ∈ (mergeSlot absorb ov p (some v) s).trees, Q c := by
  have hmembers : ∀ c ∈ (s.grow ((p.items v).foldl (putMember absorb p) s.list)).trees, Q c :=
    Slot.forall_grow hs (forall_putMembers (fun c hc => hs c (s.list_subset hc))
      (fun item h => (hitem item h).1) fun item h => (hitem item h).2)
  cases p with
  | keyed k key => exact hmembers
  | listed k slot => exact hmembers
  | single k b =>
    cases v with
    | map fs mark =>
      obtain ⟨hfresh, hstep⟩ := hchild k b fs mark rfl rfl
      intro c hc
      rw [show c = _ from List.mem_singleton.1 hc]
      cases s with
      | child c' => exact hstep c' (hs c' (List.mem_singleton_self _))
      | _ => exact hfresh
    | scalar x =>
      cases x with
      | bool x =>
        show ∀ c ∈ (if b && (ov || s.isEmpty) then Slot.flag x else s).trees, Q c
        split
        · exact fun _ h => absurd h List.not_mem_nil
        · exact hs
      | _ => exact hs
    | _ => exact hs

/-- What holds of a tree without children holds of all trees below it. -/
theorem All.leaf {P : Tree → Prop} {t : Tree} (h : P t) (hslot : t.slot = fun _ => .empty) :
    t.All P := by
  refine .mk h fun σ c hc => ?_
  rw [hslot] at hc
  exact absurd hc List.not_mem_nil

/-- A list of members is never left without any. -/
theorem foldl_putMember_eq_nil {absorb : Entries → Tree → Tree} {p : Placement}
    {items : List (Entries × Entries)} {ts : List Tree}
    (h : items.foldl (putMember absorb p) ts = []) : ts = [] := by
  induction items generalizing ts with
  | nil => exact h
  | cons item items ih => exact absurd (ih h) (upsert_ne_nil _ _ _ _)

/-- What a merge keeps of all trees below one, if it keeps it of the root. -/
theorem All.merge {L : Tree → Prop} {S : Kind → Entries → Prop} (hlocal : ∀ t, L t → t.Typed)
    (hfresh : ∀ k, L (fresh k []))
    (hnew : ∀ k es σ p v item, S k es → k.placement? σ = some p →
      es.text? (wireName σ) = some v → item ∈ p.items v →
      L ((fresh p.kind p.keys).putFields item.1))
    (hstep : ∀ es t, S t.kind es → L t → L (merge ov es t))
    {k : Kind} {es : Entries} (hes : es.All S k) :
    ∀ t : Tree, t.kind = k → t.All L → (Tree.merge ov es t).All L := by
  induction hes with
  | @mk k es own single members ihs ihm =>
    rintro t rfl ht
    refine .mk (hstep es t own ht.root) fun σ => ?_
    cases hp : t.kind.placement? σ with
    | none =>
      rw [merge_slot_of_none es t ov hp]
      exact fun c hc => ht.child hc
    | some p =>
      rw [merge_slot es t ov hp]
      cases hv : es.text? (wireName σ) with
      | none => exact fun c hc => ht.child hc
      | some v =>
        -- Children are of the kind that the slot is for, and so is what the source has for them.
        have hkinds := (hlocal t ht.root σ p hp).isFor
        suffices h : ∀ c ∈ (mergeSlot (Tree.merge ov) ov p (some v) (t.slot σ)).trees,
            c.kind = p.kind ∧ c.All L from fun c hc => (h c hc).2
        refine forall_mergeSlot (fun c hc => ⟨(hkinds c hc).kind, ht.child hc⟩) ?_ ?_
        · rintro k b fs mark rfl rfl
          have hih := ihs σ k b fs mark hp hv
          refine ⟨⟨merge_kind .., hih _ rfl (.leaf (hfresh k) rfl)⟩, fun c hc => ?_⟩
          exact ⟨(merge_kind ..).trans hc.1, hih c hc.1 hc.2⟩
        · intro item hitem
          obtain ⟨hkind, -, hslot, -⟩ := putFields_frame (fresh p.kind p.keys) item.1
          have hih := ihm σ p v item hp hv hitem
          have hn := All.leaf (hnew t.kind es σ p v item own hp hv hitem) hslot
          refine ⟨⟨(merge_kind ..).trans hkind, hih _ hkind hn⟩, fun c hc => ?_⟩
          exact ⟨(merge_kind ..).trans hc.1, hih c hc.1 hc.2⟩

/-! ### Slots after a merge -/

/-- Nothing in the source leaves the slot as it is. -/
theorem mergeSlot_none (s : Slot Tree) : mergeSlot absorb ov p none s = s := by cases p <;> rfl

/-- A slot for a list takes the items of the source one by one. -/
theorem mergeSlot_list (hlist : p.isSingle = false) (v : Data) (s : Slot Tree) :
    mergeSlot absorb ov p (some v) s = s.grow ((p.items v).foldl (putMember absorb p) s.list) := by
  cases p with
  | single k b => exact nomatch hlist
  | _ => rfl

/-- A list of members that takes more twice. -/
theorem grow_grow (s : Slot Tree) {ts us : List Tree} (h : us = [] → ts = []) :
    (s.grow ts).grow us = s.grow us := by
  unfold Slot.grow
  cases us with
  | nil => simp [h rfl]
  | cons u us => rfl

end Tree

namespace Entries

/-- Items that carry all fields by which they are told apart carry some. -/
theorem Carries.identifies {P : Data → Prop} {k c : Kind} {σ : String} {slot : CollectionSlot}
    {es : Entries} (hp : k.placement? σ = some (.listed c slot)) (hes : es.Distinct)
    (h : es.Carries P slot) : es.Identifies P c slot := by
  have hslot : slot.identifying ≠ [] :=
    (k.identifying_shown _ (Kind.mem_collections_of_placement? hp).1).1
  refine ⟨?_, fun e he => ?_⟩
  · obtain ⟨name, hname⟩ := List.exists_mem_of_ne_nil _ hslot
    obtain ⟨w, hw, -⟩ := h name hname
    rw [← text?_identity (Kind.keys_subset_fields hp) hname] at hw
    exact List.ne_nil_of_mem (mem_of_text? hw)
  · obtain ⟨name, hname, hkey⟩ := mem_identity hslot he
    obtain ⟨w, hw, -, hP⟩ := h name hname
    have hv := hes.text?_eq_some_iff.2 (mem_of_mem_identity hslot he hkey)
    obtain rfl : w = e.2 := Option.some.inj (hw.symm.trans hv)
    exact hP

/-- The items of a good source can be found. -/
theorem Source.findable {P : Data → Prop} {k : Kind} {es : Entries} (h : es.Source P k) :
    es.Findable P k where
  distinct := h.distinct
  finds σ p v hp hv := by
    have hbrings := h.brings σ p v hp hv
    cases p with
    | single => exact hbrings
    | keyed => exact hbrings
    | listed c slot =>
      intro xs hxs x hx
      obtain ⟨hnode, hmap⟩ := hbrings xs hxs x hx
      refine ⟨hnode, fun gs mark hgs => ?_⟩
      obtain ⟨hdistinct, hcarries⟩ := hmap gs mark hgs
      exact ⟨hdistinct, hcarries.identifies hp hdistinct⟩

/-- The same for all sources inside. -/
theorem All.findable {P : Data → Prop} {k : Kind} {es : Entries} (h : es.All (Source P) k) :
    es.All (Findable P) k :=
  h.mono fun _ _ h => h.findable

end Entries

namespace Entries.Findable

variable {P : Data → Prop} {k : Kind} {es : Entries} {σ : String} {p : Placement} {v : Data}
  {item : Entries × Entries} {t : Tree} {ov : Bool}

/-- What an item brings does not name the fields by which it is told apart. -/
theorem text?_key (h : es.Findable P k) (hp : k.placement? σ = some p)
    (hv : es.text? (wireName σ) = some v) (hitem : item ∈ p.items v) {name : String}
    (hname : name ∈ p.keys) : item.2.text? (wireName name) = none := by
  have hfinds := h.finds σ p v hp hv
  rcases Placement.mem_items hitem with ⟨c, key, fs, mark, e, gs, mark', rfl, rfl, he, hgs, rfl⟩ |
    ⟨c, slot, xs, gs, mark, rfl, hxs, hx, rfl⟩
  · rw [List.mem_singleton.1 hname]
    exact ((hfinds fs mark rfl).2 e he).2 gs mark' hgs
  · exact text?_rest (Kind.keys_subset_fields hp) hname

/-- The fields by which a tree is told apart stay when an item is merged into it. -/
theorem field_merge (h : es.Findable P k) (hp : k.placement? σ = some p)
    (hv : es.text? (wireName σ) = some v) (hitem : item ∈ p.items v) {name : String}
    (hname : name ∈ p.keys) : (Tree.merge ov item.2 t).field name = t.field name :=
  Tree.merge_field_of_absent ov (h.text?_key hp hv hitem hname)

/-- A member is still for its slot after an item has been merged into it. -/
theorem isFor_merge (h : es.Findable P k) (hp : k.placement? σ = some p)
    (hv : es.text? (wireName σ) = some v) (hitem : item ∈ p.items v) (ht : t.IsFor p) :
    (Tree.merge ov item.2 t).IsFor p where
  kind := (Tree.merge_kind ..).trans ht.kind
  keys := (Tree.merge_keys ..).trans ht.keys
  text c key hkey := by
    obtain ⟨s, hs⟩ := ht.text c key hkey
    refine ⟨s, (h.field_merge hp hv hitem ?_).trans hs⟩
    rw [hkey]
    exact List.mem_singleton_self _

/-- A new tree has the values by which it is told apart. -/
theorem isFor_new (h : es.Findable P k) (hp : k.placement? σ = some p)
    (hv : es.text? (wireName σ) = some v) (hitem : item ∈ p.items v) :
    ((Tree.fresh p.kind p.keys).putFields item.1).IsFor p := by
  obtain ⟨hkind, hkeys, -, -⟩ := Tree.putFields_frame (.fresh p.kind p.keys) item.1
  refine ⟨hkind, hkeys, fun c key hkey => ?_⟩
  subst hkey
  have hfinds := h.finds σ _ v hp hv
  rcases Placement.mem_items hitem with ⟨c', key', fs, mark, e, gs, mark', he', rfl, he, -, rfl⟩ |
    ⟨_, _, _, _, _, he', _⟩
  · cases he'
    obtain ⟨s, hs⟩ := (hfinds fs mark rfl).1.1 e he
    refine ⟨s, ?_⟩
    rw [hs]
    show (if key = key then Tree.told c [key] key (.str s) else _) = _
    rw [if_pos rfl, Tree.told_of_key (List.mem_singleton_self key)]
    rfl
  · exact nomatch he'

/-- Slots hold what they are for after a merge. -/
theorem typed_merge (h : es.Findable P t.kind) (ht : t.Typed) : (Tree.merge ov es t).Typed := by
  intro σ p hp
  rw [Tree.merge_kind] at hp
  have hfits := ht σ p hp
  rw [Tree.merge_slot es t ov hp]
  cases hv : es.text? (wireName σ) with
  | none =>
    cases p <;> exact hfits
  | some v =>
    have hmembers : p.isSingle = false → ((t.slot σ).grow
        ((p.items v).foldl (Tree.putMember (Tree.merge ov) p) (t.slot σ).list)).Fits p := by
      intro hlist
      unfold Slot.grow
      split
      · exact hfits
      · refine ⟨hlist, Tree.forall_putMembers (fun c hc => hfits.isFor c (Slot.list_subset _ hc))
          (fun item hitem => ?_) fun item hitem c hc => h.isFor_merge hp hv hitem hc⟩
        exact h.isFor_merge hp hv hitem (h.isFor_new hp hv hitem)
    cases p with
    | keyed c key => exact hmembers rfl
    | listed c slot => exact hmembers rfl
    | single c b =>
      cases v with
      | map fs mark =>
        have hchild : ((t.slot σ).childOr (.fresh c [])).IsFor (.single c b) := by
          cases hslot : t.slot σ with
          | child u =>
            rw [hslot] at hfits
            exact hfits.2
          | _ => exact ⟨rfl, rfl, fun _ _ hkey => nomatch hkey⟩
        exact ⟨rfl, (Tree.merge_kind ..).trans hchild.kind, (Tree.merge_keys ..).trans hchild.keys,
          fun _ _ hkey => nomatch hkey⟩
      | scalar x =>
        cases x with
        | bool x =>
          show (if b && (ov || (t.slot σ).isEmpty) then Slot.flag x else t.slot σ).Fits _
          split
          · rename_i hb
            obtain rfl : b = true := (Bool.and_eq_true_iff.1 hb).1
            exact ⟨c, rfl⟩
          · exact hfits
        | _ => exact hfits
      | _ => exact hfits

end Entries.Findable

namespace Tree

/-- A tree without children is typed. -/
theorem typed_fresh {t : Tree} (h : t.slot = fun _ => .empty) : t.Typed := by
  intro σ p _
  rw [h]
  trivial

/-- Slots hold what they are for after a merge, in all trees below one. -/
theorem All.typed_merge {P : Data → Prop} {ov : Bool} {es : Entries} {t : Tree}
    (hes : es.All (Entries.Findable P) t.kind) (ht : t.All Typed) : (Tree.merge ov es t).All Typed := by
  refine All.merge (fun _ h => h) (fun k => typed_fresh rfl) ?_ (fun es t h ht => h.typed_merge ht)
    hes t rfl ht
  intro k es σ p v item _ _ _ _
  exact typed_fresh (putFields_frame _ _).2.2.1

end Tree

end ApiDoc
