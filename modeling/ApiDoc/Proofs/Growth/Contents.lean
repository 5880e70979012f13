import ApiDoc.Proofs.Growth.Standing

namespace ApiDoc

/-!
# Reading the content of a node

What is known of a node whose content a document shows, whatever the keys of members are:

* `Except.forall₂_of_mapM` — the results of a traversal, one by one;
* `Forest.shownIn` — what a slot shows, `Forest.shownUnder` — what a name shows;
* `Forest.text?_assemble_field`, `Forest.text?_assemble_slot`, `Forest.text?_assemble_extension` —
  what the content has for a field, a slot and an extension;
* `Forest.mem_shownCollection`, `Forest.text?_shownIndexed` — what a list shows of its members.
-/

/-! ### Traversals -/

/-- Two computations that succeed do so one after the other. -/
theorem Except.bind_eq_ok {ε α β : Type} {x : Except ε α} {g : α → Except ε β} {b : β}
    (h : (x >>= g) = .ok b) : ∃ a, x = .ok a ∧ g a = .ok b := by
  cases x with
  | error e => cases h
  | ok a => exact ⟨a, rfl, h⟩

/-- Computations that all succeed have a list of answers. -/
theorem Except.exists_mapM {ε α β : Type} {g : α → Except ε β} {xs : List α}
    (h : ∀ x ∈ xs, ∃ y, g x = .ok y) : ∃ ys, xs.mapM g = .ok ys := by
  induction xs with
  | nil => exact ⟨[], rfl⟩
  | cons x xs ih =>
    obtain ⟨⟨y, hy⟩, h⟩ := List.forall_mem_cons.1 h
    obtain ⟨ys, hys⟩ := ih h
    exact ⟨y :: ys, by rw [List.mapM_cons, hy, hys]; rfl⟩

/-- An answer that has been mapped comes from one that has not. -/
theorem Except.map_eq_ok {ε α β : Type} {x : Except ε α} {g : α → β} {b : β}
    (h : g <$> x = .ok b) : ∃ a, x = .ok a ∧ g a = b := by
  cases x with
  | error e => cases h
  | ok a =>
    cases h
    exact ⟨a, rfl, rfl⟩

/-- The results of a traversal that succeeds. -/
theorem Except.forall₂_of_mapM {ε α β : Type} {g : α → Except ε β} {xs : List α} {ys : List β}
    (h : xs.mapM g = .ok ys) : List.Forall₂ (fun x y => g x = .ok y) xs ys := by
  induction xs generalizing ys with
  | nil =>
    cases h
    exact .nil
  | cons x xs ih =>
    rw [List.mapM_cons] at h
    obtain ⟨y, hy, h⟩ := Except.bind_eq_ok h
    obtain ⟨zs, hzs, h⟩ := Except.bind_eq_ok h
    cases h
    exact .cons hy (ih hzs)

/-! ### Entries under texts -/

namespace Entries

variable {es : Entries} {s : String} {v : Data}

/-- An entry under another key does not count. -/
theorem text?_insert_of_ne {key : Data} (h : key ≠ .str s) (w : Data) :
    (es.insert key w).text? s = es.text? s := by
  -- Keys that are the same as a text are that text.
  have hsame : ∀ k : Data, k = .str s → ¬k.same key = true := by
    rintro _ rfl hk
    cases key with
    | scalar x =>
      simp only [Data.same] at hk
      exact h (Data.same_str_iff.1 (by simpa only [Data.same] using Scalar.same_symm hk))
    | _ => simp [Data.same] at hk
  induction es with
  | nil => exact text?_cons_of_ne h
  | cons e es ih =>
    obtain ⟨k, u⟩ := e
    unfold Entries.insert
    by_cases hk : k = .str s
    · subst hk
      rw [if_neg (hsame _ rfl), text?_cons_self, text?_cons_self]
    · split
      · rw [text?_cons_of_ne hk, text?_cons_of_ne hk]
      · rw [text?_cons_of_ne hk, text?_cons_of_ne hk]
        exact ih

/-- What pairs leave under a text, if all that they have under it is alike. -/
theorem text?_ofPairs {pairs : Entries} (hmem : (.str s, v) ∈ pairs)
    (hall : ∀ e ∈ pairs, e.1 = .str s → e.2 = v) : (Entries.ofPairs pairs).text? s = some v := by
  -- The update starts from any entries that hold the value already or are still to get it.
  suffices hgen : ∀ (pairs acc : Entries), (∀ e ∈ pairs, e.1 = .str s → e.2 = v) →
      (acc.text? s = some v ∨ (Data.str s, v) ∈ pairs) → (acc.update pairs).text? s = some v from
    hgen pairs [] hall (.inr hmem)
  intro pairs
  induction pairs with
  | nil => exact fun acc _ h => h.resolve_right List.not_mem_nil
  | cons e pairs ih =>
    intro acc hall h
    obtain ⟨hhead, hall⟩ := List.forall_mem_cons.1 hall
    refine ih (acc.insert e.1 e.2) hall ?_
    by_cases he : e.1 = .str s
    · rw [he, text?_insert, if_pos rfl, hhead he]
      exact .inl rfl
    · rw [text?_insert_of_ne he]
      refine h.imp_right fun h => (List.mem_cons.1 h).resolve_left ?_
      rintro rfl
      exact he rfl

end Entries

namespace Forest

variable {f : Forest} {content : NodeId → Except Failure Data} {i j : NodeId} {n : Node}
  {σ name : String} {p : Placement} {v w : Data} {es fs : Entries}

/-! ### Fields and slots -/

/-- What a slot shows. -/
def shownIn (f : Forest) (content : NodeId → Except Failure Data) (p : Placement) (v : Data) :
    Except Failure Data :=
  match p with
  | .single _ _ => shownSingular content v
  | .keyed _ key => f.shownIndexed content key v
  | .listed _ _ => shownCollection content v

/-- What a node shows under a name: the value of a field that is set, or what a slot shows. -/
def shownUnder (f : Forest) (content : NodeId → Except Failure Data) (n : Node) (name : String) :
    Option Data :=
  if n.isSet name then
    match n.kind.placement? name with
    | none => some (shownValue (n.value name))
    | some p => (f.shownIn content p (n.value name)).toOption
  else none

/-- The entry of a node under a name. -/
def shownEntry (f : Forest) (content : NodeId → Except Failure Data) (n : Node) (name : String) :
    Option (Data × Data) :=
  (f.shownUnder content n name).map fun v => (Data.str (wireName name), v)

/-- The fields that are shown, name by name. -/
theorem shownFields_eq : shownFields n = n.kind.shownFields.filterMap (f.shownEntry content n) := by
  refine List.filterMap_congr fun name hname => ?_
  have hfield : name ∈ n.kind.fields := (List.mem_filter.1 hname).1
  rw [shownEntry, shownUnder, n.kind.placement?_fields name hfield]
  split <;> rfl

/-- What a slot adds to the content of a node. -/
def slotEntries (f : Forest) (content : NodeId → Except Failure Data) (n : Node) (σ : String)
    (p : Placement) : Except Failure Entries :=
  entryOf σ (n.value σ) (f.shownIn content p (n.value σ))

/-- The content of a node in terms of what its slots show. -/
theorem assemble_eq (f : Forest) (content : NodeId → Except Failure Data) (n : Node) :
    f.assemble content n = (do
      let singular ← n.kind.layout.singular.mapM fun q => f.slotEntries content n q.2
        (.single q.1 (n.kind.layout.booleanSlots.contains q.2))
      let collections ← n.kind.layout.collections.mapM fun q =>
        f.slotEntries content n q.2.name (.listed q.1 q.2)
      let indexed ← n.kind.layout.indexed.mapM fun q =>
        f.slotEntries content n q.2.name (.keyed q.1 q.2.key)
      let own := shownFields n ++ singular.flatten ++ collections.flatten ++ indexed.flatten
      return Entries.update own (← extensionEntries n.extensions)) := rfl

/-- The entry for a slot, and what the slot shows. -/
theorem slotEntries_eq_ok (hp : n.kind.placement? σ = some p)
    (h : f.slotEntries content n σ p = .ok es) : es = (f.shownEntry content n σ).toList ∧
      (n.isSet σ = true → ∃ w, f.shownIn content p (n.value σ) = .ok w) := by
  rw [shownEntry, shownUnder, hp]
  unfold slotEntries entryOf at h
  unfold Node.isSet
  -- A slot that is unset adds no entry; one that is set shows a value or fails.
  cases hset : (n.value σ).isUnset with
  | true =>
    rw [hset] at h
    cases h
    exact ⟨rfl, fun h => nomatch h⟩
  | false =>
    rw [hset] at h
    cases hw : f.shownIn content p (n.value σ) with
    | error e =>
      rw [hw] at h
      cases h
    | ok w =>
      rw [hw] at h
      cases h
      exact ⟨by dsimp only; rw [hw]; rfl, fun _ => ⟨w, rfl⟩⟩

/-- A slot whose value can be shown has entries. -/
theorem exists_slotEntries
    (h : n.isSet σ = true → ∃ w, f.shownIn content p (n.value σ) = .ok w) :
    ∃ es, f.slotEntries content n σ p = .ok es := by
  unfold slotEntries entryOf
  unfold Node.isSet at h
  cases hset : (n.value σ).isUnset with
  | true => exact ⟨[], rfl⟩
  | false =>
    obtain ⟨w, hw⟩ := h (by rw [hset]; rfl)
    rw [hw]
    exact ⟨_, rfl⟩

/-- The entries for some slots. -/
theorem entries_eq_ok {α : Type} {slots : List α} {ess : List Entries} (name : α → String)
    (place : α → Placement) (hp : ∀ q ∈ slots, n.kind.placement? (name q) = some (place q))
    (h : slots.mapM (fun q => f.slotEntries content n (name q) (place q)) = .ok ess) :
    ess.flatten = (slots.map name).filterMap (f.shownEntry content n) ∧
      ∀ q ∈ slots, n.isSet (name q) = true →
        ∃ w, f.shownIn content (place q) (n.value (name q)) = .ok w := by
  have hall := Except.forall₂_of_mapM h
  refine ⟨?_, fun q hq hset => ?_⟩
  · rw [← flatten_map_toList]
    congr 1
    clear h
    -- The lists advance together: one list of entries for each slot.
    induction hall with
    | nil => rfl
    | cons hq _ ih =>
      obtain ⟨hhead, hp⟩ := List.forall_mem_cons.1 hp
      rw [List.map_cons, ← ih hp, (slotEntries_eq_ok hhead hq).1]
  · obtain ⟨_, -, he⟩ := exists_of_forall₂ hall hq
    exact (slotEntries_eq_ok (hp q hq) he).2 hset

/-- The content of a node: what it shows under its names, and its extensions. -/
theorem assemble_eq_ok (h : f.assemble content n = .ok fs) {mark : Nat}
    (hes : n.extensions = .map es mark) :
    fs = Entries.update (n.kind.shownNames.filterMap (f.shownEntry content n)) es ∧
      ∀ σ p, n.kind.placement? σ = some p → n.isSet σ = true →
        ∃ w, f.shownIn content p (n.value σ) = .ok w := by
  -- The fields come first, then the three tables of slots and the extensions.
  rw [assemble_eq] at h
  obtain ⟨singular, hsingular, h⟩ := Except.bind_eq_ok h
  obtain ⟨collections, hcollections, h⟩ := Except.bind_eq_ok h
  obtain ⟨indexed, hindexed, h⟩ := Except.bind_eq_ok h
  rw [hes] at h
  cases h
  obtain ⟨hs, hs'⟩ := entries_eq_ok (fun q : Kind × String => q.2) _
    n.kind.placement?_singular hsingular
  obtain ⟨hc, hc'⟩ := entries_eq_ok (fun q : Kind × CollectionSlot => q.2.name) _
    n.kind.placement?_collections hcollections
  obtain ⟨hi, hi'⟩ := entries_eq_ok (fun q : Kind × IndexedSlot => q.2.name) _
    n.kind.placement?_indexed hindexed
  refine ⟨?_, fun σ p hp hset => ?_⟩
  · have hfields : shownFields n = n.kind.shownFields.filterMap (f.shownEntry content n) :=
      shownFields_eq
    rw [hfields, hs, hc, hi, Kind.shownNames, Kind.slots, Layout.slotNames]
    simp only [List.filterMap_append, List.append_assoc]
  -- The place of the slot tells in which of the three tables it stands.
  · rcases Kind.mem_layout_of_placement? hp with ⟨c, hslot, rfl⟩ | ⟨c, slot, hslot, rfl, rfl⟩ |
      ⟨c, slot, hslot, rfl, rfl⟩
    · exact hs' _ hslot hset
    · exact hi' _ hslot hset
    · exact hc' _ hslot hset

/-- What a node shows, if its slots can be shown. -/
theorem exists_assemble {mark : Nat} (hes : n.extensions = .map es mark)
    (h : ∀ σ p, n.kind.placement? σ = some p → n.isSet σ = true →
      ∃ w, f.shownIn content p (n.value σ) = .ok w) : ∃ fs, f.assemble content n = .ok fs := by
  obtain ⟨singular, hsingular⟩ := Except.exists_mapM fun q hq =>
    exists_slotEntries (h _ _ (n.kind.placement?_singular q hq))
  obtain ⟨collections, hcollections⟩ := Except.exists_mapM fun q hq =>
    exists_slotEntries (h _ _ (n.kind.placement?_collections q hq))
  obtain ⟨indexed, hindexed⟩ := Except.exists_mapM fun q hq =>
    exists_slotEntries (h _ _ (n.kind.placement?_indexed q hq))
  rw [assemble_eq, hsingular, hcollections, hindexed, hes]
  exact ⟨_, rfl⟩

section

variable (h : f.assemble content n = .ok fs) {mark : Nat} (hes : n.extensions = .map es mark)
  (hextensions : es.AreExtensions)

include h hes hextensions

/-- Extensions do not take the place of what a node shows under its names. -/
theorem assemble_eq_append : fs = n.kind.shownNames.filterMap (f.shownEntry content n) ++ es := by
  rw [(assemble_eq_ok h hes).1]
  refine Entries.update_eq_append hextensions.1 fun e he e' he' hkey => ?_
  obtain ⟨name, hname, he⟩ := List.mem_filterMap.1 he
  obtain ⟨_, -, rfl⟩ := Option.map_eq_some_iff.1 he
  have hx := hextensions.2 e' he' _ hkey.symm
  rw [Kind.startsWith_wireName (Kind.mem_attributes_of_shown hname)] at hx
  cases hx

/-- What the content has under a name. -/
theorem text?_assemble (hname : name ∈ n.kind.shownNames) :
    fs.text? (wireName name) = f.shownUnder content n name := by
  have hattribute := Kind.mem_attributes_of_shown hname
  -- No two names share a wire name, so the entry is the one of `name`.
  have hown : Entries.text? (n.kind.shownNames.filterMap (f.shownEntry content n)) (wireName name)
      = if name ∈ n.kind.shownNames then f.shownUnder content n name else none :=
    Entries.text?_names fun other hother hwire =>
      Kind.eq_of_wireName_eq (Kind.mem_attributes_of_shown hother) hattribute hwire
  -- An extension starts with `x-`, and no wire name does.
  have hnone : es.text? (wireName name) = none := by
    refine Entries.text?_eq_none_iff.2 fun e he hkey => ?_
    have hx := hextensions.2 e he _ hkey
    rw [Kind.startsWith_wireName hattribute] at hx
    cases hx
  rw [assemble_eq_append h hes hextensions, Entries.text?_append, hown, if_pos hname, hnone,
    Option.or_none]

/-- What the content has under the name of a field that is set. -/
theorem text?_assemble_field (hname : name ∈ n.kind.fields) (hshown : name ∉ n.kind.internalFields)
    (hset : n.isSet name = true) :
    fs.text? (wireName name) = some (shownValue (n.value name)) := by
  have hmem : name ∈ n.kind.shownNames :=
    List.mem_append_left _ (List.mem_filter.2 ⟨hname, by simpa using hshown⟩)
  rw [text?_assemble h hes hextensions hmem, shownUnder, if_pos hset,
    n.kind.placement?_fields name hname]

/-- What the content has under the name of a slot that is set. -/
theorem text?_assemble_slot (hp : n.kind.placement? σ = some p) (hset : n.isSet σ = true) :
    ∃ w, f.shownIn content p (n.value σ) = .ok w ∧ fs.text? (wireName σ) = some w := by
  obtain ⟨w, hw⟩ := (assemble_eq_ok h hes).2 σ p hp hset
  refine ⟨w, hw, ?_⟩
  rw [text?_assemble h hes hextensions (List.mem_append_right _ (Kind.mem_slots_of_placement? hp)),
    shownUnder, if_pos hset, hp]
  dsimp only
  rw [hw]
  rfl

/-- The content has all extensions. -/
theorem text?_assemble_extension {s : String} (hs : (es.text? s).isSome = true) :
    (fs.text? s).isSome = true := by
  rw [assemble_eq_append h hes hextensions, Entries.text?_append]
  cases Entries.text? (n.kind.shownNames.filterMap (f.shownEntry content n)) s with
  | none => exact hs
  | some v => rfl

end

/-! ### Members -/

/-- What a list shows of its members. -/
theorem mem_shownCollection {xs : List Data} {mark : Nat}
    (h : shownCollection content (.list xs mark) = .ok w) : ∃ ws, w = .ofList ws ∧
      ∀ j, .node j ∈ xs → ∃ u ∈ ws, content j = .ok u := by
  obtain ⟨xs', hxs, h⟩ := Except.bind_eq_ok h
  cases hxs
  obtain ⟨ws, hws, h⟩ := Except.bind_eq_ok h
  cases h
  exact ⟨ws, rfl, fun j hj => exists_of_forall₂ (Except.forall₂_of_mapM hws) hj⟩

/-- What a list shows of its members under their keys: a pair of key and content for each. -/
theorem shownIndexed_eq_ok {xs : List Data} {mark : Nat} {key : String}
    (hxs : ∀ x ∈ xs, ∃ j, x = .node j ∧ key ∈ (f.get j).kind.fields)
    (h : f.shownIndexed content key (.list xs mark) = .ok w) : ∃ pairs,
      w = .ofEntries (Entries.ofPairs pairs) ∧ List.Forall₂ (fun x e => ∃ j, x = Data.node j ∧
        e.1 = (f.get j).value key ∧ Groups.hashable e.1 = .ok () ∧ content j = .ok e.2) xs pairs := by
  obtain ⟨xs', he, h⟩ := Except.bind_eq_ok h
  cases he
  obtain ⟨pairs, hpairs, h⟩ := Except.bind_eq_ok h
  cases h
  refine ⟨pairs, rfl, ((List.forall₂_and_left _ _).2
    ⟨hxs, Except.forall₂_of_mapM hpairs⟩).imp fun x e he => ?_⟩
  -- The key is read, the member is shown, and the key is found hashable, in this order.
  obtain ⟨⟨j, rfl, hkey⟩, he⟩ := he
  have hread : f.readFrom (.node j) key = .ok ((f.get j).value key) :=
    read_attribute (List.mem_append_left _ hkey)
  obtain ⟨k, hk, he⟩ := Except.bind_eq_ok he
  obtain ⟨u, hu, he⟩ := Except.bind_eq_ok he
  obtain ⟨_, hhashable, he⟩ := Except.bind_eq_ok he
  cases he
  rw [hread] at hk
  cases hk
  exact ⟨j, rfl, rfl, hhashable, hu⟩

/-- What a list shows of its members under their keys, of those whose key no other has. -/
theorem text?_shownIndexed {xs : List Data} {mark : Nat} {key : String}
    (hxs : ∀ x ∈ xs, ∃ j, x = .node j ∧ key ∈ (f.get j).kind.fields)
    (h : f.shownIndexed content key (.list xs mark) = .ok w) : ∃ ws, w = .ofEntries ws ∧
      ∀ j (s : String), .node j ∈ xs → (f.get j).value key = .str s →
        (∀ c, .node c ∈ xs → (f.get c).value key = .str s → c = j) →
        ∃ u, content j = .ok u ∧ ws.text? s = some u := by
  obtain ⟨pairs, rfl, hall⟩ := shownIndexed_eq_ok hxs h
  refine ⟨Entries.ofPairs pairs, rfl, fun j s hj hs honly => ?_⟩
  obtain ⟨⟨k, u⟩, he, c, hc, hk, -, hu⟩ := exists_of_forall₂ hall hj
  cases hc
  dsimp only at hk hu
  rw [hs] at hk
  subst hk
  -- Every entry under that key is for a member with the key, and there is only one.
  refine ⟨u, hu, Entries.text?_ofPairs he fun e' he' hkey => ?_⟩
  obtain ⟨x, hx, c, rfl, hkey', -, hcontent⟩ := exists_of_forall₂ hall.flip he'
  obtain rfl := honly c hx (hkey'.symm.trans hkey)
  exact Except.ok.inj (hcontent.symm.trans hu)

/-! ### Trees that can be shown -/

/-- A forest in which all members of indexed slots that are reached from a node have keys that can
    be those of a mapping. -/
def HashableKeys (f : Forest) (i : NodeId) : Prop :=
  ∀ a, f.Below i a → ∀ σ k key, (f.get a).kind.placement? σ = some (.keyed k key) →
    ∀ j, .node j ∈ ((f.get a).value σ).nodes →
      Groups.hashable ((f.get j).value key) = .ok ()

/-- Keys below a child can be keys, too. -/
theorem HashableKeys.child (h : f.HashableKeys i) (hσ : σ ∈ (f.get i).kind.slots)
    (hj : .node j ∈ ((f.get i).value σ).nodes) : f.HashableKeys j :=
  fun a ha => h a ((Below.self.child hσ hj).trans ha)

namespace Consistent

variable (hf : f.Consistent)

include hf

end Consistent

end Forest

end ApiDoc
