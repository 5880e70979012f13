import Mathlib.Data.List.Forall2
import ApiDoc.Proofs.Tree.Standing

namespace ApiDoc

/-!
# The content of a node that holds a tree

* `Tree.Typed` — a tree whose slots hold what they are for;
* `Tree.shownField_told` — a tree keeps of its fields what the document shows;
* `Forest.Holds.content_eq` — the content of a node at which a tree stands is what is shown of
  the tree. There are at least as many nodes as levels, so that content is followed far enough.
-/

/-! ### Slots that hold what they are for -/

/-- A tree of the kind that a slot is for, told apart as the slot tells its children. -/
structure Tree.IsFor (p : Placement) (t : Tree) : Prop where
  kind : t.kind = p.kind
  keys : t.keys = p.keys
  text : ∀ k key, p = .keyed k key → ∃ s : String, t.field key = .str s

/-- A slot that holds what it is for. -/
def Slot.Fits (p : Placement) : Slot Tree → Prop
  | .empty => True
  | .flag _ => ∃ k, p = .single k true
  | .child t => p.isSingle = true ∧ t.IsFor p
  | .members ts => p.isSingle = false ∧ ∀ t ∈ ts, t.IsFor p

namespace Tree

/-- A tree whose slots hold what they are for. -/
def Typed (t : Tree) : Prop :=
  ∀ σ p, t.kind.placement? σ = some p → (t.slot σ).Fits p

end Tree

/-- The children in a slot that fits are for it. -/
theorem Slot.Fits.isFor {p : Placement} {s : Slot Tree} (h : s.Fits p) :
    ∀ t ∈ s.trees, t.IsFor p := by
  cases s with
  | empty => exact fun _ ht => absurd ht List.not_mem_nil
  | flag b => exact fun _ ht => absurd ht List.not_mem_nil
  | child t => exact fun u hu => List.mem_singleton.1 hu ▸ h.2
  | members ts => exact h.2

/-! ### Values shown -/

namespace Data

variable {v w : Data}

@[simp] theorem isUnset_settled (v : Data) : v.settled.isUnset = v.isUnset := by cases v <;> rfl

@[simp] theorem isUnset_shownValue (v : Data) : (Forest.shownValue v).isUnset = v.isUnset := by
  cases v <;> rfl

@[simp] theorem shownValue_settled (v : Data) :
    Forest.shownValue v.settled = Forest.shownValue v := by cases v <;> rfl

@[simp] theorem shownValue_shownValue (v : Data) :
    Forest.shownValue (Forest.shownValue v) = Forest.shownValue v := by cases v <;> rfl

@[simp] theorem settled_settled (v : Data) : v.settled.settled = v.settled := by cases v <;> rfl

/-- Only a text settles to a text. -/
theorem settled_eq_str {s : String} : v.settled = .str s ↔ v = .str s := by
  cases v <;> simp [settled]

/-- The mark of a list does not count for equality. -/
theorem alike_settled (v w : Data) : v.settled.alike w = v.alike w := by
  cases v with
  | list xs mark => cases w <;> simp [settled, alike, same]
  | _ => rfl

end Data

namespace Tree

variable {k : Kind} {keys : List String} {name : String}

/-- What a tree keeps of a field is as good as the value where it comes to what is shown. -/
theorem shownField_told (h : name ∈ k.shownFields) (v : Data) :
    shownField (told k keys name v) = shownField v := by
  unfold told shownField
  rw [if_pos h]
  split
  · rw [Data.isUnset_settled, Data.shownValue_settled]
  · rw [Data.isUnset_shownValue, Data.shownValue_shownValue]

/-- A field by which a child is told is settled. -/
theorem told_of_key (h : name ∈ keys) (v : Data) : told k keys name v = v.settled := if_pos h

end Tree

/-! ### Results of several computations -/

/-- What an item is related to. -/
theorem exists_of_forall₂ {α β : Type} {R : α → β → Prop} {xs : List α} {ys : List β}
    (h : List.Forall₂ R xs ys) {x : α} (hx : x ∈ xs) : ∃ y ∈ ys, R x y := by
  induction h with
  | nil => exact absurd hx List.not_mem_nil
  | cons hxy _ ih =>
    rcases List.mem_cons.1 hx with rfl | hx
    · exact ⟨_, List.mem_cons_self, hxy⟩
    · obtain ⟨y, hy, hR⟩ := ih hx
      exact ⟨y, List.mem_cons_of_mem _ hy, hR⟩

/-- Computations that all succeed have the list of their answers. -/
theorem Except.mapM_eq_ok {ε α β : Type} {g : α → Except ε β} {xs : List α} (ys : List β)
    (h : List.Forall₂ (fun x y => g x = .ok y) xs ys) : xs.mapM g = .ok ys := by
  induction h with
  | nil => rfl
  | cons hx _ ih =>
    rw [List.mapM_cons, hx, ih]
    rfl

/-- The same where the answers are known beforehand. -/
theorem Except.mapM_eq_map {ε α β : Type} {g : α → Except ε β} {xs : List α} {h : α → β}
    (hg : ∀ x ∈ xs, g x = .ok (h x)) : xs.mapM g = .ok (xs.map h) := by
  refine mapM_eq_ok _ ?_
  rw [List.forall₂_map_right_iff, List.forall₂_same]
  exact hg

/-! ### Content -/

/-- The entry of a field or slot in the content of a tree, if it has one. -/
def Tree.shownEntry (t : Tree) (name : String) : Option (Data × Data) :=
  (t.shownAt name).map fun v => (Data.str (wireName name), v)

namespace Forest

variable {f : Forest} {t c : Tree} {i j : NodeId} {A : Finset NodeId}

/-- What stands under a key of a node at which a tree stands. -/
theorem Holds.readFrom_eq (hf : f.Holds c j A) {name : String} (hname : name ∈ c.keys) :
    f.readFrom (.node j) name = .ok ((f.get j).value name) := by
  refine read_attribute (List.mem_append_left _ ?_)
  rw [hf.kind]
  exact hf.root.keys name hname

/-- A key that is a text is read as it is. -/
theorem Holds.value_of_text (hf : f.Holds c j A) {name : String} (hname : name ∈ c.keys)
    {s : String} (h : c.field name = .str s) : (f.get j).value name = .str s := by
  rw [hf.root.field name, Tree.told_of_key hname] at h
  exact Data.settled_eq_str.1 h

variable {ids : String → List NodeId} {part : String → Nat → Finset NodeId}
  {content : NodeId → Except Failure Data}

/-- The fields of a node, as a tree shows them. -/
theorem Stands.shownFields_eq (own : f.Stands t i A ids part) :
    shownFields (f.get i) = t.kind.shownFields.filterMap fun name =>
      (t.shownAt name).map fun v => (Data.str (wireName name), v) := by
  unfold shownFields
  rw [own.root.kind]
  refine List.filterMap_congr fun name hname => ?_
  have hfield : name ∈ t.kind.fields := (List.mem_filter.1 hname).1
  rw [Tree.shownAt_field hfield, own.root.field name, Tree.shownField_told hname, Tree.shownField, Node.isSet]
  cases ((f.get i).value name).isUnset <;> rfl

/-- The contents of the children in a slot. -/
theorem Stands.contents_eq (own : f.Stands t i A ids part) {σ : String} {p : Placement} (hp : t.kind.placement? σ = some p)
    (hcontent : ∀ (n : Nat) (c : Tree) (j : NodeId), (t.slot σ).trees[n]? = some c → (ids σ)[n]? = some j →
      content j = .ok (.ofEntries c.shown)) :
    List.Forall₂ (fun x (c : Tree) => shownMember content x = .ok (.ofEntries c.shown))
      ((ids σ).map Data.node) (t.slot σ).trees := by
  have hlength := (own.slots σ (Kind.mem_slots_of_placement? hp)).length
  rw [List.forall₂_map_left_iff, List.forall₂_iff_get]
  refine ⟨hlength, fun n hn hn' => ?_⟩
  exact hcontent n _ _ (List.getElem?_eq_getElem hn') (List.getElem?_eq_getElem hn)

/-- What a singular slot shows. -/
theorem Stands.singular_eq (own : f.Stands t i A ids part) (ht : t.Typed) {σ : String} {k : Kind} {b : Bool}
    (hp : t.kind.placement? σ = some (.single k b))
    (hcontent : ∀ (n : Nat) (c : Tree) (j : NodeId), (t.slot σ).trees[n]? = some c → (ids σ)[n]? = some j →
      content j = .ok (.ofEntries c.shown)) :
    entryOf σ ((f.get i).value σ) (shownSingular content ((f.get i).value σ))
      = .ok ((t.shownAt σ).map fun v => (Data.str (wireName σ), v)).toList := by
  have hshows := own.slots σ (Kind.mem_slots_of_placement? hp)
  have hfits := ht σ _ hp
  rw [Tree.shownAt_slot hp]
  cases hslot : t.slot σ with
  | empty =>
    rw [hslot] at hshows
    rw [hshows.2, Tree.shownSlot_empty]
    rfl
  | flag b =>
    rw [hslot] at hshows
    rw [hshows.2, Tree.shownSlot_flag]
    rfl
  | child c =>
    rw [hslot] at hshows
    obtain ⟨j, hids, hvalue⟩ := hshows
    have hj := hcontent 0 c j (by rw [hslot]; rfl) (by rw [hids]; rfl)
    rw [hvalue, Tree.shownSlot_child]
    show (do return [(Data.str (wireName σ), ← content j)]) = _
    rw [hj]
    rfl
  | members ts =>
    rw [hslot] at hfits
    exact absurd hfits.1 (by simp [Placement.isSingle])

/-- What a slot for a list of children shows, from what it shows of a list. -/
theorem Stands.list_eq (own : f.Stands t i A ids part) (ht : t.Typed) {σ : String}
    {p : Placement} (hp : t.kind.placement? σ = some p)
    (hlist : p.isSingle = false) {shown : Data → Except Failure Data}
    (hshown : ∀ ts mark, t.slot σ = .members ts →
      shown (.list ((ids σ).map Data.node) mark) = .ok (p.gather (ts.map fun c =>
        (p.keyOf c.field, .ofEntries c.shown)))) :
    entryOf σ ((f.get i).value σ) (shown ((f.get i).value σ))
      = .ok ((t.shownAt σ).map fun v => (Data.str (wireName σ), v)).toList := by
  have hshows := own.slots σ (Kind.mem_slots_of_placement? hp)
  have hfits := ht σ _ hp
  rw [Tree.shownAt_slot hp]
  cases hslot : t.slot σ with
  | empty =>
    rw [hslot] at hshows
    rw [hshows.2, Tree.shownSlot_empty]
    rfl
  | flag b =>
    rw [hslot] at hfits
    obtain ⟨k, rfl⟩ := hfits
    exact nomatch hlist
  | child c =>
    rw [hslot] at hfits
    exact absurd hfits.1 (by rw [hlist]; exact Bool.false_ne_true)
  | members ts =>
    rw [hslot] at hshows
    obtain ⟨-, mark, hvalue⟩ := hshows
    rw [hvalue, Tree.shownSlot_members]
    show (do return [(Data.str (wireName σ), ← shown (.list _ mark))]) = _
    rw [hshown ts mark hslot]
    rfl

/-- What a node shows under each of several names. -/
theorem flatten_map_toList {α : Type} (l : List α) (name : α → String)
    (g : String → Option (Data × Data)) :
    (l.map fun p => (g (name p)).toList).flatten = (l.map name).filterMap g := by
  induction l with
  | nil => rfl
  | cons p l ih =>
    rw [List.map_cons, List.flatten_cons, ih, List.map_cons, List.filterMap_cons]
    cases g (name p) <;> rfl

/-- What a slot for children under keys shows. -/
theorem Stands.indexed_eq (own : f.Stands t i A ids part)
    (children : ∀ σ n c j, (t.slot σ).trees[n]? = some c → (ids σ)[n]? = some j →
      f.Holds c j (part σ n)) (ht : t.Typed) {σ : String} {k : Kind} {key : String}
    (hp : t.kind.placement? σ = some (.keyed k key))
    (hcontent : ∀ (n : Nat) (c : Tree) (j : NodeId), (t.slot σ).trees[n]? = some c →
      (ids σ)[n]? = some j → content j = .ok (.ofEntries c.shown)) :
    entryOf σ ((f.get i).value σ) (f.shownIndexed content key ((f.get i).value σ))
      = .ok ((t.shownAt σ).map fun v => (Data.str (wireName σ), v)).toList := by
  refine own.list_eq ht hp rfl fun ts mark hts => ?_
  have hlength := (own.slots σ (Kind.mem_slots_of_placement? hp)).length
  have hfits := ht σ _ hp
  rw [hts] at hlength hfits
  let pair (x : Data) : Except Failure (Data × Data) := do
    let k ← f.readFrom x key
    let shown ← shownMember content x
    Groups.hashable k
    return (k, shown)
  have hpair : List.Forall₂ (fun x c => pair x = .ok (c.field key, .ofEntries c.shown))
      ((ids σ).map Data.node) ts := by
    rw [List.forall₂_map_left_iff, List.forall₂_iff_get]
    refine ⟨hlength, fun n hn hn' => ?_⟩
    have hc : (t.slot σ).trees[n]? = some ts[n] := by
      rw [hts]
      exact List.getElem?_eq_getElem hn'
    have hj := List.getElem?_eq_getElem hn
    have hchild := children σ n _ _ hc hj
    obtain ⟨-, hkeys, htext⟩ := hfits.2 _ (List.getElem_mem hn')
    have hkey : key ∈ ts[n].keys := by
      rw [hkeys]
      exact List.mem_singleton_self _
    -- The key is a text, and so it can be one of a mapping.
    obtain ⟨s, hs⟩ := htext _ _ rfl
    have hread := hchild.readFrom_eq hkey
    rw [hchild.value_of_text hkey hs] at hread
    have hshown : shownMember content (.node (ids σ)[n]) = .ok (.ofEntries ts[n].shown) :=
      hcontent n _ _ hc hj
    show (f.readFrom (.node (ids σ)[n]) key >>= fun k =>
      shownMember content (.node (ids σ)[n]) >>= fun shown =>
      Groups.hashable k >>= fun _ => pure (k, shown)) = Except.ok (ts[n].field key, _)
    rw [hread, hshown, hs]
    rfl
  have hmap := Except.mapM_eq_ok (ts.map fun c => (c.field key, Data.ofEntries c.shown))
    (List.forall₂_map_right_iff.2 hpair)
  show (((ids σ).map Data.node).mapM pair >>= fun pairs =>
    pure (Data.ofEntries (Entries.ofPairs pairs))) = _
  rw [hmap]
  rfl

/-- What a slot for children told apart by some fields shows. -/
theorem Stands.collection_eq (own : f.Stands t i A ids part) (ht : t.Typed) {σ : String}
    {k : Kind} {slot : CollectionSlot} (hp : t.kind.placement? σ = some (.listed k slot))
    (hcontent : ∀ (n : Nat) (c : Tree) (j : NodeId), (t.slot σ).trees[n]? = some c →
      (ids σ)[n]? = some j → content j = .ok (.ofEntries c.shown)) :
    entryOf σ ((f.get i).value σ) (shownCollection content ((f.get i).value σ))
      = .ok ((t.shownAt σ).map fun v => (Data.str (wireName σ), v)).toList := by
  refine own.list_eq ht hp rfl fun ts mark hts => ?_
  have hcontents := own.contents_eq hp hcontent
  rw [hts] at hcontents
  have hmap := Except.mapM_eq_ok (ts.map fun c => Data.ofEntries c.shown)
    (List.forall₂_map_right_iff.2 hcontents)
  show (((ids σ).map Data.node).mapM (shownMember content) >>= fun xs =>
    pure (Data.ofList xs)) = _
  rw [hmap]
  show Except.ok (Data.ofList _) = Except.ok (Data.ofList _)
  rw [List.map_map]
  rfl

/-- The entries of the slots for single children. -/
theorem Stands.singular_entries (own : f.Stands t i A ids part) (ht : t.Typed)
    (hcontent : ∀ σ (n : Nat) (c : Tree) (j : NodeId), (t.slot σ).trees[n]? = some c →
      (ids σ)[n]? = some j → content j = .ok (.ofEntries c.shown)) :
    (t.kind.layout.singular.mapM fun (_, slot) =>
      entryOf slot ((f.get i).value slot) (shownSingular content ((f.get i).value slot)))
        = .ok (t.kind.layout.singular.map fun p => (t.shownEntry p.2).toList) :=
  Except.mapM_eq_map fun p hp =>
    own.singular_eq ht (t.kind.placement?_singular p hp) (hcontent p.2)

/-- The entries of the slots for children told apart by some fields. -/
theorem Stands.collection_entries (own : f.Stands t i A ids part) (ht : t.Typed)
    (hcontent : ∀ σ (n : Nat) (c : Tree) (j : NodeId), (t.slot σ).trees[n]? = some c →
      (ids σ)[n]? = some j → content j = .ok (.ofEntries c.shown)) :
    (t.kind.layout.collections.mapM fun (_, slot) =>
      entryOf slot.name ((f.get i).value slot.name)
        (shownCollection content ((f.get i).value slot.name)))
        = .ok (t.kind.layout.collections.map fun p => (t.shownEntry p.2.name).toList) :=
  Except.mapM_eq_map fun p hp =>
    own.collection_eq ht (t.kind.placement?_collections p hp) (hcontent p.2.name)

/-- The entries of the slots for children under keys. -/
theorem Stands.indexed_entries (own : f.Stands t i A ids part)
    (children : ∀ σ n c j, (t.slot σ).trees[n]? = some c → (ids σ)[n]? = some j →
      f.Holds c j (part σ n)) (ht : t.Typed)
    (hcontent : ∀ σ (n : Nat) (c : Tree) (j : NodeId), (t.slot σ).trees[n]? = some c →
      (ids σ)[n]? = some j → content j = .ok (.ofEntries c.shown)) :
    (t.kind.layout.indexed.mapM fun (_, slot) =>
      entryOf slot.name ((f.get i).value slot.name)
        (f.shownIndexed content slot.key ((f.get i).value slot.name)))
        = .ok (t.kind.layout.indexed.map fun p => (t.shownEntry p.2.name).toList) :=
  Except.mapM_eq_map fun p hp =>
    own.indexed_eq children ht (t.kind.placement?_indexed p hp) (hcontent p.2.name)

/-- The content of a node from the contents of its children. -/
theorem Stands.assemble_eq (own : f.Stands t i A ids part)
    (children : ∀ σ n c j, (t.slot σ).trees[n]? = some c → (ids σ)[n]? = some j →
      f.Holds c j (part σ n)) (ht : t.Typed)
    (hcontent : ∀ σ (n : Nat) (c : Tree) (j : NodeId), (t.slot σ).trees[n]? = some c →
      (ids σ)[n]? = some j → content j = .ok (.ofEntries c.shown)) :
    f.assemble content (f.get i) = .ok t.shown := by
  obtain ⟨mark, hextensions⟩ := own.root.extensions
  have hown : shownFields (f.get i)
      ++ (t.kind.layout.singular.map fun p => (t.shownEntry p.2).toList).flatten
      ++ (t.kind.layout.collections.map fun p => (t.shownEntry p.2.name).toList).flatten
      ++ (t.kind.layout.indexed.map fun p => (t.shownEntry p.2.name).toList).flatten = t.own := by
    have hfields : shownFields (f.get i) = t.kind.shownFields.filterMap t.shownEntry :=
      own.shownFields_eq
    rw [hfields, flatten_map_toList, flatten_map_toList, flatten_map_toList,
      ← List.filterMap_append, ← List.filterMap_append, ← List.filterMap_append]
    rw [Tree.own, Kind.shownNames, Kind.slots, Layout.slotNames]
    simp only [List.append_assoc]
    rfl
  unfold assemble
  rw [own.root.kind]
  dsimp only
  rw [own.singular_entries ht hcontent, own.collection_entries ht hcontent,
    own.indexed_entries children ht hcontent, hextensions, Tree.shown_eq, ← hown]
  rfl

/-- The content of a node at which a tree stands, to as many levels as it has nodes. -/
theorem Holds.contentIn_eq (hf : f.Holds t i A) (ht : t.All Tree.Typed) :
    ∀ n, A.card ≤ n → f.contentIn n i = .ok t.shown := by
  induction hf with
  | @mk t i A ids part own children ih =>
    intro n hn
    have hpos : 0 < A.card := Finset.card_pos.2 ⟨i, own.mem⟩
    obtain ⟨n, rfl⟩ : ∃ m, n = m + 1 := ⟨n - 1, by omega⟩
    refine own.assemble_eq children ht.root fun σ m c j hc hj => ?_
    -- A child has fewer nodes of its own.
    have hcard : (part σ m).card ≤ n := by
      have hle := Finset.card_le_card (own.part_subset σ m)
      rw [Finset.card_erase_of_mem own.mem] at hle
      omega
    rw [ih σ m c j hc hj (ht.child (List.mem_of_getElem? hc)) n hcard]
    rfl

/-- The content of a node at which a tree stands. -/
theorem Holds.content_eq (hf : f.Holds t i A) (ht : t.All Tree.Typed) :
    f.content i = .ok t.shown := by
  refine hf.contentIn_eq ht _ ?_
  have hsubset : A ⊆ Finset.range f.size := fun j hj => Finset.mem_range.2 (hf.bound j hj)
  have hcard := Finset.card_le_card hsubset
  rw [Finset.card_range] at hcard
  exact Nat.le_succ_of_le hcard

end Forest

end ApiDoc
