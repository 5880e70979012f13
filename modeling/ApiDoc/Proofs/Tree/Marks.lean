import ApiDoc.Proofs.Data.Marks
import ApiDoc.Proofs.Tree.Items
import ApiDoc.Proofs.Tree.Repetition

namespace ApiDoc

/-!
# Trees without marks

What a merge makes of a tree does not depend on marks, and neither does what a document shows of
it, but for marks:

* `Tree.unmarked` — a tree whose values have no marks;
* `Tree.merge_unmarked`, `Tree.mergeAll_unmarked` — the merge of a source without marks;
* `Tree.shown_unmarked`, `Tree.same_shown` — trees that say the same show the same.
-/

/-- What stands in a slot, each child replaced. -/
def Slot.map {α β : Type} (f : α → β) : Slot α → Slot β
  | .empty => .empty
  | .flag b => .flag b
  | .child a => .child (f a)
  | .members as => .members (as.map f)

namespace Tree

mutual

/-- The tree without marks. -/
def unmarked : Tree → Tree
  | ⟨k, keys, extensions, field, slot⟩ =>
    ⟨k, keys, extensions.unmarked, fun name => (field name).unmarked,
      fun σ => unmarkedSlot (slot σ)⟩
termination_by structural t => t

/-- What stands in a slot, without marks. -/
def unmarkedSlot : Slot Tree → Slot Tree
  | .empty => .empty
  | .flag b => .flag b
  | .child t => .child t.unmarked
  | .members ts => .members (unmarkedAll ts)
termination_by structural s => s

/-- Trees without marks. -/
def unmarkedAll : List Tree → List Tree
  | [] => []
  | t :: ts => t.unmarked :: unmarkedAll ts
termination_by structural ts => ts

end

/-- Marks taken away child by child. -/
theorem unmarkedAll_eq (ts : List Tree) : unmarkedAll ts = ts.map unmarked := by
  induction ts with
  | nil => rfl
  | cons t ts ih => rw [unmarkedAll, ih]; rfl

/-- Marks taken away from all that stands in a slot. -/
theorem unmarkedSlot_eq (s : Slot Tree) : unmarkedSlot s = s.map unmarked := by
  cases s with
  | members ts => rw [unmarkedSlot, unmarkedAll_eq]; rfl
  | _ => rfl

variable {t u : Tree}

@[simp] theorem kind_unmarked (t : Tree) : t.unmarked.kind = t.kind := by cases t; rfl

@[simp] theorem keys_unmarked (t : Tree) : t.unmarked.keys = t.keys := by cases t; rfl

@[simp] theorem extensions_unmarked (t : Tree) :
    t.unmarked.extensions = t.extensions.unmarked := by cases t; rfl

@[simp] theorem field_unmarked (t : Tree) (name : String) :
    t.unmarked.field name = (t.field name).unmarked := by cases t; rfl

/-- A slot of a tree without marks has children without marks. -/
theorem slot_unmarked (t : Tree) (σ : String) :
    t.unmarked.slot σ = (t.slot σ).map unmarked := by
  rw [← unmarkedSlot_eq]
  cases t
  rfl

end Tree

/-! ### Lists of children -/

section

variable {α β : Type} {f : α → β}

/-- The list of children follows a map over them. -/
theorem Slot.list_map (s : Slot α) : (s.map f).list = s.list.map f := by
  cases s <;> rfl

/-- The child, or a given tree in its place, follows a map over them. -/
theorem Slot.childOr_map (s : Slot α) (a : α) : (s.map f).childOr (f a) = f (s.childOr a) := by
  cases s <;> rfl

/-- A map over its children neither fills a slot nor empties it. -/
theorem Slot.isEmpty_map (s : Slot α) : (s.map f).isEmpty = s.isEmpty := by
  cases s <;> rfl

/-- Children put behind others follow a map over them. -/
theorem Slot.grow_map (s : Slot α) (as : List α) :
    (s.map f).grow (as.map f) = (s.grow as).map f := by
  unfold Slot.grow
  rw [List.isEmpty_map]
  split <;> rfl

/-- Items replaced after a change, or before it. -/
theorem map_upsert {p : α → Bool} {q : β → Bool} {new : α} {change : α → α}
    {change' : β → β} (htest : ∀ a, q (f a) = p a)
    (hchange : ∀ a, change' (f a) = f (change a)) (as : List α) :
    (upsert p new change as).map f = upsert q (f new) change' (as.map f) := by
  induction as with
  | nil => rfl
  | cons a as ih =>
    rw [List.map_cons, upsert, upsert, htest]
    split
    · rw [List.map_cons, hchange]
    · rw [List.map_cons, ih]

end

/-! ### Values of fields -/

namespace Data

/-- Settling a value and taking its marks away commute. -/
@[simp] theorem settled_unmarked (v : Data) : v.unmarked.settled = v.settled.unmarked := by
  cases v <;> simp [settled, unmarked, unmarkedItems_eq, unmarkedEntries_eq]

/-- What is shown of a value without marks is what is shown of it, without marks. -/
@[simp] theorem shownValue_unmarked (v : Data) :
    Forest.shownValue v.unmarked = (Forest.shownValue v).unmarked := by
  unfold Forest.shownValue
  rw [items?_unmarked]
  cases v.items? <;> simp

/-- The items that a value supplies, without marks. -/
theorem supplied_unmarked (v : Data) :
    Merge.supplied v.unmarked = (Merge.supplied v).map unmarked := by
  unfold Merge.supplied
  rw [items?_unmarked]
  cases v.items? <;> rfl

/-- Marks do not count when items are united. -/
theorem unionItems_unmarked (xs ys : List Data) :
    Merge.unionItems (xs.map unmarked) (ys.map unmarked)
      = (Merge.unionItems xs ys).map unmarked := by
  induction ys generalizing xs with
  | nil => rfl
  | cons y ys ih =>
    show Merge.unionItems (if y.unmarked.among (xs.map unmarked) then xs.map unmarked
      else xs.map unmarked ++ [y.unmarked]) (ys.map unmarked) = _
    rw [among_unmarked]
    show _ = (Merge.unionItems (if y.among xs then xs else xs ++ [y]) ys).map unmarked
    rw [← ih]
    split
    · rfl
    · rw [List.map_append]
      rfl

end Data

namespace Tree

variable {ov : Bool} {t u : Tree}

/-- The field by which a child is told from others, without marks. -/
theorem told_unmarked (k : Kind) (keys : List String) (name : String) (v : Data) :
    told k keys name v.unmarked = (told k keys name v).unmarked := by
  unfold told
  split
  · exact Data.settled_unmarked v
  · split
    · exact Data.shownValue_unmarked v
    · rfl

/-- A field set to a value without marks. -/
theorem unmarked_setField (t : Tree) (name : String) (v : Data) :
    (t.setField name v).unmarked = t.unmarked.setField name v.unmarked := by
  refine eq_of ?_ ?_ ?_ (fun other => ?_) fun σ => ?_
  · exact (kind_unmarked _).trans (kind_unmarked t).symm
  · exact (keys_unmarked _).trans (keys_unmarked t).symm
  · exact (extensions_unmarked _).trans (extensions_unmarked t).symm
  · rw [field_unmarked]
    show Data.unmarked (if other = name then _ else _) = if other = name then _ else _
    rw [field_unmarked]
    split <;> rfl
  · exact (slot_unmarked _ σ).trans (slot_unmarked t σ).symm

/-- A slot replaced, and marks taken away. -/
theorem unmarked_setSlot (t : Tree) (σ : String) (s : Slot Tree) :
    (t.setSlot σ s).unmarked = t.unmarked.setSlot σ (s.map unmarked) := by
  refine eq_of ?_ ?_ ?_ (fun other => ?_) fun τ => ?_
  · exact (kind_unmarked _).trans (kind_unmarked t).symm
  · exact (keys_unmarked _).trans (keys_unmarked t).symm
  · exact (extensions_unmarked _).trans (extensions_unmarked t).symm
  · exact (field_unmarked _ other).trans (field_unmarked t other).symm
  · rw [slot_unmarked]
    show Slot.map unmarked (if τ = σ then _ else _) = if τ = σ then _ else _
    rw [slot_unmarked]
    split <;> rfl

/-- A fresh tree has no marks. -/
@[simp] theorem unmarked_fresh (k : Kind) (keys : List String) :
    (fresh k keys).unmarked = fresh k keys := rfl

/-- A field set, and marks taken away. -/
theorem unmarked_put (t : Tree) (name : String) (v : Data) :
    (t.put name v).unmarked = t.unmarked.put name v.unmarked := by
  rw [put, put, unmarked_setField, told_unmarked, kind_unmarked, keys_unmarked]

/-- Several fields set, and marks taken away. -/
theorem unmarked_putFields (t : Tree) (fields : Entries) :
    (t.putFields fields).unmarked = t.unmarked.putFields fields.unmarked := by
  induction fields generalizing t with
  | nil => rfl
  | cons e fields ih =>
    show ((t.put _ _).putFields fields).unmarked
      = (t.unmarked.put (e.1.unmarked.str?.getD "") e.2.unmarked).putFields (Entries.unmarked fields)
    rw [ih, unmarked_put, Data.str?_unmarked]

/-- Marks do not count when fields are compared. -/
theorem hasValues_unmarked (t : Tree) (fields : Entries) :
    t.unmarked.hasValues fields.unmarked = t.hasValues fields := by
  rw [hasValues, hasValues, Entries.unmarked, List.all_map]
  congr 1
  funext e
  rw [Function.comp_apply, Data.str?_unmarked, field_unmarked, Data.alike_unmarked]

/-- A field merged, and marks taken away. -/
theorem mergeField_unmarked (k : Kind) (keys : List String) (name : String) (v current : Data) :
    mergeField ov k keys name v.unmarked current.unmarked
      = (mergeField ov k keys name v current).unmarked := by
  unfold mergeField
  rw [Data.isUnset_unmarked, Data.items?_unmarked, Data.supplied_unmarked]
  have hitems : (current.items?.map (·.map Data.unmarked)).getD []
      = (current.items?.getD []).map Data.unmarked := by
    cases current.items? <;> rfl
  split
  · rw [hitems, Data.unionItems_unmarked, ← told_unmarked, Data.unmarked_list]
  · split
    · exact told_unmarked k keys name v
    · rfl

/-- An extension merged, and marks taken away. -/
theorem extend_unmarked (extensions : Entries) (e : Data × Data) :
    extend ov extensions.unmarked (e.1.unmarked, e.2.unmarked)
      = (extend ov extensions e).unmarked := by
  unfold extend
  rw [Entries.has_unmarked, Entries.insert_unmarked]
  split <;> rfl

/-- One entry for a field or an extension merged, and marks taken away. -/
theorem mergePlain_unmarked (t : Tree) (e : Data × Data) :
    (mergePlain ov t e).unmarked = mergePlain ov t.unmarked (e.1.unmarked, e.2.unmarked) := by
  unfold mergePlain
  rw [Data.str?_unmarked, kind_unmarked, keys_unmarked, extensions_unmarked]
  cases e.1.str? with
  | none => rfl
  | some key =>
    dsimp only
    split
    · rw [extend_unmarked]
      cases t
      rfl
    · split
      · rfl
      · rw [unmarked_setField, ← mergeField_unmarked, field_unmarked]

/-- All entries for fields and extensions merged, and marks taken away. -/
theorem foldl_mergePlain_unmarked (es : Entries) (t : Tree) :
    (es.foldl (mergePlain ov) t).unmarked = es.unmarked.foldl (mergePlain ov) t.unmarked := by
  induction es generalizing t with
  | nil => rfl
  | cons e es ih =>
    rw [List.foldl_cons, ih, mergePlain_unmarked]
    rfl

end Tree

/-! ### Items -/

namespace Entries

/-- The entries of an item by which it is told from others, without marks. -/
theorem identity_unmarked (k : Kind) (slot : CollectionSlot) (es : Entries) :
    Entries.identity k slot es.unmarked = (Entries.identity k slot es).unmarked := by
  unfold Entries.identity Entries.unmarked
  rw [List.filterMap_map, List.map_filterMap]
  congr 1
  funext e
  obtain ⟨key, v⟩ := e
  have hkey : Merge.identifies? k slot key.unmarked = Merge.identifies? k slot key := by
    cases key <;> simp [Merge.identifies?, Data.unmarked]
  show (Merge.identifies? k slot key.unmarked).map _ = Option.map _ (Option.map _ _)
  rw [hkey, Option.map_map]
  rfl

/-- The other entries of an item, without marks. -/
theorem rest_unmarked (k : Kind) (slot : CollectionSlot) (es : Entries) :
    Entries.rest k slot es.unmarked = (Entries.rest k slot es).unmarked := by
  refine filter_unmarked fun e => ?_
  obtain ⟨key, v⟩ := e
  cases key <;> simp [Merge.identifies?, Data.unmarked]

end Entries

/-- The items of a value for a slot, without marks. -/
theorem Placement.items_unmarked (p : Placement) (v : Data) :
    p.items v.unmarked = (p.items v).map fun item => (item.1.unmarked, item.2.unmarked) := by
  have hlisted : ∀ k slot, Placement.items (.listed k slot) v.unmarked
      = (Placement.items (.listed k slot) v).map fun item => (item.1.unmarked, item.2.unmarked) := by
    intro k slot
    show List.filterMap _ (v.unmarked.items?.getD []) = List.map _ (List.filterMap _ _)
    rw [Data.items?_unmarked]
    have hitems : (v.items?.map (·.map Data.unmarked)).getD []
        = (v.items?.getD []).map Data.unmarked := by
      cases v.items? <;> rfl
    rw [hitems, List.filterMap_map, List.map_filterMap]
    congr 1
    funext x
    cases x with
    | map gs mark =>
      rw [Function.comp_apply, Data.unmarked_map]
      dsimp only
      rw [Entries.identity_unmarked, Entries.rest_unmarked]
      rfl
    | _ => simp [Data.unmarked]
  cases p with
  | single k b => cases v <;> simp [items]
  | listed k slot => exact hlisted k slot
  | keyed k key =>
    cases v with
    | map fs mark =>
      rw [Data.unmarked_map]
      show List.filterMap _ _ = List.map _ (List.filterMap _ _)
      rw [Entries.unmarked, List.filterMap_map, List.map_filterMap]
      congr 1
      funext e
      obtain ⟨k', w⟩ := e
      cases w <;> simp [Data.unmarked, Data.unmarkedEntries_eq]
    | _ => simp [items, Data.unmarked]

namespace Tree

variable {ov : Bool} {t u : Tree}

/-! ### Merges -/

/-- A slot merged, and marks taken away, if this is so for everything smaller than its value. -/
theorem mergeSlot_unmarked {p : Placement} {v : Data}
    (h : ∀ fs, sizeOf fs < sizeOf v → ∀ u, (merge ov fs u).unmarked
      = merge ov fs.unmarked u.unmarked) (s : Slot Tree) :
    (mergeSlot (merge ov) ov p (some v) s).map unmarked
      = mergeSlot (merge ov) ov p (some v.unmarked) (s.map unmarked) := by
  have hlist : (s.grow ((p.items v).foldl (putMember (merge ov) p) s.list)).map unmarked
      = (s.map unmarked).grow
          ((p.items v.unmarked).foldl (putMember (merge ov) p) (s.map unmarked).list) := by
    rw [← Slot.grow_map, Slot.list_map, Placement.items_unmarked, List.foldl_map]
    congr 1
    have hitems : ∀ item ∈ p.items v, sizeOf item.2 < sizeOf v := fun _ =>
      Placement.sizeOf_items_lt
    generalize p.items v = items at hitems ⊢
    generalize s.list = ts
    induction items generalizing ts with
    | nil => rfl
    | cons item items ih =>
      obtain ⟨hitem, hitems⟩ := List.forall_mem_cons.1 hitems
      rw [List.foldl_cons, List.foldl_cons, ih hitems]
      congr 1
      unfold putMember
      rw [map_upsert (f := unmarked) (q := fun c => c.hasValues item.1.unmarked)
        (fun c => hasValues_unmarked c item.1) (fun c => (h _ hitem c).symm), h _ hitem,
        unmarked_putFields, unmarked_fresh]
  cases p with
  | single k b =>
    cases v with
    | map fs mark =>
      have hsize : sizeOf fs < sizeOf (Data.map fs mark) := by simp; omega
      rw [Data.unmarked_map]
      show Slot.child _ = Slot.child _
      rw [h fs hsize, ← Slot.childOr_map (f := unmarked), unmarked_fresh]
    | scalar x =>
      cases x with
      | bool c =>
        show Slot.map unmarked (if _ then _ else _) = if _ then _ else _
        rw [Slot.isEmpty_map]
        split <;> rfl
      | _ => rfl
    | _ => simp [mergeSlot, Data.unmarked]
  | keyed k key => exact hlist
  | listed k slot => exact hlist

/-- A merge does not look at marks. -/
theorem merge_unmarked (ov : Bool) (es : Entries) (t : Tree) :
    (merge ov es t).unmarked = merge ov es.unmarked t.unmarked := by
  have hslots : (mergeSlots (merge ov) ov es t).unmarked
      = mergeSlots (merge ov) ov es.unmarked t.unmarked := by
    refine eq_of ?_ ?_ ?_ (fun name => ?_) fun σ => ?_
    · exact (kind_unmarked _).trans (kind_unmarked t).symm
    · exact (keys_unmarked _).trans (keys_unmarked t).symm
    · exact (extensions_unmarked _).trans (extensions_unmarked t).symm
    · exact (field_unmarked _ name).trans (field_unmarked t name).symm
    · rw [slot_unmarked]
      simp only [mergeSlots, kind_unmarked, slot_unmarked]
      cases t.kind.placement? σ with
      | none => rfl
      | some p =>
        dsimp only
        rw [Entries.text?_unmarked]
        cases hv : es.text? (wireName σ) with
        | none => cases p <;> rfl
        | some v =>
          have hsize := Entries.sizeOf_text?_lt hv
          exact mergeSlot_unmarked (fun fs hfs u => merge_unmarked ov fs u) _
  rw [merge_eq, merge_eq, mergeStep, mergeStep, foldl_mergePlain_unmarked, hslots, kind_unmarked,
    Entries.filter_unmarked]
  intro e
  have hkey : Merge.isSlotKey t.kind.layout e.1.unmarked = Merge.isSlotKey t.kind.layout e.1 := by
    unfold Merge.isSlotKey
    congr 1
    funext slot
    exact Data.same_unmarked_left ..
  rw [hkey]
termination_by sizeOf es
decreasing_by omega

/-- Sources merged one after the other, and marks taken away. -/
theorem mergeAll_unmarked (ov : Bool) (ws : List Entries) (t : Tree) :
    (mergeAll ov ws t).unmarked = mergeAll ov (ws.map Entries.unmarked) t.unmarked := by
  induction ws generalizing t with
  | nil => rfl
  | cons es ws ih =>
    show (mergeAll ov ws (merge ov es t)).unmarked = mergeAll ov _ (merge ov _ _)
    rw [ih, merge_unmarked]

/-! ### What a document shows -/

/-- What a field without marks shows. -/
theorem shownField_unmarked (v : Data) :
    shownField v.unmarked = (shownField v).map Data.unmarked := by
  unfold shownField
  rw [Data.isUnset_unmarked, Data.shownValue_unmarked]
  split <;> rfl

/-- The key under which a tree without marks stands. -/
theorem keyOf_unmarked (p : Placement) (t : Tree) :
    p.keyOf t.unmarked.field = (p.keyOf t.field).unmarked := by
  cases p with
  | keyed k key => exact field_unmarked t key
  | _ => rfl

/-- Contents without marks, gathered as the slot has it. -/
theorem gather_unmarked (p : Placement) (contents : Entries) :
    p.gather contents.unmarked = (p.gather contents).unmarked := by
  cases p with
  | keyed k key =>
    show Data.ofEntries _ = Data.unmarked (.ofEntries _)
    rw [Data.unmarked_map, Entries.ofPairs_unmarked]
  | _ =>
    show Data.ofList _ = Data.unmarked (.ofList _)
    rw [Data.unmarked_list, Entries.unmarked, List.map_map, List.map_map]
    rfl

/-- What a document shows of a tree without marks has none. -/
theorem shown_unmarked (t : Tree) : t.unmarked.shown = t.shown.unmarked := by
  induction t using Tree.induct with
  | h t ih =>
    have hat : ∀ name, t.unmarked.shownAt name = (t.shownAt name).map Data.unmarked := by
      intro name
      unfold shownAt
      rw [kind_unmarked, field_unmarked, slot_unmarked]
      split
      · exact shownField_unmarked _
      · rename_i p hp
        have ih := ih name
        cases hslot : t.slot name with
        | empty => simp [Slot.map]
        | flag b => simp [Slot.map]
        | child c =>
          rw [hslot] at ih
          rw [Slot.map, shownSlot_child, shownSlot_child, ih c (List.mem_singleton_self c)]
          simp
        | members ts =>
          rw [hslot] at ih
          rw [Slot.map, shownSlot_members, shownSlot_members, Option.map_some, ← gather_unmarked,
            List.map_map, Entries.unmarked, List.map_map]
          congr 2
          refine List.map_congr_left fun c hc => ?_
          simp only [Function.comp_apply, keyOf_unmarked, ih c hc, Data.unmarked_map]
    have hown : t.unmarked.own = t.own.unmarked := by
      unfold own Entries.unmarked
      rw [kind_unmarked, List.map_filterMap]
      congr 1
      funext name
      rw [hat, Option.map_map, Option.map_map]
      rfl
    rw [shown_eq, shown_eq, hown, extensions_unmarked, Entries.update_unmarked]

/-- Trees that say the same show the same. -/
theorem same_shown (h : t.unmarked = u.unmarked) :
    (Data.ofEntries t.shown).same (.ofEntries u.shown) = true := by
  refine Data.same_of_unmarked_eq ?_
  rw [Data.unmarked_map, Data.unmarked_map, ← shown_unmarked, ← shown_unmarked, h]

end Tree

end ApiDoc
