import ApiDoc.Proofs.Data.Upsert
import ApiDoc.Proofs.Tree.Basic

namespace ApiDoc

/-!
# Merging into trees

What a merge of a mapping into a node makes of the tree that stands there:

* `Data.settled`, `Tree.told` — what a tree keeps of the value of a field;
* `Placement.items` — what a value brings for the members of a slot, each with the values by which
  it is told from others;
* `Tree.putMember` — a member found and changed, or added at the end;
* `Tree.merge` — the merge, by recursion on the source; `Tree.merge_eq` says what it does to a
  tree in terms of the merges into the children;
* `Tree.merge_slot`, `Tree.merge_field`, `Tree.merge_extensions` — what it leaves under each name;
* `Entries.All` — what holds of a source and of all that it brings for children.
-/

/-! ### Values of fields -/

/-- The value without the mark of a list. -/
def Data.settled : Data → Data
  | .list xs _ => .ofList xs
  | v => v

namespace Tree

/-- What a tree keeps of the value of a field: as it is where the parent looks at it, and as the
    document shows it elsewhere. -/
def told (k : Kind) (keys : List String) (name : String) (v : Data) : Data :=
  if name ∈ keys then v.settled
  else if name ∈ k.shownFields then Forest.shownValue v
  else .unset

/-- The tree with the value of a field set. -/
def put (t : Tree) (name : String) (v : Data) : Tree :=
  t.setField name (told t.kind t.keys name v)

/-- The tree with the values of several fields set. -/
def putFields (t : Tree) (fields : Entries) : Tree :=
  fields.foldl (fun t e => t.put (e.1.str?.getD "") e.2) t

/-- Setting fields changes nothing but the fields. -/
theorem putFields_frame (t : Tree) (fields : Entries) : (t.putFields fields).kind = t.kind ∧
    (t.putFields fields).keys = t.keys ∧ (t.putFields fields).slot = t.slot ∧
      (t.putFields fields).extensions = t.extensions := by
  induction fields generalizing t with
  | nil => exact ⟨rfl, rfl, rfl, rfl⟩
  | cons e fields ih => exact ih (t.put (e.1.str?.getD "") e.2)

/-- Whether the fields of a tree have all the values given. -/
def hasValues (t : Tree) (fields : Entries) : Bool :=
  fields.all fun e => (t.field (e.1.str?.getD "")).alike e.2

end Tree

/-! ### Members -/

/-- The values of a source by which a collection tells its members apart. -/
def Entries.identity (k : Kind) (slot : CollectionSlot) (es : Entries) : Entries :=
  es.filterMap fun e => (Merge.identifies? k slot e.1).map fun name => (.str name, e.2)

/-- What else is in a source. -/
def Entries.rest (k : Kind) (slot : CollectionSlot) (es : Entries) : Entries :=
  es.filter fun e => (Merge.identifies? k slot e.1).isNone

/-- What a value brings for the members of a slot: for each the values by which it is told from
    others, and its content. -/
def Placement.items (p : Placement) (v : Data) : List (Entries × Entries) :=
  match p, v with
  | .keyed _ key, .map fs _ => fs.filterMap fun e => match e.2 with
    | .map gs _ => some ([(.str key, e.1)], gs)
    | _ => none
  | .listed k slot, v => (v.items?.getD []).filterMap fun x => match x with
    | .map gs _ => some (Entries.identity k slot gs, Entries.rest k slot gs)
    | _ => none
  | _, _ => []

namespace Slot

variable {α : Type}

/-- The child in a slot, or else another. -/
def childOr (s : Slot α) (a : α) : α :=
  match s with
  | .child b => b
  | _ => a

/-- The members in a slot. -/
def list (s : Slot α) : List α :=
  match s with
  | .members as => as
  | _ => []

/-- Whether there is nothing in a slot. -/
def isEmpty (s : Slot α) : Bool :=
  match s with
  | .empty => true
  | _ => false

/-- The slot with the members given. Without any it stays as it is. -/
def grow (s : Slot α) (as : List α) : Slot α := if as.isEmpty then s else .members as

end Slot

namespace Tree

/-! ### One level -/

variable (absorb absorb' : Entries → Tree → Tree) (ov : Bool)

/-- A member put among others: changed if it is there, and else made from the values by which it
    is told from others. -/
def putMember (p : Placement) (ts : List Tree) (item : Entries × Entries) : List Tree :=
  upsert (·.hasValues item.1) (absorb item.2 ((fresh p.kind p.keys).putFields item.1))
    (absorb item.2) ts

/-- What a value of a source makes of a slot. -/
def mergeSlot (p : Placement) (v? : Option Data) (s : Slot Tree) : Slot Tree :=
  match p, v? with
  | _, none => s
  | .single k boolean, some v => match v with
    | .scalar (.bool b) => if boolean && (ov || s.isEmpty) then .flag b else s
    | .map fs _ => .child (absorb fs (s.childOr (fresh k [])))
    | _ => s
  | p, some v => s.grow ((p.items v).foldl (putMember absorb p) s.list)

/-- Extensions with one more given. -/
def extend (extensions : Entries) (e : Data × Data) : Entries :=
  if ov || !extensions.has e.1 then extensions.insert e.1 e.2 else extensions

/-- What a value of a source makes of a field. -/
def mergeField (k : Kind) (keys : List String) (name : String) (v : Data) (current : Data) : Data :=
  if k.arrayFields.contains name then
    told k keys name (.ofList (Merge.unionItems (current.items?.getD []) (Merge.supplied v)))
  else if ov || current.isUnset then told k keys name v
  else current

/-- What an entry that names no slot makes of a tree. -/
def mergePlain (t : Tree) (e : Data × Data) : Tree :=
  match e.1.str? with
  | none => t
  | some key =>
    if key.startsWith "x-" then { t with extensions := extend ov t.extensions e }
    else match t.kind.fieldOfWire? key with
      | none => t
      | some name => t.setField name (mergeField ov t.kind t.keys name e.2 (t.field name))

/-- The slots of a tree with what a source brings for them. -/
def mergeSlots (es : Entries) (t : Tree) : Tree :=
  { t with slot := fun σ => match t.kind.placement? σ with
      | none => t.slot σ
      | some p => mergeSlot absorb ov p (es.text? (wireName σ)) (t.slot σ) }

/-- What a source makes of a tree, from what it makes of the children. -/
def mergeStep (es : Entries) (t : Tree) : Tree :=
  (es.filter fun e => !Merge.isSlotKey t.kind.layout e.1).foldl (mergePlain ov)
    (mergeSlots absorb ov es t)

/-! ### All levels -/

/-- A mapping merged into a tree. -/
noncomputable def merge (es : Entries) (t : Tree) : Tree :=
  -- What a source brings for children is always smaller than the source.
  mergeStep (fun fs u => if sizeOf fs < sizeOf es then merge fs u else u) ov es t
termination_by sizeOf es

end Tree

/-! ### What is smaller than a source -/

/-- What stands under a text is smaller than the entries. -/
theorem Entries.sizeOf_text?_lt {es : Entries} {s : String} {v : Data} (h : es.text? s = some v) :
    sizeOf v < sizeOf es := by
  have hmem := List.sizeOf_lt_of_mem (mem_of_text? h)
  simp only [Prod.mk.sizeOf_spec] at hmem
  omega

/-- Some of the entries are no bigger than all of them. -/
theorem Entries.sizeOf_filter_le (es : Entries) (p : Data × Data → Bool) :
    sizeOf (es.filter p) ≤ sizeOf es := by
  induction es with
  | nil => exact Nat.le_refl _
  | cons e es ih =>
    rw [List.filter_cons]
    split
    · simpa using ih
    · exact Nat.le_trans ih (by simp)

/-- The items of a value are smaller than the value. -/
theorem Data.sizeOf_items? {v : Data} {xs : List Data} (h : v.items? = some xs) :
    sizeOf xs < sizeOf v := by
  cases v <;> simp only [items?, Option.some.injEq, reduceCtorEq] at h <;> subst h <;> simp <;> omega

/-- What an item brings is smaller than the value. -/
theorem Placement.sizeOf_items_lt {p : Placement} {v : Data} {item : Entries × Entries}
    (h : item ∈ p.items v) : sizeOf item.2 < sizeOf v := by
  unfold items at h
  split at h
  · rename_i key fs mark
    obtain ⟨e, he, hitem⟩ := List.mem_filterMap.1 h
    have hsize := List.sizeOf_lt_of_mem he
    obtain ⟨k, w⟩ := e
    split at hitem
    · rename_i gs _ hw
      dsimp only at hw
      subst hw
      cases hitem
      simp only [Prod.mk.sizeOf_spec, Data.map.sizeOf_spec] at hsize ⊢
      omega
    · cases hitem
  · rename_i _ k slot
    obtain ⟨x, hx, hitem⟩ := List.mem_filterMap.1 h
    cases hitems : v.items? with
    | none => rw [hitems] at hx; exact absurd hx List.not_mem_nil
    | some xs =>
      rw [hitems, Option.getD_some] at hx
      have hsize := List.sizeOf_lt_of_mem hx
      have hv := Data.sizeOf_items? hitems
      split at hitem
      · rename_i gs _
        cases hitem
        have hrest := Entries.sizeOf_filter_le gs fun e => (Merge.identifies? k slot e.1).isNone
        simp only [Data.map.sizeOf_spec] at hsize
        show sizeOf (List.filter _ gs) < _
        omega
      · cases hitem
  · exact absurd h List.not_mem_nil

namespace Tree

variable {absorb absorb' : Entries → Tree → Tree} {ov : Bool}

/-- A merge into a slot depends on merges of what is smaller only. -/
theorem mergeSlot_congr {p : Placement} {v : Data}
    (h : ∀ fs, sizeOf fs < sizeOf v → absorb fs = absorb' fs) (s : Slot Tree) :
    mergeSlot absorb ov p (some v) s = mergeSlot absorb' ov p (some v) s := by
  have hitems : (p.items v).foldl (putMember absorb p) s.list
      = (p.items v).foldl (putMember absorb' p) s.list := by
    refine List.foldl_ext _ _ _ fun ts item hitem => ?_
    unfold putMember
    rw [h _ (Placement.sizeOf_items_lt hitem)]
  cases p with
  | single k boolean =>
    cases v with
    | map fs mark =>
      show Slot.child _ = Slot.child _
      rw [h fs (by simp; omega)]
    | scalar x => cases x <;> rfl
    | _ => rfl
  | keyed k key => exact congrArg s.grow hitems
  | listed k slot => exact congrArg s.grow hitems

/-- A merge in terms of the merges into the children. -/
theorem merge_eq (ov : Bool) (es : Entries) (t : Tree) :
    merge ov es t = mergeStep (merge ov) ov es t := by
  rw [merge]
  suffices h : mergeSlots (fun fs u => if sizeOf fs < sizeOf es then merge ov fs u else u) ov es t
      = mergeSlots (merge ov) ov es t by rw [mergeStep, h, mergeStep]
  unfold mergeSlots
  congr 1
  funext σ
  split
  · rfl
  · cases hv : es.text? (wireName σ) with
    | none => rfl
    | some v =>
      refine mergeSlot_congr (fun fs hfs => ?_) _
      have hlt : sizeOf fs < sizeOf es := Nat.lt_trans hfs (Entries.sizeOf_text?_lt hv)
      funext u
      rw [if_pos hlt]

/-! ### What stands under each name -/

end Tree

/-- Whether an entry stands for an extension. -/
def Entries.isExtension (e : Data × Data) : Bool :=
  match e.1.str? with
  | some key => key.startsWith "x-"
  | none => false

namespace Kind

variable {k : Kind} {name : String}

/-- The spelling of a field names the field. -/
theorem fieldOfWire?_wireName (h : name ∈ k.fields) :
    k.fieldOfWire? (wireName name) = some name := by
  unfold fieldOfWire?
  cases hfind : k.fields.find? fun other => wireName other == wireName name with
  | none => exact absurd (beq_self_eq_true _) (List.find?_eq_none.1 hfind name h)
  | some other =>
    have hmem := List.mem_append_left k.slots (List.mem_of_find?_eq_some hfind)
    have hwire : wireName other = wireName name := by simpa using List.find?_some hfind
    rw [eq_of_wireName_eq hmem (List.mem_append_left k.slots h) hwire]

/-- The keys of slots are their names as the document spells them. -/
theorem isSlotKey_iff {key : Data} :
    Merge.isSlotKey k.layout key = true ↔ ∃ σ ∈ k.slots, key = .str (wireName σ) := by
  simp [Merge.isSlotKey, slots, Data.same_str_iff]

end Kind

namespace Tree

variable {es : Entries} {t : Tree} {name : String}

/-- An entry for a field or an extension changes no slot. -/
theorem mergePlain_frame (ov : Bool) (t : Tree) (e : Data × Data) :
    (mergePlain ov t e).kind = t.kind ∧ (mergePlain ov t e).keys = t.keys ∧
      (mergePlain ov t e).slot = t.slot := by
  unfold mergePlain
  split
  · exact ⟨rfl, rfl, rfl⟩
  · split
    · exact ⟨rfl, rfl, rfl⟩
    · split <;> exact ⟨rfl, rfl, rfl⟩

/-- An extension is merged into the extensions, and nothing else is. -/
theorem mergePlain_extensions (t : Tree) (e : Data × Data) : (mergePlain ov t e).extensions
    = if Entries.isExtension e then extend ov t.extensions e else t.extensions := by
  unfold mergePlain Entries.isExtension
  cases hkey : e.1.str? with
  | none => rfl
  | some key =>
    dsimp only
    by_cases hx : key.startsWith "x-" = true
    · rw [if_pos hx, if_pos hx]
    · rw [if_neg hx, if_neg hx]
      split <;> rfl

/-- An entry under another key leaves the value of a field. -/
theorem mergePlain_field_of_ne {e : Data × Data} (h : e.1 ≠ .str (wireName name)) :
    (mergePlain ov t e).field name = t.field name := by
  unfold mergePlain
  split
  · rfl
  · rename_i key hkey
    split
    · rfl
    · split
      · rfl
      · rename_i other hother
        have hne : name ≠ other := by
          rintro rfl
          have hwire := (Kind.mem_fields_of_wire hother).2
          exact h (by rw [Data.str?_eq_some.1 hkey, hwire])
        exact if_neg hne

/-- A field is merged with the entry under its spelling. -/
theorem mergePlain_field_self (hname : name ∈ t.kind.fields) (v : Data) :
    (mergePlain ov t (.str (wireName name), v)).field name
      = mergeField ov t.kind t.keys name v (t.field name) := by
  have hx : (wireName name).startsWith "x-" = false :=
    Kind.startsWith_wireName (List.mem_append_left _ hname)
  simp [mergePlain, Data.str?, hx, Kind.fieldOfWire?_wireName hname, setField]

/-- All entries that name no slot, one after the other. -/
theorem foldl_mergePlain_frame (ov : Bool) (es : Entries) (t : Tree) :
    (es.foldl (mergePlain ov) t).kind = t.kind ∧ (es.foldl (mergePlain ov) t).keys = t.keys ∧
      (es.foldl (mergePlain ov) t).slot = t.slot := by
  induction es generalizing t with
  | nil => exact ⟨rfl, rfl, rfl⟩
  | cons e es ih =>
    obtain ⟨hkind, hkeys, hslot⟩ := ih (mergePlain ov t e)
    obtain ⟨hkind', hkeys', hslot'⟩ := mergePlain_frame ov t e
    exact ⟨hkind.trans hkind', hkeys.trans hkeys', hslot.trans hslot'⟩

/-- The extensions after all plain entries have been merged. -/
theorem foldl_mergePlain_extensions (es : Entries) (t : Tree) :
    (es.foldl (mergePlain ov) t).extensions
      = (es.filter Entries.isExtension).foldl (extend ov) t.extensions := by
  induction es generalizing t with
  | nil => rfl
  | cons e es ih =>
    rw [List.foldl_cons, ih, mergePlain_extensions, List.filter_cons]
    split <;> rfl

/-- A field after all plain entries have been merged. -/
theorem foldl_mergePlain_field (hes : es.Distinct) (hname : name ∈ t.kind.fields) :
    (es.foldl (mergePlain ov) t).field name
      = match es.text? (wireName name) with
        | none => t.field name
        | some v => mergeField ov t.kind t.keys name v (t.field name) := by
  induction es generalizing t with
  | nil => rfl
  | cons e es ih =>
    obtain ⟨hkind, hkeys, -⟩ := mergePlain_frame ov t e
    have hih := ih hes.tail (t := mergePlain ov t e) (hkind.symm ▸ hname)
    rw [List.foldl_cons, hih, hkind, hkeys]
    by_cases he : e.1 = .str (wireName name)
    · obtain ⟨key, v⟩ := e
      dsimp only at he
      subst he
      -- No other entry names the field.
      have hnone : Entries.text? es (wireName name) = none :=
        Entries.text?_eq_none_iff.2 fun f hf => ((List.pairwise_cons.1 hes.2).1 f hf).symm
      rw [hnone, Entries.text?_cons_self]
      exact mergePlain_field_self hname v
    · rw [Entries.text?_cons_of_ne he, mergePlain_field_of_ne he]

variable (ov es t)

/-- A merge leaves the kind. -/
theorem merge_kind : (merge ov es t).kind = t.kind := by
  rw [merge_eq]
  exact (foldl_mergePlain_frame _ _ _).1

/-- A merge leaves the fields by which a tree is told from others. -/
theorem merge_keys : (merge ov es t).keys = t.keys := by
  rw [merge_eq]
  exact (foldl_mergePlain_frame _ _ _).2.1

/-- What a merge leaves in a slot. -/
theorem merge_slot {σ : String} {p : Placement} (hp : t.kind.placement? σ = some p) :
    (merge ov es t).slot σ
      = mergeSlot (merge ov) ov p (es.text? (wireName σ)) (t.slot σ) := by
  rw [merge_eq, mergeStep, (foldl_mergePlain_frame _ _ _).2.2]
  simp only [mergeSlots, hp]

/-- What is no slot stays empty. -/
theorem merge_slot_of_none {σ : String} (hp : t.kind.placement? σ = none) :
    (merge ov es t).slot σ = t.slot σ := by
  rw [merge_eq, mergeStep, (foldl_mergePlain_frame _ _ _).2.2]
  simp only [mergeSlots, hp]

/-- Extensions are merged in the order of the source. -/
theorem merge_extensions : (merge ov es t).extensions
    = (es.filter Entries.isExtension).foldl (extend ov) t.extensions := by
  rw [merge_eq, mergeStep, foldl_mergePlain_extensions, List.filter_filter]
  congr 1
  refine List.filter_congr fun e _ => ?_
  rw [Bool.and_eq_left_iff_imp]
  intro hx
  cases hslot : Merge.isSlotKey t.kind.layout e.1 with
  | false => rfl
  | true =>
    obtain ⟨σ, hσ, hkey⟩ := Kind.isSlotKey_iff.1 hslot
    rw [Entries.isExtension, hkey] at hx
    exact absurd (hx.symm.trans (Kind.startsWith_wireName (List.mem_append_right _ hσ))) (by simp)

variable {es t}

/-- What a merge leaves in a field. -/
theorem merge_field (hes : es.Distinct) (hname : name ∈ t.kind.fields) :
    (merge ov es t).field name
      = match es.text? (wireName name) with
        | none => t.field name
        | some v => mergeField ov t.kind t.keys name v (t.field name) := by
  have hplain : Entries.text? (es.filter fun e => !Merge.isSlotKey t.kind.layout e.1)
      (wireName name) = es.text? (wireName name) := by
    refine Entries.text?_filter fun v => ?_
    rw [Bool.not_eq_true', Bool.eq_false_iff]
    intro hslot
    obtain ⟨σ, hσ, hkey⟩ := Kind.isSlotKey_iff.1 hslot
    have hwire : wireName name = wireName σ := by simpa using hkey
    have heq := Kind.eq_of_wireName_eq (List.mem_append_left _ hname)
      (List.mem_append_right _ hσ) hwire
    exact t.kind.field_notMem_slots name hname (heq ▸ hσ)
  rw [merge_eq]
  refine (foldl_mergePlain_field (hes.filter _) (t := mergeSlots (merge ov) ov es t) hname).trans ?_
  rw [hplain]
  rfl

/-- A field that a source does not name stays. -/
theorem merge_field_of_absent (h : es.text? (wireName name) = none) :
    (merge ov es t).field name = t.field name := by
  rw [merge_eq, mergeStep]
  suffices hfold : ∀ fs : Entries, (∀ e ∈ fs, e.1 ≠ .str (wireName name)) → ∀ u : Tree,
      (fs.foldl (mergePlain ov) u).field name = u.field name by
    exact hfold _ (fun e he => Entries.text?_eq_none_iff.1 h e (List.mem_filter.1 he).1) _
  intro fs
  induction fs with
  | nil => exact fun _ _ => rfl
  | cons e fs ih =>
    intro hfs u
    obtain ⟨he, hfs⟩ := List.forall_mem_cons.1 hfs
    rw [List.foldl_cons, ih hfs, mergePlain_field_of_ne he]

/-- What is no field keeps its value. -/
theorem merge_field_of_notMem (hname : name ∉ t.kind.fields) :
    (merge ov es t).field name = t.field name := by
  rw [merge_eq, mergeStep]
  suffices h : ∀ es : Entries, ∀ u : Tree, u.kind = t.kind →
      (es.foldl (mergePlain ov) u).field name = u.field name from h _ _ rfl
  intro es
  induction es with
  | nil => exact fun _ _ => rfl
  | cons e es ih =>
    intro u hu
    rw [List.foldl_cons, ih _ ((mergePlain_frame ov u e).1.trans hu)]
    unfold mergePlain
    split
    · rfl
    · split
      · rfl
      · split
        · rfl
        · rename_i other hother
          have hmem := (Kind.mem_fields_of_wire hother).1
          refine if_neg ?_
          rintro rfl
          exact hname (hu ▸ hmem)

end Tree

/-! ### Sources -/

/-- What holds of a source and of all that it brings for children. -/
inductive Entries.All (P : Kind → Entries → Prop) : Kind → Entries → Prop
  | mk {k : Kind} {es : Entries} (own : P k es)
      (single : ∀ σ c b fs mark, k.placement? σ = some (.single c b) →
        es.text? (wireName σ) = some (.map fs mark) → Entries.All P c fs)
      (members : ∀ σ p v item, k.placement? σ = some p → es.text? (wireName σ) = some v →
        item ∈ p.items v → Entries.All P p.kind item.2) : Entries.All P k es

end ApiDoc
