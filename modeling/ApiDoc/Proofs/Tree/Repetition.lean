import ApiDoc.Proofs.Data.Equality
import ApiDoc.Proofs.Data.Repeat
import ApiDoc.Proofs.Tree.Items
import ApiDoc.Proofs.Tree.Refinement

namespace ApiDoc

/-!
# Sources merged twice

A source can reach one member of a list with several items, and then what they bring is merged one
after the other. So it is about several sources in a row that at each level they can be merged once
more without any change:

* `Tree.mergeAll`, `Tree.mergeFieldAll`, `Tree.mergeSlotAll` — several sources merged one after the
  other, and what they leave of each part;
* `Tree.mergeFieldAll_twice`, `Tree.foldl_extend_twice` — fields and extensions;
* `Tree.mergeSlotAll_single_twice`, `Tree.mergeSlotAll_list_twice` — slots;
* `Tree.mergeAll_twice`, `Tree.merge_merge` — whole trees.
-/

/-- A value that is equal to itself. -/
def Data.EqualsItself (v : Data) : Prop := v.alike v = true

namespace Tree

variable {ov : Bool}

/-! ### Several sources -/

/-- Several sources merged one after the other. -/
noncomputable def mergeAll (ov : Bool) (ws : List Entries) (t : Tree) : Tree :=
  ws.foldl (fun t es => merge ov es t) t

/-- Several values merged into a field one after the other. -/
def mergeFieldAll (ov : Bool) (k : Kind) (keys : List String) (name : String) (vs : List Data)
    (current : Data) : Data :=
  vs.foldl (fun current v => mergeField ov k keys name v current) current

/-- Several values merged into a slot one after the other. -/
noncomputable def mergeSlotAll (ov : Bool) (p : Placement) (vs : List Data) (s : Slot Tree) :
    Slot Tree := vs.foldl (fun s v => mergeSlot (merge ov) ov p (some v) s) s

/-- The first value goes into the slot, and then the others. -/
theorem mergeSlotAll_cons (p : Placement) (v : Data) (vs : List Data) (s : Slot Tree) :
    mergeSlotAll ov p (v :: vs) s
      = mergeSlotAll ov p vs (mergeSlot (merge ov) ov p (some v) s) := rfl

section MergeAll

variable (ov : Bool) (ws : List Entries) (t : Tree)

/-- Several merges leave the kind. -/
theorem mergeAll_kind : (mergeAll ov ws t).kind = t.kind := by
  induction ws generalizing t with
  | nil => rfl
  | cons es ws ih => exact (ih _).trans (merge_kind es t ov)

/-- They leave the fields by which a tree is told from others. -/
theorem mergeAll_keys : (mergeAll ov ws t).keys = t.keys := by
  induction ws generalizing t with
  | nil => rfl
  | cons es ws ih => exact (ih _).trans (merge_keys es t ov)

/-- The extensions after several merges. -/
theorem mergeAll_extensions : (mergeAll ov ws t).extensions
    = (ws.flatMap fun es => es.filter Entries.isExtension).foldl (extend ov) t.extensions := by
  induction ws generalizing t with
  | nil => rfl
  | cons es ws ih =>
    rw [List.flatMap_cons, List.foldl_append, ← merge_extensions]
    exact ih _

variable {ws t}

/-- A field after several merges. -/
theorem mergeAll_field {name : String} (hws : ∀ es ∈ ws, es.Distinct)
    (hname : name ∈ t.kind.fields) : (mergeAll ov ws t).field name
      = mergeFieldAll ov t.kind t.keys name (ws.filterMap fun es => es.text? (wireName name))
          (t.field name) := by
  induction ws generalizing t with
  | nil => rfl
  | cons es ws ih =>
    obtain ⟨hes, hws⟩ := List.forall_mem_cons.1 hws
    have hkind := merge_kind es t ov
    refine (ih hws (hkind.symm ▸ hname)).trans ?_
    rw [merge_field ov hes hname, hkind, merge_keys, List.filterMap_cons]
    cases es.text? (wireName name) <;> rfl

/-- What is no field keeps its value. -/
theorem mergeAll_field_of_notMem {name : String} (hname : name ∉ t.kind.fields) :
    (mergeAll ov ws t).field name = t.field name := by
  induction ws generalizing t with
  | nil => rfl
  | cons es ws ih =>
    exact (ih ((merge_kind es t ov).symm ▸ hname)).trans (merge_field_of_notMem ov hname)

/-- A slot after several merges. -/
theorem mergeAll_slot {σ : String} {p : Placement} (hp : t.kind.placement? σ = some p) :
    (mergeAll ov ws t).slot σ
      = mergeSlotAll ov p (ws.filterMap fun es => es.text? (wireName σ)) (t.slot σ) := by
  induction ws generalizing t with
  | nil => rfl
  | cons es ws ih =>
    refine (ih ((merge_kind es t ov).symm ▸ hp)).trans ?_
    rw [merge_slot es t ov hp, List.filterMap_cons]
    cases es.text? (wireName σ) with
    | none => rw [mergeSlot_none]
    | some v => rfl

/-- What is no slot stays as it is. -/
theorem mergeAll_slot_of_none {σ : String} (hp : t.kind.placement? σ = none) :
    (mergeAll ov ws t).slot σ = t.slot σ := by
  induction ws generalizing t with
  | nil => rfl
  | cons es ws ih =>
    exact (ih ((merge_kind es t ov).symm ▸ hp)).trans (merge_slot_of_none es t ov hp)

end MergeAll

/-! ### Fields -/

section Fields

variable {k : Kind} {keys : List String} {name : String}

/-- A list that only grows, after several values. -/
theorem mergeFieldAll_array (harray : name ∈ k.arrayFields) (vs : List Data) (v : Data)
    (current : Data) : mergeFieldAll ov k keys name (v :: vs) current
      = .ofList (Merge.unionItems (current.items?.getD []) ((v :: vs).flatMap Merge.supplied)) := by
  -- One value at a time, the list of the field is united with what the value supplies.
  have hstep : ∀ v current : Data, mergeField ov k keys name v current
      = .ofList (Merge.unionItems (current.items?.getD []) (Merge.supplied v)) := by
    intro v current
    unfold mergeField told
    rw [if_pos (List.contains_iff_mem.2 harray), if_pos (k.arrayFields_shown name harray)]
    split <;> rfl
  induction vs generalizing v current with
  | nil =>
    rw [List.flatMap_singleton]
    exact hstep v current
  | cons w vs ih =>
    have hmore : (v :: w :: vs).flatMap Merge.supplied
        = Merge.supplied v ++ (w :: vs).flatMap Merge.supplied := List.flatMap_cons
    show mergeFieldAll ov k keys name (w :: vs) (mergeField ov k keys name v current) = _
    rw [ih, hstep, hmore, Merge.unionItems_append]
    rfl

/-- A field that is set stays where values do not replace. -/
theorem mergeFieldAll_of_set (harray : name ∉ k.arrayFields) (vs : List Data) {current : Data}
    (hset : current.isUnset = false) : mergeFieldAll false k keys name vs current = current := by
  induction vs with
  | nil => rfl
  | cons v vs ih =>
    have hstep : mergeField false k keys name v current = current := by
      unfold mergeField
      rw [if_neg (by simpa using harray), hset]
      rfl
    show mergeFieldAll false k keys name vs (mergeField false k keys name v current) = current
    rw [hstep, ih]

/-- Several values merged into a field once more. -/
theorem mergeFieldAll_twice (vs : List Data) (current : Data) :
    mergeFieldAll ov k keys name vs (mergeFieldAll ov k keys name vs current)
      = mergeFieldAll ov k keys name vs current := by
  by_cases harray : name ∈ k.arrayFields
  · cases vs with
    | nil => rfl
    | cons v vs =>
      rw [mergeFieldAll_array harray, mergeFieldAll_array harray]
      exact congrArg Data.ofList (Merge.unionItems_unionItems _ _)
  cases ov with
  | true =>
    -- The last value counts.
    rcases List.eq_nil_or_concat vs with rfl | ⟨vs, v, rfl⟩
    · rfl
    · have hlast : ∀ current, mergeFieldAll true k keys name (vs.concat v) current
          = told k keys name v := by
        intro current
        rw [mergeFieldAll, List.concat_eq_append, List.foldl_concat]
        exact if_neg (by simpa using harray)
      rw [hlast, hlast]
  | false =>
    cases hset : (mergeFieldAll false k keys name vs current).isUnset with
    | false => exact mergeFieldAll_of_set harray vs hset
    | true =>
      -- The field was not set before, and is as it was.
      have hbefore : current.isUnset = true := by
        rw [← Bool.not_eq_false]
        intro hcurrent
        rw [mergeFieldAll_of_set harray vs hcurrent, hcurrent] at hset
        cases hset
      have hsame := (Data.isUnset_iff.1 hset).trans (Data.isUnset_iff.1 hbefore).symm
      rw [hsame, hsame]

end Fields

/-! ### Extensions -/

/-- What an entry does to extensions. -/
def extension (ov : Bool) (e : Data × Data) : Put (Data × Data) where
  test f := f.1.same e.1
  new := e
  change f := if ov then (f.1, e.2) else f

/-- An extension is merged as one thing put among others. -/
theorem extend_eq_run (es : Entries) (e : Data × Data) :
    extend ov es e = (extension ov e).run es := by
  induction es with
  | nil => cases ov <;> rfl
  | cons f es ih =>
    have hrun : (extension ov e).run (f :: es) = if f.1.same e.1 then
        (extension ov e).change f :: es else f :: (extension ov e).run es := rfl
    have hextend : extend ov (f :: es) e = if ov || !(if f.1.same e.1 then some f.2
        else Entries.get? es e.1).isSome then (if f.1.same e.1 then (f.1, e.2) :: es
        else f :: Entries.insert es e.1 e.2) else f :: es := rfl
    rw [hrun, hextend, ← ih]
    -- The first entry has the key, or the entry is carried on to the rest.
    by_cases hf : f.1.same e.1 = true
    · simp only [if_pos hf]
      cases ov <;> rfl
    · simp only [if_neg hf]
      unfold extend Entries.has
      split <;> rfl

/-- Several extensions merged once more. -/
theorem foldl_extend_twice (es fs : Entries) :
    es.foldl (extend ov) (es.foldl (extend ov) fs) = es.foldl (extend ov) fs := by
  have hrun : ∀ fs, es.foldl (extend ov) fs = Put.runAll (es.map (extension ov)) fs := by
    intro fs
    rw [Put.runAll, List.foldl_map]
    exact List.foldl_ext _ _ _ fun fs e _ => extend_eq_run fs e
  have hsteady : Put.Steady (fun _ => True) (es.map (extension ov)) := by
    refine ⟨fun u hu => ?_, fun _ _ _ _ => trivial, fun u hu v _ a _ => ?_⟩
    · obtain ⟨e, -, rfl⟩ := List.mem_map.1 hu
      refine ⟨e, trivial, e.1.same_refl, ?_⟩
      cases ov <;> rfl
    · obtain ⟨e, -, rfl⟩ := List.mem_map.1 hu
      obtain ⟨f, -, rfl⟩ := List.mem_map.1 ‹v ∈ _›
      cases ov <;> rfl
  rw [hrun, hrun]
  refine hsteady.runAll_runAll (fun _ _ => trivial) fun vs hvs a _ => ?_
  obtain ⟨gs, -, rfl⟩ := List.sublist_map_iff.1 hvs
  cases ov with
  | false =>
    have hself : ∀ (gs : Entries) a, Put.applyAll (gs.map (extension false)) a = a := by
      intro gs a
      induction gs with
      | nil => rfl
      | cons e gs ih => exact ih
    rw [hself, hself]
  | true =>
    have hkey : ∀ (gs : Entries) a, (Put.applyAll (gs.map (extension true)) a).1 = a.1 := by
      intro gs a
      induction gs generalizing a with
      | nil => rfl
      | cons e gs ih => exact ih (a.1, e.2)
    -- The last value counts.
    rcases List.eq_nil_or_concat gs with rfl | ⟨gs, e, rfl⟩
    · rfl
    · have hlast : ∀ a, Put.applyAll ((gs ++ [e]).map (extension true)) a = (a.1, e.2) := by
        intro a
        refine Prod.ext (hkey _ a) ?_
        rw [List.map_append, Put.applyAll_append]
        rfl
      rw [List.concat_eq_append, hlast, hlast]

/-! ### Slots for one child -/

section Single

variable {c : Kind} {b : Bool} {v : Data} {vs : List Data} {s : Slot Tree}

/-- A truth value that takes the place of whatever is there. -/
def Resets (ov b : Bool) (v : Data) : Prop := ov = true ∧ b = true ∧ ∃ x, v = .bool x

/-- Values that replace whatever is there leave the same of every slot. -/
theorem mergeSlotAll_of_resets (h : ∃ v ∈ vs, Resets ov b v) (s s' : Slot Tree) :
    mergeSlotAll ov (.single c b) vs s = mergeSlotAll ov (.single c b) vs s' := by
  induction vs generalizing s s' with
  | nil =>
    obtain ⟨v, hv, -⟩ := h
    cases hv
  | cons v vs ih =>
    -- What stands after the last value that resets depends on that value alone.
    by_cases hvs : ∃ w ∈ vs, Resets ov b w
    · exact ih hvs _ _
    · obtain ⟨w, hw, hresets⟩ := h
      rcases List.mem_cons.1 hw with rfl | hw
      · obtain ⟨rfl, rfl, x, rfl⟩ := hresets
        rfl
      · exact absurd ⟨w, hw, hresets⟩ hvs

/-- A value that is no mapping and does not replace what is there leaves a slot, or puts a truth
    value where nothing was. -/
theorem mergeSlot_of_no_entries (hv : v.entries? = none) (hresets : ¬Resets ov b v)
    (s : Slot Tree) : mergeSlot (merge ov) ov (.single c b) (some v) s = s ∨
      s.isEmpty = true ∧ ∃ x, mergeSlot (merge ov) ov (.single c b) (some v) s = .flag x := by
  cases v with
  | map => cases hv
  -- Of the values without entries only truth values change anything, and only in an empty slot.
  | scalar x =>
    cases x with
    | bool x =>
      by_cases hset : (b && (ov || s.isEmpty)) = true
      · obtain ⟨rfl, hset'⟩ := Bool.and_eq_true_iff.1 hset
        refine .inr ⟨?_, x, if_pos hset⟩
        exact (Bool.or_eq_true_iff.1 hset').resolve_left fun hov => hresets ⟨hov, rfl, x, rfl⟩
      · exact .inl (if_neg hset)
    | _ => exact .inl rfl
  | _ => exact .inl rfl

/-- Without a mapping a slot stays as it is, or a truth value is put where nothing was. -/
theorem mergeSlotAll_of_no_entries (hvs : ∀ v ∈ vs, ¬Resets ov b v)
    (hnone : vs.filterMap Data.entries? = []) : mergeSlotAll ov (.single c b) vs s = s ∨
      s.isEmpty = true ∧ (mergeSlotAll ov (.single c b) vs s).isEmpty = false := by
  induction vs generalizing s with
  | nil => exact .inl rfl
  | cons v vs ih =>
    obtain ⟨hv, hvs⟩ := List.forall_mem_cons.1 hvs
    have hentries := List.filterMap_eq_nil_iff.1 hnone v List.mem_cons_self
    rw [List.filterMap_cons_none hentries] at hnone
    rw [mergeSlotAll_cons]
    -- Either the value changes nothing, or it raises a flag, which the rest leaves standing.
    rcases mergeSlot_of_no_entries hentries hv s with hsame | ⟨hempty, x, hflag⟩
    · rw [hsame]
      exact ih hvs hnone
    · rw [hflag]
      rcases ih (s := .flag x) hvs hnone with hsame | ⟨hfalse, -⟩
      · exact .inr ⟨hempty, by rw [hsame]; rfl⟩
      · cases hfalse

/-- With mappings a slot holds a child into which all of them are merged. -/
theorem mergeSlotAll_of_entries (hvs : ∀ v ∈ vs, ¬Resets ov b v)
    (hsome : vs.filterMap Data.entries? ≠ []) : mergeSlotAll ov (.single c b) vs s
      = .child (mergeAll ov (vs.filterMap Data.entries?) (s.childOr (fresh c []))) := by
  induction vs generalizing s with
  | nil => exact absurd rfl hsome
  | cons v vs ih =>
    obtain ⟨hv, hrest⟩ := List.forall_mem_cons.1 hvs
    rw [mergeSlotAll_cons]
    cases hentries : v.entries? with
    | none =>
      rw [List.filterMap_cons_none hentries] at hsome ⊢
      -- A flag that may stand in the slot gives way to the child just as an empty slot does.
      rw [ih hrest hsome]
      rcases mergeSlot_of_no_entries hentries hv s with hsame | ⟨hempty, x, hflag⟩
      · rw [hsame]
      · rw [hflag]
        cases s with
        | empty => rfl
        | _ => cases hempty
    | some fs =>
      obtain ⟨mark, rfl⟩ := Data.entries?_eq_some hentries
      have hchild : mergeSlot (merge ov) ov (.single c b) (some (.map fs mark)) s
          = .child (merge ov fs (s.childOr (fresh c []))) := rfl
      rw [List.filterMap_cons_some hentries, hchild]
      -- The child stands from here on; what follows is merged into it or changes nothing.
      by_cases hnone : vs.filterMap Data.entries? = []
      · rw [hnone]
        rcases mergeSlotAll_of_no_entries hrest hnone with hsame | ⟨hempty, -⟩
        · exact hsame
        · cases hempty
      · exact ih hrest hnone

/-- Several values merged into a slot for one child once more. -/
theorem mergeSlotAll_single_twice (htwice : ∀ u, u = s.childOr (fresh c []) →
      mergeAll ov (vs.filterMap Data.entries?) (mergeAll ov (vs.filterMap Data.entries?) u)
        = mergeAll ov (vs.filterMap Data.entries?) u) :
    mergeSlotAll ov (.single c b) vs (mergeSlotAll ov (.single c b) vs s)
      = mergeSlotAll ov (.single c b) vs s := by
  by_cases hresets : ∃ v ∈ vs, Resets ov b v
  · exact mergeSlotAll_of_resets hresets _ _
  · have hvs : ∀ v ∈ vs, ¬Resets ov b v := fun v hv h => hresets ⟨v, hv, h⟩
    -- Without a reset, the values with entries decide whether a child is made.
    by_cases hentries : vs.filterMap Data.entries? = []
    · rcases mergeSlotAll_of_no_entries (c := c) (s := s) hvs hentries with hsame | ⟨-, hset⟩
      · rw [hsame, hsame]
      · rcases mergeSlotAll_of_no_entries (c := c) hvs hentries with hsame | ⟨hempty, -⟩
        · exact hsame
        · rw [hset] at hempty
          cases hempty
    · rw [mergeSlotAll_of_entries hvs hentries, mergeSlotAll_of_entries hvs hentries]
      exact congrArg Slot.child (htwice _ rfl)

end Single

/-! ### Slots for members -/

end Tree

/-- What an item does to a list of members. -/
noncomputable def Placement.putting (ov : Bool) (p : Placement) (item : Entries × Entries) :
    Put Tree where
  test m := m.hasValues item.1
  new := Tree.merge ov item.2 ((Tree.fresh p.kind p.keys).putFields item.1)
  change := Tree.merge ov item.2

/-- An item that a source brings for the members of a slot. -/
structure Placement.Brought (P : Data → Prop) (k : Kind) (σ : String) (p : Placement)
    (item : Entries × Entries) : Prop where
  source : ∃ (es : Entries) (v : Data),
    es.Findable P k ∧ es.text? (wireName σ) = some v ∧ item ∈ p.items v
  content : item.2.All (Entries.Findable P) p.kind

namespace Placement.Brought

variable {P : Data → Prop} {k : Kind} {σ : String} {p : Placement} {item item' : Entries × Entries}
  {ov : Bool}

/-- An item names fields by which a slot tells its members apart, and none of them twice. -/
theorem names (hp : k.placement? σ = some p) (h : p.Brought P k σ item) : ∀ e ∈ item.1,
    (∃ name ∈ p.keys, e.1 = .str name) ∧ ∀ f ∈ item.1, e.1 = f.1 → e.2 = f.2 := by
  obtain ⟨es, v, hes, hv, hitem⟩ := h.source
  have hfinds := hes.finds σ p v hp hv
  -- A mapping brings a member under its key, a list brings members under their identifying fields.
  rcases Placement.mem_items hitem with ⟨c, key, fs, mark, e, gs, mark', rfl, rfl, -, -, rfl⟩ |
    ⟨c, slot, xs, gs, mark, rfl, hxs, hx, rfl⟩
  · refine List.forall_mem_singleton.2 ⟨⟨key, List.mem_singleton_self key, rfl⟩, ?_⟩
    exact List.forall_mem_singleton.2 fun _ => rfl
  · have hslot := Kind.identifying_ne_nil hp
    obtain ⟨hdistinct, -⟩ := (hfinds xs hxs _ hx).2 gs mark rfl
    intro e he
    obtain ⟨name, hname, hkey⟩ := Entries.mem_identity hslot he
    refine ⟨⟨name, hname, hkey⟩, fun f hf hsame => ?_⟩
    have he := hdistinct.text?_eq_some_iff.2 (Entries.mem_of_mem_identity hslot he hkey)
    have hf := hdistinct.text?_eq_some_iff.2
      (Entries.mem_of_mem_identity hslot hf (hsame.symm.trans hkey))
    exact Option.some.inj (he.symm.trans hf)

/-- The values by which an item tells its member are equal to themselves. -/
theorem equalsItself (hp : k.placement? σ = some p) (h : p.Brought Data.EqualsItself k σ item) :
    ∀ e ∈ item.1, e.2.EqualsItself := by
  obtain ⟨es, v, hes, hv, hitem⟩ := h.source
  have hfinds := hes.finds σ p v hp hv
  -- The key of a mapping is a text, and the fields of a list are equal to themselves.
  rcases Placement.mem_items hitem with ⟨c, key, fs, mark, e, gs, mark', rfl, rfl, he, -, rfl⟩ |
    ⟨c, slot, xs, gs, mark, rfl, hxs, hx, rfl⟩
  · refine List.forall_mem_singleton.2 ?_
    obtain ⟨s, hs⟩ := (hfinds fs mark rfl).1.1 e he
    dsimp only
    rw [hs]
    exact Data.alike_str_iff.2 rfl
  · obtain ⟨-, -, hself⟩ := (hfinds xs hxs _ hx).2 gs mark rfl
    exact hself

/-- What an item brings leaves the fields by which members are told apart. -/
theorem hasValues_merge (hp : k.placement? σ = some p) (h : p.Brought P k σ item)
    (h' : p.Brought P k σ item') (t : Tree) :
    (Tree.merge ov item.2 t).hasValues item'.1 = t.hasValues item'.1 := by
  obtain ⟨es, v, hes, hv, hitem⟩ := h.source
  have hfield : ∀ e ∈ item'.1, (Tree.merge ov item.2 t).field (e.1.str?.getD "")
      = t.field (e.1.str?.getD "") := by
    intro e he
    obtain ⟨⟨name, hname, hkey⟩, -⟩ := h'.names hp e he
    rw [hkey]
    exact hes.field_merge hp hv hitem hname
  rw [Bool.eq_iff_iff, Tree.hasValues, Tree.hasValues, List.all_eq_true, List.all_eq_true]
  exact forall₂_congr fun e he => by rw [hfield e he]

/-- An item finds the member that it makes at first. -/
theorem hasValues_new (hp : k.placement? σ = some p) (h : p.Brought Data.EqualsItself k σ item) :
    ((Tree.fresh p.kind p.keys).putFields item.1).hasValues item.1 = true := by
  refine List.all_eq_true.2 fun e he => ?_
  obtain ⟨⟨name, hname, hkey⟩, hsame⟩ := h.names hp e he
  have hfield : ((Tree.fresh p.kind p.keys).putFields item.1).field name = e.2.settled := by
    rw [Tree.field_putFields (v := e.2), if_pos ⟨e, he, by rw [hkey]; rfl⟩]
    · exact Tree.told_of_key hname e.2
    -- Both entries stand under one name, so both have the same value.
    · intro f hf hf'
      obtain ⟨⟨other, -, hother⟩, -⟩ := h.names hp f hf
      obtain rfl : other = name := by
        rw [hother] at hf'
        exact hf'
      exact (hsame f hf (hkey.trans hother.symm)).symm
  rw [hkey]
  show (Tree.field _ name).alike e.2 = true
  rw [hfield, Data.alike_settled]
  exact h.equalsItself hp e he

/-- Items leave what any of them finds. -/
theorem steady (hp : k.placement? σ = some p) {items : List (Entries × Entries)}
    (hitems : ∀ item ∈ items, p.Brought Data.EqualsItself k σ item) :
    Put.Steady (fun c : Tree => c.IsFor p ∧ c.All Tree.Typed) (items.map (p.putting ov)) where
  made u hu := by
    obtain ⟨item, hitem, rfl⟩ := List.mem_map.1 hu
    have h := hitems item hitem
    obtain ⟨es, v, hes, hv, hmem⟩ := h.source
    exact ⟨_, hes.member_new hp hv hmem, h.hasValues_new hp, rfl⟩
  keeps u hu c hc := by
    obtain ⟨item, hitem, rfl⟩ := List.mem_map.1 hu
    have h := hitems item hitem
    obtain ⟨es, v, hes, hv, hmem⟩ := h.source
    exact hes.member_merge hp hv hmem h.content hc
  tests u hu w hw c _ := by
    obtain ⟨item, hitem, rfl⟩ := List.mem_map.1 hu
    obtain ⟨item', hitem', rfl⟩ := List.mem_map.1 hw
    exact (hitems item hitem).hasValues_merge hp (hitems item' hitem') c

end Placement.Brought

namespace Tree

section Members

variable {k : Kind} {σ : String} {p : Placement} {items : List (Entries × Entries)}
  {vs : List Data} {s : Slot Tree}

/-- Items are put among members one after the other. -/
theorem runAll_putting (items : List (Entries × Entries)) (ts : List Tree) :
    Put.runAll (items.map (p.putting ov)) ts = items.foldl (putMember (merge ov) p) ts := by
  rw [Put.runAll, List.foldl_map]
  rfl

/-- Items for one member are merged into it one after the other. -/
theorem applyAll_putting (items : List (Entries × Entries)) (c : Tree) :
    Put.applyAll (items.map (p.putting ov)) c = mergeAll ov (items.map (·.2)) c := by
  rw [Put.applyAll, mergeAll, List.foldl_map, List.foldl_map]
  rfl

/-- Several values for the members of a slot are all their items, one after the other. -/
theorem mergeSlotAll_list (hlist : p.isSingle = false) (vs : List Data) (s : Slot Tree) :
    mergeSlotAll ov p vs s
      = s.grow ((vs.flatMap p.items).foldl (putMember (merge ov) p) s.list) := by
  induction vs generalizing s with
  | nil => exact (Slot.grow_list s).symm
  | cons v vs ih =>
    rw [mergeSlotAll_cons, ih, mergeSlot_list hlist, Slot.list_grow foldl_putMember_eq_nil,
      grow_grow _ foldl_putMember_eq_nil, List.flatMap_cons, List.foldl_append]

/-- Several values merged into a slot for members once more. -/
theorem mergeSlotAll_list_twice (hp : k.placement? σ = some p) (hlist : p.isSingle = false)
    (hitems : ∀ item ∈ vs.flatMap p.items, p.Brought Data.EqualsItself k σ item)
    (hs : ∀ c ∈ s.trees, c.IsFor p ∧ c.All Typed)
    (htwice : ∀ items : List (Entries × Entries), items ⊆ vs.flatMap p.items → ∀ c : Tree,
      c.kind = p.kind → c.All Typed → mergeAll ov (items.map (·.2))
        (mergeAll ov (items.map (·.2)) c) = mergeAll ov (items.map (·.2)) c) :
    mergeSlotAll ov p vs (mergeSlotAll ov p vs s) = mergeSlotAll ov p vs s := by
  rw [mergeSlotAll_list hlist, mergeSlotAll_list hlist, Slot.list_grow foldl_putMember_eq_nil,
    grow_grow _ foldl_putMember_eq_nil, ← runAll_putting, ← runAll_putting]
  have hsteady : Put.Steady (fun c : Tree => c.IsFor p ∧ c.All Typed)
      ((vs.flatMap p.items).map (p.putting ov)) := Placement.Brought.steady hp hitems
  rw [hsteady.runAll_runAll (fun c hc => hs c (s.list_subset hc)) fun us hus c hc => ?_]
  obtain ⟨items, hsub, rfl⟩ := List.sublist_map_iff.1 hus
  rw [applyAll_putting, applyAll_putting]
  exact htwice items hsub.subset c hc.1.kind hc.2

end Members

/-! ### Whole trees -/

/-- Several sources merged into a tree once more, where all that they bring is smaller than some
    bound. -/
theorem mergeAll_twice {k : Kind} (n : Nat) {ws : List Entries}
    (hws : ∀ es ∈ ws, es.All (Entries.Findable Data.EqualsItself) k ∧ sizeOf es < n) (t : Tree)
    (hkind : t.kind = k) (ht : t.All Typed) :
    mergeAll ov ws (mergeAll ov ws t) = mergeAll ov ws t := by
  -- By induction on a bound of the sizes: what a slot receives is smaller than the entries it comes
  -- from.
  induction n generalizing k ws t with
  | zero =>
    cases ws with
    | nil => rfl
    | cons es ws => exact absurd (hws es List.mem_cons_self).2 (Nat.not_lt_zero _)
  | succ n ih =>
    subst hkind
    have hdistinct : ∀ es ∈ ws, es.Distinct := fun es hes => (hws es hes).1.root.distinct
    have hkind := mergeAll_kind ov ws t
    refine eq_of (mergeAll_kind ..) (mergeAll_keys ..) ?_ (fun name => ?_) fun σ => ?_
    · rw [mergeAll_extensions, mergeAll_extensions]
      exact foldl_extend_twice _ _
    -- Fields: those of the kind take all the values in turn, all others stay.
    · by_cases hname : name ∈ t.kind.fields
      · rw [mergeAll_field ov hdistinct (hkind.symm ▸ hname), mergeAll_field ov hdistinct hname,
          hkind, mergeAll_keys]
        exact mergeFieldAll_twice _ _
      · exact mergeAll_field_of_notMem ov (hkind.symm ▸ hname)
    -- Slots: a list takes up the items it receives, a single slot the entries for its child.
    · cases hp : t.kind.placement? σ with
      | none => exact mergeAll_slot_of_none ov (hkind.symm ▸ hp)
      | some p =>
        rw [mergeAll_slot ov (hkind.symm ▸ hp), mergeAll_slot ov hp]
        have hvalue : ∀ v ∈ ws.filterMap fun es => es.text? (wireName σ), ∃ es ∈ ws,
            es.text? (wireName σ) = some v := fun v hv => List.mem_filterMap.1 hv
        have hchildren : ∀ c ∈ (t.slot σ).trees, c.IsFor p ∧ c.All Typed := fun c hc =>
          ⟨(ht.root σ p hp).isFor c hc, ht.child hc⟩
        by_cases hlist : p.isSingle = false
        · have hitem : ∀ item ∈ (ws.filterMap fun es => es.text? (wireName σ)).flatMap p.items,
              p.Brought Data.EqualsItself t.kind σ item ∧ sizeOf item.2 < n := by
            intro item hitem
            obtain ⟨v, hv, hitem⟩ := List.mem_flatMap.1 hitem
            obtain ⟨es, hes, hv⟩ := hvalue v hv
            obtain ⟨hall, hsize⟩ := hws es hes
            have hsmaller := Placement.sizeOf_items_lt hitem
            have hsmall := Entries.sizeOf_text?_lt hv
            exact ⟨⟨⟨es, v, hall.root, hv, hitem⟩, hall.item hp hv hitem⟩, by omega⟩
          refine mergeSlotAll_list_twice hp hlist (fun item h => (hitem item h).1) hchildren ?_
          intro items hitems c hkind hc
          refine ih (fun es hes => ?_) c hkind hc
          -- The entries for one member come from the items of this slot.
          obtain ⟨item, hmem, rfl⟩ := List.mem_map.1 hes
          obtain ⟨hbrought, hsize⟩ := hitem item (hitems hmem)
          exact ⟨hbrought.content, hsize⟩
        · obtain ⟨c, b, rfl⟩ : ∃ c b, p = .single c b := by
            cases p with
            | single c b => exact ⟨c, b, rfl⟩
            | _ => exact absurd rfl hlist
          -- All the entries for the slot are merged into the one child.
          refine mergeSlotAll_single_twice fun u hu => ?_
          have hfits : u.kind = c ∧ u.All Typed := by
            rw [hu]
            exact childOr_spec (Q := fun u => u.kind = c ∧ u.All Typed)
              (fun u h => ⟨(hchildren u h).1.kind, (hchildren u h).2⟩)
              ⟨rfl, .leaf (typed_fresh rfl) rfl⟩
          refine ih (fun fs hfs => ?_) u hfits.1 hfits.2
          obtain ⟨v, hv, hentries⟩ := List.mem_filterMap.1 hfs
          obtain ⟨mark, rfl⟩ := Data.entries?_eq_some hentries
          obtain ⟨es, hes, hv⟩ := hvalue _ hv
          obtain ⟨hall, hsize⟩ := hws es hes
          have hsmall := Entries.sizeOf_text?_lt hv
          simp only [Data.map.sizeOf_spec] at hsmall
          exact ⟨hall.child hp hv, by omega⟩

/-- A source merged into a tree once more leaves it as it is. -/
theorem merge_merge {es : Entries} {t : Tree}
    (hes : es.All (Entries.Findable Data.EqualsItself) t.kind) (ht : t.All Typed) :
    merge ov es (merge ov es t) = merge ov es t := by
  have hall : ∀ fs ∈ [es], fs.All (Entries.Findable Data.EqualsItself) t.kind ∧
      sizeOf fs < sizeOf es + 1 := List.forall_mem_singleton.2 ⟨hes, Nat.lt_succ_self _⟩
  exact mergeAll_twice (sizeOf es + 1) hall t rfl ht

end Tree

end ApiDoc
