import ApiDoc.Proofs.Tree.Shown

namespace ApiDoc

/-!
# Items and the trees they are made of

An item of a source tells a member by the values of some fields, and brings the rest:

* `Placement.Tells` — an item that tells a member by given values;
* `Tree.blank` — the tree that such an item makes at first, with nothing but these values;
* `Tree.item` — the item that stands for a member in the content of a document;
* `Tree.merge_rest`, `Tree.merge_rest_new` — the values by which a tree is told apart can be merged with
  the rest, or can be there before;
* `Tree.merge_shown_blank` — a tree that already has the values takes nothing from a blank one.
-/

/-- An item that tells a member by the values of its keys. -/
def Placement.Tells (p : Placement) (item : Entries × Entries) (val : String → Data) : Prop :=
  ∀ e, e ∈ item.1 ↔ ∃ key ∈ p.keys, e = (.str key, val key)

namespace Tree

theorem eq_of {t u : Tree} (hkind : t.kind = u.kind) (hkeys : t.keys = u.keys)
    (hextensions : t.extensions = u.extensions) (hfield : ∀ name, t.field name = u.field name)
    (hslot : ∀ σ, t.slot σ = u.slot σ) : t = u := by
  cases t
  cases u
  simp only [mk.injEq] at *
  exact ⟨hkind, hkeys, hextensions, funext hfield, funext hslot⟩

/-- A tree with nothing but the values by which it is told apart. -/
def blank (p : Placement) (val : String → Data) : Tree :=
  { fresh p.kind p.keys with
    field := fun name => if name ∈ p.keys then (val name).settled else .unset }

/-- The field of a tree after several fields have been set, all to one value where they are the
    same. -/
theorem field_putFields {t : Tree} {fields : Entries} {name : String} {v : Data}
    (h : ∀ e ∈ fields, e.1.str?.getD "" = name → e.2 = v) : (t.putFields fields).field name
      = if ∃ e ∈ fields, e.1.str?.getD "" = name then told t.kind t.keys name v
        else t.field name := by
  induction fields generalizing t with
  | nil => simp [putFields]
  | cons e fields ih =>
    obtain ⟨he, h⟩ := List.forall_mem_cons.1 h
    show ((t.put (e.1.str?.getD "") e.2).putFields fields).field name = _
    rw [ih h]
    by_cases hlater : ∃ f ∈ fields, f.1.str?.getD "" = name
    · obtain ⟨f, hf, hname⟩ := hlater
      rw [if_pos ⟨f, hf, hname⟩, if_pos ⟨f, List.mem_cons_of_mem _ hf, hname⟩]
      rfl
    · rw [if_neg hlater]
      by_cases hname : e.1.str?.getD "" = name
      · rw [if_pos ⟨e, List.mem_cons_self, hname⟩, ← he hname, hname]
        exact if_pos rfl
      · rw [if_neg (by simpa [hname] using hlater)]
        exact if_neg (Ne.symm hname)

end Tree

namespace Placement.Tells

variable {p : Placement} {item : Entries × Entries} {val : String → Data}

/-- A tree is what an item tells if its values are equal. -/
theorem hasValues_iff (h : p.Tells item val) (m : Tree) : m.hasValues item.1 = true ↔
    ∀ key ∈ p.keys, (m.field key).alike (val key) = true := by
  rw [Tree.hasValues, List.all_eq_true]
  refine ⟨fun hall key hkey => hall _ ((h _).2 ⟨key, hkey, rfl⟩), fun hall e he => ?_⟩
  obtain ⟨key, hkey, rfl⟩ := (h e).1 he
  exact hall key hkey

/-- What an item makes at first. -/
theorem putFields_eq (h : p.Tells item val) :
    (Tree.fresh p.kind p.keys).putFields item.1 = Tree.blank p val := by
  obtain ⟨hkind, hkeys, hslot, hextensions⟩ := Tree.putFields_frame (.fresh p.kind p.keys) item.1
  refine Tree.eq_of hkind hkeys hextensions (fun name => ?_) fun σ => congrFun hslot σ
  rw [Tree.field_putFields (v := val name)]
  · have hiff : (∃ e ∈ item.1, e.1.str?.getD "" = name) ↔ name ∈ p.keys := by
      constructor
      · rintro ⟨e, he, hname⟩
        obtain ⟨key, hkey, rfl⟩ := (h e).1 he
        exact hname ▸ hkey
      · exact fun hname => ⟨_, (h _).2 ⟨name, hname, rfl⟩, rfl⟩
    show (if _ then _ else _) = if name ∈ p.keys then _ else _
    by_cases hname : name ∈ p.keys
    · rw [if_pos (hiff.2 hname), if_pos hname]
      exact Tree.told_of_key hname _
    · rw [if_neg fun he => hname (hiff.1 he), if_neg hname]
      rfl
  · intro e he hname
    obtain ⟨key, hkey, rfl⟩ := (h e).1 he
    rw [← hname]
    rfl

end Placement.Tells

namespace Entries

variable {P : Data → Prop} {k c : Kind} {slot : CollectionSlot} {σ : String} {es : Entries}

/-- What identifies an item of a list, by the values that the item carries. -/
theorem tells_identity (hp : k.placement? σ = some (.listed c slot)) (hes : es.Distinct)
    (hcarries : ∀ name ∈ slot.identifying, ∃ v, es.text? (wireName name) = some v) :
    (Placement.listed c slot).Tells (es.identity c slot, es.rest c slot)
      fun name => (es.text? (wireName name)).getD .unset := by
  have hslot := Kind.identifying_ne_nil hp
  intro e
  constructor
  · intro he
    obtain ⟨f, hf, hid⟩ := List.mem_filterMap.1 he
    obtain ⟨name, hname, rfl⟩ := Option.map_eq_some_iff.1 hid
    obtain ⟨hidentifying, -, hkey⟩ := Merge.identifies?_eq_some hslot hname
    obtain ⟨key, v⟩ := f
    dsimp only at hkey
    subst hkey
    refine ⟨name, hidentifying, ?_⟩
    dsimp only
    rw [hes.text?_eq_some_iff.2 hf]
    rfl
  · rintro ⟨name, hname, rfl⟩
    obtain ⟨v, hv⟩ := hcarries name hname
    dsimp only
    rw [hv, Option.getD_some]
    exact mem_of_text? ((text?_identity (Kind.keys_subset_fields hp) hname).trans hv)

/-- What an item of a source tells its member by. -/
theorem Source.tells (h : es.Source P k) {p : Placement} {v : Data} {item : Entries × Entries}
    (hp : k.placement? σ = some p) (hv : es.text? (wireName σ) = some v) (hitem : item ∈ p.items v)
    (htext : ∀ s : String, P (.str s)) :
    ∃ val, p.Tells item val ∧ ∀ key ∈ p.keys, (val key).isUnset = false ∧ P (val key) := by
  have hbrings := h.brings σ p v hp hv
  rcases Placement.mem_items hitem with ⟨c, key, fs, mark, e, gs, mark', rfl, rfl, he, hgs, rfl⟩ |
    ⟨c, slot, xs, gs, mark, rfl, hxs, hx, rfl⟩
  · obtain ⟨s, hs⟩ := (hbrings fs mark rfl).1.1 e he
    refine ⟨fun _ => e.1, fun f => ?_, fun _ _ => ?_⟩
    · simp [Placement.keys]
    · rw [hs]
      exact ⟨rfl, htext s⟩
  · obtain ⟨hdistinct, hcarries⟩ := (hbrings xs hxs _ hx).2 gs mark rfl
    refine ⟨_, tells_identity hp hdistinct fun name hname => ?_, fun name hname => ?_⟩
    · obtain ⟨w, hw, -⟩ := hcarries name hname
      exact ⟨w, hw⟩
    · obtain ⟨w, hw, hset, hP⟩ := hcarries name hname
      rw [hw]
      exact ⟨hset, hP⟩

end Entries

/-! ### Members as items -/

/-- The value by which the content of a document tells a member. -/
def Placement.valueOf (p : Placement) (c : Tree) (name : String) : Data :=
  match p with
  | .keyed _ _ => c.field name
  | _ => Forest.shownValue (c.field name)

namespace Tree

variable {k : Kind} {p : Placement} {c m : Tree} {ts : List Tree} {σ : String} {es : Entries}
  {ov : Bool} {val : String → Data}

/-- The item that stands for a member in the content of a document. -/
def item (p : Placement) (c : Tree) : Entries × Entries :=
  match p with
  | .keyed _ key => ([(.str key, c.field key)], c.shown)
  | .listed k slot => (Entries.identity k slot c.shown, Entries.rest k slot c.shown)
  | .single _ _ => ([], c.shown)

theorem item_snd (p : Placement) (c : Tree) : (c.item p).2 = p.rest c.shown := by
  cases p <;> rfl

/-- The content of a member says how it is told apart. -/
theorem text?_shown_identifying {slot : CollectionSlot} (hp : k.placement? σ = some (.listed c.kind slot))
    (hextensions : c.extensions.AreExtensions) {name : String} (hname : name ∈ slot.identifying)
    (hset : (c.field name).isUnset = false) :
    c.shown.text? (wireName name) = some (Forest.shownValue (c.field name)) := by
  rw [text?_shown_field hextensions (Kind.keys_subset_fields hp name hname),
    if_pos (Kind.identifying_spec hp name hname).1, shownField, hset]
  rfl

theorem tells_item (hp : k.placement? σ = some p) (hc : c.kind = p.kind)
    (hextensions : c.extensions.AreExtensions)
    (hset : ∀ key ∈ p.keys, (c.field key).isUnset = false) :
    p.Tells (c.item p) (p.valueOf c) := by
  cases p with
  | single k b =>
    intro e
    simp [item, Placement.keys]
  | keyed k key =>
    intro e
    simp [item, Placement.keys, Placement.valueOf]
  | listed k slot =>
    subst hc
    have htext := fun name (hname : name ∈ slot.identifying) =>
      text?_shown_identifying hp hextensions hname (hset name hname)
    have htells := Entries.tells_identity hp (shown_distinct hextensions)
      fun name hname => ⟨_, htext name hname⟩
    intro e
    refine (htells e).trans ?_
    refine exists_congr fun name => and_congr_right fun hname => ?_
    dsimp only
    rw [htext name hname]
    rfl

/-- The content of a list has one item for each member. -/
theorem items_shownMembers (hlist : p.isSingle = false)
    (hkeys : ∀ k key, p = .keyed k key →
      (∀ c ∈ ts, ∃ s : String, c.field key = .str s) ∧
        ts.Pairwise fun c d => c.field key ≠ d.field key) :
    p.items (p.shownMembers ts) = ts.map (item p) := by
  cases p with
  | single k b => exact nomatch hlist
  | keyed k key =>
    obtain ⟨htext, hapart⟩ := hkeys k key rfl
    have hdistinct : Entries.Distinct (ts.map fun c => (c.field key, Data.ofEntries c.shown)) := by
      refine ⟨fun e he => ?_, List.pairwise_map.2 hapart⟩
      obtain ⟨c, hc, rfl⟩ := List.mem_map.1 he
      exact htext c hc
    show List.filterMap _ (Entries.ofPairs _) = _
    rw [show (ts.map fun c => ((Placement.keyed k key).keyOf c.field, Data.ofEntries c.shown))
      = ts.map fun c => (c.field key, Data.ofEntries c.shown) from rfl,
      Entries.ofPairs_eq hdistinct, List.filterMap_map, ← List.filterMap_eq_map]
    rfl
  | listed k slot =>
    show List.filterMap _ ((ts.map _).map _) = _
    rw [List.map_map, List.filterMap_map, ← List.filterMap_eq_map]
    rfl

/-! ### Values that are there before -/

/-- The extensions are what a document shows beside the names of a node. -/
theorem filter_isExtension_shown {t : Tree} (h : t.extensions.AreExtensions) :
    t.shown.filter Entries.isExtension = t.extensions := by
  rw [shown_eq_append h, List.filter_append, List.filter_eq_nil_iff.2, List.nil_append,
    List.filter_eq_self]
  · intro e he
    obtain ⟨s, hs⟩ := h.1.1 e he
    rw [Entries.isExtension, hs]
    exact h.2 e he s hs
  · intro e he hx
    obtain ⟨name, hname, hwire, -⟩ := mem_own he
    rw [Entries.isExtension, hwire] at hx
    exact absurd (hx.symm.trans (Kind.startsWith_wireName (Kind.mem_attributes_of_shown hname)))
      (by simp)

/-- A field for which a source has nothing else is left as it is. -/
theorem merge_field_congr {fs : Entries} {u : Tree} {name : String} (hes : es.Distinct)
    (hfs : fs.Distinct) (hkind : u.kind = m.kind) (hkeys : u.keys = m.keys)
    (hfield : u.field name = m.field name)
    (htext : name ∈ m.kind.fields → fs.text? (wireName name) = es.text? (wireName name)) :
    (merge ov fs u).field name = (merge ov es m).field name := by
  by_cases hname : name ∈ m.kind.fields
  · rw [merge_field ov hes hname, merge_field ov hfs (hkind.symm ▸ hname), htext hname, hkind, hkeys,
      hfield]
  · rw [merge_field_of_notMem ov hname, merge_field_of_notMem ov (hkind.symm ▸ hname), hfield]

/-- Two merges agree where the sources and the trees do but for the fields by which a list tells its
    members apart. -/
theorem merge_listed_congr {slot : CollectionSlot} {c : Kind} {u : Tree}
    (hp : k.placement? σ = some (.listed c slot)) (hes : es.Distinct) (hkind : m.kind = c)
    (hu : u.kind = m.kind) (hkeys : u.keys = m.keys) (hextensions : u.extensions = m.extensions)
    (hslot : u.slot = m.slot)
    (hfield : ∀ name, name ∉ slot.identifying → u.field name = m.field name)
    (hidentifying : ∀ name ∈ slot.identifying,
      u.field name = (merge ov es m).field name) :
    merge ov (es.rest c slot) u = merge ov es m := by
  have hslots := Kind.identifying_ne_nil hp
  refine eq_of ?_ ?_ ?_ (fun name => ?_) fun τ => ?_
  · rw [merge_kind, merge_kind, hu]
  · rw [merge_keys, merge_keys, hkeys]
  · rw [merge_extensions, merge_extensions, hextensions, Entries.rest, List.filter_filter]
    congr 1
    refine List.filter_congr fun e _ => ?_
    rw [Bool.and_eq_left_iff_imp]
    intro hx
    cases hid : Merge.identifies? c slot e.1 with
    | none => rfl
    | some name =>
      obtain ⟨-, hname, hkey⟩ := Merge.identifies?_eq_some hslots hid
      rw [Entries.isExtension, hkey] at hx
      exact absurd (hx.symm.trans (Kind.startsWith_wireName (List.mem_append_left _ hname))) (by simp)
  · by_cases hname : name ∈ slot.identifying
    · have habsent : (es.rest c slot).text? (wireName name) = none :=
        Entries.text?_rest (Kind.keys_subset_fields hp) hname
      rw [merge_field_of_absent ov habsent]
      exact hidentifying name hname
    · refine merge_field_congr hes (hes.filter _) hu hkeys (hfield name hname) fun hfield => ?_
      refine Entries.text?_rest_of_notMem hslots fun other hother hwire => hname ?_
      rw [hkind] at hfield
      have heq := Kind.eq_of_wireName_eq (List.mem_append_left _ hfield)
        (List.mem_append_left _ (Kind.keys_subset_fields hp other hother)) hwire
      exact heq ▸ hother
  · cases hτ : m.kind.placement? τ with
    | none =>
      rw [merge_slot_of_none _ _ _ hτ, merge_slot_of_none _ _ _ (hu.symm ▸ hτ), hslot]
    | some q =>
      rw [merge_slot _ _ _ hτ, merge_slot _ _ _ (hu.symm ▸ hτ), hslot]
      rw [hkind] at hτ
      rw [Entries.text?_rest_slot hp (Kind.mem_slots_of_placement? hτ)]

/-- A tree that has the values by which it is told apart takes no others. -/
theorem merge_rest (hp : k.placement? σ = some p) (hes : es.Distinct) (hm : m.kind = p.kind)
    (hset : ∀ key ∈ p.keys, (m.field key).isUnset = false) :
    merge false (p.rest es) m = merge false es m := by
  cases p with
  | listed c slot =>
    refine merge_listed_congr hp hes hm rfl rfl rfl rfl (fun _ _ => rfl) fun name hname => ?_
    have hfield : name ∈ m.kind.fields := by
      rw [hm]
      exact Kind.keys_subset_fields hp name hname
    rw [merge_field false hes hfield]
    cases es.text? (wireName name) with
    | none => rfl
    | some v =>
      have harray : name ∉ m.kind.arrayFields := by
        rw [hm]
        exact (Kind.identifying_spec hp name hname).2
      show _ = mergeField false m.kind m.keys name v (m.field name)
      rw [mergeField, if_neg (by simpa using harray), if_neg]
      simpa using hset name hname
  | _ => rfl

/-- A new tree takes the values by which it is told apart with the rest. -/
theorem merge_rest_new {slot : CollectionSlot} {c : Kind}
    (hp : k.placement? σ = some (.listed c slot)) (hes : es.Distinct)
    (hcarries : ∀ name ∈ slot.identifying, ∃ v, es.text? (wireName name) = some v) :
    merge ov (es.rest c slot) ((fresh c slot.identifying).putFields (es.identity c slot))
      = merge ov es (fresh c slot.identifying) := by
  have hblank := (Entries.tells_identity hp hes hcarries).putFields_eq
  rw [show (fresh c slot.identifying).putFields (es.identity c slot) = _ from hblank]
  refine merge_listed_congr hp hes rfl rfl rfl rfl rfl (fun name hname => if_neg hname)
    fun name hname => ?_
  obtain ⟨v, hv⟩ := hcarries name hname
  have hfield : name ∈ c.fields := Kind.keys_subset_fields hp name hname
  have harray : name ∉ c.arrayFields := (Kind.identifying_spec hp name hname).2
  rw [merge_field ov hes hfield, hv]
  show (if name ∈ slot.identifying then _ else _) = mergeField ov c slot.identifying name v .unset
  rw [if_pos hname, mergeField, if_neg (by simpa using harray), if_pos (by simp [Data.isUnset]),
    told_of_key hname]
  dsimp only
  rw [hv]
  rfl

/-- A tree that has values for its keys takes nothing from a blank one. -/
theorem merge_shown_blank (hp : k.placement? σ = some p) (hm : m.kind = p.kind)
    (hset : ∀ key ∈ p.keys, (m.field key).isUnset = false) :
    merge false (blank p val).shown m = m := by
  have hextensions : (blank p val).extensions.AreExtensions :=
    ⟨.nil, fun _ h => absurd h List.not_mem_nil⟩
  have hdistinct := shown_distinct hextensions
  have hblank : (blank p val).kind = m.kind := hm.symm
  refine eq_of (merge_kind ..) (merge_keys ..) ?_ (fun name => ?_) fun τ => ?_
  · rw [merge_extensions, filter_isExtension_shown hextensions]
    rfl
  · by_cases hname : name ∈ m.kind.fields
    · rw [merge_field false hdistinct hname]
      rw [text?_shown_field hextensions (hblank.symm ▸ hname)]
      split
      · rfl
      · rename_i v hv
        split at hv
        · rename_i hshown
          -- The fields that are set are those by which the tree is told apart.
          have hkey : name ∈ p.keys := by
            refine Classical.byContradiction fun hkey => ?_
            have hunset : (blank p val).field name = .unset := if_neg hkey
            rw [hunset] at hv
            exact nomatch hv
          have harray : name ∉ m.kind.arrayFields := by
            rw [hm]
            cases p with
            | single k b => exact absurd hkey List.not_mem_nil
            | keyed k key =>
              rw [List.mem_singleton.1 hkey] at hshown
              exact absurd hshown (Kind.key_spec hp)
            | listed k slot => exact (Kind.identifying_spec hp name hkey).2
          rw [mergeField, if_neg (by simpa using harray), if_neg]
          simpa using hset name hkey
        · exact nomatch hv
    · exact merge_field_of_notMem false hname
  · cases hτ : m.kind.placement? τ with
    | none => exact merge_slot_of_none _ _ _ hτ
    | some q =>
      rw [merge_slot _ _ _ hτ, text?_shown_slot hextensions (hblank.symm ▸ hτ)]
      show mergeSlot _ _ q (shownSlot q .empty) _ = _
      rw [shownSlot_empty]
      cases q <;> rfl

end Tree

end ApiDoc
