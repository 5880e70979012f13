import ApiDoc.Proofs.Tree.Orderly
import ApiDoc.Proofs.Tree.Refinement

namespace ApiDoc

/-!
# Merging into an empty node

A node merged into a fresh one of its kind leaves the same content there:

* `Tree.Copyable` — trees for which this is so: members differ in what the document shows of the
  fields by which they are told apart, and no list of members is empty;
* `Tree.Hollow` — a tree of which the document shows nothing;
* `Tree.foldl_putMember_eq_map` — items that all make new members;
* `Tree.shown_merge_shown` — the content of a tree read back into a hollow tree;
* `Edit.merge_into_fresh` — the merge into a fresh node succeeds and copies the content.
-/

open Forest

/-- The entries of a mapping. -/
def Data.within : Data → Entries
  | .map es _ => es
  | _ => []

namespace Tree

/-- A tree whose content says all that there is to it. -/
structure Copyable (t : Tree) : Prop extends t.Serves fun _ => True where
  arrays : ∀ name ∈ t.kind.arrayFields, (t.field name).isUnset = true ∨
    ∃ xs, (t.field name).items? = some xs ∧ xs.Pairwise fun x y => ¬x.same y = true
  filled : ∀ σ, t.slot σ ≠ .members []
  apart : ∀ σ k slot, t.kind.placement? σ = some (.listed k slot) →
    (t.slot σ).trees.Pairwise fun c d => ∃ name ∈ slot.identifying,
      ¬(shownValue (c.field name)).alike (shownValue (d.field name)) = true

/-- A tree of which the document shows nothing. -/
structure Hollow (t : Tree) : Prop where
  extensions : t.extensions = []
  field : ∀ name ∈ t.kind.shownFields, t.field name = .unset
  slot : ∀ σ, t.slot σ = .empty

theorem hollow_fresh (k : Kind) (keys : List String) : (fresh k keys).Hollow :=
  ⟨rfl, fun _ _ => rfl, fun _ => rfl⟩

variable {ov : Bool} {s t u : Tree} {p : Placement}

/-- Trees of which the document shows the same under each name. -/
theorem shown_congr (hkind : t.kind = u.kind) (hextensions : t.extensions = u.extensions)
    (h : ∀ name ∈ u.kind.shownNames, t.shownAt name = u.shownAt name) : t.shown = u.shown := by
  rw [shown_eq, shown_eq, hextensions, own, own, hkind]
  congr 1
  refine List.filterMap_congr fun name hname => ?_
  rw [h name hname]

/-- Extensions that are not there are added. -/
theorem foldl_extend_eq_append {es fs : Entries} (h : Entries.Distinct (es ++ fs)) :
    fs.foldl (extend ov) es = es ++ fs := by
  induction fs generalizing es with
  | nil => exact (List.append_nil es).symm
  | cons f fs ih =>
    obtain ⟨s, hs⟩ := h.1 f (List.mem_append_right _ List.mem_cons_self)
    have hne : ∀ e ∈ es, e.1 ≠ .str s := fun e he => by
      rw [← hs]
      exact (List.pairwise_append.1 h.2).2.2 e he f List.mem_cons_self
    have hhas : es.has f.1 = false := by
      rw [hs, Entries.has, show es.get? (.str s) = none from Entries.text?_eq_none_iff.2 hne]
      rfl
    have hextend : extend ov es f = es ++ [f] := by
      rw [extend, hhas, Bool.not_false, Bool.or_true, if_pos rfl, hs, Entries.insert_eq_append hne,
        ← hs]
    rw [List.foldl_cons, hextend, ih (by simpa using h), List.append_assoc]
    rfl

/-- What an item makes of nothing. -/
noncomputable def made (ov : Bool) (p : Placement) (item : Entries × Entries) : Tree :=
  merge ov item.2 ((fresh p.kind p.keys).putFields item.1)

/-- Items none of which tells what an earlier one makes all make new members. -/
theorem foldl_putMember_eq_map {items : List (Entries × Entries)} {ts : List Tree}
    (hts : ∀ t ∈ ts, ∀ item ∈ items, t.hasValues item.1 = false)
    (hitems : items.Pairwise fun a b => (made ov p a).hasValues b.1 = false) :
    items.foldl (putMember (merge ov) p) ts = ts ++ items.map (made ov p) := by
  induction items generalizing ts with
  | nil => exact (List.append_nil ts).symm
  | cons item items ih =>
    obtain ⟨hhead, htail⟩ := List.pairwise_cons.1 hitems
    have hnew : putMember (merge ov) p ts item = ts ++ [made ov p item] :=
      upsert_of_forall fun t ht => hts t ht item List.mem_cons_self
    rw [List.foldl_cons, hnew, ih ?_ htail, List.append_assoc]
    · rfl
    · intro t ht other hother
      rcases List.mem_append.1 ht with ht | ht
      · exact hts t ht other (List.mem_cons_of_mem _ hother)
      · rw [List.mem_singleton.1 ht]
        exact hhead other hother

/-! ### Reading back -/

/-- A field of a hollow tree takes what the document shows. -/
theorem Copyable.shownAt_field (h : s.Copyable) (hu : u.Hollow) (hkind : u.kind = s.kind)
    {name : String} (hname : name ∈ s.kind.shownFields) :
    (merge ov s.shown u).shownAt name = s.shownAt name := by
  have hfield : name ∈ s.kind.fields := (List.mem_filter.1 hname).1
  have hkind' : (merge ov s.shown u).kind = s.kind := (merge_kind ..).trans hkind
  rw [Tree.shownAt_field (hkind'.symm ▸ hfield), Tree.shownAt_field hfield,
    merge_field ov (shown_distinct h.extensions) (hkind.symm ▸ hfield),
    text?_shown_field h.extensions hfield, if_pos hname, hu.field name (hkind.symm ▸ hname)]
  -- A field that is unset is shown by neither; the shown value of a field is shown as it is.
  cases hset : (s.field name).isUnset with
  | true =>
    rw [Data.isUnset_iff.1 hset]
    rfl
  | false =>
    have hshown : shownField (s.field name) = some (shownValue (s.field name)) := by
      rw [shownField, hset]
      rfl
    have hvalue : shownField (shownValue (s.field name)) = some (shownValue (s.field name)) := by
      rw [shownField, Data.isUnset_shownValue, hset, Data.shownValue_shownValue]
      rfl
    rw [hshown]
    show shownField (mergeField ov u.kind u.keys name _ .unset) = _
    rw [mergeField, hkind]
    by_cases harray : s.kind.arrayFields.contains name = true
    · rw [if_pos harray, shownField_told hname]
      -- An empty list that is united with a list without repetitions is that list.
      rcases h.arrays name (List.contains_iff_mem.1 harray) with hunset | ⟨xs, hxs, hapart⟩
      · rw [hset] at hunset
        cases hunset
      · have hlist : shownValue (s.field name) = .ofList xs := by rw [shownValue, hxs]
        rw [hlist]
        show shownField (.ofList (Merge.unionItems [] xs)) = _
        rw [Merge.unionItems_nil hapart]
        rfl
    · rw [if_neg harray, if_pos (by simp [Data.isUnset]), shownField_told hname, hvalue]

variable {k c : Kind} {σ : String} {ts : List Tree}

/-- The values by which a new member is told apart are those of the source. -/
theorem field_merge_fresh {slot : CollectionSlot} (hp : k.placement? σ = some (.listed c slot))
    {es : Entries} (hes : es.Distinct) {name : String} (hname : name ∈ slot.identifying) {v : Data}
    (hv : es.text? (wireName name) = some v) :
    (merge ov es (fresh c slot.identifying)).field name = v.settled := by
  have harray : name ∉ c.arrayFields := (Kind.identifying_spec hp name hname).2
  rw [merge_field ov hes (Kind.keys_subset_fields hp name hname), hv]
  show mergeField ov c slot.identifying name v .unset = _
  rw [mergeField, if_neg (by simpa using harray), if_pos (by simp [Data.isUnset]),
    told_of_key hname]

/-- Members that are told apart by their fields, read back. -/
theorem foldl_items_listed (ov : Bool) {slot : CollectionSlot} (hp : k.placement? σ = some (.listed c slot))
    (hkind : ∀ t ∈ ts, t.kind = c) (hextensions : ∀ t ∈ ts, t.extensions.AreExtensions)
    (hset : ∀ t ∈ ts, ∀ name ∈ slot.identifying, (t.field name).isUnset = false)
    (hapart : ts.Pairwise fun t u => ∃ name ∈ slot.identifying,
      ¬(shownValue (t.field name)).alike (shownValue (u.field name)) = true) :
    (Placement.items (.listed c slot) (Placement.shownMembers (.listed c slot) ts)).foldl
      (putMember (merge ov) (.listed c slot)) []
        = ts.map fun t => merge ov t.shown (fresh c slot.identifying) := by
  have htext : ∀ t ∈ ts, ∀ name ∈ slot.identifying,
      t.shown.text? (wireName name) = some (shownValue (t.field name)) := fun t ht name hname =>
    text?_shown_identifying ((hkind t ht).symm ▸ hp) (hextensions t ht) hname (hset t ht name hname)
  have hmade : ∀ t ∈ ts, made ov (.listed c slot) (t.item (.listed c slot))
      = merge ov t.shown (fresh c slot.identifying) := fun t ht =>
    merge_rest_new hp (shown_distinct (hextensions t ht)) fun name hname =>
      ⟨_, htext t ht name hname⟩
  have hitems : Placement.items (.listed c slot) (Placement.shownMembers (.listed c slot) ts)
      = ts.map (item (.listed c slot)) := items_shownMembers rfl fun _ _ he => nomatch he
  rw [hitems, foldl_putMember_eq_map, List.nil_append, List.map_map]
  · exact List.map_congr_left hmade
  · exact fun _ h => absurd h List.not_mem_nil
  · refine List.pairwise_map.2 ((List.Pairwise.and_mem.1 hapart).imp ?_)
    rintro t u ⟨ht, hu, name, hname, hne⟩
    rw [Bool.eq_false_iff, hmade t ht]
    intro hvalues
    have halike := ((tells_item hp (hkind u hu) (hextensions u hu) (hset u hu)).hasValues_iff _).1
      hvalues name hname
    rw [field_merge_fresh hp (shown_distinct (hextensions t ht)) hname (htext t ht name hname),
      Data.alike_settled] at halike
    exact hne halike

/-- Members under keys, read back: of those under one key the content has one. -/
theorem foldl_items_keyed (ov : Bool) (mark : Nat) {key : String}
    (hp : k.placement? σ = some (.keyed c key)) {fs : Entries} (hfs : fs.Distinct)
    (hshown : ∀ e ∈ fs, ∃ t : Tree, t.kind = c ∧ t.extensions.AreExtensions ∧
      e.2 = .ofEntries t.shown ∧ ∀ u, u.kind = t.kind → u.Hollow →
        (merge ov t.shown u).shown = t.shown) :
    Placement.shownMembers (.keyed c key) ((Placement.items (.keyed c key) (.map fs mark)).foldl
      (putMember (merge ov) (.keyed c key)) []) = .ofEntries fs := by
  let item (e : Data × Data) : Entries × Entries := ([(.str key, e.1)], Data.within e.2)
  have hitems : Placement.items (.keyed c key) (.map fs mark) = fs.map item := by
    rw [← List.filterMap_eq_map]
    refine List.filterMap_congr fun e he => ?_
    obtain ⟨t, -, -, hv, -⟩ := hshown e he
    simp only [Function.comp_apply, hv, item, Data.within]
  -- A new member has its key, and shows what the content has under the key.
  have hmade : ∀ e ∈ fs, (made ov (.keyed c key) (item e)).field key = e.1 ∧
      Data.ofEntries (made ov (.keyed c key) (item e)).shown = e.2 := by
    intro e he
    obtain ⟨t, rfl, hextensions, hv, ht⟩ := hshown e he
    obtain ⟨s, hs⟩ := hfs.1 e he
    have hitem : item e = ([(.str key, e.1)], t.shown) := by simp only [item, Data.within, hv]
    have htells : Placement.Tells (.keyed t.kind key) (item e) fun _ => e.1 := by
      intro f
      simp [item, Placement.keys]
    have hmade : made ov (.keyed t.kind key) (item e)
        = merge ov t.shown (blank (.keyed t.kind key) fun _ => e.1) := by
      rw [made, htells.putFields_eq, hitem]
    have habsent : t.shown.text? (wireName key) = none := by
      rw [text?_shown_field hextensions
        (Kind.keys_subset_fields hp key (List.mem_singleton_self key)), if_neg (Kind.key_spec hp)]
    rw [hmade, hv]
    constructor
    · rw [merge_field_of_absent ov habsent]
      show (if key ∈ [key] then e.1.settled else _) = _
      rw [if_pos (List.mem_singleton_self key), hs]
      rfl
    · rw [ht]
      · rfl
      · refine ⟨rfl, fun name hname => if_neg ?_, fun _ => rfl⟩
        intro hkey
        rw [List.mem_singleton.1 hkey] at hname
        exact Kind.key_spec hp hname
  rw [hitems, foldl_putMember_eq_map, List.nil_append]
  · show Data.ofEntries (Entries.ofPairs _) = _
    rw [List.map_map, List.map_map, (List.map_congr_left fun e he =>
      Prod.ext (hmade e he).1 (hmade e he).2 : fs.map _ = fs.map id), List.map_id,
      Entries.ofPairs_eq hfs]
  · exact fun _ h => absurd h List.not_mem_nil
  · refine List.pairwise_map.2 ((List.Pairwise.and_mem.1 hfs.2).imp ?_)
    rintro e f ⟨he, hf, hne⟩
    obtain ⟨s, hs⟩ := hfs.1 f hf
    show (((made ov (.keyed c key) (item e)).field key).alike f.1 && true) = false
    rw [(hmade e he).1, Bool.and_true, Bool.eq_false_iff, hs]
    intro halike
    exact hne ((Data.alike_str_iff.1 halike).trans hs.symm)

/-- What a hollow tree takes for a slot. -/
theorem All.shownAt_slot (h : s.All Copyable) (hu : u.Hollow) (hkind : u.kind = s.kind)
    (hcopy : ∀ σ, ∀ c ∈ (s.slot σ).trees, ∀ u, u.kind = c.kind → u.Hollow →
      (Tree.merge ov c.shown u).shown = c.shown) {σ : String} (hp : s.kind.placement? σ = some p) :
    (Tree.merge ov s.shown u).shownAt σ = s.shownAt σ := by
  have hkind' : (Tree.merge ov s.shown u).kind = s.kind := (merge_kind ..).trans hkind
  have hfits := h.root.typed σ p hp
  rw [Tree.shownAt_slot (hkind'.symm ▸ hp), Tree.shownAt_slot hp,
    merge_slot _ _ _ (hkind.symm ▸ hp), text?_shown_slot h.root.extensions hp, hu.slot σ]
  cases hslot : s.slot σ with
  | empty =>
    rw [shownSlot_empty]
    cases p <;> exact shownSlot_empty _
  | flag b =>
    rw [hslot] at hfits
    obtain ⟨c, rfl⟩ := hfits
    rw [shownSlot_flag]
    show shownSlot _ (if true && (ov || true) then Slot.flag b else .empty) = _
    rw [Bool.or_true, Bool.and_true, if_pos rfl, shownSlot_flag]
  | child c =>
    rw [hslot] at hfits
    obtain ⟨hsingle, hc⟩ := hfits
    cases p with
    | single k b =>
      have hshown := hcopy σ c (by rw [hslot]; exact List.mem_singleton_self c) (fresh k []) hc.kind.symm
        (hollow_fresh k [])
      rw [shownSlot_child]
      show shownSlot _ (.child (Tree.merge ov c.shown (fresh k []))) = _
      rw [shownSlot_child, hshown]
    | _ => exact nomatch hsingle
  | members ts =>
    rw [hslot] at hfits
    obtain ⟨hlist, hts⟩ := hfits
    have hne : ts ≠ [] := fun he => h.root.filled σ (he ▸ hslot)
    have hmem : ∀ t ∈ ts, t ∈ (s.slot σ).trees := fun t ht => by rw [hslot]; exact ht
    -- With members to bring the slot is filled by what is made of their items.
    have hgrow : ∀ us : List Tree, us ≠ [] → p.shownMembers us = p.shownMembers ts →
        shownSlot p ((Slot.empty : Slot Tree).grow us) = some (p.shownMembers ts) := by
      intro us hus hshown
      have hgrow : (Slot.empty : Slot Tree).grow us = .members us := if_neg (by simpa using hus)
      rw [hgrow, shownSlot_members]
      exact congrArg some hshown
    rw [shownSlot_members]
    cases p with
    | single k b => exact nomatch hlist
    | keyed c key =>
      let fs := Entries.ofPairs (ts.map fun t => (t.field key, Data.ofEntries t.shown))
      have hfs : fs.Distinct := Entries.ofPairs_distinct fun e he => by
        obtain ⟨t, ht, rfl⟩ := List.mem_map.1 he
        exact (hts t ht).text c key rfl
      have hshown := foldl_items_keyed ov 0 hp hfs fun e he => by
        obtain ⟨f, hf, hvalue⟩ := Entries.mem_ofPairs he
        obtain ⟨t, ht, rfl⟩ := List.mem_map.1 hf
        exact ⟨t, (hts t ht).kind, (h.child (hmem t ht)).root.extensions, hvalue.symm,
          hcopy σ t (hmem t ht)⟩
      refine hgrow _ (fun hnil => ?_) hshown
      have hshown : Placement.shownMembers (.keyed c key) [] = .ofEntries fs := by
        rw [← hshown]
        exact congrArg _ hnil.symm
      exact Entries.ofPairs_ne_nil (by simpa using hne) (Data.map.inj hshown).1.symm
    | listed c slot =>
      have hfold := foldl_items_listed ov hp (fun t ht => (hts t ht).kind)
        (fun t ht => (h.child (hmem t ht)).root.extensions)
        (fun t ht name hname => (h.root.carries σ c slot hp t (hmem t ht) name hname).1)
        (by
          have hapart := h.root.apart σ c slot hp
          rw [hslot] at hapart
          exact hapart)
      refine hgrow _ ?_ ?_
      · show (Placement.items _ _).foldl _ [] ≠ []
        rw [hfold]
        simpa using hne
      · show Placement.shownMembers _ ((Placement.items _ _).foldl _ []) = _
        rw [hfold]
        show Data.ofList _ = Data.ofList _
        rw [List.map_map, List.map_map, List.map_map]
        congr 1
        refine List.map_congr_left fun t ht => ?_
        show Data.ofEntries (Tree.merge ov t.shown (fresh c slot.identifying)).shown = _
        rw [hcopy σ t (hmem t ht) _ (hts t ht).kind.symm (hollow_fresh c _)]
        rfl

/-- The content of a tree read back into a tree of which the document shows nothing. -/
theorem All.shown_merge_shown (h : s.All Copyable) :
    ∀ u : Tree, u.kind = s.kind → u.Hollow → (Tree.merge ov s.shown u).shown = s.shown := by
  induction h with
  | @mk s own below ih =>
    have h := All.mk own below
    intro u hkind hu
    refine shown_congr ((merge_kind ..).trans hkind) ?_ fun name hname => ?_
    · rw [merge_extensions, filter_isExtension_shown own.extensions, hu.extensions,
        foldl_extend_eq_append (by exact own.extensions.1)]
      rfl
    · rcases List.mem_append.1 hname with hfield | hσ
      · exact own.shownAt_field hu hkind hfield
      · obtain ⟨p, hp⟩ := Kind.exists_placement? hσ
        exact h.shownAt_slot hu hkind ih hp

/-! ### Trees made by merges -/

/-- An orderly tree without empty lists of members, whose lists that only grow hold nothing twice. -/
structure Tidy (t : Tree) : Prop where
  orderly : t.Orderly
  filled : ∀ σ, t.slot σ ≠ .members []
  arrays : ∀ name ∈ t.kind.arrayFields, (t.field name).isUnset = true ∨
    ∃ xs, (t.field name).items? = some xs ∧ xs.Pairwise fun x y => ¬x.same y = true

theorem Tidy.copyable (h : t.Tidy) : t.Copyable where
  typed := h.orderly.typed
  extensions := h.orderly.extensions
  carries σ k slot hp c hc name hname := ⟨(h.orderly.tells σ _ hp c hc name hname).1, trivial⟩
  arrays := h.arrays
  filled := h.filled
  apart σ k slot hp := by
    refine (List.Pairwise.and_mem.1 (h.orderly.apart σ _ hp)).imp ?_
    rintro c d ⟨hc, hd, hne⟩
    simp only [Agree, not_forall] at hne
    obtain ⟨name, hname, hne⟩ := hne
    refine ⟨name, hname, ?_⟩
    rwa [(h.orderly.tells σ _ hp c hc name hname).2.shownValue_eq,
      (h.orderly.tells σ _ hp d hd name hname).2.shownValue_eq, Data.alike_settled,
      Data.alike_settled_right]

theorem tidy_of_empty (h : t.Orderly) (hslot : t.slot = fun _ => .empty)
    (harrays : ∀ name ∈ t.kind.arrayFields, t.field name = .unset) : t.Tidy where
  orderly := h
  filled σ := by
    rw [hslot]
    exact fun he => nomatch he
  arrays name hname := .inl (Data.isUnset_iff.2 (harrays name hname))

/-- A slot without an empty list of members has none after a merge. -/
theorem mergeSlot_ne_nil {absorb : Entries → Tree → Tree} {v? : Option Data} {s : Slot Tree}
    (hs : s ≠ .members []) : mergeSlot absorb ov p v? s ≠ .members [] := by
  have hgrow : ∀ us : List Tree, s.grow us ≠ .members [] := by
    intro us
    unfold Slot.grow
    split
    · exact hs
    · rename_i hus
      intro he
      rw [Slot.members.inj he] at hus
      exact hus rfl
  cases v? with
  | none => cases p <;> exact hs
  | some v =>
    cases p with
    | single k b =>
      cases v with
      | map fs mark => exact fun he => nomatch he
      | scalar x =>
        cases x with
        | bool x =>
          show (if b && (ov || s.isEmpty) then Slot.flag x else s) ≠ _
          split
          · exact fun he => nomatch he
          · exact hs
        | _ => exact hs
      | _ => exact hs
    | keyed k key => exact hgrow _
    | listed k slot => exact hgrow _

end Tree

/-- A merge leaves a tidy tree tidy. -/
theorem Entries.Source.tidy_merge {es : Entries} {t : Tree} {ov : Bool}
    (h : es.Source Data.Telling t.kind) (ht : t.Tidy) : (Tree.merge ov es t).Tidy where
  orderly := h.orderly_merge ht.orderly
  filled σ := by
    cases hp : t.kind.placement? σ with
    | none =>
      rw [Tree.merge_slot_of_none _ _ _ hp]
      exact ht.filled σ
    | some p =>
      rw [Tree.merge_slot _ _ _ hp]
      exact Tree.mergeSlot_ne_nil (ht.filled σ)
  arrays name hname := by
    rw [Tree.merge_kind] at hname
    have hshown := t.kind.arrayFields_shown name hname
    rw [Tree.merge_field _ h.distinct (List.mem_filter.1 hshown).1]
    cases es.text? (wireName name) with
    | none => exact ht.arrays name hname
    | some v =>
      refine .inr ⟨Merge.unionItems ((t.field name).items?.getD []) (Merge.supplied v), ?_,
        Merge.pairwise_unionItems _ ?_⟩
      · show (Tree.mergeField ov _ _ name v _).items? = _
        rw [Tree.mergeField, if_pos (List.contains_iff_mem.2 hname)]
        exact Tree.items?_told_ofList hshown _
      · rcases ht.arrays name hname with hunset | ⟨xs, hxs, hapart⟩
        · rw [Data.isUnset_iff.1 hunset]
          exact .nil
        · rw [hxs]
          exact hapart

/-- Trees that are made by merges of sources are tidy. -/
theorem Tree.All.tidy_merge {es : Entries} {t : Tree} {ov : Bool}
    (hes : es.All (Entries.Source Data.Telling) t.kind) (ht : t.All Tidy) :
    (Tree.merge ov es t).All Tidy := by
  refine All.merge (fun _ h => h.orderly.typed)
    (fun k => tidy_of_empty (orderly_of_empty rfl rfl fun _ _ => rfl) rfl fun _ _ => rfl) ?_
    (fun _ _ h ht => h.tidy_merge ht) hes t rfl ht
  intro k es σ p v item h hp hv hitem
  obtain ⟨val, -, hblank, -⟩ := h.new_eq_blank hp hv hitem
  rw [hblank]
  exact tidy_of_empty (orderly_blank hp val) rfl (field_blank_of_array hp val)

/-! ### Nodes -/

namespace Edit

/-- A node merged into a fresh one of its kind, which then has the same content. -/
theorem merge_into_fresh {o : MergeOptions} {d : Draft} {s : Tree} {i j : NodeId} {B : Finset NodeId}
    {parent : Data} (ho : o.policy = .error) (hj : d.forest.Holds s j B) (hs : s.All Tree.Copyable)
    (hi : i < d.forest.size) (hfresh : d.forest.get i = { kind := s.kind, parent := parent }) :
    ∃ d', Edit.merge o (.node j) i d = .ok () d' ∧
      d'.forest.content i = d.forest.content j := by
  obtain ⟨ov, policy⟩ := o
  obtain rfl : policy = .error := ho
  have hd : d.forest.Holds (Tree.fresh s.kind []) i {i} :=
    .leaf (Node.Matches.fresh (fun _ h => absurd h List.not_mem_nil) parent)
      (fun _ _ => rfl) rfl hi hfresh
  have hserves : s.All (Tree.Serves fun _ => True) := hs.mono fun _ h => h.toServes
  have hstyped : s.All Tree.Typed := hs.mono fun _ h => h.typed
  have htyped : (Tree.fresh s.kind []).All Tree.Typed := .leaf (Tree.typed_fresh rfl) rfl
  have hsource := hserves.source_shown.findable
  obtain ⟨_, d', hmerge, hturned⟩ := (Meets.mergeNode (t := .fresh s.kind []) hj hstyped hsource hd
    htyped).exists_ok hserves.accepted_shown
  refine ⟨d', hmerge, ?_⟩
  have htyped' : (Tree.merge ov s.shown (Tree.fresh s.kind [])).All Tree.Typed :=
    htyped.typed_merge hsource
  rw [hturned.holds.content_eq htyped', hj.content_eq hstyped,
    hs.shown_merge_shown (.fresh s.kind []) rfl (Tree.hollow_fresh s.kind [])]

/-- A document with a server, copied. -/
theorem merge_into_fresh_server : ∃ d d',
    Edit.merge {} (.map (oneServer "/" "Shop") 0) 1 twoDocuments = .ok () d ∧
      Edit.merge { overwrite := true } (.node 1) 0 d = .ok () d' ∧
        d'.forest.content 0 = d.forest.content 1 := by
  have hsource := source_oneServer "/" "Shop"
  have hempty : (Tree.fresh .openApi []).All Tree.Tidy := .leaf
    (Tree.tidy_of_empty (Tree.orderly_of_empty rfl rfl fun _ _ => rfl) rfl fun _ _ => rfl) rfl
  have htyped := hempty.mono fun _ h => h.orderly.typed
  obtain ⟨d, hd⟩ := Results.exists_ok
    (x := Edit.merge {} (.map (oneServer "/" "Shop") 0) 1) (s := twoDocuments) (by decide +kernel)
  have hturned := (Meets.mergeMap hsource.findable (holds_twoDocuments (by decide)) htyped 0).of_ok hd
  have hcopyable : (Tree.merge false (oneServer "/" "Shop") (.fresh .openApi [])).All Tree.Copyable :=
    (hempty.tidy_merge hsource).mono fun _ h => h.copyable
  have hfresh : d.forest.get 0 = { kind := .openApi } :=
    hturned.grows.get_eq 0 (by decide) (by decide)
  have hsize : 0 < d.forest.size := Nat.lt_of_lt_of_le (by decide) hturned.grows.size_le
  have hkind : (Tree.merge false (oneServer "/" "Shop") (.fresh .openApi [])).kind = .openApi :=
    Tree.merge_kind ..
  obtain ⟨d', hd', hcontent⟩ := merge_into_fresh (o := { overwrite := true }) rfl hturned.holds
    hcopyable hsize (by rw [hkind]; exact hfresh)
  exact ⟨d, d', hd, hd', hcontent⟩

/-- A document without content, and one with two servers whose addresses show as the same. -/
def alikeServers : Draft where
  forest := ⟨#[{ kind := .openApi },
    { kind := .openApi, values := [("servers", .ofList [.node 2, .node 3])] },
    { kind := .server, parent := .node 1, values := [("url", .ofList [.int 1, .int 2])] },
    { kind := .server, parent := .node 1, values := [("url", .ofTuple [.int 1, .int 2])] }]⟩

/-- Members that differ in what they are told apart by, but not in what is shown of it, become one. -/
theorem merge_into_fresh_alike : ∃ d', Edit.merge {} (.node 1) 0 alikeServers = .ok () d' ∧
    contentsDiffer (d'.forest.content 0) (alikeServers.forest.content 1) = true :=
  Results.exists_of_endsIn (by decide +kernel)

end Edit

end ApiDoc
