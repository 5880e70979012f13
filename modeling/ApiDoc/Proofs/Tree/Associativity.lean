import ApiDoc.Proofs.Tree.Orderly
import ApiDoc.Proofs.Tree.Refinement

namespace ApiDoc

/-!
# Merges one after the other

A source merged into a tree, and the content of the tree then into another, comes to the same as the
content of the tree merged into the other first, and the source then:

* `Tree.foldl_extend_foldl`, `Tree.takeField_takeField` — extensions and fields;
* `Placement.change` — what an item does to a list of members, as a value;
* `Tree.Absorbed.runAll_items` — an item that is put among members before these are merged, or after;
* `Tree.associates` — the same of sources and trees of any depth;
* `Edit.merge_assoc` — merges into nodes, in one order and in the other.
-/

open Forest

namespace Tree

/-! ### Extensions -/

section Extensions

variable {es fs gs : Entries} {s : String} {v : Data}

/-- An extension that is there stays. -/
theorem extend_of_isSome (h : (es.text? s).isSome = true) : extend false es (.str s, v) = es := by
  show (if false || !(es.text? s).isSome then _ else es) = es
  rw [h]
  rfl

/-- A new extension comes last. -/
theorem extend_of_none (h : es.text? s = none) :
    extend false es (.str s, v) = es ++ [(.str s, v)] := by
  show (if false || !(es.text? s).isSome then es.insert (.str s) v else es) = _
  rw [h, ← Entries.insert_eq_append (Entries.text?_eq_none_iff.1 h) v]
  rfl

/-- An extension is there after a merge if it was there or is in the source. -/
theorem isSome_text?_foldl_extend (hfs : ∀ f ∈ fs, ∃ r : String, f.1 = .str r) :
    ((fs.foldl (extend false) es).text? s).isSome
      = ((es.text? s).isSome || (fs.text? s).isSome) := by
  induction fs generalizing es with
  | nil => exact (Bool.or_false _).symm
  | cons f fs ih =>
    obtain ⟨⟨r, hr⟩, hrest⟩ := List.forall_mem_cons.1 hfs
    obtain ⟨key, w⟩ := f
    dsimp only at hr
    subst hr
    have hcons : (Entries.text? ((.str r, w) :: fs) s).isSome
        = ((Entries.text? [(.str r, w)] s).isSome || (Entries.text? fs s).isSome) := by
      rw [show (Data.str r, w) :: fs = [(.str r, w)] ++ fs from rfl, Entries.text?_append,
        Option.isSome_or]
    rw [List.foldl_cons, ih hrest, hcons, ← Bool.or_assoc]
    congr 1
    cases hes : es.text? r with
    | none => rw [extend_of_none hes, Entries.text?_append, Option.isSome_or]
    | some u =>
      rw [extend_of_isSome (by rw [hes]; rfl)]
      by_cases hrs : r = s
      · rw [← hrs, hes]
        rfl
      · rw [Entries.text?_cons_of_ne (by simpa using hrs)]
        exact (Bool.or_false _).symm

/-- Extensions merged into others after they took more, or before. -/
theorem foldl_extend_foldl (hes : ∀ e ∈ es, ∃ r : String, e.1 = .str r)
    (hfs : ∀ f ∈ fs, ∃ r : String, f.1 = .str r) :
    (es.foldl (extend false) fs).foldl (extend false) gs
      = es.foldl (extend false) (fs.foldl (extend false) gs) := by
  induction es generalizing fs with
  | nil => rfl
  | cons e es ih =>
    obtain ⟨⟨r, hr⟩, hrest⟩ := List.forall_mem_cons.1 hes
    obtain ⟨key, w⟩ := e
    dsimp only at hr
    subst hr
    rw [List.foldl_cons, List.foldl_cons]
    cases hfound : Entries.text? fs r with
    | some u =>
      have hthere : ((fs.foldl (extend false) gs).text? r).isSome = true := by
        rw [isSome_text?_foldl_extend hfs, hfound]
        exact Bool.or_true _
      rw [extend_of_isSome (by rw [hfound]; rfl), extend_of_isSome hthere]
      exact ih hrest hfs
    | none =>
      rw [extend_of_none hfound, ih hrest, List.foldl_append]
      · rfl
      · intro f hf
        rcases List.mem_append.1 hf with hf | hf
        · exact hfs f hf
        · exact ⟨r, by rw [List.mem_singleton.1 hf]⟩

end Extensions

/-! ### Fields -/

section Fields

variable {k : Kind} {keys : List String} {name : String}

/-- What a source makes of a field that it may name. -/
def takeField (k : Kind) (keys : List String) (name : String) (v? : Option Data) (current : Data) :
    Data :=
  v?.elim current fun v => mergeField false k keys name v current

/-- A field after a merge that does not overwrite. -/
theorem merge_field_eq_takeField {es : Entries} {t : Tree} (hes : es.Distinct)
    (hname : name ∈ t.kind.fields) : (merge false es t).field name
      = takeField t.kind t.keys name (es.text? (wireName name)) (t.field name) := by
  rw [merge_field false hes hname]
  cases es.text? (wireName name) <;> rfl

/-- A field merged into another after it took a value, or before. -/
theorem takeField_takeField {a b v : Data} (hname : name ∈ k.shownFields) (hkey : name ∉ keys)
    (ha : name ∈ k.arrayFields → a.isUnset = true ∨ ∃ xs, a.items? = some xs) :
    takeField k keys name (shownField (mergeField false k keys name v a)) b
      = mergeField false k keys name v (takeField k keys name (shownField a) b) := by
  -- A list is united with what it gets; every other field is kept if it is set.
  by_cases harray : name ∈ k.arrayFields
  · have hgrow : ∀ v b : Data, mergeField false k keys name v b = told k keys name
        (.ofList (Merge.unionItems (b.items?.getD []) (Merge.supplied v))) := fun v b =>
      if_pos (List.contains_iff_mem.2 harray)
    have hshown : ∀ xs : List Data, shownField (.ofList xs) = some (.ofList xs) := fun _ => rfl
    have htake : ∀ xs : List Data, takeField k keys name (some (.ofList xs)) b
        = told k keys name (.ofList (Merge.unionItems (b.items?.getD []) xs)) := fun _ => hgrow _ b
    rw [hgrow v a, shownField_told hname, hshown, htake, hgrow v]
    rcases ha harray with hunset | ⟨xs, hxs⟩
    · rw [Data.isUnset_iff.1 hunset]
      show told k keys name (.ofList (Merge.unionItems _ (Merge.unionItems [] _))) = _
      rw [Merge.unionItems_assoc]
      rfl
    · have hshowna : shownField a = some (.ofList xs) := by
        have hset : a.isUnset = false := by
          cases a with
          | unset => exact nomatch hxs
          | _ => rfl
        rw [shownField, hset, shownValue, hxs]
        rfl
      rw [hshowna, htake, items?_told_ofList hname, hxs, Option.getD_some, Option.getD_some,
        Merge.unionItems_assoc]
  -- A field that is set stays, so the order of the sources decides in both ways alike.
  · have hmerge : ∀ v b : Data, mergeField false k keys name v b
        = if b.isUnset then shownValue v else b := fun v b => by
      have htold : told k keys name v = shownValue v := by rw [told, if_neg hkey, if_pos hname]
      rw [mergeField, if_neg (by simpa using harray), Bool.false_or, htold]
    have htake : ∀ w : Data, takeField k keys name (shownField w) b
        = if b.isUnset then shownValue w else b := fun w => by
      cases hw : w.isUnset with
      | false =>
        rw [shownField, hw, takeField, if_neg Bool.false_ne_true, Option.elim_some, hmerge,
          Data.shownValue_shownValue]
      | true =>
        obtain rfl := Data.isUnset_iff.1 hw
        show b = if b.isUnset then .unset else b
        split
        · exact Data.isUnset_iff.1 ‹_›
        · rfl
    rw [htake, htake, hmerge, hmerge]
    cases hb : b.isUnset with
    | false => simp [hb]
    | true => cases ha : a.isUnset <;> simp [ha]

/-- The same of a field that the document may not show, and that a source may not name. -/
theorem takeField_shown {v? : Option Data} {a : Data} (b : Data) (hkey : name ∈ keys → v? = none)
    (ha : name ∈ k.arrayFields → a.isUnset = true ∨ ∃ xs, a.items? = some xs) :
    takeField k keys name
        (if name ∈ k.shownFields then shownField (takeField k keys name v? a) else none) b
      = takeField k keys name v?
        (takeField k keys name (if name ∈ k.shownFields then shownField a else none) b) := by
  cases v? with
  | none => rfl
  | some v =>
    have hkey : name ∉ keys := fun h => nomatch hkey h
    by_cases hname : name ∈ k.shownFields
    · rw [if_pos hname, if_pos hname]
      exact takeField_takeField hname hkey ha
    · rw [if_neg hname, if_neg hname]
      have harray : name ∉ k.arrayFields := fun h => hname (k.arrayFields_shown name h)
      show b = mergeField false k keys name v b
      rw [mergeField, if_neg (by simpa using harray), Bool.false_or]
      split
      · rw [told, if_neg hkey, if_neg hname]
        exact Data.isUnset_iff.1 ‹_›
      · rfl

end Fields

/-! ### What items do to members -/

end Tree

/-- What an item does to a list of members. -/
noncomputable def Placement.change (p : Placement) (item : Entries × Entries) : Put Tree where
  test m := m.hasValues item.1
  new := Tree.merge false item.2 ((Tree.fresh p.kind p.keys).putFields item.1)
  change := Tree.merge false item.2

namespace Tree

/-- A member with values by which it is told from others wherever it is shown. -/
structure OrderlyMember (p : Placement) (c : Tree) : Prop where
  isFor : c.IsFor p
  orderly : c.All Orderly
  tells : ∀ key ∈ p.keys, (c.field key).isUnset = false ∧ (c.field key).Telling

/-- A member among which others can be put. -/
structure TameMember (p : Placement) (m : Tree) : Prop where
  isFor : m.IsFor p
  tame : m.All Tame
  regular : ∀ key ∈ p.keys, (m.field key).Regular

section Members

variable {k : Kind} {σ : String} {p : Placement} {c m : Tree}

/-- New members with the same settled values are the same. -/
theorem blank_congr {val val' : String → Data}
    (h : ∀ key ∈ p.keys, (val key).settled = (val' key).settled) : blank p val = blank p val' := by
  refine eq_of rfl rfl rfl (fun name => ?_) fun _ => rfl
  show (if name ∈ p.keys then _ else _) = if name ∈ p.keys then _ else _
  split
  · exact h name ‹_›
  · rfl

/-- The content of a member is an item for the members that agree with it. -/
theorem test_item (hp : k.placement? σ = some p) (hc : OrderlyMember p c) :
    (p.change (c.item p)).test m = true ↔ Agree p m c := by
  have htells := tells_item hp hc.isFor.kind hc.orderly.root.extensions fun key hkey =>
    (hc.tells key hkey).1
  refine (htells.hasValues_iff m).trans ?_
  exact forall₂_congr fun key hkey => by rw [alike_valueOf (hc.tells key hkey).2]

/-- The member made for an item that shows an orderly member. -/
theorem new_item (hp : k.placement? σ = some p) (hc : OrderlyMember p c) :
    (p.change (c.item p)).new = merge false c.shown (blank p c.field) := by
  have hextensions := hc.orderly.root.extensions
  have htells := tells_item hp hc.isFor.kind hextensions fun key hkey => (hc.tells key hkey).1
  have hblank : blank p (p.valueOf c) = blank p c.field :=
    blank_congr fun key hkey => settled_valueOf (hc.tells key hkey).2
  show merge false (c.item p).2 ((fresh p.kind p.keys).putFields (c.item p).1) = _
  rw [htells.putFields_eq, hblank, item_snd]
  refine merge_rest hp (shown_distinct hextensions) rfl fun key hkey => ?_
  rw [field_blank hkey, Data.isUnset_settled]
  exact (hc.tells key hkey).1

/-- What such an item does to a member that is there. -/
theorem change_item (hp : k.placement? σ = some p) (hc : OrderlyMember p c) (hm : m.kind = p.kind)
    (hset : ∀ key ∈ p.keys, (m.field key).isUnset = false) :
    (p.change (c.item p)).change m = merge false c.shown m := by
  show merge false (c.item p).2 m = _
  rw [item_snd]
  exact merge_rest hp (shown_distinct hc.orderly.root.extensions) hm hset

/-- Where a member is put it leaves the fields by which others are told apart. -/
theorem field_change_item (hp : k.placement? σ = some p) (hc : OrderlyMember p c) {key : String}
    (hkey : key ∈ p.keys) : ((p.change (c.item p)).change m).field key = m.field key := by
  refine merge_field_of_absent false ?_
  rw [item_snd]
  have hfield := Kind.keys_subset_fields hp key hkey
  cases p with
  | single k b => exact absurd hkey List.not_mem_nil
  | listed k slot => exact Entries.text?_rest (Kind.keys_subset_fields hp) hkey
  | keyed k key' =>
    rw [List.mem_singleton.1 hkey] at hfield ⊢
    have hkind : c.kind = k := hc.isFor.kind
    show c.shown.text? (wireName key') = none
    rw [text?_shown_field hc.orderly.root.extensions (hkind.symm ▸ hfield), if_neg]
    rw [hkind]
    exact Kind.key_spec hp

/-- A new member has the values of the one that it was made for. -/
theorem field_new_item (hp : k.placement? σ = some p) (hc : OrderlyMember p c) {key : String}
    (hkey : key ∈ p.keys) : (p.change (c.item p)).new.field key = (c.field key).settled := by
  have hset : ∀ key ∈ p.keys, ((blank p c.field).field key).isUnset = false := fun key hkey => by
    rw [field_blank hkey, Data.isUnset_settled]
    exact (hc.tells key hkey).1
  rw [new_item hp hc, ← change_item hp hc rfl hset, field_change_item hp hc hkey, field_blank hkey]

/-- What a member brings as an item is a source. -/
theorem OrderlyMember.source_rest (hp : k.placement? σ = some p) (hc : OrderlyMember p c) :
    (p.rest c.shown).All (Entries.Source Data.Telling) p.kind := by
  have hsource := (hc.orderly.mono fun _ h => h.serves).source_shown
  rw [hc.isFor.kind] at hsource
  cases p with
  | listed k slot => exact hsource.rest_source hp
  | _ => exact hsource

/-- Members stay tame where they keep the fields by which they are told apart. -/
theorem TameMember.merge {fs : Entries} (hm : TameMember p m)
    (hfs : fs.All (Entries.Source Data.Telling) p.kind)
    (hfield : ∀ key ∈ p.keys, (Tree.merge false fs m).field key = m.field key) :
    TameMember p (Tree.merge false fs m) where
  isFor := {
    kind := (merge_kind ..).trans hm.isFor.kind
    keys := (merge_keys ..).trans hm.isFor.keys
    text := fun k key hkey => by
      obtain ⟨r, hr⟩ := hm.isFor.text k key hkey
      refine ⟨r, (hfield key ?_).trans hr⟩
      rw [hkey]
      exact List.mem_singleton_self key }
  tame := All.tame_merge (hm.isFor.kind.symm ▸ hfs) hm.tame
  regular key hkey := by
    rw [hfield key hkey]
    exact hm.regular key hkey

/-- A new member with the values of an orderly one is tame. -/
theorem OrderlyMember.tame_blank (hc : OrderlyMember p c) : TameMember p (blank p c.field) where
  isFor := {
    kind := rfl
    keys := rfl
    text := fun k key hkey => by
      obtain ⟨r, hr⟩ := hc.isFor.text k key hkey
      refine ⟨r, ?_⟩
      rw [field_blank, hr]
      · rfl
      · rw [hkey]
        exact List.mem_singleton_self key }
  tame := .leaf (tame_of_empty rfl) rfl
  regular key hkey := by
    rw [field_blank hkey]
    exact (hc.tells key hkey).2.regular.settled

/-- A tame member stays so under such an item. -/
theorem OrderlyMember.tame_change (hp : k.placement? σ = some p) (hc : OrderlyMember p c)
    (hm : TameMember p m) : TameMember p ((p.change (c.item p)).change m) := by
  have hsource := hc.source_rest hp
  rw [← item_snd] at hsource
  exact hm.merge hsource fun key hkey => field_change_item hp hc hkey

/-- The member made for such an item is tame. -/
theorem OrderlyMember.tame_new (hp : k.placement? σ = some p) (hc : OrderlyMember p c) :
    TameMember p (p.change (c.item p)).new := by
  have hset : ∀ key ∈ p.keys, ((blank p c.field).field key).isUnset = false := fun key hkey => by
    rw [field_blank hkey, Data.isUnset_settled]
    exact (hc.tells key hkey).1
  rw [new_item hp hc, ← change_item hp hc rfl hset]
  exact hc.tame_change hp hc.tame_blank

end Members

/-! ### Items put among members -/

/-- A source merged into a tree before the content of this is merged into another, or after. -/
def Associates (k : Kind) (es : Entries) : Prop :=
  ∀ s x : Tree, s.kind = k → x.kind = k → x.keys = s.keys →
    (∀ name ∈ s.keys, es.text? (wireName name) = none) → s.All Orderly → x.All Tame →
      merge false (merge false es s).shown x = merge false es (merge false s.shown x)

section Items

variable {k : Kind} {σ : String} {p : Placement} {es : Entries} {v : Data} {d : Entries × Entries}

/-- A member stays orderly when an item is merged into it. -/
theorem OrderlyMember.merge {c : Tree} (h : es.Source Data.Telling k) (hp : k.placement? σ = some p)
    (hv : es.text? (wireName σ) = some v) (hd : d ∈ p.items v)
    (hsource : d.2.All (Entries.Source Data.Telling) p.kind) (hc : OrderlyMember p c) :
    OrderlyMember p (Tree.merge false d.2 c) where
  isFor := h.findable.isFor_merge hp hv hd hc.isFor
  orderly := All.orderly_merge (hc.isFor.kind.symm ▸ hsource) hc.orderly
  tells key hkey := by
    rw [h.findable.field_merge hp hv hd hkey]
    exact hc.tells key hkey

/-- The member that an item makes at first. -/
theorem orderlyMember_blank (h : es.Source Data.Telling k) (hp : k.placement? σ = some p)
    (hv : es.text? (wireName σ) = some v) (hd : d ∈ p.items v) {val : String → Data}
    (hblank : (fresh p.kind p.keys).putFields d.1 = blank p val)
    (hval : ∀ key ∈ p.keys, (val key).isUnset = false ∧ (val key).Telling) :
    OrderlyMember p (blank p val) where
  isFor := hblank ▸ h.findable.isFor_new hp hv hd
  orderly := .leaf (orderly_blank hp val) rfl
  tells key hkey := by
    obtain ⟨hset, htelling⟩ := hval key hkey
    rw [field_blank hkey]
    exact ⟨by simpa using hset, htelling.settled⟩

end Items

/-- An item that tells a member by some values, and what it brings for it can be merged before or
    after the content of the member. -/
structure Absorbed (p : Placement) (d : Entries × Entries) (val : String → Data) : Prop where
  tells : p.Tells d val
  set : ∀ key ∈ p.keys, (val key).isUnset = false
  blank : OrderlyMember p (Tree.blank p val)
  member : ∀ c, OrderlyMember p c → OrderlyMember p (Tree.merge false d.2 c)
  field : ∀ t : Tree, ∀ key ∈ p.keys, (Tree.merge false d.2 t).field key = t.field key
  merge : ∀ c m, OrderlyMember p c → TameMember p m →
    Tree.merge false (Tree.merge false d.2 c).shown m
      = Tree.merge false d.2 (Tree.merge false c.shown m)

section Items

variable {k : Kind} {σ : String} {p : Placement} {es : Entries} {v : Data} {d : Entries × Entries}
  {val : String → Data} {c m : Tree}

/-- The items of a source whose own contents can be merged before or after others. -/
theorem exists_absorbed (h : es.Source Data.Telling k) (hp : k.placement? σ = some p)
    (hv : es.text? (wireName σ) = some v) (hd : d ∈ p.items v)
    (hsource : d.2.All (Entries.Source Data.Telling) p.kind) (hd' : Associates p.kind d.2) :
    ∃ val, Absorbed p d val := by
  obtain ⟨val, htells, hblank, hval⟩ := h.new_eq_blank hp hv hd
  refine ⟨val, htells, fun key hkey => (hval key hkey).1, orderlyMember_blank h hp hv hd hblank hval,
    fun c hc => hc.merge h hp hv hd hsource, fun t key hkey => h.findable.field_merge hp hv hd hkey, ?_⟩
  intro c m hc hm
  exact hd' c m hc.isFor.kind hm.isFor.kind (hm.isFor.keys.trans hc.isFor.keys.symm)
    (fun name hname => h.findable.text?_key hp hv hd (hc.isFor.keys ▸ hname)) hc.orderly hm.tame

namespace Absorbed

/-- An item is for the members that agree with its values. -/
theorem test_iff (h : Absorbed p d val) (m : Tree) : (p.change d).test m = true ↔
    ∀ key ∈ p.keys, (m.field key).alike (val key) = true := h.tells.hasValues_iff m

/-- The member made for an item has its values, and then its content. -/
theorem new_eq (h : Absorbed p d val) :
    (p.change d).new = Tree.merge false d.2 (Tree.blank p val) := by
  rw [← h.tells.putFields_eq]
  rfl

/-- What an item tells has values. -/
theorem isUnset_field (h : Absorbed p d val) (hm : (p.change d).test m = true) :
    ∀ key ∈ p.keys, (m.field key).isUnset = false := fun key hkey =>
  Data.isUnset_of_alike ((h.test_iff m).1 hm key hkey) (h.set key hkey)

/-- An item and a member keep what the other one tells. -/
theorem test_change (h : Absorbed p d val) (hp : k.placement? σ = some p) (hc : OrderlyMember p c)
    (a : Tree) : (p.change d).test ((p.change (c.item p)).change a) = (p.change d).test a ∧
      (p.change (c.item p)).test ((p.change d).change a) = (p.change (c.item p)).test a := by
  constructor
  · rw [Bool.eq_iff_iff, h.test_iff, h.test_iff]
    exact forall₂_congr fun key hkey => by rw [field_change_item hp hc hkey]
  · rw [Bool.eq_iff_iff, test_item hp hc, test_item hp hc]
    exact forall₂_congr fun key hkey => by
      rw [show (p.change d).change a = Tree.merge false d.2 a from rfl, h.field a key hkey]

/-- The new member of an item does what the item does. -/
theorem run_new (h : Absorbed p d val) (hp : k.placement? σ = some p) {as : List Tree}
    (has : ∀ a ∈ as, TameMember p a) :
    (p.change ((p.change d).new.item p)).run as = (p.change d).run as := by
  have hc := h.member _ h.blank
  have hvalue : ∀ key ∈ p.keys,
      (Tree.merge false d.2 (Tree.blank p val)).field key = (val key).settled :=
    fun key hkey => (h.field _ key hkey).trans (field_blank hkey)
  rw [h.new_eq]
  refine upsert_congr (fun a _ => ?_) ?_ fun a ha htold => ?_
  · rw [Bool.eq_iff_iff, test_item hp hc, h.test_iff]
    exact forall₂_congr fun key hkey => by rw [hvalue key hkey, Data.alike_settled_right]
  · have hfields : Tree.blank p (Tree.merge false d.2 (Tree.blank p val)).field = Tree.blank p val :=
      blank_congr fun key hkey => by rw [hvalue key hkey, Data.settled_settled]
    have hblanks : Tree.blank p (Tree.blank p val).field = Tree.blank p val :=
      blank_congr fun key hkey => by rw [field_blank hkey, Data.settled_settled]
    have htame : TameMember p (Tree.blank p val) := hblanks ▸ h.blank.tame_blank
    rw [new_item hp hc, hfields, h.merge _ _ h.blank htame,
      merge_shown_blank hp rfl fun key hkey => (h.blank.tells key hkey).1, h.new_eq]
  · have hset := h.isUnset_field htold
    have hkind := (has a ha).isFor.kind
    rw [change_item hp hc hkind hset, h.merge _ _ h.blank (has a ha), merge_shown_blank hp hkind hset]
    rfl

/-- A member does after a change by an item what it does before it, and the item then. -/
theorem run_change (h : Absorbed p d val) (hp : k.placement? σ = some p) (hc : OrderlyMember p c)
    (hcd : (p.change d).test c = true) {as : List Tree} (has : ∀ a ∈ as, TameMember p a) :
    (p.change (((p.change d).change c).item p)).run as
        = (p.change d).run ((p.change (c.item p)).run as) ∧
      ∃ a ∈ (p.change (c.item p)).run as, (p.change d).test a = true := by
  have hcd' : OrderlyMember p ((p.change d).change c) := h.member c hc
  -- What agrees with the member is what the item tells.
  have htest : ∀ a, (p.change (c.item p)).test a = (p.change d).test a := fun a => by
    rw [Bool.eq_iff_iff, test_item hp hc, h.test_iff]
    refine forall₂_congr fun key hkey => ⟨fun hac => ?_, fun had => ?_⟩
    · exact Data.alike_trans hac ((h.test_iff c).1 hcd key hkey)
    · exact Data.alike_trans had
        (Data.alike_symm (hc.tells key hkey).2.regular ((h.test_iff c).1 hcd key hkey))
  have hnew : (p.change d).test (p.change (c.item p)).new = true := (h.test_iff _).2 fun key hkey => by
    rw [field_new_item hp hc hkey, Data.alike_settled]
    exact (h.test_iff c).1 hcd key hkey
  have hchange := fun a => (h.test_change hp hc a).1
  have hfield : ∀ key ∈ p.keys, ((p.change d).change c).field key = c.field key := h.field c
  constructor
  · refine Eq.trans (upsert_congr (fun a _ => ?_) ?_ fun a ha htold => ?_)
      (upsert_upsert (fun a _ => htest a) hnew fun a _ ha => (hchange a).trans ha).symm
    · rw [← htest, Bool.eq_iff_iff, test_item hp hcd', test_item hp hc]
      exact forall₂_congr fun key hkey => by rw [hfield key hkey]
    · have hblank : Tree.blank p ((p.change d).change c).field = Tree.blank p c.field :=
        blank_congr fun key hkey => by rw [hfield key hkey]
      rw [new_item hp hcd', new_item hp hc, hblank]
      exact h.merge c _ hc hc.tame_blank
    · have hset := h.isUnset_field htold
      have hkind := (has a ha).isFor.kind
      rw [change_item hp hcd' hkind hset, change_item hp hc hkind hset]
      exact h.merge c a hc (has a ha)
  · have hrun : (p.change (c.item p)).run as = upsert (p.change d).test _ _ as :=
      upsert_congr (fun a _ => htest a) rfl fun _ _ _ => rfl
    rw [hrun]
    exact exists_upsert_self hnew hchange

/-- An item put among members before their contents are put among others, or after. -/
theorem runAll_items (h : Absorbed p d val) (hp : k.placement? σ = some p) {S X : List Tree}
    (hS : ∀ c ∈ S, OrderlyMember p c) (hapart : S.Pairwise fun c c' => ¬Agree p c c')
    (hX : ∀ m ∈ X, TameMember p m) :
    Put.runAll (((p.change d).run S).map fun c => p.change (c.item p)) X
      = (p.change d).run (Put.runAll (S.map fun c => p.change (c.item p)) X) := by
  refine Put.runAll_map_run (G := TameMember p)
    (fun c hc => ⟨(hS c hc).tame_new hp, fun a ha => (hS c hc).tame_change hp ha⟩)
    (fun c hc => h.test_change hp (hS c hc)) (fun as has => h.run_new hp has)
    (fun c hc hcd as has => h.run_change hp (hS c hc) hcd has) ?_ hX
  refine (List.Pairwise.and_mem.1 hapart).imp ?_
  rintro c c' ⟨hc, hc', hne⟩ hcd a ha had
  rw [Bool.eq_false_iff, ne_eq, test_item hp (hS c' hc')]
  intro hac
  -- Both members would agree with what the item tells.
  refine hne fun key hkey => ?_
  have hda := Data.alike_symm (ha.regular key hkey) ((h.test_iff a).1 had key hkey)
  exact Data.alike_trans ((h.test_iff c).1 hcd key hkey) (Data.alike_trans hda (hac key hkey))

end Absorbed

/-- Members put by the changes they stand for are members put by their items. -/
theorem runAll_change (S X : List Tree) : Put.runAll (S.map fun c => p.change (c.item p)) X
    = (S.map (item p)).foldl (putMember (Tree.merge false) p) X := by
  rw [Put.runAll, List.foldl_map, List.foldl_map]
  rfl

/-- Several items put among members before the contents of these are put among others, or after. -/
theorem foldl_putMember_items (h : es.Source Data.Telling k) (hp : k.placement? σ = some p)
    (hv : es.text? (wireName σ) = some v)
    (hd : ∀ d ∈ p.items v, d.2.All (Entries.Source Data.Telling) p.kind ∧ Associates p.kind d.2)
    {items : List (Entries × Entries)} (hitems : items ⊆ p.items v) {S X : List Tree}
    (hS : ∀ c ∈ S, OrderlyMember p c) (hapart : S.Pairwise fun c c' => ¬Agree p c c')
    (hX : ∀ m ∈ X, TameMember p m) :
    ((items.foldl (putMember (Tree.merge false) p) S).map (item p)).foldl
        (putMember (Tree.merge false) p) X
      = items.foldl (putMember (Tree.merge false) p)
        ((S.map (item p)).foldl (putMember (Tree.merge false) p) X) := by
  induction items generalizing S with
  | nil => rfl
  | cons d items ih =>
    obtain ⟨hmem, hitems⟩ := List.cons_subset.1 hitems
    obtain ⟨hsource, hassoc⟩ := hd d hmem
    obtain ⟨val, habsorbed⟩ := exists_absorbed h hp hv hmem hsource hassoc
    have hnext : ∀ c ∈ (p.change d).run S, OrderlyMember p c := by
      refine forall_upsert hS ?_ habsorbed.member
      rw [habsorbed.new_eq]
      exact habsorbed.member _ habsorbed.blank
    have hone := h.pairwise_putMembers false Data.Telling.str hp hv
      (List.cons_subset.2 ⟨hmem, List.nil_subset _⟩) hapart
    have hrun := habsorbed.runAll_items hp hS hapart hX
    rw [runAll_change, runAll_change] at hrun
    rw [List.foldl_cons, List.foldl_cons]
    exact (ih hitems hnext hone).trans (congrArg (items.foldl (putMember (Tree.merge false) p)) hrun)

end Items

/-! ### Slots -/

section Slots

variable {k : Kind} {σ : String} {p : Placement} {es : Entries} {v : Data} {s x : Slot Tree}

/-- What the content of a slot for a list does to another slot. -/
theorem mergeSlot_shownSlot (hlist : p.isSingle = false) (hs : s.Fits p)
    (hS : ∀ c ∈ s.list, OrderlyMember p c) (hapart : s.list.Pairwise fun c c' => ¬Agree p c c') :
    mergeSlot (Tree.merge false) false p (shownSlot p s) x
      = x.grow ((s.list.map (item p)).foldl (putMember (Tree.merge false) p) x.list) := by
  cases s with
  | empty =>
    rw [shownSlot_empty, mergeSlot_none]
    exact (Slot.grow_list x).symm
  | flag b =>
    obtain ⟨c, rfl⟩ := hs
    exact nomatch hlist
  | child c => exact nomatch hlist.symm.trans hs.1
  | members ts =>
    have hitems : p.items (p.shownMembers ts) = ts.map (item p) := by
      refine items_shownMembers hlist fun c key hkey => ?_
      have hmem : key ∈ p.keys := by
        rw [hkey]
        exact List.mem_singleton_self key
      refine ⟨fun c hc => (hS c hc).isFor.text _ key hkey,
        (List.Pairwise.and_mem.1 hapart).imp ?_⟩
      rintro c c' ⟨hc, -, hne⟩ heq
      obtain ⟨r, hr⟩ := (hS c hc).isFor.text _ key hkey
      refine hne fun other hother => ?_
      rw [hkey] at hother
      rw [List.mem_singleton.1 hother, ← heq, hr]
      exact Data.alike_str_iff.2 rfl
    rw [shownSlot_members, mergeSlot_list hlist, hitems]
    rfl

/-- A value merged into a slot for a list before its content is merged into another, or after. -/
theorem mergeSlot_mergeSlot_list (h : es.Source Data.Telling k) (hp : k.placement? σ = some p)
    (hlist : p.isSingle = false) (hv : es.text? (wireName σ) = some v)
    (hd : ∀ d ∈ p.items v, d.2.All (Entries.Source Data.Telling) p.kind ∧ Associates p.kind d.2)
    (hs : s.Fits p) (hs' : (mergeSlot (Tree.merge false) false p (some v) s).Fits p)
    (hS : ∀ c ∈ s.list, OrderlyMember p c)
    (hS' : ∀ c ∈ (mergeSlot (Tree.merge false) false p (some v) s).list, OrderlyMember p c)
    (hapart : s.list.Pairwise fun c c' => ¬Agree p c c')
    (hX : ∀ m ∈ x.list, TameMember p m) :
    mergeSlot (Tree.merge false) false p
        (shownSlot p (mergeSlot (Tree.merge false) false p (some v) s)) x
      = mergeSlot (Tree.merge false) false p (some v)
        (mergeSlot (Tree.merge false) false p (shownSlot p s) x) := by
  have hmembers : (mergeSlot (Tree.merge false) false p (some v) s).list
      = (p.items v).foldl (putMember (Tree.merge false) p) s.list := by
    rw [mergeSlot_list hlist, Slot.list_grow foldl_putMember_eq_nil]
  have hapart' := h.pairwise_putMembers false Data.Telling.str hp hv (List.Subset.refl _) hapart
  rw [← hmembers] at hapart'
  rw [mergeSlot_shownSlot hlist hs' hS' hapart', mergeSlot_shownSlot hlist hs hS hapart, hmembers,
    foldl_putMember_items h hp hv hd (List.Subset.refl _) hS hapart hX, mergeSlot_list hlist,
    Slot.list_grow foldl_putMember_eq_nil, grow_grow _ foldl_putMember_eq_nil]

/-- A new child takes nothing from another new one. -/
theorem merge_shown_fresh {c : Kind} {b : Bool} (hp : k.placement? σ = some (.single c b)) {m : Tree}
    (hm : m.kind = c) : Tree.merge false (fresh c []).shown m = m := by
  have hblank : blank (.single c b) (fun _ => .unset) = fresh c [] :=
    eq_of rfl rfl rfl (fun name => ite_self (c := name ∈ []) Data.unset) fun _ => rfl
  rw [← hblank]
  exact merge_shown_blank hp hm fun _ h => absurd h List.not_mem_nil

/-- A value merged into a slot for one child before its content is merged into another, or after. -/
theorem mergeSlot_mergeSlot_single {c : Kind} {b : Bool} (hp : k.placement? σ = some (.single c b))
    (hv : ∀ fs mark, v = .map fs mark → Associates c fs) (hs : s.Fits (.single c b))
    (hx : x.Fits (.single c b)) (hS : ∀ u ∈ s.trees, u.All Orderly) (hX : ∀ m ∈ x.trees, m.All Tame) :
    mergeSlot (Tree.merge false) false (.single c b)
        (shownSlot (.single c b) (mergeSlot (Tree.merge false) false (.single c b) (some v) s)) x
      = mergeSlot (Tree.merge false) false (.single c b) (some v)
        (mergeSlot (Tree.merge false) false (.single c b) (shownSlot (.single c b) s) x) := by
  cases v with
  | map fs mark =>
    have hS' := childOr_spec (Q := fun u => u.kind = c ∧ u.keys = [] ∧ u.All Orderly) (s := s)
      (fun u hu => ⟨(hs.isFor u hu).kind, (hs.isFor u hu).keys, hS u hu⟩)
      ⟨rfl, rfl, .leaf (orderly_of_empty rfl rfl fun _ _ => rfl) rfl⟩
    have hX' := childOr_spec (Q := fun u => u.kind = c ∧ u.keys = [] ∧ u.All Tame) (s := x)
      (fun u hu => ⟨(hx.isFor u hu).kind, (hx.isFor u hu).keys, hX u hu⟩)
      ⟨rfl, rfl, .leaf (tame_of_empty rfl) rfl⟩
    -- The child of the other slot has taken what there was of a child.
    have hchild : (mergeSlot (Tree.merge false) false (.single c b) (shownSlot (.single c b) s)
        x).childOr (fresh c [])
          = Tree.merge false (s.childOr (fresh c [])).shown (x.childOr (fresh c [])) := by
      cases s with
      | child u =>
        rw [shownSlot_child]
        rfl
      | members ts => exact nomatch hs.1
      | empty =>
        rw [shownSlot_empty, mergeSlot_none]
        exact (merge_shown_fresh hp hX'.1).symm
      | flag y =>
        rw [shownSlot_flag]
        refine Eq.trans ?_ (merge_shown_fresh hp hX'.1).symm
        show (if b && (false || x.isEmpty) then Slot.flag y else x).childOr _ = _
        split
        · rename_i hempty
          cases x with
          | empty => rfl
          | _ => simp [Slot.isEmpty] at hempty
        · rfl
    have hassoc := hv fs mark rfl _ _ hS'.1 hX'.1 (hX'.2.1.trans hS'.2.1.symm)
      (by simp [hS'.2.1]) hS'.2.2 hX'.2.2
    show mergeSlot _ _ _ (shownSlot _ (.child _)) x = Slot.child (Tree.merge false fs _)
    rw [hchild, ← hassoc, shownSlot_child]
    rfl
  | scalar y =>
    cases y with
    | bool y =>
      -- A truth value counts where there is nothing yet.
      have hflag : ∀ z : Bool, ∀ u : Slot Tree,
          mergeSlot (Tree.merge false) false (.single c b) (some (.bool z)) u
            = if b && u.isEmpty then .flag z else u := fun z u => by
        rw [← Bool.false_or u.isEmpty]
        rfl
      rw [hflag, hflag]
      cases b with
      | false => rfl
      | true =>
        cases s with
        | members ts => exact nomatch hs.1
        | child u =>
          rw [shownSlot_child]
          rfl
        | flag z =>
          rw [show (if true && (Slot.flag z : Slot Tree).isEmpty then Slot.flag y else .flag z) = Slot.flag z
            from rfl, shownSlot_flag, hflag]
          cases x <;> rfl
        | empty =>
          rw [show (if true && (Slot.empty : Slot Tree).isEmpty then Slot.flag y else .empty) = Slot.flag y
            from rfl, shownSlot_flag, shownSlot_empty, mergeSlot_none, hflag]
    | _ => rfl
  | _ => rfl

end Slots

/-! ### All levels -/

/-- What stands in a slot, when a source is merged into a tree first or last. -/
theorem slot_merge_merge {es : Entries} {s x : Tree} {σ : String} {p : Placement} {v : Data}
    (own : es.Source Data.Telling s.kind)
    (hsingle : ∀ c b fs mark, p = .single c b → v = .map fs mark → Associates c fs)
    (hmembers : ∀ d ∈ p.items v, d.2.All (Entries.Source Data.Telling) p.kind ∧ Associates p.kind d.2)
    (hs : s.All Orderly) (hu : (merge false es s).All Orderly) (hx : x.All Tame)
    (hxk : x.kind = s.kind) (hp : s.kind.placement? σ = some p)
    (hv : es.text? (wireName σ) = some v) :
    mergeSlot (merge false) false p (shownSlot p ((merge false es s).slot σ)) (x.slot σ)
      = mergeSlot (merge false) false p (some v)
        (mergeSlot (merge false) false p (shownSlot p (s.slot σ)) (x.slot σ)) := by
  have hup : (merge false es s).kind.placement? σ = some p := (merge_kind ..).symm ▸ hp
  have hxp : x.kind.placement? σ = some p := hxk.symm ▸ hp
  have hslot := merge_slot es s false hp
  rw [hv] at hslot
  have hfits := hs.root.typed σ p hp
  have hxfits := hx.root.typed σ p hxp
  cases hlist : p.isSingle with
  | true =>
    cases p with
    | single c b =>
      rw [hslot]
      exact mergeSlot_mergeSlot_single hp (fun fs mark => hsingle c b fs mark rfl) hfits hxfits
        (fun u hu => hs.child hu) fun m hm => hx.child hm
    | _ => exact nomatch hlist
  | false =>
    have hmember : ∀ {t : Tree}, t.All Orderly → t.kind.placement? σ = some p →
        ∀ c ∈ (t.slot σ).list, OrderlyMember p c := fun {t} ht htp c hc =>
      have hmem := Slot.list_subset _ hc
      ⟨(ht.root.typed σ p htp).isFor c hmem, ht.child hmem, ht.root.tells σ p htp c hmem⟩
    have hX : ∀ m ∈ (x.slot σ).list, TameMember p m := fun m hm =>
      have hmem := Slot.list_subset _ hm
      ⟨hxfits.isFor m hmem, hx.child hmem, hx.root.regular σ p hxp m hmem⟩
    have hS' := hmember hu hup
    have hs' := hu.root.typed σ p hup
    rw [hslot] at hS' hs' ⊢
    exact mergeSlot_mergeSlot_list own hp hlist hv hmembers hfits hs' (hmember hs hp) hS'
      ((hs.root.apart σ p hp).sublist (Slot.list_sublist _)) hX

/-- A source merged into a tree before the content of this is merged into another, or after. -/
theorem associates {k : Kind} {es : Entries} (hes : es.All (Entries.Source Data.Telling) k) :
    Associates k es := by
  induction hes with
  | @mk k es own single members ihs ihm =>
    rintro s x rfl hxk hkeys habsent hs hx
    have hes := Entries.All.mk own single members
    have hu : (merge false es s).All Orderly := hs.orderly_merge hes
    have hsx := hs.root.extensions
    have hux := hu.root.extensions
    have hdistinct := shown_distinct hux
    have hukind : (merge false es s).kind = s.kind := merge_kind ..
    have hmkind : (merge false s.shown x).kind = s.kind := (merge_kind ..).trans hxk
    have hmkeys : (merge false s.shown x).keys = x.keys := merge_keys ..
    refine eq_of ?_ ?_ ?_ (fun name => ?_) fun σ => ?_
    -- Kind, keys and extensions, then the fields, then the slots by the induction hypothesis.
    · rw [merge_kind, merge_kind, merge_kind]
    · rw [merge_keys, merge_keys, merge_keys]
    · rw [merge_extensions, merge_extensions, merge_extensions, filter_isExtension_shown hux,
        filter_isExtension_shown hsx, merge_extensions]
      exact foldl_extend_foldl (fun e he => own.distinct.1 e (List.mem_filter.1 he).1)
        fun f hf => hsx.1.1 f hf
    · by_cases hname : name ∈ s.kind.fields
      · rw [merge_field_eq_takeField hdistinct (hxk.symm ▸ hname),
          merge_field_eq_takeField own.distinct (hmkind.symm ▸ hname),
          merge_field_eq_takeField (shown_distinct hsx) (hxk.symm ▸ hname), hmkind, hmkeys, hxk,
          text?_shown_field hux (hukind.symm ▸ hname), text?_shown_field hsx hname, hukind, hkeys,
          merge_field_eq_takeField own.distinct hname]
        exact takeField_shown _ (habsent name) (hs.root.arrays name)
      · rw [merge_field_of_notMem _ (hxk.symm ▸ hname), merge_field_of_notMem _ (hmkind.symm ▸ hname),
          merge_field_of_notMem _ (hxk.symm ▸ hname)]
    · cases hp : s.kind.placement? σ with
      | none =>
        rw [merge_slot_of_none _ _ _ (hxk.symm ▸ hp), merge_slot_of_none _ _ _ (hmkind.symm ▸ hp),
          merge_slot_of_none _ _ _ (hxk.symm ▸ hp)]
      | some p =>
        have hup : (merge false es s).kind.placement? σ = some p := hukind.symm ▸ hp
        rw [merge_slot _ _ _ (hxk.symm ▸ hp), merge_slot _ _ _ (hmkind.symm ▸ hp),
          merge_slot _ _ _ (hxk.symm ▸ hp), text?_shown_slot hux hup, text?_shown_slot hsx hp]
        -- A slot that the source leaves out is the same on both sides.
        cases hv : es.text? (wireName σ) with
        | none =>
          rw [merge_slot _ _ _ hp, hv, mergeSlot_none, mergeSlot_none]
        | some v =>
          exact slot_merge_merge own (fun c b fs mark hpc hvm => ihs σ c b fs mark (hpc ▸ hp) (hvm ▸ hv))
            (fun d hd => ⟨members σ p v d hp hv hd, ihm σ p v d hp hv hd⟩) hs hu hx hxk hp hv

end Tree

/-! ### Nodes -/

namespace Edit

/-- Two orders of merges that succeed: a mapping into a node and this into another, which leaves the
    first draft, and the node into the other and the mapping then, which leaves the second. -/
structure BothOrders (o : MergeOptions) (es : Entries) (i j : NodeId) (d d₁ d₂ : Draft) : Prop where
  first : ∃ d', merge o (.map es 0) j d = .ok () d' ∧ merge o (.node j) i d' = .ok () d₁
  last : ∃ d', merge o (.node j) i d = .ok () d' ∧ merge o (.map es 0) i d' = .ok () d₂

/-- A mapping merged into a node before this is merged into another, or after: the content of the
    other is the same. -/
theorem merge_assoc {o : MergeOptions} {es : Entries} {i j : NodeId} {d d₁ d₂ : Draft} {t s : Tree}
    {A B : Finset NodeId} (ho : o.policy = .error) (hov : o.overwrite = false)
    (ht : d.forest.Holds t i A) (hs : d.forest.Holds s j B) (hAB : Disjoint A B)
    (hkind : t.kind = s.kind) (htkeys : t.keys = []) (hskeys : s.keys = [])
    (htame : t.All Tree.Tame) (horderly : s.All Tree.Orderly)
    (hes : es.All (Entries.Source Data.Telling) s.kind) (h : BothOrders o es i j d d₁ d₂) :
    ∃ fs, d₁.forest.content i = .ok fs ∧ d₂.forest.content i = .ok fs := by
  obtain ⟨ov, policy⟩ := o
  obtain rfl : policy = .error := ho
  obtain rfl : ov = false := hov
  obtain ⟨⟨d', hfirst, hfirst'⟩, d'', hlast, hlast'⟩ := h
  have httyped : t.All Tree.Typed := htame.mono fun _ h => h.typed
  have hserves : s.All (Tree.Serves Data.Telling) := horderly.mono fun _ h => h.serves
  have hstyped : s.All Tree.Typed := hserves.mono fun _ h => h.typed
  have hsource := hserves.source_shown.findable
  -- The mapping first, and then the node that it was merged into.
  have hone := (Meets.mergeMap hes.findable hs hstyped 0).of_ok hfirst
  have horderly' : (Tree.merge false es s).All Tree.Orderly := horderly.orderly_merge hes
  have hserves' : (Tree.merge false es s).All (Tree.Serves Data.Telling) :=
    horderly'.mono fun _ h => h.serves
  have hsource' := hserves'.source_shown.findable
  rw [Tree.merge_kind, ← hkind] at hsource'
  have htwo := (Meets.mergeNode hone.holds (hserves'.mono fun _ h => h.typed) hsource'
    (ht.grows hone.grows hAB) httyped).of_ok hfirst'
  -- The node first, and then the mapping.
  have hthree := (Meets.mergeNode hs hstyped (hkind.symm ▸ hsource) ht httyped).of_ok hlast
  have hkind' : (Tree.merge false s.shown t).kind = s.kind := (Tree.merge_kind ..).trans hkind
  have htyped' : (Tree.merge false s.shown t).All Tree.Typed :=
    httyped.typed_merge (hkind.symm ▸ hsource)
  have hfour := (Meets.mergeMap (hkind'.symm ▸ hes.findable) hthree.holds htyped' 0).of_ok hlast'
  refine ⟨_, htwo.holds.content_eq (httyped.typed_merge hsource'), ?_⟩
  rw [hfour.holds.content_eq (htyped'.typed_merge (hkind'.symm ▸ hes.findable))]
  have hassoc := Tree.associates hes s t rfl hkind (htkeys.trans hskeys.symm)
    (fun name hname => by rw [hskeys] at hname; exact absurd hname List.not_mem_nil) horderly htame
  rw [hassoc]

/-- Both orders, where a check of what they leave succeeds. -/
theorem exists_bothOrders (check : Draft → Draft → Bool) {o : MergeOptions} {es : Entries}
    {i j : NodeId} {d : Draft}
    (h : Results.endsIn (do merge o (.map es 0) j; merge o (.node j) i) (fun d₁ =>
      Results.endsIn (do merge o (.node j) i; merge o (.map es 0) i) (check d₁) d) d = true) :
    ∃ d₁ d₂, BothOrders o es i j d d₁ d₂ ∧ check d₁ d₂ = true := by
  obtain ⟨d₁, hfirst, h⟩ := Results.exists_of_endsIn h
  obtain ⟨d₂, hlast, hcheck⟩ := Results.exists_of_endsIn h
  obtain ⟨_, d', hone, htwo⟩ := Results.bind_eq_ok.1 hfirst
  obtain ⟨_, d'', hthree, hfour⟩ := Results.bind_eq_ok.1 hlast
  exact ⟨d₁, d₂, ⟨⟨d', hone, htwo⟩, d'', hthree, hfour⟩, hcheck⟩

/-- Two documents with a server each, and one more for both of them. -/
theorem merge_assoc_servers : ∃ d' d d₁ d₂ fs,
    merge {} (.map (oneServer "/a" "First") 0) 0 twoDocuments = .ok () d' ∧
    merge {} (.map (oneServer "/b" "Second") 0) 1 d' = .ok () d ∧
    BothOrders {} (oneServer "/a" "Third") 0 1 d d₁ d₂ ∧
      d₁.forest.content 0 = .ok fs ∧ d₂.forest.content 0 = .ok fs := by
  have hempty : (Tree.fresh .openApi []).All Tree.Orderly :=
    .leaf (Tree.orderly_of_empty rfl rfl fun _ _ => rfl) rfl
  have htyped := hempty.mono fun _ h => h.typed
  have hsource := fun url => source_oneServer url
  have h : Results.endsIn (merge {} (.map (oneServer "/a" "First") 0) 0) (fun d' =>
      Results.endsIn (merge {} (.map (oneServer "/b" "Second") 0) 1) (fun d =>
        Results.endsIn (do merge {} (.map (oneServer "/a" "Third") 0) 1; merge {} (.node 1) 0)
          (fun _ => Results.endsIn (do
            merge {} (.node 1) 0; merge {} (.map (oneServer "/a" "Third") 0) 0) (fun _ => true) d)
          d) d') twoDocuments = true := by
    decide +kernel
  obtain ⟨d', hd', h⟩ := Results.exists_of_endsIn h
  obtain ⟨d, hd, h⟩ := Results.exists_of_endsIn h
  obtain ⟨d₁, d₂, hboth, -⟩ := exists_bothOrders (fun _ _ => true) h
  -- The documents as they are before the two orders of merges.
  have hone := (Meets.mergeMap (hsource "/a" "First").findable (holds_twoDocuments (by decide)) htyped
    0).of_ok hd'
  have htwo := (Meets.mergeMap (hsource "/b" "Second").findable ((holds_twoDocuments (by decide)).grows
    hone.grows (by decide)) htyped 0).of_ok hd
  have hsize : 2 ≤ d'.forest.size := hone.grows.size_le
  have hbound := hone.holds.bound
  have hapart : Disjoint ({0} ∪ Forest.newIds twoDocuments.forest d'.forest)
      ({1} ∪ Forest.newIds d'.forest d.forest) := by
    refine Finset.disjoint_left.2 fun (k : Nat) hk hk' => ?_
    have hlt : k < d'.forest.size := hbound k hk
    simp only [Finset.mem_union, Finset.mem_singleton, Forest.mem_newIds] at hk hk'
    have hk : k = 0 ∨ 2 ≤ k := hk.imp id And.left
    have hk' : k = 1 ∨ d'.forest.size ≤ k := hk'.imp id And.left
    omega
  have hfirst := hone.holds.grows htwo.grows (Finset.disjoint_union_right.1 hapart).1
  obtain ⟨fs, hfs, hfs'⟩ := merge_assoc rfl rfl hfirst htwo.holds hapart
    ((Tree.merge_kind ..).trans (Tree.merge_kind ..).symm) (Tree.merge_keys ..) (Tree.merge_keys ..)
    ((hempty.orderly_merge (hsource "/a" "First")).mono fun _ h => h.tame)
    (hempty.orderly_merge (hsource "/b" "Second"))
    (by rw [Tree.merge_kind]; exact hsource "/a" "Third") hboth
  exact ⟨d', d, d₁, d₂, fs, hd', hd, hboth, hfs, hfs'⟩

/-- Two orders of merges into the first of two nodes that succeed and leave different contents. -/
def OrdersDiffer (es : Entries) (nodes : Array Node) : Prop :=
  ∃ d₁ d₂, BothOrders {} es 0 1 { forest := ⟨nodes⟩ } d₁ d₂ ∧
    contentsDiffer (d₁.forest.content 0) (d₂.forest.content 0) = true

/-- Values that show as the same, nodes in the place of content, extensions under the keys of slots,
    members under the same key and trees that share nodes: for each of these it makes a difference
    when a mapping is merged. -/
theorem merge_not_assoc :
    -- An item is told by a tuple where the other node has a member with the list.
    OrdersDiffer
      [(.str "servers", .ofList [.ofEntries [(.str "url", .ofTuple [.int 1, .int 2])]])]
      #[{ kind := .openApi, values := [("servers", .ofList [.node 2])] },
        { kind := .openApi },
        { kind := .server, parent := .node 0, values := [("url", .ofList [.int 1, .int 2])] }] ∧
    -- A member is told by a tuple where another is told by the list.
    OrdersDiffer
      [(.str "servers", .ofList [.ofEntries [(.str "url", .ofList [.int 1, .int 2]),
        (.str "description", .str "b")]])]
      #[{ kind := .openApi },
        { kind := .openApi, values := [("servers", .ofList [.node 2, .node 3])] },
        { kind := .server, parent := .node 1, values := [("url", .ofList [.int 1, .int 2])] },
        { kind := .server, parent := .node 1, values := [("url", .ofTuple [.int 1, .int 2]),
          ("description", .str "a")] }] ∧
    -- A node stands in the mapping, and takes something from the first merge.
    OrdersDiffer
      [(.str "tags", .ofList [.ofEntries [(.str "name", .str "a"), (.str "externalDocs", .node 2)]])]
      #[{ kind := .openApi, values := [("external_docs", .node 2)] },
        { kind := .openApi, values := [("external_docs", .node 3)] },
        { kind := .externalDocumentation, parent := .node 0, values := [("url", .str "/")] },
        { kind := .externalDocumentation, parent := .node 1,
          values := [("description", .str "b")] }] ∧
    -- An extension takes the place of a child.
    OrdersDiffer
      [(.str "info", .ofEntries [(.str "version", .str "1")])]
      #[{ kind := .openApi },
        { kind := .openApi,
          extensions := .ofEntries [(.str "info", .ofEntries [(.str "title", .str "a")])] }] ∧
    -- Of two members under a key the first one is found, and the last one shown.
    OrdersDiffer
      [(.str "paths", .ofEntries [(.str "/", .ofEntries [(.str "summary", .str "a")])])]
      #[{ kind := .openApi },
        { kind := .openApi, values := [("paths", .ofList [.node 2, .node 3])] },
        { kind := .pathItem, parent := .node 1, values := [("path", .str "/")] },
        { kind := .pathItem, parent := .node 1, values := [("path", .str "/")] }] ∧
    -- One node stands below the other.
    OrdersDiffer
      [(.str "title", .str "a")]
      #[{ kind := .property, values := [("properties", .ofList [.node 1])] },
        { kind := .property, parent := .node 0, values := [("property", .str "b")] }] := by
  refine .imp (exists_bothOrders _) (.imp (exists_bothOrders _) (.imp (exists_bothOrders _)
    (.imp (exists_bothOrders _) (.imp (exists_bothOrders _) (exists_bothOrders _))))) ?_
  decide +kernel

end Edit

end ApiDoc
