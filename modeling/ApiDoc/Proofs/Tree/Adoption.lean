import ApiDoc.Proofs.Tree.Copy

namespace ApiDoc

/-!
# What an overwriting merge adopts

What a merge that overwrites makes of a tree, told from what the document shows of it before and
after:

* `Entries.Adopted` — what stands under a key that is no slot's;
* `Placement.Adopts`, `Entries.Adopts` — what stands in a slot, and all of that to any depth;
* `Entries.Adoptable`, `Tree.Kept` — the sources and trees for which this is so;
* `Tree.adopted_merge`, `Tree.adopts_keyed`, `Tree.adopts_listed` — one key and one slot;
* `Tree.adopts_merge` — a whole source.
-/

/-! ### Contents before and after -/

namespace Data

/-- The content in a value that may be there. -/
def contentIn (v? : Option Data) : Entries := (v?.getD .unset).within

/-- The items in a value that may be there. -/
def itemsIn (v? : Option Data) : List Data := (v?.bind Data.items?).getD []

/-- A list with more items, each where it is seen first. -/
inductive FirstSeen : (old more union : List Data) → Prop
  | nil (xs : List Data) : FirstSeen xs [] xs
  | seen {xs ys zs : List Data} {y : Data} (h : y.among xs = true) (hrest : FirstSeen xs ys zs) :
      FirstSeen xs (y :: ys) zs
  | new {xs ys zs : List Data} {y : Data} (h : y.among xs = false)
      (hrest : FirstSeen (xs ++ [y]) ys zs) : FirstSeen xs (y :: ys) zs

/-- United items are those of both lists as they are first seen. -/
theorem firstSeen_unionItems (xs ys : List Data) : FirstSeen xs ys (Merge.unionItems xs ys) := by
  induction ys generalizing xs with
  | nil => exact .nil xs
  | cons y ys ih =>
    show FirstSeen xs (y :: ys) (Merge.unionItems (if y.among xs then xs else xs ++ [y]) ys)
    cases hy : y.among xs with
    | true => exact .seen hy (ih xs)
    | false => exact .new hy (ih (xs ++ [y]))

end Data

open Data

/-- What becomes of what stands under a key that is no slot's, by what a source has under it. -/
inductive Entries.Adopted (k : Kind) (s : String) (before : Option Data) :
    (source after : Option Data) → Prop
  | absent : Adopted k s before none before
  | extension (hx : s.startsWith "x-" = true) (v : Data) : Adopted k s before (some v) (some v)
  | field {name : String} (hname : k.fieldOfWire? s = some name) (hscalar : name ∉ k.arrayFields)
      (v : Data) : Adopted k s before (some v) (Tree.shownField v)
  | grown {name : String} (hname : k.fieldOfWire? s = some name) (harray : name ∈ k.arrayFields)
      (v : Data) {zs : List Data} (h : FirstSeen (itemsIn before) (Merge.supplied v) zs) :
      Adopted k s before (some v) (some (.ofList zs))

/-- Contents that agree in the fields by which a collection tells its members apart, as the document
    shows them. -/
def CollectionSlot.Agrees (slot : CollectionSlot) (source shown : Entries) : Prop :=
  ∀ name ∈ slot.identifying, ∃ v w, source.text? (wireName name) = some v ∧
    shown.text? (wireName name) = some w ∧ w.alike (Forest.shownValue v) = true

section

variable (R : Kind → Entries → Entries → Entries → Prop)

/-- The place of an item of a source among the members of a collection: at a member that agrees
    with it and adopts the rest, or at a new one that adopts the whole item. An item that is told by
    sequences may be told from a member that is shown like it, since tuples are shown as lists. -/
inductive CollectionSlot.Lands (k : Kind) (slot : CollectionSlot) (before after : List Data) :
    Data → Nat → Prop
  | found {gs es hs : Entries} {n : Nat} (mark mark' : Nat)
      (hold : before[n]? = some (.map es mark')) (hagrees : slot.Agrees gs es)
      (hnew : after[n]? = some (.ofEntries hs))
      (h : R k (gs.rest k slot) es hs) : Lands k slot before after (.map gs mark) n
  | added {gs hs : Entries} {n : Nat} (mark : Nat) (hold : before[n]? = none)
      (hnone : (∀ name ∈ slot.identifying, ∀ v, gs.text? (wireName name) = some v →
        v.items? = none) → ∀ es mark', .map es mark' ∈ before → ¬slot.Agrees gs es)
      (hnew : after[n]? = some (.ofEntries hs)) (h : R k gs [] hs) :
      Lands k slot before after (.map gs mark) n

/-- What becomes of what stands in a slot, by what a source has for it and what becomes of the
    contents of children. -/
inductive Placement.Adopts (before : Option Data) :
    Placement → (source after : Option Data) → Prop
  | absent {p : Placement} : Adopts before p none before
  | flag {k : Kind} (b : Bool) : Adopts before (.single k true) (some (.bool b)) (some (.bool b))
  | child {k : Kind} {b : Bool} {fs gs : Entries} (mark : Nat) (h : R k fs (contentIn before) gs) :
      Adopts before (.single k b) (some (.map fs mark)) (some (.ofEntries gs))
  | keyed {k : Kind} {key : String} {fs : Entries} {after : Option Data} (mark : Nat)
      (empty : fs = [] → after = before)
      (others : ∀ s, fs.text? s = none →
        (contentIn after).text? s = (contentIn before).text? s)
      (members : ∀ s v, fs.text? s = some v → ∃ (gs hs : Entries) (mark : Nat), v = .map gs mark ∧
        (contentIn after).text? s = some (.ofEntries hs) ∧
          R k gs (contentIn ((contentIn before).text? s)) hs) :
      Adopts before (.keyed k key) (some (.map fs mark)) after
  | listed {k : Kind} {slot : CollectionSlot} {v : Data} {xs : List Data} {after : Option Data}
      (hv : v.items? = some xs) (empty : xs = [] → after = before)
      (others : ∀ n, (itemsIn after)[n]? = (itemsIn before)[n]? ∨
        ∃ x ∈ xs, slot.Lands R k (itemsIn before) (itemsIn after) x n)
      (members : ∀ x ∈ xs, ∃ n, slot.Lands R k (itemsIn before) (itemsIn after) x n) :
      Adopts before (.listed k slot) (some v) after

end

/-- A content that adopts a source, down to some depth, and keeps everything else of what was there
    before. -/
def Entries.Adopts : (depth : Nat) → Kind → (source before after : Entries) → Prop
  | 0, _, _, _, _ => True
  | depth + 1, k, source, before, after =>
    (∀ s, (∀ σ ∈ k.slots, s ≠ wireName σ) →
      Adopted k s (before.text? s) (source.text? s) (after.text? s)) ∧
    ∀ σ p, k.placement? σ = some p → p.Adopts (Adopts depth) (before.text? (wireName σ))
      (source.text? (wireName σ)) (after.text? (wireName σ))

/-! ### Sources and trees -/

/-- Values by which a slot tells its members apart, and by which it tells two members. -/
def Placement.Differ (p : Placement) (a b : Entries) : Prop :=
  ∃ key ∈ p.keys, ∀ v w, a.text? key = some v → b.text? key = some w → v.alike w = false

/-- A source that names no internal field, and whose items for a collection differ in the fields by
    which they are told apart. -/
structure Entries.Adoptable (k : Kind) (es : Entries) : Prop
    extends es.Source (fun _ => True) k where
  internal : ∀ name ∈ k.internalFields, es.text? (wireName name) = none
  apart : ∀ σ c slot v, k.placement? σ = some (.listed c slot) → es.text? (wireName σ) = some v →
    (Placement.items (.listed c slot) v).Pairwise fun a b =>
      Placement.Differ (.listed c slot) a.1 b.1

namespace Tree

/-- A tree with extensions that are ones, and with keys of members that differ. -/
structure Kept (t : Tree) : Prop extends t.Tame where
  extensions : t.extensions.AreExtensions
  keysApart : ∀ σ k key, t.kind.placement? σ = some (.keyed k key) →
    (t.slot σ).trees.Pairwise fun c d => c.field key ≠ d.field key

/-! ### Keys that are no slot's -/

variable {t : Tree} {es : Entries} {s : String}

/-- Extensions that a source overwrites. -/
theorem text?_foldl_extend {fs : Entries} (hfs : fs.Distinct) (es : Entries) :
    (fs.foldl (extend true) es).text? s = (fs.text? s).or (es.text? s) := by
  induction fs generalizing es with
  | nil => rfl
  | cons f fs ih =>
    obtain ⟨⟨key, hkey⟩, -⟩ := List.forall_mem_cons.1 hfs.1
    obtain ⟨k, v⟩ := f
    dsimp only at hkey
    subst hkey
    have hextend : extend true es (.str key, v) = es.insert (.str key) v := if_pos rfl
    rw [List.foldl_cons, hextend, ih hfs.tail, Entries.text?_insert]
    by_cases hs : s = key
    · subst hs
      have hnone : Entries.text? fs s = none := Entries.text?_eq_none_iff.2 fun e he =>
        ((List.pairwise_cons.1 hfs.2).1 e he).symm
      rw [if_pos rfl, hnone, Entries.text?_cons_self]
      rfl
    · rw [if_neg hs, Entries.text?_cons_of_ne (by simpa using Ne.symm hs)]

/-- An extension is shown under its key. -/
theorem text?_shown_extension (h : t.extensions.AreExtensions) (hx : s.startsWith "x-" = true) :
    t.shown.text? s = t.extensions.text? s := by
  have hown : t.own.text? s = none := by
    refine Entries.text?_eq_none_iff.2 fun e he hs => ?_
    obtain ⟨name, hname, hwire, -⟩ := mem_own he
    obtain rfl : wireName name = s := by simpa [hwire] using hs
    rw [Kind.startsWith_wireName (Kind.mem_attributes_of_shown hname)] at hx
    cases hx
  rw [shown_eq_append h, Entries.text?_append, hown, Option.none_or]

/-- Nothing is shown under a text that is the spelling of no name. -/
theorem text?_shown_of_ne (h : t.extensions.AreExtensions) (hx : ¬s.startsWith "x-" = true)
    (hs : ∀ name ∈ t.kind.shownNames, wireName name ≠ s) : t.shown.text? s = none := by
  refine Entries.text?_eq_none_iff.2 fun e he hkey => ?_
  rw [shown_eq_append h] at he
  rcases List.mem_append.1 he with he | he
  · obtain ⟨name, hname, hwire, -⟩ := mem_own he
    exact hs name hname (by simpa [hwire] using hkey)
  · exact hx (h.2 e he s hkey)

/-- Extensions stay extensions in a merge. -/
theorem areExtensions_merge (h : t.extensions.AreExtensions) (ov : Bool) (es : Entries) :
    (merge ov es t).extensions.AreExtensions := by
  rw [merge_extensions]
  exact h.foldl_extend fun f hf => (List.mem_filter.1 hf).2

/-- The items shown of a field are those of its value. -/
theorem itemsIn_shownField (v : Data) : itemsIn (shownField v) = v.items?.getD [] := by
  cases v <;> rfl

/-- Extensions of a source take the place of those that are there. -/
theorem adopted_extension (hes : es.Distinct) (ht : t.extensions.AreExtensions)
    (hx : s.startsWith "x-" = true) :
    Entries.Adopted t.kind s (t.shown.text? s) (es.text? s) ((merge true es t).shown.text? s) := by
  rw [text?_shown_extension ht hx, text?_shown_extension (areExtensions_merge ht true es) hx,
    merge_extensions, text?_foldl_extend (hes.filter _), Entries.text?_filter (fun v => hx)]
  cases es.text? s with
  | none => exact .absent
  | some v => exact .extension hx v

/-- Fields of a source take the place of those that are there, and lists that only grow take what
    they lack. -/
theorem adopted_field (hes : es.Adoptable t.kind) (ht : t.extensions.AreExtensions) {name : String}
    (hname : name ∈ t.kind.fields) : Entries.Adopted t.kind (wireName name)
      (t.shown.text? (wireName name)) (es.text? (wireName name))
      ((merge true es t).shown.text? (wireName name)) := by
  have hname' : name ∈ (merge true es t).kind.fields := by rwa [merge_kind]
  rw [text?_shown_field ht hname, text?_shown_field (areExtensions_merge ht true es) hname',
    merge_kind, merge_field true hes.distinct hname]
  split
  · rename_i hshown
    have hwire := Kind.fieldOfWire?_wireName hname
    cases es.text? (wireName name) with
    | none => exact .absent
    | some v =>
      by_cases harray : name ∈ t.kind.arrayFields
      · have hfield : mergeField true t.kind t.keys name v (t.field name)
            = told t.kind t.keys name (.ofList
              (Merge.unionItems ((t.field name).items?.getD []) (Merge.supplied v))) :=
          if_pos (List.contains_iff_mem.2 harray)
        dsimp only
        rw [hfield, shownField_told hshown]
        refine .grown hwire harray v ?_
        rw [itemsIn_shownField]
        exact firstSeen_unionItems _ _
      · have hfield : mergeField true t.kind t.keys name v (t.field name)
            = told t.kind t.keys name v := by
          rw [mergeField, if_neg (by simpa using harray), Bool.true_or, if_pos rfl]
        dsimp only
        rw [hfield, shownField_told hshown]
        exact .field hwire harray v
  -- What the document does not show the source does not name.
  · rename_i hhidden
    have hinternal : name ∈ t.kind.internalFields := by
      simpa [Kind.shownFields, hname] using hhidden
    rw [hes.internal name hinternal]
    exact .absent

/-- What stands under a key that is no slot's is adopted or stays. -/
theorem adopted_merge (hes : es.Adoptable t.kind) (hacc : es.Accepted t.kind)
    (ht : t.extensions.AreExtensions) (hs : ∀ σ ∈ t.kind.slots, s ≠ wireName σ) :
    Entries.Adopted t.kind s (t.shown.text? s) (es.text? s) ((merge true es t).shown.text? s) := by
  by_cases hx : s.startsWith "x-" = true
  · exact adopted_extension hes.distinct ht hx
  by_cases hname : ∃ name ∈ t.kind.fields, wireName name = s
  · obtain ⟨name, hname, rfl⟩ := hname
    exact adopted_field hes ht hname
  -- Nothing else is accepted, and nothing else is shown.
  have hslot : Merge.isSlotKey t.kind.layout (.str s) = false := by
    rw [Bool.eq_false_iff]
    intro h
    obtain ⟨σ, hσ, hkey⟩ := Kind.isSlotKey_iff.1 h
    exact hs σ hσ (by simpa using hkey)
  have hnone : es.text? s = none := by
    cases hv : es.text? s with
    | none => rfl
    | some v =>
      rcases hacc.plain _ (Entries.mem_of_text? hv) hslot s rfl with h | ⟨name, h⟩
      · exact absurd h hx
      · exact absurd ⟨name, Kind.mem_fields_of_wire h⟩ hname
  have hne : ∀ name ∈ t.kind.shownNames, wireName name ≠ s := by
    intro name hshown hwire
    rcases List.mem_append.1 hshown with hfield | hσ
    · exact hname ⟨name, (List.mem_filter.1 hfield).1, hwire⟩
    · exact hs name hσ hwire.symm
  rw [hnone, text?_shown_of_ne ht hx hne,
    text?_shown_of_ne (areExtensions_merge ht true es) hx (by rw [merge_kind]; exact hne)]
  exact .absent

end Tree

/-! ### Items among members -/

/-- An item names the value by which it is told. -/
theorem Placement.Tells.text?_eq {p : Placement} {item : Entries × Entries} {val : String → Data}
    (h : p.Tells item val) {key : String} (hkey : key ∈ p.keys) :
    item.1.text? key = some (val key) := by
  have hmem : (Data.str key, val key) ∈ item.1 := (h _).2 ⟨key, hkey, rfl⟩
  cases hv : item.1.text? key with
  | none => exact absurd rfl (Entries.text?_eq_none_iff.1 hv _ hmem)
  | some v =>
    obtain ⟨other, -, he⟩ := (h _).1 (Entries.mem_of_text? hv)
    cases he
    rfl

/-- An item put among members, with its values and over theirs. -/
noncomputable def Placement.overwriting (p : Placement) (item : Entries × Entries) : Put Tree where
  test m := m.hasValues item.1
  new := Tree.merge true item.2 ((Tree.fresh p.kind p.keys).putFields item.1)
  change := Tree.merge true item.2

namespace Entries.Adoptable

variable {k : Kind} {es : Entries} {σ : String} {p : Placement} {v : Data} {ts : List Tree}

/-- The items for a slot differ in the values by which they tell its members. -/
theorem differ (h : es.Adoptable k) (hp : k.placement? σ = some p)
    (hv : es.text? (wireName σ) = some v) :
    (p.items v).Pairwise fun a b => p.Differ a.1 b.1 := by
  cases p with
  | single c b => exact .nil
  | listed c slot => exact h.apart σ c slot v hp hv
  | keyed c key =>
    cases v with
    | map fs mark =>
      obtain ⟨⟨htext, hfs⟩, -⟩ := h.brings σ _ _ hp hv fs mark rfl
      refine List.Pairwise.filterMap _ ?_ (List.Pairwise.and_mem.1 hfs)
      have hkey : ∀ (e : Data × Data) (a : Entries × Entries) (v : Data),
          Placement.keyedItem? key e = some a → a.1.text? key = some v → v = e.1 := by
        intro e a v ha hv
        unfold Placement.keyedItem? at ha
        split at ha
        · cases ha
          rw [Entries.text?_cons_self] at hv
          exact (Option.some.inj hv).symm
        · cases ha
      rintro e f ⟨he, hf, hne⟩ a ha b hb
      refine ⟨key, List.mem_singleton_self key, fun v w hv hw => ?_⟩
      obtain rfl := hkey e a v ha hv
      obtain rfl := hkey f b w hb hw
      obtain ⟨s, hs⟩ := htext f hf
      rw [hs] at hne ⊢
      rw [Bool.eq_false_iff]
      exact fun halike => hne (Data.alike_str_iff.1 halike)
    | _ => exact .nil

/-- Where the items for a slot are found among its members. -/
theorem puts_items (h : es.Adoptable k) (hp : k.placement? σ = some p)
    (hv : es.text? (wireName σ) = some v)
    (hts : ∀ c ∈ ts, ∀ key ∈ p.keys, (c.field key).Regular) :
    Put.Puts ((p.items v).map p.overwriting) ts
      ((p.items v).foldl (Tree.putMember (Tree.merge true) p) ts) := by
  have hrun : (p.items v).foldl (Tree.putMember (Tree.merge true) p) ts
      = Put.runAll ((p.items v).map p.overwriting) ts := by
    rw [Put.runAll, List.foldl_map]
    rfl
  rw [hrun]
  refine Put.puts_runAll (G := fun c => ∀ key ∈ p.keys, (c.field key).Regular) hts ?_ ?_
  -- A merge leaves the fields alone by which members are told apart.
  · intro u hu w hw c _
    obtain ⟨item, hitem, rfl⟩ := List.mem_map.1 hu
    obtain ⟨other, hother, rfl⟩ := List.mem_map.1 hw
    obtain ⟨val, htells, -⟩ := h.tells hp hv hother fun _ => trivial
    show (Tree.merge true item.2 c).hasValues other.1 = c.hasValues other.1
    rw [Bool.eq_iff_iff, htells.hasValues_iff, htells.hasValues_iff]
    exact forall₂_congr fun key hkey => by rw [h.findable.field_merge hp hv hitem hkey]
  -- Items that differ in such a field are never put into one member.
  · refine List.pairwise_map.2 ((List.Pairwise.and_mem.1 (h.differ hp hv)).imp ?_)
    rintro a b ⟨ha, hb, key, hkey, hdiffer⟩
    obtain ⟨val, htells, -⟩ := h.tells hp hv ha fun _ => trivial
    obtain ⟨val', htells', -⟩ := h.tells hp hv hb fun _ => trivial
    have hne := hdiffer _ _ (htells.text?_eq hkey) (htells'.text?_eq hkey)
    refine ⟨?_, fun c hc hca => ?_⟩
    -- The member that the first item makes is none that the second one finds.
    · show (Tree.merge true a.2 ((Tree.fresh p.kind p.keys).putFields a.1)).hasValues b.1 = false
      rw [Bool.eq_false_iff]
      intro hvalues
      have halike := (htells'.hasValues_iff _).1 hvalues key hkey
      rw [h.findable.field_merge hp hv ha hkey, htells.putFields_eq, Tree.field_blank hkey,
        Data.alike_settled, hne] at halike
      cases halike
    -- A member that the first item finds is none that the second one finds.
    · show c.hasValues b.1 = false
      rw [Bool.eq_false_iff]
      intro hvalues
      have hac := Data.alike_symm (hc key hkey) ((htells.hasValues_iff c).1 hca key hkey)
      rw [Data.alike_trans hac ((htells'.hasValues_iff c).1 hvalues key hkey)] at hne
      cases hne

end Entries.Adoptable

/-! ### Members under keys -/

namespace Tree

variable {R : Kind → Entries → Entries → Entries → Prop} {t : Tree} {es fs : Entries} {σ : String}
  {k : Kind} {key s : String} {slot : CollectionSlot} {mark : Nat} {v : Data} {c : Tree}

/-- A tree without children and extensions is kept. -/
theorem Kept.of_empty (hslot : t.slot = fun _ => .empty) (hextensions : t.extensions = []) :
    t.Kept where
  toTame := tame_of_empty hslot
  extensions := by
    rw [hextensions]
    exact ⟨.nil, fun _ h => absurd h List.not_mem_nil⟩
  keysApart _ _ _ _ := by
    rw [hslot]
    exact .nil

/-- A new tree is kept, whatever it is told apart by. -/
theorem kept_new (p : Placement) (fields : Entries) :
    ((fresh p.kind p.keys).putFields fields).All Kept := by
  obtain ⟨-, -, hslot, hextensions⟩ := putFields_frame (fresh p.kind p.keys) fields
  exact .leaf (.of_empty hslot hextensions) hslot

/-- A hollow tree shows nothing. -/
theorem Hollow.shown_eq (h : t.Hollow) : t.shown = [] := by
  have hown : t.own = [] := by
    refine List.filterMap_eq_nil_iff.2 fun name hname => ?_
    rcases List.mem_append.1 hname with hfield | hσ
    · rw [shownAt_field (List.mem_filter.1 hfield).1, h.field name hfield]
      rfl
    · obtain ⟨p, hp⟩ := Kind.exists_placement? hσ
      rw [shownAt_slot hp, h.slot name, shownSlot_empty]
      rfl
  rw [Tree.shown_eq, hown, h.extensions]
  rfl

/-- Members with texts for keys have different ones if they do not agree. -/
theorem agree_keyed_iff (hd : ∃ s : String, c.field key = .str s) (d : Tree) :
    Agree (.keyed k key) d c ↔ d.field key = c.field key := by
  obtain ⟨s, hs⟩ := hd
  have hagree : Agree (.keyed k key) d c ↔ (d.field key).alike (c.field key) = true :=
    List.forall_mem_singleton
  rw [hagree, hs, Data.alike_str_iff]

/-- Orderly trees are kept. -/
theorem Orderly.kept {t : Tree} (h : t.Orderly) : t.Kept where
  toTame := h.tame
  extensions := h.extensions
  keysApart σ k key hp := by
    refine (List.Pairwise.and_mem.1 (h.apart σ _ hp)).imp ?_
    rintro c d ⟨-, hd, hne⟩
    rwa [agree_keyed_iff (((h.typed σ _ hp).isFor d hd).text k key rfl)] at hne

/-- What a value for members makes of a slot. -/
theorem merge_slot_members {p : Placement} (hp : t.kind.placement? σ = some p)
    (hlist : p.isSingle = false) (hv : es.text? (wireName σ) = some v) (ov : Bool) :
    (merge ov es t).slot σ
      = (t.slot σ).grow ((p.items v).foldl (putMember (merge ov) p) (t.slot σ).list) := by
  rw [merge_slot _ _ _ hp, hv]
  cases p with
  | single c b => cases hlist
  | _ => rfl

/-- Keys of members differ after a merge, too. -/
theorem keysApart_merge (hes : es.Source (fun _ => True) t.kind) (ht : t.Kept)
    (hp : t.kind.placement? σ = some (.keyed k key)) (ov : Bool) :
    ((merge ov es t).slot σ).trees.Pairwise fun c d => c.field key ≠ d.field key := by
  have hfits := (ht.typed σ _ hp).isFor
  have htyped : (merge ov es t).Typed := hes.findable.typed_merge ht.typed
  have hfits' := (htyped σ _ (by rw [merge_kind, hp])).isFor
  have hagree : (t.slot σ).trees.Pairwise fun c d => ¬Agree (.keyed k key) c d := by
    refine (List.Pairwise.and_mem.1 (ht.keysApart σ k key hp)).imp ?_
    rintro c d ⟨-, hd, hne⟩
    rwa [agree_keyed_iff ((hfits d hd).text k key rfl)]
  suffices hall : ((merge ov es t).slot σ).trees.Pairwise fun c d => ¬Agree (.keyed k key) c d by
    refine (List.Pairwise.and_mem.1 hall).imp ?_
    rintro c d ⟨-, hd, hne⟩
    rwa [agree_keyed_iff ((hfits' d hd).text k key rfl)] at hne
  cases hv : es.text? (wireName σ) with
  | none =>
    rw [merge_slot _ _ _ hp, hv]
    exact hagree
  | some v =>
    rw [merge_slot_members hp rfl hv]
    unfold Slot.grow
    split
    · exact hagree
    · exact hes.pairwise_putMembers ov (fun _ => trivial) hp hv (List.Subset.refl _)
        (hagree.sublist (Slot.list_sublist _))

/-- The content under the keys of members, where these differ. -/
theorem contentIn_keyed {s : Slot Tree} (hs : s.Fits (.keyed k key))
    (hapart : s.trees.Pairwise fun c d => c.field key ≠ d.field key) :
    contentIn (shownSlot (.keyed k key) s)
      = s.list.map (fun c => (c.field key, Data.ofEntries c.shown)) ∧
    Entries.Distinct (s.list.map fun c => (c.field key, Data.ofEntries c.shown)) := by
  cases s with
  | empty => exact ⟨by rw [shownSlot_empty]; rfl, .nil⟩
  | flag b =>
    obtain ⟨c, hc⟩ := hs
    cases hc
  | child c => cases hs.1
  | members ts =>
    have hdistinct : Entries.Distinct (ts.map fun c => (c.field key, Data.ofEntries c.shown)) := by
      refine ⟨fun e he => ?_, List.pairwise_map.2 hapart⟩
      obtain ⟨c, hc, rfl⟩ := List.mem_map.1 he
      exact (hs.2 c hc).text k key rfl
    refine ⟨?_, hdistinct⟩
    rw [shownSlot_members]
    exact Entries.ofPairs_eq hdistinct

/-- What stands under a key is shown of the member that has it. -/
theorem text?_contentIn_keyed {s : Slot Tree} (hs : s.Fits (.keyed k key))
    (hapart : s.trees.Pairwise fun c d => c.field key ≠ d.field key) (r : String) (w : Data) :
    (contentIn (shownSlot (.keyed k key) s)).text? r = some w ↔
      ∃ c ∈ s.list, c.field key = .str r ∧ Data.ofEntries c.shown = w := by
  obtain ⟨hcontent, hdistinct⟩ := contentIn_keyed hs hapart
  rw [hcontent, hdistinct.text?_eq_some_iff]
  simp only [List.mem_map, Prod.mk.injEq]

/-- A value without items leaves the members of a slot. -/
theorem merge_slot_of_nil {p : Placement} (hp : t.kind.placement? σ = some p)
    (hlist : p.isSingle = false) (hv : es.text? (wireName σ) = some v) (hitems : p.items v = [])
    (ov : Bool) : (merge ov es t).slot σ = t.slot σ := by
  rw [merge_slot_members hp hlist hv, hitems]
  exact Slot.grow_list _

/-- Items put over the members of a slot. -/
theorem Kept.puts_merge {p : Placement} (ht : t.Kept) (hes : es.Adoptable t.kind)
    (hp : t.kind.placement? σ = some p) (hlist : p.isSingle = false)
    (hv : es.text? (wireName σ) = some v) : Put.Puts ((p.items v).map p.overwriting)
      (t.slot σ).list ((merge true es t).slot σ).list := by
  rw [merge_slot_members hp hlist hv, Slot.list_grow foldl_putMember_eq_nil]
  exact hes.puts_items hp hv fun c hc => ht.regular σ p hp c ((t.slot σ).list_subset hc)

end Tree

/-- An entry tells a member by its key. -/
theorem Placement.tells_keyed (k : Kind) (key r : String) (gs : Entries) :
    (Placement.keyed k key).Tells ([(.str key, .str r)], gs) fun _ => .str r := by
  intro e
  simp [Placement.keys]

/-- A member has a key if it holds the key. -/
theorem Tree.hasValues_keyed {m : Tree} {key r : String} :
    m.hasValues [(.str key, .str r)] = true ↔ m.field key = .str r := by
  rw [(Placement.tells_keyed m.kind key r []).hasValues_iff, ← Data.alike_str_iff]
  exact List.forall_mem_singleton

/-- The member at which an entry lands has its key, before and after. -/
theorem Placement.field_of_lands {k : Kind} {key r : String} {gs : Entries} {ts us : List Tree}
    {n : Nat} (habsent : gs.text? (wireName key) = none)
    (h : ((Placement.keyed k key).overwriting ([(.str key, .str r)], gs)).Lands ts us n) :
    (∀ c, ts[n]? = some c → c.field key = .str r) ∧
      ∀ d, us[n]? = some d → d.field key = .str r := by
  have hfield : ∀ c : Tree, (Tree.merge true gs c).field key = c.field key := fun c =>
    Tree.merge_field_of_absent true habsent
  cases h with
  | found hc htest hd =>
    refine ⟨fun c hc' => ?_, fun d hd' => ?_⟩
    · rw [← Option.some.inj (hc.symm.trans hc')]
      exact Tree.hasValues_keyed.1 htest
    · rw [← Option.some.inj (hd.symm.trans hd')]
      exact (hfield _).trans (Tree.hasValues_keyed.1 htest)
  | added hc _ hd =>
    refine ⟨fun c hc' => ?_, fun d hd' => ?_⟩
    · rw [hc] at hc'
      cases hc'
    · rw [← Option.some.inj (hd.symm.trans hd')]
      refine (hfield _).trans ?_
      rw [(tells_keyed k key r gs).putFields_eq, Tree.field_blank (List.mem_singleton_self key)]
      rfl

namespace Tree

/-- A tree with nothing but a key shows nothing. -/
theorem hollow_keyed {parent : Kind} (hp : parent.placement? σ = some (.keyed k key))
    (val : String → Data) : (blank (.keyed k key) val).Hollow := by
  refine ⟨rfl, fun name hname => if_neg fun hkey => ?_, fun _ => rfl⟩
  rw [List.mem_singleton.1 hkey] at hname
  exact Kind.key_spec hp hname

section Keyed

variable {t : Tree} {es fs : Entries} (hes : es.Adoptable t.kind) (ht : t.All Kept)
  (hp : t.kind.placement? σ = some (.keyed k key))
  (hv : es.text? (wireName σ) = some (.map fs mark))

include hes ht hp

/-- What is shown under a key, before and after a merge. -/
theorem text?_keyed (r : String) (w : Data) :
    ((contentIn (shownSlot (.keyed k key) (t.slot σ))).text? r = some w ↔
      ∃ c ∈ (t.slot σ).list, c.field key = .str r ∧ Data.ofEntries c.shown = w) ∧
    ((contentIn (shownSlot (.keyed k key) ((merge true es t).slot σ))).text? r = some w ↔
      ∃ c ∈ ((merge true es t).slot σ).list,
        c.field key = .str r ∧ Data.ofEntries c.shown = w) := by
  have hp' : (merge true es t).kind.placement? σ = some (.keyed k key) := by rw [merge_kind, hp]
  exact ⟨text?_contentIn_keyed (ht.root.typed σ _ hp) (ht.root.keysApart σ k key hp) r w,
    text?_contentIn_keyed (hes.findable.typed_merge ht.root.typed σ _ hp')
      (keysApart_merge hes.toSource ht.root hp true) r w⟩

include hv

/-- Under a key that a source does not have everything stays. -/
theorem text?_keyed_of_none {r : String} (hr : fs.text? r = none) :
    (contentIn (shownSlot (.keyed k key) ((merge true es t).slot σ))).text? r
      = (contentIn (shownSlot (.keyed k key) (t.slot σ))).text? r := by
  have hputs := ht.root.puts_merge hes hp rfl hv
  obtain ⟨⟨htext, -⟩, hbrings⟩ := hes.brings σ _ _ hp hv fs mark rfl
  -- No entry lands at members under other keys.
  have hother : ∀ n : Nat, ((∃ c : Tree, (t.slot σ).list[n]? = some c ∧ c.field key = .str r) ∨
      ∃ c : Tree, ((merge true es t).slot σ).list[n]? = some c ∧ c.field key = .str r) →
      ((merge true es t).slot σ).list[n]? = (t.slot σ).list[n]? := by
    intro n hn
    rcases hputs.others n with heq | ⟨u, hu, hland⟩
    · exact heq
    · obtain ⟨item, hitem, rfl⟩ := List.mem_map.1 hu
      rcases Placement.mem_items hitem with ⟨_, _, _, _, e, gs, mark', hk, hfs, he, hgs, rfl⟩ |
        ⟨_, _, _, _, _, hk, -⟩
      · cases hk
        cases hfs
        obtain ⟨s, hs⟩ := htext e he
        rw [hs] at hland
        obtain ⟨hbefore, hafter⟩ := Placement.field_of_lands ((hbrings e he).2 gs mark' hgs) hland
        have hkey : Data.str s = .str r := by
          rcases hn with ⟨c, hc, hkey⟩ | ⟨c, hc, hkey⟩
          · exact (hbefore c hc).symm.trans hkey
          · exact (hafter c hc).symm.trans hkey
        exact absurd (hs.trans hkey) (Entries.text?_eq_none_iff.1 hr e he)
      · cases hk
  refine Option.ext fun w => ?_
  obtain ⟨hold, hnew⟩ := text?_keyed hes ht hp r w
  rw [hnew, hold]
  constructor
  · rintro ⟨c, hc, hkey, hw⟩
    obtain ⟨n, hn⟩ := List.getElem?_of_mem hc
    exact ⟨c, List.mem_of_getElem? ((hother n (.inr ⟨c, hn, hkey⟩)).symm.trans hn), hkey, hw⟩
  · rintro ⟨c, hc, hkey, hw⟩
    obtain ⟨n, hn⟩ := List.getElem?_of_mem hc
    exact ⟨c, List.mem_of_getElem? ((hother n (.inl ⟨c, hn, hkey⟩)).trans hn), hkey, hw⟩

/-- What a source has under a key goes to the member that has it, or to a new one. -/
theorem text?_keyed_of_some {r : String} {gs : Entries} {mark' : Nat}
    (hr : fs.text? r = some (.map gs mark')) : ∃ m : Tree, m.kind = k ∧ m.All Kept ∧
      contentIn ((contentIn (shownSlot (.keyed k key) (t.slot σ))).text? r) = m.shown ∧
      (contentIn (shownSlot (.keyed k key) ((merge true es t).slot σ))).text? r
        = some (.ofEntries (merge true gs m).shown) := by
  have hmem := Entries.mem_of_text? hr
  have hitem := Placement.mem_items_of_keyed k key mark hmem rfl
  have habsent := ((hes.brings σ _ _ hp hv fs mark rfl).2 _ hmem).2 gs mark' rfl
  -- The entry lands on one member, which it finds or adds.
  obtain ⟨n, hland⟩ := (ht.root.puts_merge hes hp rfl hv).lands _ (List.mem_map_of_mem hitem)
  obtain ⟨hbefore, hafter⟩ := Placement.field_of_lands habsent hland
  have hnew : ∀ d, ((merge true es t).slot σ).list[n]? = some d →
      (contentIn (shownSlot (.keyed k key) ((merge true es t).slot σ))).text? r
        = some (.ofEntries d.shown) := fun d hd =>
    (text?_keyed hes ht hp r _).2.2 ⟨d, List.mem_of_getElem? hd, hafter d hd, rfl⟩
  cases hland with
  -- Found: what the key showed before is what the member is merged from.
  | @found c hc htest hd =>
    have hmem := (t.slot σ).list_subset (List.mem_of_getElem? hc)
    have hold := (text?_keyed hes ht hp r _).1.2 ⟨c, List.mem_of_getElem? hc, hbefore c hc, rfl⟩
    refine ⟨c, ((ht.root.typed σ _ hp).isFor c hmem).kind, ht.child hmem, ?_, hnew _ hd⟩
    rw [hold]
    rfl
  -- Added: nothing was shown under the key before.
  | added _ hnone hd =>
    have hold : (contentIn (shownSlot (.keyed k key) (t.slot σ))).text? r = none := by
      refine Option.eq_none_iff_forall_ne_some.2 fun w hw => ?_
      obtain ⟨c, hc, hkey, -⟩ := (text?_keyed hes ht hp r w).1.1 hw
      have htest : c.hasValues [(.str key, .str r)] = false := hnone c hc
      rw [hasValues_keyed.2 hkey] at htest
      cases htest
    have hblank := (Placement.tells_keyed k key r gs).putFields_eq
    refine ⟨_, (putFields_frame _ _).1, kept_new (.keyed k key) _, ?_, hnew _ hd⟩
    rw [hold]
    dsimp only at hblank ⊢
    rw [hblank, (hollow_keyed hp _).shown_eq]
    rfl

end Keyed

/-- A slot for members under keys adopts what a source has for them. -/
theorem adopts_keyed (hes : es.Adoptable t.kind) (hacc : es.Accepted t.kind) (ht : t.All Kept)
    (hp : t.kind.placement? σ = some (.keyed k key)) (hv : es.text? (wireName σ) = some v)
    (hR : ∀ item ∈ Placement.items (.keyed k key) v, ∀ m : Tree, m.kind = k → m.All Kept →
      R k item.2 m.shown (merge true item.2 m).shown) :
    Placement.Adopts R (shownSlot (.keyed k key) (t.slot σ)) (.keyed k key) (some v)
      (shownSlot (.keyed k key) ((merge true es t).slot σ)) := by
  obtain ⟨fs, mark, rfl, hmaps⟩ := hacc.slots σ _ v hp hv
  refine .keyed mark (fun hnil => ?_) (fun r hr => ?_) fun r w hr => ?_
  · subst hnil
    rw [merge_slot_of_nil hp rfl hv rfl]
  · exact text?_keyed_of_none hes ht hp hv hr
  · have hmem := Entries.mem_of_text? hr
    obtain ⟨gs, mark', hw⟩ := hmaps _ hmem
    dsimp only at hw
    subst hw
    obtain ⟨m, hkind, hkept, hbefore, hafter⟩ := text?_keyed_of_some hes ht hp hv hr
    refine ⟨gs, _, mark', rfl, hafter, ?_⟩
    rw [hbefore]
    exact hR ([(.str key, .str r)], gs) (Placement.mem_items_of_keyed k key mark hmem rfl)
      m hkind hkept

end Tree

/-! ### Members of collections -/

/-- Values that are equal are shown as equal ones. -/
theorem Data.alike_shownValue {v w : Data} (h : v.alike w = true) :
    (Forest.shownValue v).alike (Forest.shownValue w) = true := by
  cases v with
  | tuple xs mark =>
    cases w with
    | tuple ys mark' => simpa only [Forest.shownValue, items?, ofList, alike, same] using h
    | _ => simp [alike, same] at h
  | list xs mark =>
    cases w with
    | list ys mark' => simpa only [Forest.shownValue, items?, ofList, alike, same] using h
    | _ => simp [alike, same] at h
  | _ =>
    cases w with
    | tuple ys mark' => simp [alike, same] at h
    | list ys mark' => simp [alike, same] at h
    | _ => exact h

/-- A value that is no sequence is shown as what is equal to it. -/
theorem Data.alike_of_shownValue {v w : Data} (hw : w.items? = none)
    (h : (Forest.shownValue v).alike (Forest.shownValue w) = true) : v.alike w = true := by
  have hshown : Forest.shownValue w = w := by rw [Forest.shownValue, hw]
  rw [hshown] at h
  cases v with
  | tuple xs mark =>
    cases w with
    | list ys mark' => cases hw
    | _ => simp [Forest.shownValue, items?, ofList, alike, same] at h
  | list xs mark =>
    cases w with
    | list ys mark' => cases hw
    | _ => simp [Forest.shownValue, items?, ofList, alike, same] at h
  | _ => exact h

namespace Tree

variable {R : Kind → Entries → Entries → Entries → Prop} {σ : String} {k parent : Kind}
  {slot : CollectionSlot} {mark : Nat} {v : Data} {gs : Entries} {m : Tree}

/-- The items that are shown for a collection. -/
theorem itemsIn_listed {s : Slot Tree} (hs : s.Fits (.listed k slot)) :
    itemsIn (shownSlot (.listed k slot) s) = s.list.map fun c => Data.ofEntries c.shown := by
  cases s with
  | empty =>
    rw [shownSlot_empty]
    rfl
  | flag b =>
    obtain ⟨c, hc⟩ := hs
    cases hc
  | child c => cases hs.1
  | members ts =>
    rw [shownSlot_members]
    exact List.map_map

/-- A member with the values of an item agrees with it. -/
theorem agrees_of_hasValues (hp : parent.placement? σ = some (.listed k slot)) (hm : m.kind = k)
    (hextensions : m.extensions.AreExtensions) (hgs : gs.Distinct)
    (hcarries : gs.Carries (fun _ => True) slot) (h : m.hasValues (gs.identity k slot) = true) :
    slot.Agrees gs m.shown := by
  have htells := Entries.tells_identity hp hgs fun name hname =>
    (hcarries name hname).imp fun _ hv => hv.1
  intro name hname
  obtain ⟨v, hv, hset, -⟩ := hcarries name hname
  have halike := (htells.hasValues_iff m).1 h name hname
  rw [hv, Option.getD_some] at halike
  subst hm
  exact ⟨v, _, hv, text?_shown_identifying hp hextensions hname (Data.isUnset_of_alike halike hset),
    Data.alike_shownValue halike⟩

/-- A member that agrees with an item has its values, where these are no sequences. -/
theorem hasValues_of_agrees (hp : parent.placement? σ = some (.listed k slot)) (hm : m.kind = k)
    (hextensions : m.extensions.AreExtensions) (hgs : gs.Distinct)
    (hplain : ∀ name ∈ slot.identifying, ∀ v, gs.text? (wireName name) = some v → v.items? = none)
    (h : slot.Agrees gs m.shown) : m.hasValues (gs.identity k slot) = true := by
  have htells := Entries.tells_identity hp hgs fun name hname =>
    (h name hname).imp fun _ hv => hv.choose_spec.1
  refine (htells.hasValues_iff m).2 fun name hname => ?_
  obtain ⟨v, w, hv, hw, halike⟩ := h name hname
  rw [hv, Option.getD_some]
  have hfield : name ∈ m.kind.fields := by
    rw [hm]
    exact Kind.keys_subset_fields hp name hname
  rw [text?_shown_field hextensions hfield] at hw
  split at hw
  · unfold shownField at hw
    split at hw
    · cases hw
    · cases hw
      exact Data.alike_of_shownValue (hplain name hname v hv) halike
  · cases hw

section Listed

variable {t : Tree} {es : Entries} (hes : es.Adoptable t.kind) (ht : t.All Kept)
  (hp : t.kind.placement? σ = some (.listed k slot)) (hv : es.text? (wireName σ) = some v)

include hes ht hp hv

/-- Where an item lands, the collection adopts it. -/
theorem lands_listed {xs : List Data} {n : Nat} (hxs : v.items? = some xs) (hx : .map gs mark ∈ xs)
    (hland : ((Placement.listed k slot).overwriting (gs.identity k slot, gs.rest k slot)).Lands
      (t.slot σ).list ((merge true es t).slot σ).list n)
    (hR : ∀ fs, fs = gs ∨ fs = gs.rest k slot → ∀ m : Tree, m.kind = k → m.All Kept →
      R k fs m.shown (merge true fs m).shown) :
    slot.Lands R k (itemsIn (shownSlot (.listed k slot) (t.slot σ)))
      (itemsIn (shownSlot (.listed k slot) ((merge true es t).slot σ))) (.map gs mark) n := by
  have hp' : (merge true es t).kind.placement? σ = some (.listed k slot) := by rw [merge_kind, hp]
  have hfits := ht.root.typed σ _ hp
  rw [itemsIn_listed hfits, itemsIn_listed (hes.findable.typed_merge ht.root.typed σ _ hp')]
  obtain ⟨hgs, hcarries⟩ := (hes.brings σ _ v hp hv xs hxs _ hx).2 gs mark rfl
  have hkept : ∀ c ∈ (t.slot σ).list, c.kind = k ∧ c.All Kept := fun c hc =>
    have hmem := (t.slot σ).list_subset hc
    ⟨(hfits.isFor c hmem).kind, ht.child hmem⟩
  cases hland with
  -- Found: the member agreed with the item, and is merged with it.
  | @found c hc htest hd =>
    obtain ⟨hkind, hc'⟩ := hkept c (List.mem_of_getElem? hc)
    refine .found mark 0 ?_ (agrees_of_hasValues hp hkind hc'.root.extensions hgs hcarries htest) ?_
      (hR _ (.inr rfl) c hkind hc')
    · rw [List.getElem?_map, hc]
      rfl
    · rw [List.getElem?_map, hd]
      rfl
  -- Added: no member agreed with the item, and a new one is merged with it.
  | added hc hnone hd =>
    have hnew : merge true (gs.rest k slot)
        ((fresh k slot.identifying).putFields (gs.identity k slot))
          = merge true gs (fresh k slot.identifying) := merge_rest_new hp hgs fun name hname =>
      (hcarries name hname).imp fun _ hv => hv.1
    have hfresh := hR gs (.inl rfl) (fresh k slot.identifying) rfl
      (.leaf (.of_empty rfl rfl) rfl)
    rw [(hollow_fresh k slot.identifying).shown_eq] at hfresh
    refine .added mark ?_ (fun hplain es' mark' hmem hagrees => ?_) ?_ hfresh
    · rw [List.getElem?_map, hc]
      rfl
    · obtain ⟨c, hc, he⟩ := List.mem_map.1 hmem
      cases he
      obtain ⟨hkind, hc'⟩ := hkept c hc
      have htest : c.hasValues (gs.identity k slot) = false := hnone c hc
      rw [hasValues_of_agrees hp hkind hc'.root.extensions hgs hplain hagrees] at htest
      cases htest
    · rw [List.getElem?_map, hd, ← hnew]
      rfl

/-- A slot for a collection adopts what a source has for it. -/
theorem adopts_listed (hacc : es.Accepted t.kind)
    (hR : ∀ xs (gs : Entries) mark, v.items? = some xs → .map gs mark ∈ xs →
      ∀ fs, fs = gs ∨ fs = gs.rest k slot → ∀ m : Tree, m.kind = k → m.All Kept →
        R k fs m.shown (merge true fs m).shown) :
    Placement.Adopts R (shownSlot (.listed k slot) (t.slot σ)) (.listed k slot) (some v)
      (shownSlot (.listed k slot) ((merge true es t).slot σ)) := by
  obtain ⟨xs, hxs, hmaps⟩ := hacc.slots σ _ v hp hv
  have hputs := ht.root.puts_merge hes hp rfl hv
  have hp' : (merge true es t).kind.placement? σ = some (.listed k slot) := by rw [merge_kind, hp]
  refine .listed hxs (fun hnil => ?_) (fun n => ?_) fun x hx => ?_
  · subst hnil
    rw [merge_slot_of_nil hp rfl hv]
    rw [Placement.items, hxs]
    rfl
  · rcases hputs.others n with heq | ⟨u, hu, hland⟩
    · refine .inl ?_
      rw [itemsIn_listed (ht.root.typed σ _ hp),
        itemsIn_listed (hes.findable.typed_merge ht.root.typed σ _ hp'), List.getElem?_map,
        List.getElem?_map, heq]
    · obtain ⟨item, hitem, rfl⟩ := List.mem_map.1 hu
      rcases Placement.mem_items hitem with ⟨_, _, _, _, _, _, _, hk, -⟩ |
        ⟨_, _, ys, gs, mark, hk, hys, hy, rfl⟩
      · cases hk
      · cases hk
        obtain rfl := Option.some.inj (hxs.symm.trans hys)
        exact .inr ⟨_, hy, lands_listed hes ht hp hv hxs hy hland (hR xs gs mark hxs hy)⟩
  · obtain ⟨gs, mark, rfl⟩ := hmaps x hx
    have hitem := Placement.mem_items_of_listed k slot hxs hx
    obtain ⟨n, hland⟩ := hputs.lands _ (List.mem_map_of_mem hitem)
    exact ⟨n, lands_listed hes ht hp hv hxs hx hland (hR xs gs mark hxs hx)⟩

end Listed

end Tree

/-! ### All levels -/

namespace Entries

variable {k : Kind} {σ : String} {c : Kind} {slot : CollectionSlot} {v : Data} {xs : List Data}
  {es gs : Entries} {mark : Nat}

/-- Names that a collection does not look at stand in what is left of an item. -/
theorem text?_rest_field (hp : k.placement? σ = some (.listed c slot)) {name : String}
    (hname : name ∈ c.fields) (hne : name ∉ slot.identifying) :
    (gs.rest c slot).text? (wireName name) = gs.text? (wireName name) := by
  refine text?_rest_of_notMem (Kind.identifying_ne_nil hp) fun other hother hwire => hne ?_
  have heq := Kind.eq_of_wireName_eq (List.mem_append_left _ hname)
    (List.mem_append_left _ (Kind.keys_subset_fields hp other hother)) hwire
  exact heq ▸ hother

/-- An item of a collection is a source like what is left of it. -/
theorem Adoptable.of_rest (hp : k.placement? σ = some (.listed c slot)) (hgs : gs.Distinct)
    (h : (gs.rest c slot).Adoptable c) : gs.Adoptable c where
  distinct := hgs
  brings τ p w hτ hw := h.brings τ p w hτ
    ((text?_rest_slot hp (Kind.mem_slots_of_placement? hτ)).trans hw)
  internal name hname := by
    have hidentifying : name ∉ slot.identifying := by
      intro hmem
      have hshown := (List.mem_filter.1 (Kind.identifying_spec hp name hmem).1).2
      rw [List.contains_iff_mem.2 hname] at hshown
      cases hshown
    rw [← text?_rest_field hp (c.internalFields_spec name hname).1 hidentifying]
    exact h.internal name hname
  apart τ c' slot' w hτ hw := h.apart τ c' slot' w hτ
    ((text?_rest_slot hp (Kind.mem_slots_of_placement? hτ)).trans hw)

/-- An item is accepted if the rest of it is. -/
theorem Accepted.of_rest (hp : k.placement? σ = some (.listed c slot))
    (h : (gs.rest c slot).Accepted c) : gs.Accepted c where
  slots τ p w hτ hw := h.slots τ p w hτ
    ((text?_rest_slot hp (Kind.mem_slots_of_placement? hτ)).trans hw)
  plain e he hslot s hs := by
    cases hid : Merge.identifies? c slot e.1 with
    | none => exact h.plain e (List.mem_filter.2 ⟨he, by rw [hid]; rfl⟩) hslot s hs
    | some name =>
      obtain ⟨-, hname, hkey⟩ := Merge.identifies?_eq_some (Kind.identifying_ne_nil hp) hid
      have hwire : s = wireName name := by simpa using hs.symm.trans hkey
      rw [hwire]
      exact .inr ⟨name, Kind.fieldOfWire?_wireName hname⟩

end Entries

namespace Tree

variable {t : Tree}

/-- A child is what its parent shows of it. -/
theorem contentIn_single {s : Slot Tree} {k : Kind} {b : Bool} (hs : s.Fits (.single k b)) :
    contentIn (shownSlot (.single k b) s) = (s.childOr (fresh k [])).shown := by
  have hfresh := (hollow_fresh k []).shown_eq
  cases s with
  | empty =>
    rw [shownSlot_empty]
    exact hfresh.symm
  | flag b =>
    rw [shownSlot_flag]
    exact hfresh.symm
  | child c =>
    rw [shownSlot_child]
    rfl
  | members ts => cases hs.1

/-- A slot for one child adopts what a source has for it. -/
theorem adopts_single {R : Kind → Entries → Entries → Entries → Prop} {es : Entries} {σ : String}
    {k : Kind} {b : Bool} {v : Data} (hacc : es.Accepted t.kind) (ht : t.All Kept)
    (hp : t.kind.placement? σ = some (.single k b)) (hv : es.text? (wireName σ) = some v)
    (hR : ∀ fs mark, v = .map fs mark → ∀ m : Tree, m.kind = k → m.All Kept →
      R k fs m.shown (merge true fs m).shown) :
    Placement.Adopts R (shownSlot (.single k b) (t.slot σ)) (.single k b) (some v)
      (shownSlot (.single k b) ((merge true es t).slot σ)) := by
  have hfits := ht.root.typed σ _ hp
  rw [merge_slot _ _ _ hp, hv]
  rcases hacc.slots σ _ v hp hv with ⟨fs, mark, rfl⟩ | ⟨rfl, x, rfl⟩
  · obtain ⟨hkind, hkept⟩ := childOr_spec (Q := fun c => c.kind = k ∧ c.All Kept) (c := k)
      (fun c hc => ⟨(hfits.isFor c hc).kind, ht.child hc⟩) ⟨rfl, .leaf (.of_empty rfl rfl) rfl⟩
    have hslot : mergeSlot (merge true) true (.single k b) (some (.map fs mark)) (t.slot σ)
        = .child (merge true fs ((t.slot σ).childOr (fresh k []))) := rfl
    rw [hslot, shownSlot_child]
    refine .child mark ?_
    rw [contentIn_single hfits]
    exact hR fs mark rfl _ hkind hkept
  · exact .flag x

/-- The content of a tree into which a source is merged over what is there adopts the source. -/
theorem adopts_merge (depth : Nat) {es : Entries} (hes : es.All Entries.Adoptable t.kind)
    (hacc : es.All Entries.Accepted t.kind) (ht : t.All Kept) :
    es.Adopts depth t.kind t.shown (merge true es t).shown := by
  induction depth generalizing es t with
  | zero => trivial
  | succ depth ih =>
    have hext := ht.root.extensions
    have hext' := areExtensions_merge hext true es
    refine ⟨fun s hs => adopted_merge hes.root hacc.root hext hs, fun σ p hp => ?_⟩
    have hp' : (merge true es t).kind.placement? σ = some p := by rw [merge_kind, hp]
    rw [text?_shown_slot hext hp, text?_shown_slot hext' hp']
    cases hv : es.text? (wireName σ) with
    | none =>
      rw [merge_slot _ _ _ hp, hv]
      have hsame : mergeSlot (merge true) true p none (t.slot σ) = t.slot σ := by
        cases p <;> rfl
      rw [hsame]
      exact .absent
    | some v =>
      cases p with
      | single k b =>
        refine adopts_single hacc.root ht hp hv fun fs mark hfs m hm hkept => ?_
        subst hfs
        subst hm
        exact ih (hes.child hp hv) (hacc.child hp hv) hkept
      | keyed k key =>
        refine adopts_keyed hes.root hacc.root ht hp hv fun item hitem m hm hkept => ?_
        subst hm
        exact ih (hes.item hp hv hitem) (hacc.item hp hv hitem) hkept
      | listed k slot =>
        refine adopts_listed hes.root ht hp hv hacc.root
          fun xs gs mark hxs hx fs hfs m hm hkept => ?_
        subst hm
        have hitem := Placement.mem_items_of_listed m.kind slot hxs hx
        have hrest := hes.item hp hv hitem
        have hrest' := hacc.item hp hv hitem
        rcases hfs with rfl | rfl
        -- A new member adopts the whole item, of which only the rest is among what the source brings.
        · have hgs := ((hes.root.brings σ _ v hp hv xs hxs _ hx).2 fs mark rfl).1
          have hslots : ∀ τ ∈ m.kind.slots, fs.text? (wireName τ)
              = (fs.rest m.kind slot).text? (wireName τ) := fun τ hτ =>
            (Entries.text?_rest_slot hp hτ).symm
          exact ih (hrest.of_slots (.of_rest hp hgs hrest.root) hslots)
            (hrest'.of_slots (.of_rest hp hrest'.root) hslots) hkept
        · exact ih hrest hrest' hkept

end Tree

end ApiDoc
