import ApiDoc.Proofs.Data.Equality
import ApiDoc.Proofs.Tree.Items

namespace ApiDoc

/-!
# Trees whose members are told apart

* `Data.Telling` — values by which members can be told apart before and after they were shown;
* `Tree.Orderly` — a tree with members of which no two agree in such values;
* `Tree.Tame` — the less that is asked of a tree into which others are merged;
* `Source.orderly_merge`, `Source.tame_merge` — a merge keeps both, with `Tree.All.orderly_merge` and
  `Tree.All.tame_merge` for all trees below one.
-/

open Forest

/-! ### Values that tell members apart -/

/-- A value that is told from others as it is shown: no tuple, and nothing twice in it. -/
structure Data.Telling (v : Data) : Prop where
  regular : v.Regular
  plain : ∀ xs mark, v ≠ .tuple xs mark

namespace Data

variable {v w : Data}

/-- Settling the second value does not count for equality. -/
theorem alike_settled_right (w v : Data) : w.alike v.settled = w.alike v := by
  cases v with
  | list xs mark => cases w <;> simp [settled, alike, same]
  | _ => rfl

/-- A regular value stays so when it is settled. -/
theorem Regular.settled (h : v.Regular) : v.settled.Regular := by
  cases v with
  | list xs mark => simpa only [Data.settled, Data.ofList, Regular] using h
  | _ => exact h

/-- A text tells members apart. -/
theorem Telling.str (s : String) : (Data.str s).Telling where
  regular := by rw [Regular] <;> simp
  plain _ _ h := nomatch h

/-- What tells members apart does so when it is settled. -/
theorem Telling.settled (h : v.Telling) : v.settled.Telling where
  regular := h.regular.settled
  plain xs mark he := by
    cases v with
    | tuple ys mark' => exact h.plain ys mark' rfl
    | _ => exact nomatch he

/-- What a document shows of such a value is the value. -/
theorem Telling.shownValue_eq (h : v.Telling) : shownValue v = v.settled := by
  cases v with
  | tuple xs mark => exact absurd rfl (h.plain xs mark)
  | _ => rfl

/-- A value that is equal to one that is set is set. -/
theorem isUnset_of_alike (h : v.alike w = true) (hw : w.isUnset = false) : v.isUnset = false := by
  cases v with
  | unset => cases w <;> simp_all [alike, same, isUnset]
  | _ => rfl

end Data

/-! ### Orderly trees -/

namespace Tree

/-- Trees with equal values for the fields by which a slot tells its children apart. -/
def Agree (p : Placement) (c d : Tree) : Prop :=
  ∀ key ∈ p.keys, (c.field key).alike (d.field key) = true

/-- A tree whose members have regular values for the fields by which they are told apart. -/
structure Tame (t : Tree) : Prop where
  typed : t.Typed
  regular : ∀ σ p, t.kind.placement? σ = some p → ∀ c ∈ (t.slot σ).trees, ∀ key ∈ p.keys,
    (c.field key).Regular

/-- A tree of which no two members agree in the fields by which they are told apart. -/
structure Orderly (t : Tree) : Prop where
  typed : t.Typed
  extensions : t.extensions.AreExtensions
  arrays : ∀ name ∈ t.kind.arrayFields,
    (t.field name).isUnset = true ∨ ∃ xs, (t.field name).items? = some xs
  tells : ∀ σ p, t.kind.placement? σ = some p → ∀ c ∈ (t.slot σ).trees, ∀ key ∈ p.keys,
    (c.field key).isUnset = false ∧ (c.field key).Telling
  apart : ∀ σ p, t.kind.placement? σ = some p → (t.slot σ).trees.Pairwise fun c d => ¬Agree p c d

variable {t : Tree} {k : Kind} {p : Placement} {σ : String} {val : String → Data} {ov : Bool}
  {es : Entries}

/-- An orderly tree is tame. -/
theorem Orderly.tame (h : t.Orderly) : t.Tame where
  typed := h.typed
  regular σ p hp c hc key hkey := (h.tells σ p hp c hc key hkey).2.regular

/-- The content of an orderly tree can be merged into others. -/
theorem Orderly.serves (h : t.Orderly) : t.Serves Data.Telling where
  typed := h.typed
  extensions := h.extensions
  carries σ k slot hp c hc name hname := by
    obtain ⟨hset, htells⟩ := h.tells σ _ hp c hc name hname
    rw [htells.shownValue_eq]
    exact ⟨hset, htells.settled⟩

/-- Members are told by the same values where they stand and where they are shown. -/
theorem alike_valueOf {c : Tree} {name : String} (h : (c.field name).Telling) (v : Data) :
    v.alike (p.valueOf c name) = v.alike (c.field name) := by
  cases p with
  | keyed k key => rfl
  | _ =>
    show v.alike (shownValue (c.field name)) = _
    rw [h.shownValue_eq, Data.alike_settled_right]

/-- The value by which a member is told, settled where it stands or where it is shown. -/
theorem settled_valueOf {c : Tree} {name : String} (h : (c.field name).Telling) :
    (p.valueOf c name).settled = (c.field name).settled := by
  cases p with
  | keyed k key => rfl
  | _ =>
    show (shownValue (c.field name)).settled = _
    rw [h.shownValue_eq, Data.settled_settled]

/-! ### Trees without children -/

/-- A tree without children is tame. -/
theorem tame_of_empty (hslot : t.slot = fun _ => .empty) : t.Tame where
  typed := typed_fresh hslot
  regular _ _ _ c hc := by
    rw [hslot] at hc
    exact absurd hc List.not_mem_nil

/-- A tree without children, lists and extensions is orderly. -/
theorem orderly_of_empty (hslot : t.slot = fun _ => .empty) (hextensions : t.extensions = [])
    (harrays : ∀ name ∈ t.kind.arrayFields, t.field name = .unset) : t.Orderly where
  typed := typed_fresh hslot
  extensions := by
    rw [hextensions]
    exact ⟨.nil, fun _ h => absurd h List.not_mem_nil⟩
  arrays name hname := .inl (Data.isUnset_iff.2 (harrays name hname))
  tells _ _ _ c hc := by
    rw [hslot] at hc
    exact absurd hc List.not_mem_nil
  apart _ _ _ := by
    rw [hslot]
    exact .nil

/-- The fields by which a tree is told apart are no lists that only grow. -/
theorem field_blank_of_array (hp : k.placement? σ = some p) (val : String → Data) :
    ∀ name ∈ (blank p val).kind.arrayFields, (blank p val).field name = .unset := by
  refine fun name hname => if_neg fun hkey => ?_
  cases p with
  | single c b => exact absurd hkey List.not_mem_nil
  | keyed c key =>
    rw [List.mem_singleton.1 hkey] at hname
    exact Kind.key_spec hp (c.arrayFields_shown key hname)
  | listed c slot => exact (Kind.identifying_spec hp name hkey).2 hname

/-- A new member is orderly. -/
theorem orderly_blank (hp : k.placement? σ = some p) (val : String → Data) :
    (blank p val).Orderly := orderly_of_empty rfl rfl (field_blank_of_array hp val)

/-- The fields by which a new tree is told apart. -/
theorem field_blank {key : String} (hkey : key ∈ p.keys) : (blank p val).field key = (val key).settled :=
  if_pos hkey

/-- What a tree keeps of a list that the document shows. -/
theorem items?_told_ofList {keys : List String} {name : String} (h : name ∈ k.shownFields)
    (xs : List Data) : (told k keys name (.ofList xs)).items? = some xs := by
  unfold told
  rw [if_pos h]
  split <;> rfl

end Tree

/-! ### What a merge keeps -/

/-- Extensions stay what they are with one more. -/
theorem Entries.AreExtensions.extend {es : Entries} {e : Data × Data} {ov : Bool}
    (h : es.AreExtensions) (he : Entries.isExtension e = true) : (Tree.extend ov es e).AreExtensions := by
  unfold Tree.extend
  split
  · unfold Entries.isExtension at he
    split at he
    · rename_i key hkey
      rw [Data.str?_eq_some.1 hkey]
      refine ⟨h.1.insert key e.2, fun f hf s hs => ?_⟩
      rcases Entries.key_of_mem_insert hf with ⟨g, hg, hkey⟩ | hkey
      · exact h.2 g hg s (hkey.trans hs)
      · obtain rfl : key = s := by simpa using hkey.symm.trans hs
        exact he
    · exact nomatch he
  · exact h

/-- Extensions merged with extensions are extensions. -/
theorem Entries.AreExtensions.foldl_extend {es fs : Entries} {ov : Bool} (h : es.AreExtensions)
    (hfs : ∀ f ∈ fs, Entries.isExtension f = true) : (fs.foldl (Tree.extend ov) es).AreExtensions := by
  induction fs generalizing es with
  | nil => exact h
  | cons f fs ih =>
    obtain ⟨hf, hfs⟩ := List.forall_mem_cons.1 hfs
    exact ih (h.extend hf) hfs

namespace Entries.Source

variable {k : Kind} {es : Entries} {σ : String} {p : Placement} {v : Data}
  {item : Entries × Entries} {c t : Tree} {ov : Bool}

/-- A new member has the values that an item tells it by. -/
theorem new_eq_blank (h : es.Source Data.Telling k) (hp : k.placement? σ = some p)
    (hv : es.text? (wireName σ) = some v) (hitem : item ∈ p.items v) :
    ∃ val, p.Tells item val ∧ (Tree.fresh p.kind p.keys).putFields item.1 = Tree.blank p val ∧
      ∀ key ∈ p.keys, (val key).isUnset = false ∧ (val key).Telling := by
  obtain ⟨val, htells, hval⟩ := h.tells hp hv hitem Data.Telling.str
  exact ⟨val, htells, htells.putFields_eq, hval⟩

/-- What holds of the values by which members are told apart holds of them after a merge. -/
theorem forall_field_merge {Q : Data → Prop} (h : es.Source Data.Telling t.kind)
    (hp : t.kind.placement? σ = some p)
    (hQ : ∀ v : Data, v.isUnset = false → v.Telling → Q v)
    (ht : ∀ c ∈ (t.slot σ).trees, ∀ key ∈ p.keys, Q (c.field key)) :
    ∀ c ∈ ((Tree.merge ov es t).slot σ).trees, ∀ key ∈ p.keys, Q (c.field key) := by
  rw [Tree.merge_slot _ _ _ hp]
  cases hv : es.text? (wireName σ) with
  | none => exact ht
  | some v =>
    refine Tree.forall_mergeSlot ht ?_ fun item hitem => ⟨fun key hkey => ?_, fun c hc key hkey => ?_⟩
    · rintro k b fs mark rfl rfl
      exact ⟨fun _ hkey => absurd hkey List.not_mem_nil, fun _ _ _ hkey => absurd hkey List.not_mem_nil⟩
    · obtain ⟨val, -, hblank, hval⟩ := h.new_eq_blank hp hv hitem
      obtain ⟨hset, htelling⟩ := hval key hkey
      rw [h.findable.field_merge hp hv hitem hkey, hblank, Tree.field_blank hkey]
      exact hQ _ (by simpa using hset) htelling.settled
    · rw [h.findable.field_merge hp hv hitem hkey]
      exact hc key hkey

/-- Members stay apart when items are put among them. -/
theorem pairwise_putMembers {P : Data → Prop} (ov : Bool) (htext : ∀ s : String, P (.str s))
    (h : es.Source P k) (hp : k.placement? σ = some p)
    (hv : es.text? (wireName σ) = some v) {items : List (Entries × Entries)}
    (hitems : items ⊆ p.items v) {ts : List Tree} (hts : ts.Pairwise fun c d => ¬Tree.Agree p c d) :
    (items.foldl (Tree.putMember (Tree.merge ov) p) ts).Pairwise fun c d => ¬Tree.Agree p c d := by
  induction items generalizing ts with
  | nil => exact hts
  | cons item items ih =>
    obtain ⟨hitem, hitems⟩ := List.cons_subset.1 hitems
    obtain ⟨val, htells, -⟩ := h.tells hp hv hitem htext
    have hblank := htells.putFields_eq
    have hfield : ∀ {t : Tree}, ∀ key ∈ p.keys, (Tree.merge ov item.2 t).field key = t.field key :=
      fun key hkey => h.findable.field_merge hp hv hitem hkey
    refine ih hitems (pairwise_upsert hts (fun a _ ha hagree => ?_) fun a b => ⟨?_, ?_⟩)
    -- A new member agrees with those that are told by the item.
    · rw [← Bool.not_eq_true, htells.hasValues_iff] at ha
      refine ha fun key hkey => ?_
      have halike := hagree key hkey
      rwa [hfield key hkey, hblank, Tree.field_blank hkey, Data.alike_settled_right] at halike
    · exact fun hab hagree => hab fun key hkey => by
        simpa only [hfield key hkey] using hagree key hkey
    · exact fun hba hagree => hba fun key hkey => by
        simpa only [hfield key hkey] using hagree key hkey

/-- Members stay apart when a good source is merged in. -/
theorem apart_merge (h : es.Source Data.Telling t.kind) (ht : t.Orderly)
    (hp : t.kind.placement? σ = some p) :
    ((Tree.merge ov es t).slot σ).trees.Pairwise fun c d => ¬Tree.Agree p c d := by
  have htyped : (Tree.merge ov es t).Typed := h.findable.typed_merge ht.typed
  have hfits := htyped σ p (by rw [Tree.merge_kind, hp])
  have hapart := ht.apart σ p hp
  cases hlist : p.isSingle with
  | true =>
    -- There is one child at most.
    cases hslot : (Tree.merge ov es t).slot σ with
    | members ts =>
      rw [hslot] at hfits
      exact nomatch hlist.symm.trans hfits.1
    | child c => exact List.pairwise_singleton _ _
    | _ => exact .nil
  | false =>
    rw [Tree.merge_slot _ _ _ hp]
    cases hv : es.text? (wireName σ) with
    | none => exact hapart
    | some v =>
      have hmembers : ((t.slot σ).grow ((p.items v).foldl (Tree.putMember (Tree.merge ov) p)
          (t.slot σ).list)).trees.Pairwise fun c d => ¬Tree.Agree p c d := by
        unfold Slot.grow
        split
        · exact hapart
        · refine h.pairwise_putMembers ov Data.Telling.str hp hv (List.Subset.refl _) ?_
          cases hslot : t.slot σ with
          | members ts =>
            rw [hslot] at hapart
            exact hapart
          | _ => exact .nil
      cases p with
      | single c b => exact nomatch hlist
      | _ => exact hmembers

/-- A tame tree stays so. -/
theorem tame_merge (h : es.Source Data.Telling t.kind) (ht : t.Tame) : (Tree.merge ov es t).Tame where
  typed := h.findable.typed_merge ht.typed
  regular σ p hp := by
    rw [Tree.merge_kind] at hp
    exact h.forall_field_merge hp (fun _ _ hv => hv.regular) (ht.regular σ p hp)

/-- An orderly tree stays so. -/
theorem orderly_merge (h : es.Source Data.Telling t.kind) (ht : t.Orderly) :
    (Tree.merge ov es t).Orderly where
  typed := h.findable.typed_merge ht.typed
  extensions := by
    rw [Tree.merge_extensions]
    exact ht.extensions.foldl_extend fun f hf => (List.mem_filter.1 hf).2
  arrays name hname := by
    rw [Tree.merge_kind] at hname
    have hfield : name ∈ t.kind.fields := (List.mem_filter.1 (t.kind.arrayFields_shown name hname)).1
    rw [Tree.merge_field _ h.distinct hfield]
    cases es.text? (wireName name) with
    | none => exact ht.arrays name hname
    | some v =>
      refine .inr ⟨Merge.unionItems ((t.field name).items?.getD []) (Merge.supplied v), ?_⟩
      show (Tree.mergeField ov _ _ name v _).items? = _
      rw [Tree.mergeField, if_pos (List.contains_iff_mem.2 hname)]
      exact Tree.items?_told_ofList (t.kind.arrayFields_shown name hname) _
  tells σ p hp := by
    rw [Tree.merge_kind] at hp
    have hQ := fun c hc key hkey => ht.tells σ p hp c hc key hkey
    exact h.forall_field_merge (Q := fun v => v.isUnset = false ∧ v.Telling) hp
      (fun _ hset hv => ⟨hset, hv⟩) hQ
  apart σ p hp := by
    rw [Tree.merge_kind] at hp
    exact h.apart_merge ht hp

end Entries.Source

namespace Tree

variable {t : Tree} {k : Kind} {es : Entries} {ov : Bool}

/-- A tree that is tame everywhere stays so. -/
theorem All.tame_merge (hes : es.All (Entries.Source Data.Telling) t.kind) (ht : t.All Tame) :
    (Tree.merge ov es t).All Tame :=
  All.merge (fun _ h => h.typed) (fun _ => tame_of_empty rfl)
    (fun _ _ _ _ _ _ _ _ _ _ => tame_of_empty (putFields_frame _ _).2.2.1)
    (fun _ _ h ht => h.tame_merge ht) hes t rfl ht

/-- A tree that is orderly everywhere stays so. -/
theorem All.orderly_merge (hes : es.All (Entries.Source Data.Telling) t.kind) (ht : t.All Orderly) :
    (Tree.merge ov es t).All Orderly := by
  refine All.merge (fun _ h => h.typed) (fun k => orderly_of_empty rfl rfl fun _ _ => rfl) ?_
    (fun _ _ h ht => h.orderly_merge ht) hes t rfl ht
  intro k es σ p v item h hp hv hitem
  obtain ⟨val, -, hblank, -⟩ := h.new_eq_blank hp hv hitem
  rw [hblank]
  exact orderly_blank hp val

end Tree

/-! ### A document with a server -/

/-- What holds of a source that has nothing for any slot holds of all that it brings. -/
theorem Entries.All.of_fields {Q : Kind → Entries → Prop} {k : Kind} {es : Entries} (hes : Q k es)
    (h : ∀ σ ∈ k.slots, es.text? (wireName σ) = none) : es.All Q k := by
  have hnone : ∀ {σ p v}, k.placement? σ = some p → es.text? (wireName σ) ≠ some v := by
    intro σ p v hp hv
    rw [h _ (Kind.mem_slots_of_placement? hp)] at hv
    cases hv
  exact .mk hes (fun _ _ _ _ _ hp hv => absurd hv (hnone hp))
    fun _ _ _ _ hp hv => absurd hv (hnone hp)

/-- A document with one server. -/
def oneServer (url description : String) : Entries :=
  [(.str "servers", .ofList
    [.ofEntries [(.str "url", .str url), (.str "description", .str description)]])]

/-- There is something for the servers only. -/
theorem oneServer_slots {url description : String} {σ : String} {p : Placement} {v : Data}
    (hp : Kind.openApi.placement? σ = some p)
    (hv : (oneServer url description).text? (wireName σ) = some v) :
    p = .listed .server ⟨"servers", ["url"]⟩ ∧ v = .ofList
      [.ofEntries [(.str "url", .str url), (.str "description", .str description)]] := by
  have hplacement : Kind.openApi.placement? "servers"
      = some (.listed .server ⟨"servers", ["url"]⟩) := by
    decide
  have hmem := Entries.mem_of_text? hv
  simp only [oneServer, List.mem_singleton, Prod.mk.injEq, Data.scalar.injEq,
    Scalar.str.injEq] at hmem
  have hservers : "servers" ∈ Kind.openApi.attributes := by decide
  have hσ : σ = "servers" := Kind.eq_of_wireName_eq
    (List.mem_append_right _ (Kind.mem_slots_of_placement? hp)) hservers
    (hmem.1.trans (by decide))
  rw [hσ, hplacement] at hp
  exact ⟨(Option.some.inj hp).symm, hmem.2⟩

/-- What holds of all sources in a document with one server. -/
theorem all_oneServer {Q : Kind → Entries → Prop} {url description : String}
    (hdocument : Q .openApi (oneServer url description))
    (hserver : Q .server [(.str "description", .str description)]) :
    (oneServer url description).All Q .openApi := by
  refine .mk hdocument (fun σ c b fs mark hp hv => ?_) fun σ p v item hp hv hitem => ?_
  · cases (oneServer_slots hp hv).1
  · obtain ⟨rfl, rfl⟩ := oneServer_slots hp hv
    rw [List.mem_singleton.1 hitem]
    exact .of_fields hserver fun σ hσ => absurd hσ List.not_mem_nil

/-- The source with one server has distinct keys. -/
theorem distinct_oneServer (url description : String) : (oneServer url description).Distinct :=
  ⟨by simp [oneServer], List.pairwise_singleton _ _⟩

/-- The server is told by its address. -/
theorem brings_oneServer {P : Data → Prop} {url description : String} (hurl : P (.str url)) :
    (Placement.listed .server ⟨"servers", ["url"]⟩).Brings P (.ofList
      [.ofEntries [(.str "url", .str url), (.str "description", .str description)]]) := by
  intro xs hxs x hx
  cases hxs
  rw [List.mem_singleton.1 hx]
  refine ⟨fun j hj => (by cases hj), fun gs mark hgs => ?_⟩
  cases hgs
  refine ⟨by simp [Entries.Distinct], fun name hname => ⟨.str url, ?_, rfl, hurl⟩⟩
  rw [List.mem_singleton.1 hname, show wireName "url" = "url" by decide]
  exact Entries.text?_cons_self

/-- A description is a good source for a server. -/
theorem source_description {P : Data → Prop} (description : String) :
    Entries.Source P .server [(.str "description", .str description)] where
  distinct := ⟨by simp, List.pairwise_singleton _ _⟩
  brings σ p v hp _ := absurd (Kind.mem_slots_of_placement? hp) List.not_mem_nil

/-- The source with one server is good at every depth. -/
theorem source_oneServer (url description : String) :
    (oneServer url description).All (Entries.Source Data.Telling) .openApi := by
  refine all_oneServer ⟨distinct_oneServer url description, fun σ p v hp hv => ?_⟩
    (source_description description)
  obtain ⟨rfl, rfl⟩ := oneServer_slots hp hv
  exact brings_oneServer (.str url)

/-- Two documents without content. -/
def twoDocuments : Draft where
  forest := ⟨#[{ kind := .openApi }, { kind := .openApi }]⟩

/-- Each of the two documents stands alone. -/
theorem holds_twoDocuments {i : NodeId} (hi : i < 2) :
    twoDocuments.forest.Holds (.fresh .openApi []) i {i} := by
  have hnode : twoDocuments.forest.get i = { kind := .openApi } := by
    match i with
    | 0 => rfl
    | 1 => rfl
  have hmatches : Node.Matches { kind := .openApi } (.fresh .openApi []) :=
    .fresh (fun _ h => absurd h List.not_mem_nil) .null
  exact .leaf hmatches (fun _ _ => rfl) rfl hi hnode

/-- Whether there are two contents, and they are not equal. -/
def contentsDiffer : Except Failure Entries → Except Failure Entries → Bool
  | .ok fs, .ok gs => !(Data.ofEntries fs).alike (.ofEntries gs)
  | _, _ => false

end ApiDoc
