import ApiDoc.Proofs.Document.Children

namespace ApiDoc.Edit

/-!
# Members of lists found

* `position?_none`, `position?_some` — what a search says about the items;
* `Keeps.indexedItem` — the member with a key, found or made, is one that has it; what stood in the
  list before still does;
* `Keeps.collectionItem`, `Keeps.removeIndexed` — the member that has values, found or made, and
  the member with a key taken out.
-/

open Forest

variable {d : Draft} {p : NodeId} {k : Kind}

/-! ### Searching -/

theorem position?_none {test : Data → Except Failure Bool} {i : Nat} {items : List Data}
    (h : position? test i items = .ok none) : ∀ x ∈ items, test x = .ok false := by
  induction items generalizing i with
  | nil => exact fun _ hx => absurd hx List.not_mem_nil
  | cons y ys ih =>
    unfold position? at h
    cases hy : test y with
    | error e => rw [hy] at h; exact nomatch h
    | ok b =>
      rw [hy] at h
      cases b with
      | true => exact nomatch h
      | false => exact List.forall_mem_cons.2 ⟨hy, ih h⟩

theorem position?_some {test : Data → Except Failure Bool} {i n : Nat} {items : List Data}
    (h : position? test i items = .ok (some n)) :
    ∃ m x, n = i + m ∧ items[m]? = some x ∧ test x = .ok true := by
  induction items generalizing i with
  | nil => exact nomatch h
  | cons y ys ih =>
    unfold position? at h
    cases hy : test y with
    | error e => rw [hy] at h; exact nomatch h
    | ok b =>
      rw [hy] at h
      cases b with
      | true =>
        cases h
        exact ⟨0, y, rfl, rfl, hy⟩
      | false =>
        obtain ⟨m, x, hn, hx, htest⟩ := ih h
        exact ⟨m + 1, x, by omega, hx, htest⟩

theorem Looks.searchIndexed (items : List Data) (name : String) (v : Data) :
    Looks (searchIndexed items name v) d
      fun i? => position? (hasKey d.forest name v) 0 items = .ok i? :=
  .look fun f => position? (hasKey f name v) 0 items

theorem Looks.searchCollection (items : List Data) (fields : Entries) :
    Looks (searchCollection items fields) d
      fun i? => position? (fun v => hasValues d.forest v fields) 0 items = .ok i? :=
  .look fun f => position? (fun v => hasValues f v fields) 0 items

theorem nodeAt?_eq_some {items : List Data} {i? : Option Nat} {j : NodeId}
    (h : nodeAt? items i? = some j) : ∃ i, i? = some i ∧ items[i]? = some (.node j) := by
  obtain ⟨i, hi, h⟩ := Option.bind_eq_some_iff.1 h
  obtain ⟨x, hx, hj⟩ := Option.bind_eq_some_iff.1 h
  rw [Data.node?_eq_some.1 hj] at hx
  exact ⟨i, hi, hx⟩

/-- Whether a key is that of a member, is decided by the value under its key. -/
theorem hasKey_node {f : Forest} {name : String} {v : Data} {j : NodeId} {b : Bool}
    (hname : name ∈ (f.get j).kind.fields) (h : hasKey f name v (.node j) = .ok b) :
    b = ((f.get j).value name).identical v := by
  have hread : f.readFrom (.node j) name = .ok ((f.get j).value name) :=
    Forest.read_attribute (List.mem_append_left _ hname)
  have hkind : (name != "kind") = true := by
    have hreserved := Kind.field_notMem_reserved _ _ hname
    simp only [Keeps.reserved, List.mem_cons, not_or] at hreserved
    simpa using hreserved.2.2.1
  unfold hasKey at h
  rw [hread] at h
  cases h
  rw [hkind, Bool.true_and]

/-! ### Found or made -/

namespace Keeps

variable {K : Kind → Prop}

/-- The member with a key, found or made. What stood in the list before still does. -/
theorem indexedItem (hs : d.forest.Sound) (hp : d.forest.Has K p) (v : Data) :
    Keeps K (indexedItem p k v) d fun j f => f.IsChild p k j ∧
      ∃ slot, (k, slot) ∈ (d.forest.get p).kind.layout.indexed ∧
        .node j ∈ f.members p slot.name ∧ d.forest.members p slot.name ⊆ f.members p slot.name ∧
        ∀ s, v = .str s → (f.get j).value slot.key = .str s := by
  refine .after_look (.slotFor .indexed (·.indexed)) fun slot hslot => ?_
  have hname := Layout.mem_lists_of_indexed hslot
  have hkey : slot.key ∈ k.fields := Kind.index_mem_fields _ _ hslot
  refine .after_look (.membersOf hs hp.1 hname) fun items hitems => ?_
  subst hitems
  refine .after_look (.searchIndexed _ _ _) fun i? hsearch => ?_
  split
  · rename_i j hfound
    obtain ⟨i, rfl, hj⟩ := nodeAt?_eq_some hfound
    obtain ⟨m, x, hi, hx, htest⟩ := position?_some hsearch
    rw [Nat.zero_add] at hi
    subst hi
    obtain rfl : x = .node j := Option.some.inj (hx.symm.trans hj)
    -- The member found has the key, for it is decided by what stands under the key.
    have hmem := List.mem_of_getElem? hj
    obtain ⟨j', hj', hchild⟩ := hs.isChild_of_mem hp.1 hname hmem
    cases hj'
    refine .pure hs ⟨hchild, slot, hslot, hmem, List.Subset.refl _, ?_⟩
    rintro s rfl
    have := hasKey_node (by rw [hchild.2.1]; exact hkey) htest
    exact Data.identical_str_iff.1 this.symm
  · rename_i hnone
    have hfields : Entries.AreFields k [(.str slot.key, v)] := by
      intro e he
      rw [List.mem_singleton.1 he]
      exact ⟨slot.key, hkey, rfl⟩
    -- All members were looked at, since all are nodes.
    have hall : ∀ x ∈ d.forest.members p slot.name, hasKey d.forest slot.key v x = .ok false := by
      cases i? with
      | none => exact position?_none hsearch
      | some i =>
        obtain ⟨m, x, hi, hx, -⟩ := position?_some hsearch
        rw [Nat.zero_add] at hi
        subst hi
        obtain ⟨j, rfl, -⟩ := hs.isChild_of_mem hp.1 hname (List.mem_of_getElem? hx)
        simp [nodeAt?, hx, Data.node?] at hnone
    refine .bind (appendItem hs hp hname hfields ?_) fun r d₁ hs₁ hc₁ h₁ => ?_
    · -- The key is new among component schemas, where the field that is the key is their name.
      intro hkind hschemas x hx key hxkey hvkey
      have hschema : slot.key = "schema" := by
        rw [hkind] at hslot
        exact Kind.key_of_schemas _ hslot hschemas
      obtain ⟨j, rfl, hj⟩ := hs.isChild_of_mem hp.1 hname hx
      have htest := hasKey_node (by rw [hj.2.1]; exact hkey) (hall _ hx)
      rw [← hschema, Node.putFields_single, Data.str?_eq_some] at hvkey
      rw [hschema, Data.str?_eq_some.1 hxkey, hvkey] at htest
      exact Bool.false_ne_true (htest.trans (Data.identical_str_iff.2 rfl))
    · obtain ⟨hchild, hmembers, hnew⟩ := h₁
      refine .pure hs₁ ⟨hchild, slot, hslot, ?_, ?_, ?_⟩
      · rw [hmembers]; simp
      · rw [hmembers]; simp
      · rintro s rfl
        rw [hnew, Node.putFields_single]

/-- A member that has values given, found or made. -/
theorem collectionItem (hs : d.forest.Sound) (hp : d.forest.Has K p) {fields : Entries}
    (hfields : fields.AreFields k) :
    Keeps K (collectionItem p k fields) d fun j f => f.IsChild p k j := by
  refine .after_look (.slotFor .collection (·.collections)) fun slot hslot => ?_
  have hname := Layout.mem_lists_of_collections hslot
  extract_lets answer
  have hanswer : ∀ j? : Option NodeId,
      (∀ j, j? = some j → .node j ∈ d.forest.members p slot.name) →
      Keeps K (answer j?) d fun j f => f.IsChild p k j := by
    intro j? hj?
    cases j? with
    | some j =>
      obtain ⟨j', hj', hchild⟩ := hs.isChild_of_mem hp.1 hname (hj? j rfl)
      cases hj'
      exact .pure hs hchild
    | none =>
      refine .bind (appendItem hs hp hname hfields fun hkind => ?_) fun r d₁ hs₁ _ h₁ =>
        .pure hs₁ h₁.1
      rw [hkind] at hslot
      exact absurd hslot List.not_mem_nil
  refine .ite (fun _ => hanswer none fun j hj => by simp at hj) fun _ => ?_
  refine .after_look (.membersOf hs hp.1 hname) fun items hitems => ?_
  refine .after_look (.searchCollection _ _) fun i? _ => hanswer _ fun j hj => ?_
  obtain ⟨i, -, hi⟩ := nodeAt?_eq_some hj
  rw [← hitems]
  exact List.mem_of_getElem? hi

/-- A member taken out of its list. -/
theorem removeIndexed (hs : d.forest.Sound) (hp : d.forest.Has K p) (v : Data) :
    Keeps K (removeIndexed p k v) d fun _ _ => True := by
  refine .after_look (.slotFor .indexed (·.indexed)) fun slot hslot => ?_
  have hname := Layout.mem_lists_of_indexed hslot
  refine .after_look (.node p) fun n hn => ?_
  subst hn
  split
  · rename_i items mark hlist
    refine .after_look (.searchIndexed _ _ _) fun i? _ => ?_
    cases i? with
    | none => exact .pure hs trivial
    | some i =>
      have hsub : (items.eraseIdx i).Sublist items := List.eraseIdx_sublist _ _
      refine .bind (assign hs hp ((hs.slots p hp.1).putList hname _ mark ?_ ?_)
        (ne_key_of_lists hname)) fun _ d₁ hs₁ _ _ => .pure hs₁ trivial
      · intro x hx
        refine hs.isChild_of_mem hp.1 hname ?_
        rw [members_of_list hlist]
        exact hsub.subset hx
      · intro hkind hschemas
        rw [hschemas] at hlist
        exact ((hs.slots p hp.1).keys hkind _ _ hlist).sublist hsub
  · exact .pure hs trivial

end Keeps

end ApiDoc.Edit
