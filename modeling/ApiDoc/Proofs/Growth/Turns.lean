import ApiDoc.Proofs.Growth.Seated

namespace ApiDoc

/-!
# What one turn of a merge leaves alone

* `Forest.Confined` — a change to one slot of a node and to one child in it;
* `Touches.confined` — a child found or made, and then a change to its tree;
* `Follows.collectionItem_values` — the values of a member that is found by some of its fields;
* `Forest.Told`, `Edit.setPlain_told` — an entry that names no slot.
-/

open Forest Merge

/-! ### Changes to one child -/

namespace Forest

variable {f g h : Forest} {i j : NodeId} {σ : String} {p : Placement} {S : Licence} {key : Data}

/-- A forest in which, of the slots of a node and of the children in one of them, all have stayed
    as they are but for this slot and one of its children. -/
structure Confined (f g : Forest) (i : NodeId) (σ : String) (j : NodeId) : Prop where
  slots : ∀ τ ∈ (f.get i).kind.slots, τ ≠ σ → f.SlotUnmoved g i τ
  members : ∀ b, .node b ∈ ((f.get i).value σ).nodes → .node b ∈ ((g.get i).value σ).nodes →
    b ≠ j → f.Unmoved g b

/-- A child that is found or made in a slot, and then a change to its tree. -/
theorem Touches.confined {new : Node} (hfg : f.Touches i σ new g) (hf : f.Consistent)
    (hg : g.Consistent) (hp : (g.get i).kind.placement? σ = some p)
    (hj : .node j ∈ ((g.get i).value σ).nodes) (hS : S.nodes = g.Around j) (hrun : Steps S g h) :
    f.Confined h i σ j ∧ h.get i = g.get i := by
  have hi : i < g.size := Nat.lt_of_lt_of_le hfg.holder hfg.size_le
  have hσ := Kind.mem_slots_of_placement? hp
  obtain ⟨hself, hothers⟩ := hg.sibling_unmoved hi hσ hj (fun b hb hnodes =>
    ((hS ▸ hnodes : g.Around j b)).resolve_right (Nat.not_le_of_lt hb)) hrun
  have hkind : (f.get i).kind = (g.get i).kind := hfg.kind.symm
  refine ⟨⟨fun τ hτ hne => ?_, fun b hb hb' hne => ?_⟩, hself⟩
  · refine (hfg.slotUnmoved hf hτ hne).trans ⟨by rw [hself], fun b hb => ?_⟩
    refine hothers τ (hkind ▸ hτ) b hb ?_
    -- Children in different slots are of different kinds.
    rintro rfl
    obtain ⟨q, hq, hchild, -⟩ := hg.child hi (hkind ▸ hτ) hb
    obtain ⟨p', hp', hchild', -⟩ := hg.child hi hσ hj
    exact hne (Kind.slot_unique hq hp' (hchild.2.1.symm.trans hchild'.2.1))
  · rw [hself] at hb'
    exact (hfg.unmoved hf (hkind ▸ hσ) hb).trans (hothers σ hσ b hb' hne)

/-- A forest in which a node tells a key and has the slots that it had. -/
structure Told (f g : Forest) (i : NodeId) (s : String) : Prop where
  tells : (g.get i).Tells s
  size_eq : g.size = f.size
  slots : ∀ σ ∈ (f.get i).kind.slots, f.SlotUnmoved g i σ

theorem Told.put (hf : f.Consistent) (hi : i < f.size) {n : Node} {s : String}
    (hslots : ∀ σ ∈ (f.get i).kind.slots, n.value σ = (f.get i).value σ) (hn : n.Tells s) :
    f.Told (f.put i n) i s := by
  have hself := f.get_put_self hi n
  refine ⟨by rwa [hself], size_put .., fun σ hσ => ⟨?_, fun c hc j hj => ?_⟩⟩
  · rw [hself]
    exact hslots σ hσ
  · obtain ⟨_, -, hchild, hlt⟩ := hf.child hi hσ hc
    have hle := (hf.below_lt hchild.1 hj).1
    exact f.get_put_of_ne (Nat.ne_of_gt (Nat.lt_of_lt_of_le hlt hle)) n

end Forest

/-! ### Values of a member -/

namespace Node

theorem value_putFields_of_notMem {fields : Entries} {name : String} (n : Node)
    (h : ∀ e ∈ fields, ∃ other, e.1 = .str other ∧ other ≠ name) :
    (n.putFields fields).value name = n.value name := by
  induction fields generalizing n with
  | nil => rfl
  | cons e fields ih =>
    obtain ⟨⟨other, hkey, hne⟩, hrest⟩ := List.forall_mem_cons.1 h
    refine (ih (n.putValue (e.1.str?.getD "") e.2) hrest).trans ?_
    rw [hkey]
    exact n.value_putValue_of_ne (Ne.symm hne) _

/-- Each of some distinct fields that are set has the value given. -/
theorem value_putFields {fields : Entries} (n : Node) (hdistinct : fields.Distinct)
    {name : String} {v : Data} (hmem : (.str name, v) ∈ fields) (hv : v ≠ .unset) :
    (n.putFields fields).value name = v := by
  induction fields generalizing n with
  | nil => exact absurd hmem List.not_mem_nil
  | cons e fields ih =>
    rcases List.mem_cons.1 hmem with rfl | hmem
    -- Distinct keys: no later field writes this one again.
    · refine (value_putFields_of_notMem (n.putValue name v) fun e he => ?_).trans
        (n.value_putValue_self name (Data.isUnset_eq_false hv))
      obtain ⟨other, hother⟩ := hdistinct.tail.1 e he
      refine ⟨other, hother, ?_⟩
      rintro rfl
      exact (List.pairwise_cons.1 hdistinct.2).1 e he hother.symm
    · exact ih (n.putValue (e.1.str?.getD "") e.2) hdistinct.tail hmem

end Node

/-- What identifies an item stands under different names. -/
theorem Entries.Distinct.identity {k : Kind} {slot : CollectionSlot} {es : Entries}
    (hes : es.Distinct) (hslot : slot.identifying ≠ []) : Entries.Distinct (es.identity k slot) := by
  refine ⟨fun e he => ?_, List.Pairwise.filterMap _ ?_ hes.2⟩
  · obtain ⟨name, -, hname⟩ := Entries.mem_identity hslot he
    exact ⟨name, hname⟩
  · intro e f hne e' he' f' hf'
    obtain ⟨name, hname, rfl⟩ := Option.map_eq_some_iff.1 he'
    obtain ⟨other, hother, rfl⟩ := Option.map_eq_some_iff.1 hf'
    intro he
    cases he
    exact hne ((identifies?_eq_some hslot hname).2.2.trans (identifies?_eq_some hslot hother).2.2.symm)

namespace Edit

variable {d d' : Draft} {i j : NodeId} {k : Kind} {fields : Entries}

/-- A member that passes the search has values like those given. -/
theorem alike_of_hasValues {f : Forest} (hfields : fields.AreFields (f.get j).kind)
    (h : hasValues f (.node j) fields = .ok true) {name : String} {v : Data}
    (hmem : (.str name, v) ∈ fields) : ((f.get j).value name).alike v = true := by
  induction fields with
  | nil => exact absurd hmem List.not_mem_nil
  | cons e fields ih =>
    obtain ⟨key, w⟩ := e
    -- A key of the fields is a name that the node declares, so it can be read.
    obtain ⟨⟨other, hother, hkey⟩, hrest⟩ := List.forall_mem_cons.1 hfields
    dsimp only at hkey
    subst hkey
    have hread : f.readFrom (.node j) other = .ok ((f.get j).value other) :=
      read_attribute (List.mem_append_left _ hother)
    have h : (f.readFrom (.node j) other >>= fun u =>
      if u.alike w then hasValues f (.node j) fields else pure false) = .ok true := h
    rw [hread] at h
    have h : (if ((f.get j).value other).alike w then hasValues f (.node j) fields else pure false)
      = .ok true := h
    -- The test stops at the first field that differs.
    by_cases halike : ((f.get j).value other).alike w = true
    · rw [if_pos halike] at h
      rcases List.mem_cons.1 hmem with he | hmem
      · cases he
        exact halike
      · exact ih hrest h hmem
    · rw [if_neg halike] at h
      cases h

/-- The member that is found by some fields has values like those given, or has been made with
    them. -/
theorem Follows.collectionItem_values {S : Licence} (hf : d.forest.Formed S.nodes) (hi : S.nodes i)
    (hlt : i < d.forest.size) (hfields : fields.AreFields k) (hdistinct : fields.Distinct)
    (hset : ∀ e ∈ fields, e.2 ≠ .unset) :
    Follows S (Edit.collectionItem i k fields) d fun j g => ∀ name v, (.str name, v) ∈ fields →
      (g.get j).value name = v ∨ ((g.get j).value name).alike v = true := by
  refine .after_look (.slotFor _ _ _ _) (.slotFor .collection (·.collections)) fun slot hslot => ?_
  have hp : (d.forest.get i).kind.placement? slot.name = some (.listed k slot) :=
    Kind.placement?_collections _ _ hslot
  extract_lets answer
  -- Members that are found hold the values by the test, new members by their fields.
  have hanswer : ∀ j? : Option NodeId,
      (∀ j, j? = some j → ∀ name v, (.str name, v) ∈ fields →
        ((d.forest.get j).value name).alike v = true) →
      Follows S (answer j?) d fun j g => ∀ name v, (.str name, v) ∈ fields →
        (g.get j).value name = v ∨ ((g.get j).value name).alike v = true := by
    intro j? hj?
    cases j? with
    | some j => exact .pure fun name v hmem => .inr (hj? j rfl name v hmem)
    | none =>
      refine .bind (appendItem (p := .listed k slot) hf hi hlt hp rfl hfields.unreserved
        fun _ _ => nofun) fun r d₁ _ h => .pure fun name v hmem => .inl ?_
      obtain ⟨-, -, -, hnew⟩ := h
      rw [hnew]
      exact Node.value_putFields _ hdistinct hmem (hset _ hmem)
  refine .ite (fun _ => hanswer none fun j hj => by cases hj) fun _ => ?_
  refine .after_look (.membersOf _ _) (.slotMembers hf hi hlt hp rfl) fun items hitems => ?_
  subst hitems
  refine .after_look (.searchCollection _ _) (.searchCollection _ _) fun i? hsearch =>
    hanswer _ fun j hj name v hmem => ?_
  -- The member that was found stands at the place that the search returned.
  obtain ⟨n, rfl, hn⟩ := nodeAt?_eq_some hj
  obtain ⟨m, x, hm, hx, htest⟩ := position?_some hsearch
  rw [Nat.zero_add] at hm
  subst hm
  obtain rfl : x = .node j := Option.some.inj (hx.symm.trans hn)
  obtain ⟨j', he, hchild, -⟩ := hf.member hi hlt hp rfl (List.mem_of_getElem? hn)
  cases he
  exact alike_of_hasValues (by rw [hchild.2.1]; exact hfields) htest hmem

/-! ### Single values -/

variable {o : MergeOptions} {name s : String} {v : Data}

/-- A value that fills or replaces, if none stands in its place. -/
theorem setScalar_cases (h : Merge.setScalar o i name v d = .ok () d') :
    d'.forest = d.forest.put i ((d.forest.get i).putValue name v) ∨
      d'.forest = d.forest ∧ (d.forest.get i).value name ≠ .unset := by
  obtain ⟨n, d₁, hn, h⟩ := Results.bind_eq_ok.1 h
  obtain ⟨rfl, rfl⟩ := Looks.node i n d₁ hn
  split at h
  · cases h
    exact .inl rfl
  · rename_i hnot
    cases h
    refine .inr ⟨rfl, fun hunset => hnot ?_⟩
    simp [Node.isSet, hunset, Data.isUnset]

/-- A value put among the extensions, or one that stands there. -/
theorem setExtension_cases {es : Entries} {mark : Nat}
    (hes : (d.forest.get i).extensions = .map es mark)
    (h : Merge.setExtension o i s v d = .ok () d') : ∃ es' : Entries, (es'.text? s).isSome = true ∧
      d'.forest = d.forest.put i { d.forest.get i with extensions := .map es' mark } ∨
      d'.forest = d.forest ∧ (es.text? s).isSome = true := by
  obtain ⟨n, d₁, hn, h⟩ := Results.bind_eq_ok.1 h
  obtain ⟨rfl, rfl⟩ := Looks.node i n d₁ hn
  rw [hes] at h
  -- Unless the entry is skipped, it is inserted under its name.
  have hput : ∀ skip : Bool, (do
      if !skip then
        let extensions ← Edit.ofExcept (Merge.putExtension s v (.map es mark))
        Edit.setNode i { d₁.forest.get i with extensions := extensions }) d₁ = .ok () d' →
      skip = false ∧ d'.forest = d₁.forest.put i { d₁.forest.get i with
        extensions := .map (es.insert (.str s) v) mark } ∨ skip = true ∧ d'.forest = d₁.forest := by
    intro skip h
    cases skip with
    | false =>
      cases h
      exact .inl ⟨rfl, rfl⟩
    | true =>
      cases h
      exact .inr ⟨rfl, rfl⟩
  -- Just inserted, the name is found.
  have hinserted : ((es.insert (.str s) v).text? s).isSome = true := by
    rw [Entries.text?_insert, if_pos rfl]
    rfl
  split at h
  · rcases hput false h with ⟨-, hd'⟩ | ⟨hskip, -⟩
    · exact ⟨_, .inl ⟨hinserted, hd'⟩⟩
    · cases hskip
  · rcases hput (es.has (.str s)) h with ⟨-, hd'⟩ | ⟨hskip, hd'⟩
    · exact ⟨_, .inl ⟨hinserted, hd'⟩⟩
    · exact ⟨es, .inr ⟨hd', hskip⟩⟩

/-- An entry that names no slot, if no key is refused. -/
theorem setPlain_told (hf : d.forest.Consistent) (hi : i < d.forest.size) (ho : o.policy = .error)
    (hfield : ∀ name, (d.forest.get i).kind.fieldOfWire? s = some name →
      name ∉ (d.forest.get i).kind.internalFields ∧ v ≠ .unset)
    (h : Merge.setPlain o i (.str s) v d = .ok () d') : d.forest.Told d'.forest i s := by
  -- Nothing is written: the node tells the entry already.
  have hsame : d'.forest = d.forest → (d.forest.get i).Tells s → d.forest.Told d'.forest i s := by
    intro hd' htells
    rw [hd']
    exact ⟨htells, rfl, fun σ _ => .refl _ _ σ⟩
  -- A node is written that tells the entry and keeps its slots.
  have hput : ∀ n : Node, (∀ σ ∈ (d.forest.get i).kind.slots,
      n.value σ = (d.forest.get i).value σ) → n.Tells s → d'.forest = d.forest.put i n →
        d.forest.Told d'.forest i s := by
    intro n hslots htells hd'
    rw [hd']
    exact .put hf hi hslots htells
  -- A field is written, which is never one of the slots.
  have hvalue : ∀ name w, (d.forest.get i).kind.fieldOfWire? s = some name → w ≠ .unset →
      d'.forest = d.forest.put i ((d.forest.get i).putValue name w) →
        d.forest.Told d'.forest i s := by
    intro name w hname hw hd'
    obtain ⟨hmem, -⟩ := Kind.mem_fields_of_wire hname
    refine hput _ (fun σ hσ => Node.value_putValue_of_ne _ ?_ _)
      (.inr ⟨name, hname, (hfield name hname).1, ?_⟩) hd'
    · rintro rfl
      exact Kind.field_notMem_slots _ _ hmem hσ
    · rw [Node.value_putValue_self _ name (Data.isUnset_eq_false hw)]
      exact hw
  rw [setPlain_text rfl] at h
  -- Extensions, then keys without a field, then lists that are united, then all other fields.
  by_cases hx : s.startsWith "x-" = true
  · rw [if_pos hx] at h
    obtain ⟨-, es, mark, hes, -⟩ := hf.tidy i hi
    obtain ⟨es', ⟨hs, hd'⟩ | ⟨hd', hs⟩⟩ := setExtension_cases hes h
    · exact hput { d.forest.get i with extensions := .map es' mark } (fun _ _ => rfl)
        (.inl ⟨es', mark, rfl, hs⟩) hd'
    · exact hsame hd' (.inl ⟨es, mark, hes, hs⟩)
  rw [if_neg hx] at h
  cases hname : (d.forest.get i).kind.fieldOfWire? s with
  | none =>
    rw [hname] at h
    -- Such an entry would have been rejected.
    have hpolicy := (Follows.reject (S := .sparing false) s .undeclared).2 () d' h
    rw [ho] at hpolicy
    cases hpolicy
  | some name =>
    rw [hname] at h
    by_cases harray : (d.forest.get i).kind.arrayFields.contains name = true
    · simp only [if_pos harray] at h
      cases h
      exact hvalue name (.ofList _) hname nofun rfl
    · simp only [if_neg harray] at h
      rcases setScalar_cases h with hd' | ⟨hd', hset⟩
      · exact hvalue name v hname (hfield name hname).2 hd'
      · exact hsame hd' (.inr ⟨name, hname, (hfield name hname).1, hset⟩)

end Edit

end ApiDoc
