import ApiDoc.Proofs.Tree.Refinement

namespace ApiDoc

/-!
# What a merge does at each slot

A merge goes through the slots of a node, whatever they are for, and then through the entries that
name no slot:

* `Kind.placements` — the slots of a kind in the order in which they are merged;
* `Placement.refuses` — why a slot does not take a value;
* `Merge.take`, `Merge.intoSlot` — a value taken into a slot, and the entry for a slot: there is
  none, or it is refused, or its value is taken;
* `Merge.content_parts` — the whole merge in terms of these;
* `Entries.passes` — a test of a source and of all that it brings for children.
-/

namespace Kind

/-- The slots of a kind in the order in which they are merged. -/
def placements (k : Kind) : List (String × Placement) :=
  k.layout.singular.map (fun q => (q.2, .single q.1 (k.layout.booleanSlots.contains q.2)))
    ++ k.layout.indexed.map (fun q => (q.2.name, .keyed q.1 q.2.key))
    ++ k.layout.collections.map fun q => (q.2.name, .listed q.1 q.2)

/-- A slot of the list of placements is for what the list says. -/
theorem placement?_of_mem {k : Kind} {q : String × Placement} (h : q ∈ k.placements) :
    k.placement? q.1 = some q.2 := by
  rcases List.mem_append.1 h with h | h
  · rcases List.mem_append.1 h with h | h
    · obtain ⟨c, hc, rfl⟩ := List.mem_map.1 h
      exact k.placement?_singular c hc
    · obtain ⟨c, hc, rfl⟩ := List.mem_map.1 h
      exact k.placement?_indexed c hc
  · obtain ⟨c, hc, rfl⟩ := List.mem_map.1 h
    exact k.placement?_collections c hc

/-- Every slot is in the list of placements. -/
theorem mem_placements {k : Kind} {σ : String} {p : Placement} (h : k.placement? σ = some p) :
    (σ, p) ∈ k.placements := by
  rcases mem_layout_of_placement? h with ⟨c, hslot, rfl⟩ | ⟨c, slot, hslot, rfl, rfl⟩ |
    ⟨c, slot, hslot, rfl, rfl⟩
  · exact List.mem_append_left _ (List.mem_append_left _ (List.mem_map.2 ⟨_, hslot, rfl⟩))
  · exact List.mem_append_left _ (List.mem_append_right _ (List.mem_map.2 ⟨_, hslot, rfl⟩))
  · exact List.mem_append_right _ (List.mem_map.2 ⟨_, hslot, rfl⟩)

/-- No slot is merged twice. -/
theorem placements_nodup (k : Kind) : (k.placements.map Prod.fst).Nodup := by
  cases k <;> decide

end Kind

/-- Why a slot does not take a value; nothing if it does. -/
def Placement.refuses : Placement → Data → Option Rejection
  | .single _ boolean, .scalar (.bool b) =>
    if boolean then none else some (.notObject (Data.bool b).typeName)
  | .single _ _, .map _ _ => none
  | .single _ _, .node _ => none
  | .single _ _, v => some (.notObject v.typeName)
  | .keyed _ _, .map _ _ => none
  | .keyed _ _, v => some (.notMapping v.typeName)
  | .listed _ _, .list _ _ => none
  | .listed _ _, .tuple _ _ => none
  | .listed _ _, v => some (.notList v.typeName)

namespace Merge

variable (o : MergeOptions) (read : Reader) (i : NodeId)

/-- A value taken into a slot. -/
def take (σ : String) : Placement → Data → Edit Unit
  | .single _ _, .scalar (.bool b) => setScalar o i σ (.bool b)
  | .single k _, v => do asContent o read v (← Edit.child i k)
  | .keyed k _, v => asMembers o read v k i
  | .listed k slot, v => asItems o read v k slot i

/-- The entry for a slot: there is none, or it is refused, or its value is taken. -/
def intoSlot (es : Entries) (σ : String) (p : Placement) : Edit Unit :=
  match es.text? (wireName σ) with
  | none => return
  | some v => match p.refuses v with
    | some why => reject o i (wireName σ) why
    | none => take o read i σ p v

/-- What is done with the parts of a value that has content: a mapping, or a node that is read. -/
def opened (fuel : Nat) (act : List Part → Edit Unit) : Data → Edit Unit
  | .map es _ => act (parts o (readParts o fuel) es)
  | .node j => do act (← partsOf (readParts o fuel) j)
  | v => throw (.notContent v.typeName)

/-- An entry merged as the member under its key. -/
def intoMember (k : Kind) (e : Data × Data) : Edit Unit := do
  asContent o read e.2 (← Edit.indexedItem i k e.1)

/-- The entries that name no slot. -/
def plain (k : Kind) (es : Entries) : Entries := es.filter fun e => !isSlotKey k.layout e.1

variable {o read i} {es : Entries} {k : Kind} {σ : String} {p : Placement} {v : Data}

/-- Nothing given for a slot does nothing. -/
theorem intoSlot_of_none (h : es.text? (wireName σ) = none) :
    intoSlot o read i es σ p = pure () := by
  rw [intoSlot, h]

/-- A value that the slot refuses is rejected. -/
theorem intoSlot_of_refused (hv : es.text? (wireName σ) = some v) {why : Rejection}
    (h : p.refuses v = some why) :
    intoSlot o read i es σ p = reject o i (wireName σ) why := by
  rw [intoSlot, hv]
  dsimp only
  rw [h]

/-- A value that the slot takes goes into it. -/
theorem intoSlot_of_taken (hv : es.text? (wireName σ) = some v) (h : p.refuses v = none) :
    intoSlot o read i es σ p = take o read i σ p v := by
  rw [intoSlot, hv]
  dsimp only
  rw [h]

/-! ### Content -/

/-- The content of a node is made of whatever the value opens to. -/
theorem asContent_eq_opened (o : MergeOptions) (fuel : Nat) (v : Data) (i : NodeId) :
    asContent o (readParts o fuel) v i = opened o fuel (fun ps => content o ps i) v := by
  cases v <;> rfl

/-- Members under keys, one by one. -/
theorem keyed_eq_intoMember (fs : Entries) :
    keyed k (parts o read fs) i = List.forM fs (intoMember o read i k) := keyed_parts fs

/-- Items of a list, each opened in turn. -/
theorem items_eq_opened (o : MergeOptions) (fuel : Nat) (xs : List Data) (slot : CollectionSlot) :
    items o (readParts o fuel) xs k slot i
      = xs.forM (opened o fuel fun ps => listed o k slot ps i) := by
  rw [items_eq_forM]
  refine congrArg xs.forM (funext fun x => ?_)
  cases x <;> rfl

/-- What is read from a node. -/
theorem partsOf_eq_ok {fuel : Nat} {j : NodeId} {ps : List Part} {d d' : Draft} :
    partsOf (readParts o fuel) j d = .ok ps d' ↔ ∃ n gs, fuel = n + 1 ∧ d' = d ∧
      d.forest.content j = .ok gs ∧ ps = parts o (readParts o n) gs := by
  have hcontent : ∀ {gs}, d.forest.content j = .ok gs → partsOf (readParts o fuel) j d
      = Edit.ofExcept (readParts o fuel gs) d := by
    intro gs hgs
    refine Results.bind_of_ok (a := gs) ?_
    show Edit.ofExcept (d.forest.content j) d = _
    rw [hgs]
    rfl
  constructor
  · intro h
    obtain ⟨gs, d₁, hgs, -⟩ := Results.bind_eq_ok.1 h
    obtain ⟨rfl, hgs⟩ := Edit.Looks.content j gs d₁ hgs
    rw [hcontent hgs] at h
    cases fuel with
    | zero => cases h
    | succ n =>
      cases h
      exact ⟨n, gs, rfl, rfl, hgs, rfl⟩
  · rintro ⟨n, gs, rfl, rfl, hgs, rfl⟩
    rw [hcontent hgs]
    rfl

/-! ### Entries that name no slot -/

/-- Only texts name something that is no slot. -/
theorem text_of_setPlain {key v : Data} {d d' : Draft} (h : setPlain o i key v d = .ok () d') :
    ∃ s, key = .str s := by
  obtain ⟨f, d₁, -, h⟩ := Results.bind_eq_ok.1 h
  obtain ⟨s, d₂, hs, -⟩ := Results.bind_eq_ok.1 h
  exact ⟨s, keyText_eq ((Edit.Looks.ofExcept _) s d₂ hs).2⟩

/-- The value under a text that names no slot. -/
theorem setPlain_text {d : Draft} (hk : (d.forest.get i).kind = k) (s : String) (v : Data) :
    setPlain o i (.str s) v d = (if s.startsWith "x-" then setExtension o i s v
      else match k.fieldOfWire? s with
        | none => reject o i s .undeclared
        | some name =>
          if k.arrayFields.contains name then growList i name v else setScalar o i name v) d := by
  subst hk
  show (if s.startsWith "x-" then setExtension o i s v else _) d = _
  split <;> rfl

/-! ### Parts for slots -/

/-- Nothing is found under a key that the source does not have. -/
theorem find?_parts_of_none {key : String} (h : es.text? key = none) :
    find? (parts o read es) key = none := by
  rw [find?, List.find?_eq_none]
  intro p hp hkey
  rw [parts_eq_map] at hp
  obtain ⟨e, he, rfl⟩ := List.mem_map.1 hp
  exact Entries.text?_eq_none_iff.1 h e he (Data.same_str_iff.1 hkey)

/-- What is found under a key is the part made of its entry. -/
theorem find?_parts_of_some (o : MergeOptions) (read : Reader) {key : String}
    (h : es.text? key = some v) :
    ∃ e, e.2 = v ∧ find? (parts o read es) key = some (Part.of o read e) := by
  cases hfind : find? (parts o read es) key with
  | none => rw [find?_parts_eq_none hfind] at h; cases h
  | some part =>
    obtain ⟨e, he, rfl⟩ := find?_parts hfind
    exact ⟨e, Option.some.inj (he.symm.trans h), rfl⟩

/-- The slot for a single child is filled as any slot. -/
theorem intoSingular_eq (layout : Layout) (σ : String) :
    intoSingular o i (parts o read es) layout k σ
      = intoSlot o read i es σ (.single k (layout.booleanSlots.contains σ)) := by
  unfold intoSingular intoSlot
  cases hv : es.text? (wireName σ) with
  | none => rw [find?_parts_of_none hv]
  | some v =>
    obtain ⟨⟨key, v'⟩, rfl, hfind⟩ := find?_parts_of_some o read hv
    rw [hfind]
    cases v' with
    | scalar x =>
      cases x with
      | bool b =>
        show (if layout.booleanSlots.contains σ then _ else _) = _
        simp only [Placement.refuses]
        split <;> rfl
      | _ => rfl
    | _ => rfl

/-- So is the slot for children under keys. -/
theorem intoIndexed_eq (slot : IndexedSlot) : intoIndexed o i (parts o read es) k slot
    = intoSlot o read i es slot.name (.keyed k slot.key) := by
  unfold intoIndexed intoSlot
  cases hv : es.text? (wireName slot.name) with
  | none => rw [find?_parts_of_none hv]
  | some v =>
    obtain ⟨⟨key, v'⟩, rfl, hfind⟩ := find?_parts_of_some o read hv
    rw [hfind]
    cases v' <;> rfl

/-- So is the slot for a collection. -/
theorem intoCollection_eq (slot : CollectionSlot) : intoCollection o i (parts o read es) k slot
    = intoSlot o read i es slot.name (.listed k slot) := by
  unfold intoCollection intoSlot
  cases hv : es.text? (wireName slot.name) with
  | none => rw [find?_parts_of_none hv]
  | some v =>
    obtain ⟨⟨key, v'⟩, rfl, hfind⟩ := find?_parts_of_some o read hv
    rw [hfind]
    cases v' <;> rfl

/-- A merge goes through all slots and then through the entries that name none. -/
theorem content_parts : content o (parts o read es) i = (do
    let k := (← Edit.node i).kind
    k.placements.forM fun q => intoSlot o read i es q.1 q.2
    (plain k es).forM fun e => setPlain o i e.1 e.2) := by
  unfold content
  refine congrArg (Edit.node i >>= ·) (funext fun n => ?_)
  have hplain : ∀ es, (parts o read es).forM (fun p => setPlain o i p.key p.value)
      = es.forM fun e => setPlain o i e.1 e.2 := by
    intro es
    rw [parts_eq_map]
    exact List.forM_map ..
  dsimp only
  rw [parts_filter o read es fun key => !isSlotKey n.kind.layout key, hplain, Kind.placements]
  simp only [List.forM_eq_forM, List.forM_append, List.forM_map, intoSingular_eq, intoIndexed_eq,
    intoCollection_eq, bind_assoc, plain]

end Merge

/-! ### Tests of sources -/

/-- Whether a test passes on a source and on all that it brings for children, down to a depth that
    suffices. -/
def Entries.passes (test : Kind → Entries → Bool) : (depth : Nat) → Kind → Entries → Bool
  | 0, _, _ => false
  | depth + 1, k, es => test k es && k.placements.all fun q =>
    match es.text? (wireName q.1) with
    | none => true
    | some v => (q.2.items v).all (fun item => passes test depth q.2.kind item.2) &&
      match q.2, v with
      | .single c _, .map fs _ => passes test depth c fs
      | _, _ => true

/-- A source that passes a test down to some depth has the property everywhere. -/
theorem Entries.all_of_passes {test : Kind → Entries → Bool} {Q : Kind → Entries → Prop}
    (hQ : ∀ k es, test k es = true → Q k es) (depth : Nat) {k : Kind} {es : Entries}
    (h : es.passes test depth k = true) : es.All Q k := by
  induction depth generalizing k es with
  | zero => cases h
  | succ depth ih =>
    obtain ⟨hown, hslots⟩ := Bool.and_eq_true_iff.1 h
    have hslot : ∀ σ p v, k.placement? σ = some p → es.text? (wireName σ) = some v → _ :=
      fun σ p v hp hv => by
        have hq := List.all_eq_true.1 hslots _ (Kind.mem_placements hp)
        simp only [hv] at hq
        exact Bool.and_eq_true_iff.1 hq
    refine .mk (hQ k es hown) (fun σ c b fs mark hp hv => ih (hslot σ _ _ hp hv).2)
      fun σ p v item hp hv hitem => ih ?_
    exact List.all_eq_true.1 (hslot σ p v hp hv).1 item hitem

end ApiDoc
