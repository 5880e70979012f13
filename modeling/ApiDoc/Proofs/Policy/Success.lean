import ApiDoc.Proofs.Growth.Location
import ApiDoc.Proofs.Policy.Sifting

namespace ApiDoc

/-!
# Merges that do not fail

A merge that warns of refused keys can still fail: at an entry under a key, or at an item of a list,
that is no mapping; at a key that is no text; in a tree that is not in order. There is no other
reason:

* `Edit.Succeeds` — an edit that succeeds;
* `Edit.Runs` — an edit that does so with steps that a licence allows;
* `Runs.child`, `Runs.indexedItem`, `Runs.collectionItem` — children found or made;
* `Entries.Entire` — sources whose members and items are mappings;
* `Runs.content` — their entries merged, by induction on the source;
* `merge_entire` — what a merge that warns makes of such a source.
-/

open Forest Merge MergeOptions

namespace Edit

variable {α β : Type} {S : Licence} {d : Draft} {i : NodeId} {k : Kind} {σ : String} {p : Placement}
  {fields : Entries}

/-! ### Success -/

/-- An edit that succeeds. -/
def Succeeds (act : Edit α) (d : Draft) : Prop := ∃ a d', act d = .ok a d'

namespace Succeeds

/-- An answer. -/
protected theorem pure (a : α) : Succeeds (pure a) d := ⟨a, d, rfl⟩

/-- An edit after one whose result is known. -/
theorem after {x : Edit α} {f : α → Edit β} {a : α} {d' : Draft} (hx : x d = .ok a d')
    (hf : Succeeds (f a) d') : Succeeds (x >>= f) d := by
  obtain ⟨b, d'', hb⟩ := hf
  exact ⟨b, d'', (Results.bind_of_ok hx).trans hb⟩

/-- An edit whose result is handed on. -/
theorem map {x : Edit α} (hx : Succeeds x d) (f : α → β) : Succeeds (do return f (← x)) d := by
  obtain ⟨a, d', ha⟩ := hx
  exact .after ha (.pure (f a))

/-- Looking at a node, and then an edit that succeeds. -/
theorem node {f : Node → Edit α} (h : Succeeds (f (d.forest.get i)) d) :
    Succeeds (do f (← Edit.node i)) d := .after rfl h

end Succeeds

/-- An edit that succeeds, with steps that a licence allows. -/
structure Runs (S : Licence) (act : Edit α) (d : Draft) (Q : α → Forest → Prop) : Prop where
  follows : Follows S act d Q
  succeeds : Succeeds act d

namespace Runs

variable {Q : α → Forest → Prop} {Q' : β → Forest → Prop}

/-- An answer that fits the forest. -/
protected theorem pure {a : α} (h : Q a d.forest) : Runs S (pure a) d Q := ⟨.pure h, .pure a⟩

/-- An edit, and then one that runs from whatever forest the first leaves. -/
theorem bind {x : Edit α} {f : α → Edit β} (hx : Runs S x d Q)
    (hf : ∀ a d', Steps S d.forest d'.forest → Q a d'.forest → Runs S (f a) d' Q') :
    Runs S (x >>= f) d Q' := by
  refine ⟨hx.follows.bind fun a d' hrun hQ => (hf a d' hrun hQ).follows, ?_⟩
  obtain ⟨a, d', ha⟩ := hx.succeeds
  exact .after ha (hf a d' (hx.follows.run ha) (hx.follows.2 a d' ha)).succeeds

/-- A loop, of whose turns each succeeds wherever the others lead. -/
theorem forM {f : α → Edit Unit} {xs : List α}
    (hf : ∀ x ∈ xs, ∀ d', Steps S d.forest d'.forest → Runs S (f x) d' fun _ _ => True) :
    Runs S (xs.forM f) d fun _ _ => True := by
  induction xs generalizing d with
  | nil => exact .pure trivial
  | cons x xs ih =>
    refine .bind (hf x List.mem_cons_self d (.refl _)) fun _ d₁ hrun _ => ih fun y hy d' hd' => ?_
    exact hf y (List.mem_cons_of_mem _ hy) d' (hrun.trans hd')

end Runs

/-! ### Searching -/

/-- A search ends if every test does. -/
theorem exists_position? {test : Data → Except Failure Bool} {items : List Data}
    (h : ∀ x ∈ items, ∃ b, test x = .ok b) (n : Nat) : ∃ i?, position? test n items = .ok i? := by
  induction items generalizing n with
  | nil => exact ⟨none, rfl⟩
  | cons x items ih =>
    obtain ⟨⟨b, hb⟩, h⟩ := List.forall_mem_cons.1 h
    unfold position?
    rw [hb]
    cases b with
    | true => exact ⟨some n, rfl⟩
    | false => exact ih h (n + 1)

/-- What stands under the names of fields of a node can be compared. -/
theorem exists_hasValues {f : Forest} {j : NodeId} (hfields : fields.AreFields (f.get j).kind) :
    ∃ b, hasValues f (.node j) fields = .ok b := by
  induction fields with
  | nil => exact ⟨true, rfl⟩
  | cons e fields ih =>
    obtain ⟨key, v⟩ := e
    obtain ⟨⟨name, hname, hkey⟩, hrest⟩ := List.forall_mem_cons.1 hfields
    dsimp only at hkey
    subst hkey
    have hread : f.readFrom (.node j) name = .ok ((f.get j).value name) :=
      read_attribute (List.mem_append_left _ hname)
    show ∃ b, (f.readFrom (.node j) name >>= fun w =>
      if w.alike v then hasValues f (.node j) fields else pure false) = .ok b
    rw [hread]
    show ∃ b, (if ((f.get j).value name).alike v then hasValues f (.node j) fields
      else pure false) = .ok b
    split
    · exact ih hrest
    · exact ⟨false, rfl⟩

/-- The key of a node can be compared with any value. -/
theorem exists_hasKey {f : Forest} {j : NodeId} {name : String}
    (hname : name ∈ (f.get j).kind.fields) (v : Data) :
    ∃ b, hasKey f name v (.node j) = .ok b := by
  have hread : f.readFrom (.node j) name = .ok ((f.get j).value name) :=
    read_attribute (List.mem_append_left _ hname)
  unfold hasKey
  rw [hread]
  exact ⟨_, rfl⟩

/-! ### Children found or made -/

/-- The members in a slot that holds what it is for. -/
theorem membersOf_formed {T : NodeId → Prop} (hf : d.forest.Formed T) (hi : T i)
    (hlt : i < d.forest.size) (hp : (d.forest.get i).kind.placement? σ = some p)
    (hlist : p.isSingle = false) :
    membersOf i σ d = .ok ((d.forest.get i).value σ).nodes d := by
  have hread : Edit.read i σ d = .ok ((d.forest.get i).value σ) d :=
    read_eq (List.mem_append_right _ (Kind.mem_slots_of_placement? hp))
  unfold membersOf
  rw [Results.bind_of_ok hread]
  have hfills := hf.slots i hi hlt σ p hp
  generalize (d.forest.get i).value σ = v at hfills
  cases hfills with
  | unset => rfl
  | flag => cases hlist
  | child => cases hlist
  | @list _ xs =>
    cases xs with
    | nil => rfl
    | cons x xs => rfl

namespace Succeeds

/-- A member with fields of its kind can be put at the end. -/
theorem appendItem (hlt : i < d.forest.size) (hσ : σ ∈ (d.forest.get i).kind.slots)
    (hfields : fields.AreFields k) : Succeeds (Edit.appendItem i σ k fields) d := by
  have hread : Edit.read i σ d = .ok ((d.forest.get i).value σ) d :=
    read_eq (List.mem_append_right _ hσ)
  -- Either the list is there, or it is opened first.
  have hensure : ∃ l d₁, ensureList i σ d = .ok l d₁ ∧ i < d₁.forest.size ∧
      σ ∈ (d₁.forest.get i).kind.slots := by
    unfold ensureList
    rw [Results.bind_of_ok hread]
    have hopen : ∃ l d₁, (do assign? i σ (.ofList []); return ([], 0) : Edit (List Data × Nat)) d
        = .ok l d₁ ∧ i < d₁.forest.size ∧ σ ∈ (d₁.forest.get i).kind.slots := by
      refine ⟨_, _, Results.bind_of_ok (assign?_slot hσ _), by simpa using hlt, ?_⟩
      show σ ∈ ((d.forest.put i _).get i).kind.slots
      rw [d.forest.get_put_self hlt]
      exact hσ
    cases (d.forest.get i).value σ with
    | list items mark => exact ⟨_, d, rfl, hlt, hσ⟩
    | _ => exact hopen
  obtain ⟨⟨items, mark⟩, d₁, hl, hlt₁, hσ₁⟩ := hensure
  exact .after hl ⟨_, _, addDetached_member hfields hlt₁ hσ₁ items mark⟩

end Succeeds

namespace Runs

/-- The only child in a slot. -/
theorem child {b : Bool} (hf : d.forest.Formed S.nodes) (hi : S.nodes i) (hlt : i < d.forest.size)
    (hp : (d.forest.get i).kind.placement? σ = some (.single k b)) :
    Runs S (Edit.child i k) d fun j g => ∃ σ p key, g.Linked S i σ p key j ∧ p.kind = k := by
  refine ⟨(Follows.child hf hi hlt fun _ h => absurd h List.not_mem_nil).mono
    fun _ _ _ ⟨σ, b, hlinked⟩ => ⟨σ, .single k b, .unset, hlinked, rfl⟩, ?_⟩
  obtain ⟨c, hslot, hq⟩ : ∃ c, (c, σ) ∈ (d.forest.get i).kind.layout.singular ∧ c = k := by
    rcases Kind.mem_layout_of_placement? hp with ⟨c, hslot, hq⟩ | ⟨_, _, _, _, hq⟩ |
      ⟨_, _, _, _, hq⟩
    · cases hq
      exact ⟨_, hslot, rfl⟩
    · cases hq
    · cases hq
  subst hq
  refine .after (slotFor_eq .singular (·.singular) (Kind.lookup_singular _ _ hslot)) (.node ?_)
  split
  · exact .pure _
  · exact ⟨_, _, addDetached_assign (fun _ h => absurd h List.not_mem_nil) hlt fun j => .node j⟩

/-- The member with a key. -/
theorem indexedItem {key : String} (hf : d.forest.Formed S.nodes) (hi : S.nodes i)
    (hlt : i < d.forest.size) (hp : (d.forest.get i).kind.placement? σ = some (.keyed k key))
    (v : Data) :
    Runs S (Edit.indexedItem i k v) d fun j g =>
      ∃ σ p key, g.Linked S i σ p key j ∧ p.kind = k := by
  refine ⟨(Follows.indexedItem hf hi hlt v).mono
    fun _ _ _ ⟨slot, hlinked⟩ => ⟨slot.name, .keyed k slot.key, v, hlinked, rfl⟩, ?_⟩
  obtain ⟨slot, hslot, rfl⟩ : ∃ slot, (k, slot) ∈ (d.forest.get i).kind.layout.indexed ∧
      slot.name = σ := by
    rcases Kind.mem_layout_of_placement? hp with ⟨_, _, hq⟩ | ⟨c, slot, hslot, hname, hq⟩ |
      ⟨_, _, _, _, hq⟩
    · cases hq
    · cases hq
      exact ⟨slot, hslot, hname⟩
    · cases hq
  have hkey : slot.key ∈ k.fields := Kind.index_mem_fields _ _ hslot
  have hp : (d.forest.get i).kind.placement? slot.name = some (.keyed k slot.key) :=
    Kind.placement?_indexed _ _ hslot
  -- Every member has the key, so each of them can be tested.
  have htest : ∀ x ∈ ((d.forest.get i).value slot.name).nodes,
      ∃ b, hasKey d.forest slot.key v x = .ok b := by
    intro x hx
    obtain ⟨j, rfl, hchild, -⟩ := hf.member hi hlt hp rfl hx
    exact exists_hasKey (by rw [hchild.2.1]; exact hkey) v
  obtain ⟨i?, hi?⟩ := exists_position? htest 0
  have hsearch : searchIndexed ((d.forest.get i).value slot.name).nodes slot.key v d
      = .ok i? d := by
    show ofExcept (position? (hasKey d.forest slot.key v) 0 _) d = _
    rw [hi?]
    rfl
  refine .after (slotFor_eq .indexed (·.indexed) (Kind.lookup_indexed _ _ hslot)) ?_
  refine .after (membersOf_formed hf hi hlt hp rfl) (.after hsearch ?_)
  split
  -- No member has the key: one is appended that holds it in its field.
  · exact .pure _
  · have hfields : Entries.AreFields k [(.str slot.key, v)] := by
      intro e he
      rw [List.mem_singleton.1 he]
      exact ⟨slot.key, hkey, rfl⟩
    exact (Succeeds.appendItem hlt (Kind.mem_slots_of_placement? hp) hfields).map _

/-- The member with some values. -/
theorem collectionItem {slot : CollectionSlot} (hf : d.forest.Formed S.nodes) (hi : S.nodes i)
    (hlt : i < d.forest.size)
    (hp : (d.forest.get i).kind.placement? slot.name = some (.listed k slot))
    (hfields : fields.AreFields k) :
    Runs S (Edit.collectionItem i k fields) d fun j g =>
      ∃ σ p key, g.Linked S i σ p key j ∧ p.kind = k := by
  refine ⟨(Follows.collectionItem hf hi hlt hfields.unreserved).mono
    fun _ _ _ ⟨slot, hlinked⟩ => ⟨slot.name, .listed k slot, .unset, hlinked _, rfl⟩, ?_⟩
  have hslot : (k, slot) ∈ (d.forest.get i).kind.layout.collections := by
    rcases Kind.mem_layout_of_placement? hp with ⟨_, _, hq⟩ | ⟨_, _, _, _, hq⟩ |
      ⟨c, slot', hslot, -, hq⟩
    · cases hq
    · cases hq
    · cases hq
      exact hslot
  refine .after (slotFor_eq .collection (·.collections) (Kind.lookup_collections _ _ hslot)) ?_
  extract_lets answer
  have hanswer : ∀ j? : Option NodeId, Succeeds (answer j?) d := by
    intro j?
    cases j? with
    | some j => exact .pure j
    | none => exact (Succeeds.appendItem hlt (Kind.mem_slots_of_placement? hp) hfields).map _
  split
  · exact hanswer none
  -- No test fails on a member, for all members have the fields that are compared.
  · have htest : ∀ x ∈ ((d.forest.get i).value slot.name).nodes,
        ∃ b, hasValues d.forest x fields = .ok b := by
      intro x hx
      obtain ⟨j, rfl, hchild, -⟩ := hf.member hi hlt hp rfl hx
      exact exists_hasValues (by rw [hchild.2.1]; exact hfields)
    obtain ⟨i?, hi?⟩ := exists_position? htest 0
    have hsearch : searchCollection ((d.forest.get i).value slot.name).nodes fields d
        = .ok i? d := by
      show ofExcept (position? (fun v => hasValues d.forest v fields) 0 _) d = _
      rw [hi?]
      rfl
    exact .after (membersOf_formed hf hi hlt hp rfl) (.after hsearch (hanswer _))

end Runs

end Edit

/-! ### Sources whose members are mappings -/

/-- A value whose members and items, if it has any, are mappings, and that is no node. -/
def Placement.Entire (p : Placement) (v : Data) : Prop :=
  match p with
  | .single _ _ => ∀ j, v ≠ .node j
  | .keyed _ _ => ∀ fs mark, v = .map fs mark → ∀ e ∈ fs, ∃ gs mark, e.2 = .map gs mark
  | .listed _ _ => ∀ xs, v.items? = some xs → ∀ x ∈ xs, ∃ gs mark, x = .map gs mark

/-- A source with texts as its keys whose members and items are mappings. What else stands in a slot
    may be anything. -/
structure Entries.Entire (k : Kind) (es : Entries) : Prop where
  texts : ∀ e ∈ es, ∃ s, e.1 = .str s
  slots : ∀ σ p v, k.placement? σ = some p → es.text? (wireName σ) = some v → p.Entire v

/-- Whether a value is a mapping. -/
def Data.isMapping : Data → Bool
  | .map _ _ => true
  | _ => false

/-- What passes for a mapping is one. -/
theorem Data.exists_of_isMapping {v : Data} (h : v.isMapping = true) :
    ∃ gs mark, v = .map gs mark := by
  cases v with
  | map gs mark => exact ⟨gs, mark, rfl⟩
  | _ => cases h

/-- Whether the members and items of a value are mappings, and it is no node. -/
def Placement.isEntire (p : Placement) (v : Data) : Bool :=
  match p, v with
  | .single _ _, v => v.node?.isNone
  | .keyed _ _, .map fs _ => fs.all fun e => e.2.isMapping
  | .keyed _ _, _ => true
  | .listed _ _, v => (v.items?.getD []).all Data.isMapping

/-- Whether the keys of a source are texts, and its members and items are mappings. -/
def Entries.isEntire (k : Kind) (es : Entries) : Bool :=
  es.all (fun e => e.1.str?.isSome) &&
    k.placements.all fun q => (es.text? (wireName q.1)).all q.2.isEntire

/-- The test of one slot is sound. -/
theorem Placement.entire_of_isEntire {p : Placement} {v : Data} (h : p.isEntire v = true) :
    p.Entire v := by
  cases p with
  | single k b =>
    rintro j rfl
    cases h
  | keyed k key =>
    rintro fs mark rfl e he
    exact Data.exists_of_isMapping (List.all_eq_true.1 h e he)
  | listed k slot =>
    intro xs hxs x hx
    have hall : (v.items?.getD []).all Data.isMapping = true := h
    rw [hxs] at hall
    exact Data.exists_of_isMapping (List.all_eq_true.1 hall x hx)

/-- The test of a source is sound. -/
theorem Entries.entire_of_isEntire {k : Kind} {es : Entries} (h : es.isEntire k = true) :
    es.Entire k := by
  obtain ⟨htexts, hslots⟩ := Bool.and_eq_true_iff.1 h
  refine ⟨fun e he => ?_, fun σ p v hp hv => Placement.entire_of_isEntire ?_⟩
  · obtain ⟨s, hs⟩ := Option.isSome_iff_exists.1 (List.all_eq_true.1 htexts e he)
    exact ⟨s, Data.str?_eq_some.1 hs⟩
  · have hq := List.all_eq_true.1 hslots _ (Kind.mem_placements hp)
    rwa [hv, Option.all_some] at hq

namespace Edit

/-! ### Single values -/

namespace Succeeds

variable {d : Draft} {i : NodeId} {es : Entries}

/-- A scalar can be set, whatever it is. -/
theorem setScalar (o : MergeOptions) (i : NodeId) (name : String) (v : Data) (d : Draft) :
    Succeeds (Merge.setScalar o i name v) d := by
  refine .node ?_
  split
  · exact ⟨(), _, rfl⟩
  · exact .pure ()

/-- An extension can be set where extensions are a mapping. -/
theorem setExtension {mark : Nat} (hes : (d.forest.get i).extensions = .map es mark)
    (o : MergeOptions) (key : String) (v : Data) :
    Succeeds (Merge.setExtension o i key v) d := by
  refine .node ?_
  rw [hes]
  have hput : ∀ skip : Bool, Succeeds (do
      if !skip then
        let extensions ← ofExcept (Merge.putExtension key v (.map es mark))
        Edit.setNode i { d.forest.get i with extensions := extensions }) d := by
    intro skip
    cases skip with
    | true => exact .pure ()
    | false => exact ⟨(), _, rfl⟩
  split
  · exact hput false
  · exact hput (es.has (.str key))

end Succeeds

namespace Runs

variable {S : Licence} {f₀ : Forest} {d : Draft} {i : NodeId} {k : Kind} {es : Entries}

/-- A refused key in a tree all of whose nodes have a location. -/
theorem reject (hd : d.forest.Upright S.nodes) (hready : Ready S f₀ d i) (ov : Bool)
    (key : String) (why : Rejection) :
    Runs S (Merge.reject (lenient ov) i key why) d fun _ _ => True := by
  refine ⟨(Follows.reject key why).mono fun _ _ _ _ => trivial, ?_⟩
  obtain ⟨text, htext⟩ := (hd.rooted i hready.node hready.lt).location
  have hlocation : Edit.location i d = .ok text d := by
    show ofExcept (d.forest.location i) d = _
    rw [htext]
    rfl
  exact .node (.after hlocation ⟨(), _, rfl⟩)

/-- An entry that names no slot. -/
theorem setPlain (hany : ∀ k name, S.fields k name) (hd : d.forest.Upright S.nodes)
    (hready : Ready S f₀ d i) (s : String) (v : Data) :
    Runs S (Merge.setPlain (lenient S.overwrite) i (.str s) v) d fun _ _ => True := by
  refine ⟨(Follows.setPlain rfl hready (.str s) v fun _ _ _ _ => hany _ _).mono
    fun _ _ _ _ => trivial, ?_⟩
  obtain ⟨es, mark, hes⟩ := hd.extensions i hready.node hready.lt
  unfold Succeeds
  simp only [setPlain_text rfl]
  refine (?_ : Succeeds _ d)
  split
  · exact .setExtension hes _ s v
  · split
    · exact (reject hd hready _ s .undeclared).succeeds
    · split
      · exact ⟨(), _, rfl⟩
      · exact .setScalar ..

end Runs

/-! ### All entries -/

namespace Succeeds

variable {S : Licence} {f₀ : Forest} {d : Draft} {i : NodeId} {k : Kind} {es : Entries} {n : Nat}

/-- An edit of a child that is found or made. -/
theorem found {x : Edit NodeId} {act : NodeId → Edit Unit} (hd : d.forest.Upright S.nodes)
    (hready : Ready S f₀ d i)
    (hx : Runs S x d fun j g => ∃ σ p key, g.Linked S i σ p key j ∧ p.kind = k)
    (hact : ∀ j d', d'.forest.Upright S.nodes → Ready S f₀ d' j → (d'.forest.get j).kind = k →
      Succeeds (act j) d') : Succeeds (x >>= act) d := by
  obtain ⟨j, d', hj⟩ := hx.succeeds
  obtain ⟨σ, p, key, hlinked, rfl⟩ := hx.follows.2 j d' hj
  have hrun := hx.follows.run hj
  obtain ⟨hready', hkind⟩ := hready.linked hrun hlinked
  exact .after hj (hact j d' (hd.steps hrun) hready' hkind)

/-- A value taken into a slot, if what it brings for children can be merged into them. -/
theorem take (hany : ∀ k name, S.fields k name) {σ : String} {p : Placement} {v : Data}
    (hd : d.forest.Upright S.nodes) (hready : Ready S f₀ d i)
    (hp : (d.forest.get i).kind.placement? σ = some p) (hv : p.refuses v = none)
    (hentire : p.Entire v)
    (hchild : ∀ k b gs mark, p = .single k b → v = .map gs mark → ∀ d' j,
      d'.forest.Upright S.nodes → Ready S f₀ d' j → (d'.forest.get j).kind = k →
        Succeeds (Merge.content (lenient S.overwrite) (parts (lenient S.overwrite)
          (readParts (lenient S.overwrite) n) gs) j) d')
    (hitem : ∀ item ∈ p.items v, ∀ d' j,
      d'.forest.Upright S.nodes → Ready S f₀ d' j → (d'.forest.get j).kind = p.kind →
        Succeeds (Merge.content (lenient S.overwrite) (parts (lenient S.overwrite)
          (readParts (lenient S.overwrite) n) item.2) j) d') :
    Succeeds (Merge.take (lenient S.overwrite) (readParts (lenient S.overwrite) n) i σ p v) d := by
  -- The shape of the value is that which the slot takes. A node is ruled out, since reading it may
  -- fail.
  cases p with
  | single k b =>
    cases v with
    | map gs mark =>
      exact found hd hready (.child hready.formed hready.node hready.lt hp) fun j d' hd' hready' hk =>
        hchild k b gs mark rfl rfl d' j hd' hready' hk
    | scalar x =>
      cases x with
      | bool c => exact .setScalar ..
      | _ => cases hv
    | node j => exact absurd rfl (hentire j)
    | _ => cases hv
  | keyed k key =>
    cases v with
    | map fs mark =>
      -- Each member is a mapping, so that its index is all that may be looked for.
      have hmembers : Runs S (List.forM fs (intoMember (lenient S.overwrite)
          (readParts (lenient S.overwrite) n) i k)) d fun _ _ => True := by
        refine .forM fun e he d' hrun => ⟨(lenient_under hany f₀).member
          (hready.steps hrun) n (e.2.offers_any S f₀), ?_⟩
        obtain ⟨gs, mark', hgs⟩ := hentire fs mark rfl e he
        have hready' := hready.steps hrun
        have hp' := (hrun.later.placed hready.lt hp).2
        refine found (hd.steps hrun) hready'
          (.indexedItem hready'.formed hready'.node hready'.lt hp' e.1) fun j d₁ hd₁ hready₁ hk => ?_
        rw [hgs]
        exact hitem _ (Placement.mem_items_of_keyed k key mark he hgs) d₁ j hd₁ hready₁ hk
      have hkeyed := hmembers.succeeds
      rw [← keyed_eq_intoMember] at hkeyed
      exact hkeyed
    | _ => cases hv
  | listed k slot =>
    -- The slot of a collection has the name that the layout gives it.
    obtain rfl : slot.name = σ := by
      rcases Kind.mem_layout_of_placement? hp with ⟨_, _, hq⟩ | ⟨_, _, _, _, hq⟩ |
        ⟨_, _, _, rfl, hq⟩
      · cases hq
      · cases hq
      · cases hq
        rfl
    have hall : ∀ xs, v.items? = some xs → Succeeds (Merge.items (lenient S.overwrite)
        (readParts (lenient S.overwrite) n) xs k slot i) d := by
      -- Lists and tuples are alike from here on.
      intro xs hxs
      rw [items_eq_opened]
      have hitems : Runs S (xs.forM (opened (lenient S.overwrite) n fun ps =>
          Merge.listed (lenient S.overwrite) k slot ps i)) d fun _ _ => True := by
        refine .forM fun x hx d' hrun => ?_
        have hready' := hready.steps hrun
        have hp' := (hrun.later.placed hready.lt hp).2
        refine ⟨(lenient_under hany f₀).item hready' n hp' (x.offers_any S f₀), ?_⟩
        obtain ⟨gs, mark, rfl⟩ := hentire xs hxs x hx
        show Succeeds (Merge.listed _ k slot (parts _ _ gs) i) d'
        rw [listed_parts]
        refine found (hd.steps hrun) hready' (.collectionItem hready'.formed hready'.node hready'.lt
          hp' (areFields_identity k slot gs)) fun j d₁ hd₁ hready₁ hk => ?_
        exact hitem _ (Placement.mem_items_of_listed k slot hxs hx) d₁ j hd₁ hready₁ hk
      exact hitems.succeeds
    cases v with
    | list xs mark => exact hall xs rfl
    | tuple xs mark => exact hall xs rfl
    | _ => cases hv

/-- All entries of a source. -/
theorem content (hany : ∀ k name, S.fields k name) (hes : es.All Entries.Entire k) : ∀ d i,
    d.forest.Upright S.nodes → Ready S f₀ d i → (d.forest.get i).kind = k →
      Succeeds (Merge.content (lenient S.overwrite) (parts (lenient S.overwrite)
        (readParts (lenient S.overwrite) n) es) i) d := by
  induction hes with
  | @mk k es own single members ihs ihm =>
    rintro d i hd hready rfl
    rw [content_parts]
    refine .node ?_
    -- The slots first, each with what the source has for it.
    have hslots : Runs S ((d.forest.get i).kind.placements.forM fun q => intoSlot
        (lenient S.overwrite) (readParts (lenient S.overwrite) n) i es q.1 q.2) d
        fun _ _ => True := by
      refine .forM fun q hq d' hrun => ?_
      have hp := Kind.placement?_of_mem hq
      have hready' := hready.steps hrun
      have hp' := (hrun.later.placed hready.lt hp).2
      refine ⟨(lenient_under hany f₀).slot hready' n hp' fun v _ => q.2.offers_any S f₀ v, ?_⟩
      cases hv : es.text? (wireName q.1) with
      | none =>
        rw [intoSlot_of_none hv]
        exact .pure ()
      | some v =>
        cases hwhy : q.2.refuses v with
        | some why =>
          rw [intoSlot_of_refused hv hwhy]
          exact (Runs.reject (hd.steps hrun) hready' _ _ why).succeeds
        | none =>
          rw [intoSlot_of_taken hv hwhy]
          refine take hany (hd.steps hrun) hready' hp' hwhy (own.slots _ _ v hp hv) ?_
            fun item hitem => ihm _ _ v item hp hv hitem
          rintro k b gs mark hq rfl
          exact ihs _ k b gs mark (hq ▸ hp) hv
    -- What is left names fields and extensions, and cannot fail.
    have hplain : ∀ d', Steps S d.forest d'.forest → Runs S ((Merge.plain (d.forest.get i).kind es).forM fun e =>
        Merge.setPlain (lenient S.overwrite) i e.1 e.2) d' fun _ _ => True := by
      refine fun d' hrun => .forM fun e he d'' hrun' => ?_
      obtain ⟨s, hs⟩ := own.texts e (List.mem_filter.1 he).1
      rw [hs]
      exact .setPlain hany (hd.steps (hrun.trans hrun')) (hready.steps (hrun.trans hrun')) s e.2
    exact (hslots.bind fun _ d' hrun _ => hplain d' hrun).succeeds

end Succeeds

variable {ov : Bool} {es : Entries} {mark : Nat} {d : Draft} {i : NodeId}

/-- A merge that warns of refused keys does not fail on a source whose members and items are
    mappings: it ends as one that does not warn ends with what is left of the source, and warns of
    each key that is not. -/
theorem merge_entire (ov : Bool) (mark : Nat) (hf : d.forest.WellFormed i)
    (hroot : d.forest.Rooted i)
    (hextensions : ∀ j, d.forest.Below i j → ∃ es mark, (d.forest.get j).extensions = .map es mark)
    (hes : es.All Entries.Entire (d.forest.get i).kind) :
    ∃ d' es' rs ws, merge (lenient ov) (.map es mark) i d = .ok () d' ∧
      Sifted (ReadBetween (d.forest.licence i (fun _ _ => True) ov) d.forest d'.forest)
        (.content (d.forest.get i).kind) (.map es mark) (.map es' mark) rs ∧
      d'.warnings = d.warnings ++ ws ∧ List.Forall₂ Refusal.Warns rs ws ∧
      merge (strict ov) (.map es' mark) i d = .ok () (d'.withWarnings d.warnings) := by
  have hready : Ready (d.forest.licence i (fun _ _ => True) ov) d.forest d i :=
    ⟨.refl _, hf.formed, .inl .self, hf.root⟩
  obtain ⟨⟨⟩, d', h⟩ := Succeeds.content (n := d.forest.size) (fun _ _ => trivial) hes d i
    (hf.upright hroot hextensions) hready rfl
  obtain ⟨es', rs, hsifted, htracks⟩ := merge_lenient hf h
  obtain ⟨ws, hws, hwarns⟩ := htracks.warned
  exact ⟨d', es', rs, ws, h, hsifted, hws, hwarns,
    htracks.same d.forest.size (Nat.le_refl _) d.warnings⟩

/-- Values of the wrong sort in slots of all sorts, and a key that no schema has. -/
def oddDocument : Entries :=
  [(.str "info", .str "Shop"), (.str "paths", .ofList []), (.str "servers", .str "/"),
    (.str "components", .ofEntries [(.str "schemas", .ofEntries [(.str "Pet", .ofEntries
      [(.str "type", .str "object"), (.str "colour", .str "red"), (.str "allOf", .null)])])])]

/-- All of them are left out with a warning. -/
theorem merge_entire_odd : ∃ d' es' rs ws,
    merge (lenient true) (.map oddDocument 0) 0 twoDocuments = .ok () d' ∧
      Sifted (ReadBetween (twoDocuments.forest.licence 0 (fun _ _ => True) true)
        twoDocuments.forest d'.forest) (.content .openApi) (.map oddDocument 0)
        (.map es' 0) rs ∧
      d'.warnings = [] ++ ws ∧ List.Forall₂ Refusal.Warns rs ws ∧
      merge (strict true) (.map es' 0) 0 twoDocuments = .ok () (d'.withWarnings []) := by
  have hleaf : twoDocuments.forest.WellFormed 0 := .leaf (by decide) fun _ _ => rfl
  refine merge_entire true 0 hleaf (.root (by decide) rfl) (fun j hj => ?_)
    (Entries.all_of_passes (fun _ _ => Entries.entire_of_isEntire) 4 (by decide +kernel))
  match j, hleaf.lt_size hj with
  | 0, _ => exact ⟨[], 0, rfl⟩
  | 1, _ => exact ⟨[], 0, rfl⟩

/-- A member that is no mapping makes a merge fail that warns of refused keys only. Nothing is warned
    of, and the member has been created. -/
theorem merge_text_as_member : ∃ e d',
    merge (lenient false) (.map [(.str "components", .ofEntries [(.str "schemas", .ofEntries
      [(.str "Pet", .str "object")])])] 0) 0 twoDocuments = .error e d' ∧
      d'.warnings = [] ∧ (d'.forest.get 3).kind = .schema ∧
        ((d'.forest.get 3).value "schema").str? = some "Pet" := by
  have h : Results.failsIn (merge (lenient false) (.map [(.str "components", .ofEntries
      [(.str "schemas", .ofEntries [(.str "Pet", .str "object")])])] 0) 0)
      (fun _ d => decide (d.warnings = [] ∧ (d.forest.get 3).kind = .schema ∧
        ((d.forest.get 3).value "schema").str? = some "Pet")) twoDocuments = true := by
    decide +kernel
  obtain ⟨e, d', hd', hcheck⟩ := Results.exists_of_failsIn h
  exact ⟨e, d', hd', of_decide_eq_true hcheck⟩

end Edit

end ApiDoc
