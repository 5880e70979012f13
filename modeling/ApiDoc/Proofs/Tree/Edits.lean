import ApiDoc.Proofs.Document.Members
import ApiDoc.Proofs.Tree.Content

namespace ApiDoc

/-!
# Edits of standing trees

* `Edit.Meets` — what an edit leaves where it succeeds, with a condition under which it does;
* `Draft.Turned` — a draft in which another tree stands at a node, on the same nodes and new ones;
* `Meets.assignField`, `Meets.setExtensions`, `Meets.assignFlag` — values set at the root;
* `Meets.child`, `Meets.member` — a child of a singular slot and a member of a list, found or made.
-/

open Forest

namespace Edit

variable {α β : Type} {d : Draft} {F : Prop} {Q : α → Draft → Prop} {Q' : β → Draft → Prop}

/-- An edit that leaves a draft with a property where it succeeds, and that succeeds under a
    condition. -/
def Meets (act : Edit α) (d : Draft) (F : Prop) (Q : α → Draft → Prop) : Prop :=
  match act d with
  | .ok a d' => Q a d'
  | .error _ _ => ¬F

namespace Meets

/-- An answer that fits the draft. -/
protected theorem pure {a : α} (h : Q a d) : Meets (pure a) d F Q := h

/-- A failure, where success was not promised. -/
protected theorem throw {e : Failure} (h : ¬F) : Meets (throw e : Edit α) d F Q := h

/-- An edit, and then one that starts from whatever draft the first leaves. -/
theorem bind {x : Edit α} {f : α → Edit β} (hx : Meets x d F Q)
    (hf : ∀ a d', Q a d' → Meets (f a) d' F Q') : Meets (x >>= f) d F Q' := by
  unfold Meets at hx ⊢
  cases h : x d with
  | ok a d' =>
    rw [h] at hx
    rw [Results.bind_of_ok h]
    exact hf a d' hx
  | error e d' =>
    rw [h] at hx
    rw [Results.bind_of_error h]
    exact hx

/-- A computation that answers something and leaves the draft as it is. -/
theorem after_look {x : Edit α} {f : α → Edit β} {a : α} (hx : x d = .ok a d)
    (hf : Meets (f a) d F Q') : Meets (x >>= f) d F Q' := by
  unfold Meets
  rw [Results.bind_of_ok hx]
  exact hf

/-- Less may be said of the result. -/
theorem mono {x : Edit α} {P : α → Draft → Prop} (h : Meets x d F P)
    (hPQ : ∀ a d', P a d' → Q a d') : Meets x d F Q := by
  unfold Meets at h ⊢
  cases hx : x d with
  | ok a d' =>
    rw [hx] at h
    exact hPQ a d' h
  | error e d' =>
    rw [hx] at h
    exact h

/-- A computation that succeeds under a condition does so under a stronger one. -/
theorem weaken {G : Prop} {x : Edit α} (h : Meets x d G Q) (hFG : F → G) : Meets x d F Q := by
  unfold Meets at h ⊢
  cases hx : x d with
  | ok a d' =>
    rw [hx] at h
    exact h
  | error e d' =>
    rw [hx] at h
    exact fun hF => h (hFG hF)

/-- What holds of the result of an edit that succeeds. -/
theorem of_ok {x : Edit α} (h : Meets x d F Q) {a : α} {d' : Draft} (hx : x d = .ok a d') :
    Q a d' := by
  unfold Meets at h
  rw [hx] at h
  exact h

/-- Under the condition the edit succeeds. -/
theorem exists_ok {x : Edit α} (h : Meets x d F Q) (hF : F) : ∃ a d', x d = .ok a d' ∧ Q a d' := by
  unfold Meets at h
  cases hx : x d with
  | ok a d' =>
    rw [hx] at h
    exact ⟨a, d', rfl, h⟩
  | error e d' =>
    rw [hx] at h
    exact absurd hF h

/-- A loop, by what holds after each of its steps. -/
theorem forM {act : α → Edit Unit} {I : List α → Draft → Prop} {xs : List α} (hstart : I [] d)
    (hstep : ∀ before x after, xs = before ++ x :: after → ∀ d', I before d' →
      Meets (act x) d' F fun _ d'' => I (before ++ [x]) d'') :
    Meets (xs.forM act) d F fun _ d' => I xs d' := by
  suffices h : ∀ before after d, xs = before ++ after → I before d →
      Meets (after.forM act) d F fun _ d' => I xs d' from h [] xs d rfl hstart
  intro before after
  induction after generalizing before with
  | nil =>
    intro d hxs hI
    rw [hxs, List.append_nil]
    exact .pure hI
  | cons x after ih =>
    intro d hxs hI
    refine .bind (hstep before x after hxs d hI) fun _ d' hI' => ?_
    exact ih (before ++ [x]) d' (by rw [hxs, List.append_assoc]; rfl) hI'

end Meets

end Edit

/-! ### Turned drafts -/

/-- The draft with another forest. -/
abbrev Draft.to (d : Draft) (f : Forest) : Draft := { d with forest := f }

/-- A draft in which a tree stands at a node, on the nodes that were its own and on new ones. -/
structure Draft.Turned (d : Draft) (i : NodeId) (A : Finset NodeId) (t : Tree) (d' : Draft) :
    Prop where
  grows : d.forest.Grows A d'.forest
  holds : d'.forest.Holds t i (A ∪ newIds d.forest d'.forest)

namespace Draft.Turned

variable {d d' d'' : Draft} {i : NodeId} {A : Finset NodeId} {t u : Tree}

/-- A draft that holds a tree has been turned into it. -/
theorem refl (h : d.forest.Holds t i A) : d.Turned i A t d where
  grows := .refl _ _
  holds := by
    rw [newIds_self, Finset.union_empty]
    exact h

/-- A second turn may use the nodes that the first has added. -/
theorem trans (h : d.Turned i A t d') (h' : d'.Turned i (A ∪ newIds d.forest d'.forest) u d'') :
    d.Turned i A u d'' where
  grows := h.grows.trans h'.grows
  holds := by
    have holds := h'.holds
    rw [Finset.union_assoc, newIds_trans h.grows.size_le h'.grows.size_le] at holds
    exact holds

/-- The root replaced, no node being added. -/
theorem put {n : Node} (hi : i ∈ A)
    (h : (d.forest.put i n).Holds u i A) : d.Turned i A u (d.to (d.forest.put i n)) where
  grows := by
    refine ⟨by simp, fun j _ hj => get_put_of_ne _ ?_ n⟩
    rintro rfl
    exact hj hi
  holds := by
    have hnew : newIds d.forest (d.forest.put i n) = ∅ := by simp [newIds]
    show (d.forest.put i n).Holds u i (A ∪ newIds d.forest (d.forest.put i n))
    rw [hnew, Finset.union_empty]
    exact h

/-- A node added, and the root replaced. -/
theorem addPut {m n : Node} (hi : i ∈ A)
    (h : ((d.forest.add m).2.put i n).Holds u i
      (A ∪ newIds d.forest ((d.forest.add m).2.put i n))) :
    d.Turned i A u (d.to ((d.forest.add m).2.put i n)) where
  grows := by
    refine ⟨by simp, fun j hlt hj => ?_⟩
    have hne : j ≠ i := by
      rintro rfl
      exact hj hi
    show ((d.forest.add m).2.put i n).get j = _
    rw [get_put_of_ne _ hne, d.forest.get_add_of_lt hlt]
  holds := h

end Draft.Turned

/-! ### Slots emptied -/

namespace Forest.Holds

variable {f : Forest} {t : Tree} {i : NodeId} {A : Finset NodeId}

/-- What stands in a slot replaced by something without children. -/
theorem clear (hf : f.Holds t i A) {σ : String} (hσ : σ ∈ t.kind.slots) {s : Slot Tree} {v : Data}
    (hv : s.Shows [] v) :
    (f.put i ((f.get i).putValue σ v)).Holds (t.setSlot σ s) i A := by
  cases hf with
  | mk ids part own children =>
    have hget : (f.put i ((f.get i).putValue σ v)).get i = (f.get i).putValue σ v :=
      f.get_put_self (own.bound i own.mem) _
    have hnew : newIds f (f.put i ((f.get i).putValue σ v)) = ∅ := by simp [newIds]
    rw [← A.union_empty, ← hnew]
    refine own.rebuild children [] (by simp) hσ (by rw [hget]; exact own.root.putSlot hσ v s) rfl
      (fun τ hτ => ⟨if_neg hτ, ?_⟩) ?_ (P := ∅) (n := 0) (Finset.empty_subset _)
      (fun τ n _ j hj => ?_) (fun c j _ hj => ?_) fun n _ c j _ hj => ?_
    · rw [hget, Node.value_putValue own.root.names, if_neg hτ]
    · rw [hget, Node.value_putValue own.root.names, if_pos rfl, Tree.setSlot_slot_self]
      exact hv
    · exact f.get_put_of_ne (Finset.mem_erase.1 (own.part_subset τ n hj)).1 _
    · cases hj
    · cases hj

end Forest.Holds

/-! ### Values set -/

namespace Edit.Meets

variable {d : Draft} {F : Prop} {t : Tree} {i : NodeId} {A : Finset NodeId}

/-- A field set. -/
theorem assignField (hd : d.forest.Holds t i A) {name : String} (hname : name ∈ t.kind.fields)
    (v : Data) : Meets (assign i name v) d F fun _ d' => d.Turned i A (t.put name v) d' := by
  refine .put hd.mem (hd.touch (hd.root.put name v) rfl rfl fun σ hσ => ?_)
  have hne : σ ≠ name := by
    rintro rfl
    exact t.kind.field_notMem_slots σ hname hσ
  rw [Node.value_putValue hd.root.names, if_neg hne]

/-- The extensions replaced. -/
theorem setExtensions (hd : d.forest.Holds t i A) (es : Entries) (mark : Nat) :
    Meets (setNode i { d.forest.get i with extensions := .map es mark }) d F fun _ d' =>
      d.Turned i A { t with extensions := es } d' :=
  .put hd.mem (hd.touch (hd.root.setExtensions es mark) rfl rfl fun _ _ => rfl)

/-- A truth value put into a slot. -/
theorem assignFlag (hd : d.forest.Holds t i A) {σ : String} (hσ : σ ∈ t.kind.slots) (b : Bool) :
    Meets (assign i σ (.bool b)) d F fun _ d' => d.Turned i A (t.setSlot σ (.flag b)) d' :=
  .put hd.mem (hd.clear hσ ⟨rfl, rfl⟩)

end Edit.Meets

/-! ### Lists of members -/

/-- A search that never fails finds the first item that passes the test. -/
theorem Edit.position?_eq {α : Type} {test : Data → Except Failure Bool} {b : α → Bool}
    {items : List Data} {as : List α} (h : List.Forall₂ (fun x a => test x = .ok (b a)) items as)
    (i : Nat) : position? test i items = .ok ((as.findIdx? b).map (i + ·)) := by
  induction h generalizing i with
  | nil => rfl
  | @cons x a items as hx _ ih =>
    rw [position?, hx, List.findIdx?_cons]
    cases b a with
    | true => rfl
    | false =>
      show position? test (i + 1) items = _
      rw [ih (i + 1)]
      simp [Function.comp_def, Nat.add_comm, Nat.add_left_comm]

namespace Kind

/-- Each kind of children has one slot for a single child. -/
theorem lookup_singular (k : Kind) : ∀ p ∈ k.layout.singular,
    k.layout.singular.lookup p.1 = some p.2 := by
  cases k <;> decide

/-- Each kind of children has one slot for children under keys. -/
theorem lookup_indexed (k : Kind) : ∀ p ∈ k.layout.indexed,
    k.layout.indexed.lookup p.1 = some p.2 := by
  cases k <;> decide

/-- Each kind of children has one slot for a collection. -/
theorem lookup_collections (k : Kind) : ∀ p ∈ k.layout.collections,
    k.layout.collections.lookup p.1 = some p.2 := by
  cases k <;> decide

end Kind

namespace Edit

variable {d : Draft} {i : NodeId} {k : Kind} {name : String}

/-- The slot for a kind of children is found in its table. -/
theorem slotFor_eq {α : Type} (role : SlotRole) (table : Layout → List (Kind × α)) {slot : α}
    (h : (table (d.forest.get i).kind.layout).lookup k = some slot) :
    slotFor role table i k d = .ok slot d := by
  unfold slotFor
  rw [Results.bind_of_ok (show node i d = .ok (d.forest.get i) d from rfl), h]
  rfl

/-- An attribute of a node is read. -/
theorem read_eq (h : name ∈ (d.forest.get i).kind.attributes) :
    Edit.read i name d = .ok ((d.forest.get i).value name) d := by
  show (ofExcept (d.forest.read i name)) d = _
  rw [Forest.read_attribute h]
  rfl

/-- A slot set. -/
theorem assign?_slot (hname : name ∈ (d.forest.get i).kind.slots) (v : Data) :
    assign? i name v d
      = .ok () (d.to (d.forest.put i ((d.forest.get i).putValue name v))) := by
  have hreserved := Kind.slot_notMem_reserved _ name hname
  simp only [Keeps.reserved, List.mem_cons, List.not_mem_nil, or_false, not_or] at hreserved
  have hmem : (d.forest.get i).kind.attributes.contains name = true :=
    List.contains_iff_mem.2 (List.mem_append_right _ hname)
  have hassign : (d.forest.get i).assign? name v = .ok ((d.forest.get i).putValue name v) := by
    unfold Node.assign?
    rw [if_neg (by simpa using hreserved.1), if_neg (by simpa using hreserved.2.1), if_pos hmem]
  show (ofExcept ((d.forest.get i).assign? name v) >>= fun n => setNode i n) d = _
  rw [hassign]
  rfl

/-- A new node with fields of its kind is added behind all others. -/
theorem addDetached_eq {fields : Entries} (hfields : fields.AreFields k) :
    addDetached i k fields d = .ok d.forest.size
      (d.to (d.forest.add (Node.putFields { kind := k, parent := .node i } fields)).2) := by
  have hnested : (fields.filterMap (·.1.str?)).filter (fun name => k.slots.contains name) = [] := by
    rw [List.filter_eq_nil_iff]
    intro name hname hslot
    obtain ⟨e, he, hstr⟩ := List.mem_filterMap.1 hname
    obtain ⟨field, hfield, hkey⟩ := hfields e he
    rw [hkey] at hstr
    obtain rfl : field = name := Option.some.inj hstr
    exact k.field_notMem_slots field hfield (List.contains_iff_mem.1 hslot)
  have hcreate : Node.createChild k i fields
      = .ok (Node.putFields { kind := k, parent := .node i } fields) := by
    unfold Node.createChild
    rw [hnested]
    exact Node.create_eq _ hfields
  show (ofExcept (Node.createChild k i fields) >>= fun n => addNode n) d = _
  rw [hcreate]
  rfl

/-- The forest with a new child of a node, which then has a value under a name. -/
def withChild (f : Forest) (i : NodeId) (k : Kind) (fields : Entries) (name : String) (v : Data) :
    Forest :=
  (f.add (Node.putFields { kind := k, parent := .node i } fields)).2.put i
    ((f.get i).putValue name v)

/-- The parent of a new child holds it. -/
theorem get_withChild {f : Forest} (hi : i < f.size) (fields : Entries) (v : Data) :
    (withChild f i k fields name v).get i = (f.get i).putValue name v :=
  get_put_self _ (by rw [size_add]; exact Nat.lt_succ_of_lt hi) _

/-- A new child, and a value that may hold it. -/
theorem addDetached_assign {fields : Entries} (hfields : fields.AreFields k)
    (hi : i < d.forest.size) (v : NodeId → Data) :
    (do
      let j ← addDetached i k fields
      assign i name (v j)
      return j : Edit NodeId) d
      = .ok d.forest.size (d.to (withChild d.forest i k fields name (v d.forest.size))) := by
  rw [Results.bind_of_ok (addDetached_eq hfields)]
  show EStateM.Result.ok d.forest.size (d.to ((d.forest.add _).2.put i
    (((d.forest.add _).2.get i).putValue name (v d.forest.size)))) = _
  rw [d.forest.get_add_of_lt hi]
  rfl

/-- A child made and then put into its slot. -/
theorem addDetached_assign? {fields : Entries} (hfields : fields.AreFields k)
    (hi : i < d.forest.size) (hname : name ∈ (d.forest.get i).kind.slots) (v : NodeId → Data)
    (n : Nat) :
    (do
      let j ← addDetached i k fields
      assign? i name (v j)
      return (j, n) : Edit (NodeId × Nat)) d
      = .ok (d.forest.size, n)
        (d.to (withChild d.forest i k fields name (v d.forest.size))) := by
  have hget := d.forest.get_add_of_lt hi (Node.putFields { kind := k, parent := .node i } fields)
  rw [Results.bind_of_ok (addDetached_eq hfields), Results.bind_of_ok (assign?_slot ?_ _)]
  · show EStateM.Result.ok (d.forest.size, n) (d.to ((d.forest.add _).2.put i
      (((d.forest.add _).2.get i).putValue name (v d.forest.size)))) = _
    rw [hget]
    rfl
  · show name ∈ ((d.forest.add _).2.get i).kind.slots
    rw [hget]
    exact hname

end Edit

namespace Forest.Holds

variable {f : Forest} {t c : Tree} {i j : NodeId} {A P : Finset NodeId}

/-- What stands in a slot, by the numbers of the children, and the children there. -/
theorem slot (hf : f.Holds t i A) {σ : String} (hσ : σ ∈ t.kind.slots) :
    ∃ js, (t.slot σ).Shows js ((f.get i).value σ) ∧
      List.Forall₂ (fun j c => ∃ P, f.Holds c j P) js (t.slot σ).trees := by
  cases hf with
  | mk ids part own children =>
    refine ⟨ids σ, own.slots σ hσ, List.forall₂_iff_get.2 ⟨(own.slots σ hσ).length, ?_⟩⟩
    intro n hn hn'
    exact ⟨part σ n, children σ n _ _ (List.getElem?_eq_getElem hn') (List.getElem?_eq_getElem hn)⟩

/-- A slot is set at a node where something stands in it. -/
theorem isSet_slot (hf : f.Holds t i A) {σ : String} (hσ : σ ∈ t.kind.slots) :
    (f.get i).isSet σ = !(t.slot σ).isEmpty := by
  obtain ⟨js, hshows, -⟩ := hf.slot hσ
  unfold Node.isSet
  cases hslot : t.slot σ with
  | empty =>
    rw [hslot] at hshows
    rw [hshows.2]
    rfl
  | flag b =>
    rw [hslot] at hshows
    rw [hshows.2]
    rfl
  | child c =>
    rw [hslot] at hshows
    obtain ⟨j, -, hvalue⟩ := hshows
    rw [hvalue]
    rfl
  | members ts =>
    rw [hslot] at hshows
    obtain ⟨-, m, hvalue⟩ := hshows
    rw [hvalue]
    rfl

/-- Whether a node has values is told by the tree that stands there. -/
theorem hasValues_eq (hf : f.Holds c j P) {fields : Entries}
    (hfields : ∀ e ∈ fields, ∃ name ∈ c.keys, e.1 = .str name) :
    Edit.hasValues f (.node j) fields = .ok (c.hasValues fields) := by
  induction fields with
  | nil => rfl
  | cons e fields ih =>
    obtain ⟨key, v⟩ := e
    obtain ⟨name, hname, hkey⟩ := hfields _ List.mem_cons_self
    dsimp only at hkey
    subst hkey
    have htold : (c.field name).alike v = ((f.get j).value name).alike v := by
      rw [hf.root.field name, Tree.told_of_key hname, Data.alike_settled]
    have hstep : Edit.hasValues f (.node j) ((.str name, v) :: fields)
        = if ((f.get j).value name).alike v then Edit.hasValues f (.node j) fields
          else .ok false := by
      show (f.readFrom (.node j) name >>= fun w =>
        if w.alike v then Edit.hasValues f (.node j) fields else pure false) = _
      rw [hf.readFrom_eq hname]
      rfl
    have hcons : c.hasValues ((.str name, v) :: fields)
        = ((c.field name).alike v && c.hasValues fields) := rfl
    rw [hstep, hcons, htold, ih fun e he => hfields e (List.mem_cons_of_mem _ he)]
    cases ((f.get j).value name).alike v <;> rfl

/-- Whether a node has a text as its key is told by the tree that stands there. -/
theorem hasKey_eq (hf : f.Holds c j P) {name : String} (hname : name ∈ c.keys) (s : String) :
    Edit.hasKey f name (.str s) (.node j) = .ok (c.hasValues [(.str name, .str s)]) := by
  have hkind : (name != "kind") = true := by
    have hreserved := Kind.field_notMem_reserved _ _ (hf.root.keys name hname)
    simp only [Edit.Keeps.reserved, List.mem_cons, not_or] at hreserved
    simpa using hreserved.2.2.1
  have htest : (c.field name).alike (.str s) = ((f.get j).value name).identical (.str s) := by
    rw [hf.root.field name, Tree.told_of_key hname, Data.alike_settled, Bool.eq_iff_iff,
      Data.alike_str_iff, Data.identical_str_iff]
  have hvalues : c.hasValues [(.str name, .str s)] = (c.field name).alike (.str s) :=
    Bool.and_true _
  show (f.readFrom (.node j) name >>= fun w =>
    pure (name != "kind" && w.identical (.str s))) = _
  rw [hf.readFrom_eq hname, hvalues, htest]
  show Except.ok (name != "kind" && _) = _
  rw [hkind, Bool.true_and]

end Forest.Holds

/-- A member of a slot, found or made: where it is, and what becomes of the members when a source
    is merged into it. -/
def Draft.Located (d : Draft) (i : NodeId) (A : Finset NodeId) (t : Tree) (σ : String)
    (p : Placement) (fields : Entries) (j : NodeId) (d' : Draft) : Prop :=
  ∃ ts n c, d.Turned i A (t.setSlot σ (.members ts)) d' ∧
    ((d'.forest.get i).value σ).nodes[n]? = some (.node j) ∧ ts[n]? = some c ∧
    ∀ absorb rest, Tree.putMember absorb p (t.slot σ).list (fields, rest)
      = ts.set n (absorb rest c)

namespace Edit.Meets

variable {d : Draft} {F : Prop} {t : Tree} {i : NodeId} {A : Finset NodeId} {σ : String}
  {p : Placement} {k : Kind}

/-- A child added to a slot. -/
theorem turned_addChild (hd : d.forest.Holds t i A) (hσ : σ ∈ t.kind.slots) {keys : List String}
    (hkeys : ∀ key ∈ keys, key ∈ k.fields) {fields : Entries} (hfields : fields.AreFields k)
    {s : Slot Tree} {v : Data} {m : Nat} (hm : m ≤ (t.slot σ).trees.length)
    (htrees : s.trees = (t.slot σ).trees.take m ++ [(Tree.fresh k keys).putFields fields])
    (hshows : ∀ js, (t.slot σ).Shows js ((d.forest.get i).value σ) →
      s.Shows (js.take m ++ [d.forest.size]) v) :
    d.Turned i A (t.setSlot σ s) (d.to (withChild d.forest i k fields σ v)) := by
  obtain ⟨hkind, -, hslots⟩ := Node.putFields_spec hfields { kind := k, parent := .node i }
  obtain ⟨htree, -, hslot, -⟩ := Tree.putFields_frame (.fresh k keys) fields
  refine .addPut hd.mem (hd.addChild hσ ((Node.Matches.fresh hkeys _).putFields fields) ?_ hslot
    hm htrees hshows)
  rw [htree]
  exact hslots

/-- The child of a singular slot, found or made. -/
theorem child (hd : d.forest.Holds t i A) (ht : t.Typed) {b : Bool}
    (hp : t.kind.placement? σ = some (.single k b)) :
    Meets (Edit.child i k) d F fun j d' =>
      d.Turned i A (t.setSlot σ (.child ((t.slot σ).childOr (.fresh k [])))) d' ∧
        ((d'.forest.get i).value σ).nodes[0]? = some (.node j) := by
  have hσ := Kind.mem_slots_of_placement? hp
  have hlookup : (d.forest.get i).kind.layout.singular.lookup k = some σ := by
    rw [hd.kind]
    exact t.kind.lookup_singular _ (Kind.mem_singular_of_placement? hp)
  refine .after_look (slotFor_eq .singular (·.singular) hlookup) (.after_look rfl ?_)
  obtain ⟨js, hshows, -⟩ := hd.slot hσ
  have hfits := ht σ _ hp
  -- Whatever else stands in the slot gives way to a new child.
  have hnew : (t.slot σ).childOr (.fresh k []) = .fresh k [] →
      Meets (do
        let j ← addDetached i k []
        assign i σ (.node j)
        return j) d F fun j d' =>
        d.Turned i A (t.setSlot σ (.child ((t.slot σ).childOr (.fresh k [])))) d' ∧
          ((d'.forest.get i).value σ).nodes[0]? = some (.node j) := by
    intro hchild
    have hfields : Entries.AreFields k [] := fun _ h => absurd h List.not_mem_nil
    have hturned := turned_addChild hd hσ (List.nil_subset _) hfields (s := .child (.fresh k []))
      (v := .node d.forest.size) (Nat.zero_le _) rfl fun js _ => ⟨d.forest.size, rfl, rfl⟩
    unfold Meets
    rw [addDetached_assign hfields hd.lt_size, hchild]
    refine ⟨hturned, ?_⟩
    show (((withChild ..).get i).value σ).nodes[0]? = _
    rw [get_withChild hd.lt_size, Node.value_putValue hd.root.names, if_pos rfl]
    rfl
  cases hslot : t.slot σ with
  | child c =>
    rw [hslot] at hshows
    obtain ⟨j, -, hvalue⟩ := hshows
    rw [hvalue]
    refine .pure ⟨?_, ?_⟩
    · show d.Turned i A (t.setSlot σ (.child c)) d
      rw [← hslot, Tree.setSlot_self]
      exact .refl hd
    · rw [hvalue]
      rfl
  | empty =>
    rw [hslot] at hshows hnew
    rw [hshows.2]
    exact hnew rfl
  | flag x =>
    rw [hslot] at hshows hnew
    rw [hshows.2]
    exact hnew rfl
  | members ts =>
    rw [hslot] at hfits
    exact absurd hfits.1 (by simp [Placement.isSingle])

/-- A new member behind those of a list that is there. -/
theorem addMember (hd : d.forest.Holds t i A) (hp : t.kind.placement? σ = some p)
    {fields : Entries} (hfields : fields.AreFields p.kind) {ts : List Tree} {items : List Data}
    {mark : Nat} (hslot : t.slot σ = .members ts)
    (hvalue : (d.forest.get i).value σ = .list items mark) :
    Meets (do
      let j ← addDetached i p.kind fields
      assign? i σ (.list (items ++ [.node j]) mark)
      return (j, items.length)) d F fun r d' => d.Turned i A (t.setSlot σ
        (.members (ts ++ [(Tree.fresh p.kind p.keys).putFields fields]))) d' ∧
          ((d'.forest.get i).value σ).nodes[ts.length]? = some (.node r.1) := by
  have hσ := Kind.mem_slots_of_placement? hp
  obtain ⟨js, hshows, -⟩ := hd.slot hσ
  rw [hslot, hvalue] at hshows
  obtain ⟨hlength, mark', he⟩ := hshows
  cases he
  have hlength' : (js.map Data.node).length = ts.length := by rw [List.length_map, hlength]
  have hturned := turned_addChild hd hσ (Kind.keys_subset_fields hp) hfields
    (s := .members (ts ++ [(Tree.fresh p.kind p.keys).putFields fields]))
    (v := .list (js.map Data.node ++ [.node d.forest.size]) mark) (m := ts.length)
    (by rw [hslot]; exact Nat.le_refl _) (by rw [hslot]; simp [Slot.trees]) fun js' hshows' => ?_
  · unfold Meets
    rw [addDetached_assign? hfields hd.lt_size (hd.kind.symm ▸ hσ)
      (fun j => Data.list (js.map Data.node ++ [Data.node j]) mark) (js.map Data.node).length]
    refine ⟨hturned, ?_⟩
    show (((withChild ..).get i).value σ).nodes[ts.length]? = _
    rw [get_withChild hd.lt_size, Node.value_putValue hd.root.names, if_pos rfl]
    show (js.map Data.node ++ [.node d.forest.size])[ts.length]? = _
    rw [← hlength', List.getElem?_concat_length]
  · rw [hslot, hvalue] at hshows'
    obtain ⟨-, mark', he⟩ := hshows'
    obtain rfl : js = js' := List.map_injective_iff.2 (fun _ _ h => Data.node.inj h)
      (Data.list.inj he).1
    exact ⟨by simp [hlength], mark, by simp [← hlength]⟩

/-- A new member at the end of a list. -/
theorem appendItem (hd : d.forest.Holds t i A) (hp : t.kind.placement? σ = some p)
    (hfits : (t.slot σ).Fits p) (hlist : p.isSingle = false) {fields : Entries}
    (hfields : fields.AreFields p.kind) :
    Meets (Edit.appendItem i σ p.kind fields) d F fun r d' => d.Turned i A (t.setSlot σ
      (.members ((t.slot σ).list ++ [(Tree.fresh p.kind p.keys).putFields fields]))) d' ∧
        ((d'.forest.get i).value σ).nodes[(t.slot σ).list.length]? = some (.node r.1) := by
  have hσ := Kind.mem_slots_of_placement? hp
  have hσ' : σ ∈ (d.forest.get i).kind.slots := hd.kind.symm ▸ hσ
  have hread := read_eq (d := d) (List.mem_append_right (d.forest.get i).kind.fields hσ')
  obtain ⟨js, hshows, -⟩ := hd.slot hσ
  unfold Edit.appendItem
  cases hslot : t.slot σ with
  | members ts =>
    rw [hslot] at hshows
    obtain ⟨-, mark, hvalue⟩ := hshows
    have hensure : ensureList i σ d = .ok (js.map Data.node, mark) d := by
      unfold ensureList
      rw [Results.bind_of_ok hread, hvalue]
      rfl
    exact .after_look hensure (addMember hd hp hfields hslot hvalue)
  | empty =>
    -- The list is made first.
    rw [hslot] at hshows
    let d₁ := d.to (d.forest.put i ((d.forest.get i).putValue σ (.ofList [])))
    have hensure : ensureList i σ d = .ok ([], 0) d₁ := by
      unfold ensureList
      rw [Results.bind_of_ok hread, hshows.2]
      show (assign? i σ (.ofList []) >>= fun _ => pure ([], 0)) d = _
      rw [Results.bind_of_ok (assign?_slot hσ' _)]
      rfl
    have hturned : d.Turned i A (t.setSlot σ (.members [])) d₁ :=
      .put hd.mem (hd.clear hσ ⟨rfl, 0, rfl⟩)
    have hvalue : (d₁.forest.get i).value σ = .list [] 0 := by
      show ((d.forest.put i _).get i).value σ = _
      rw [d.forest.get_put_self hd.lt_size, Node.value_putValue hd.root.names, if_pos rfl]
    unfold Meets
    rw [Results.bind_of_ok hensure]
    refine mono (addMember hturned.holds hp hfields (Tree.setSlot_slot_self ..) hvalue)
      fun r d' h => ⟨?_, h.2⟩
    have htrans := hturned.trans h.1
    rw [Tree.setSlot_setSlot] at htrans
    exact htrans
  | flag x =>
    rw [hslot] at hfits
    obtain ⟨k, rfl⟩ := hfits
    cases hlist
  | child c =>
    rw [hslot] at hfits
    exact absurd hfits.1 (by rw [hlist]; exact Bool.false_ne_true)

/-- The members of a list are read from it, by their numbers. -/
theorem membersOf_eq (hd : d.forest.Holds t i A) (hσ : σ ∈ t.kind.slots)
    (hfits : (t.slot σ).Fits p) (hlist : p.isSingle = false) :
    ∃ js, membersOf i σ d = .ok (js.map Data.node) d ∧
      ((d.forest.get i).value σ).nodes = js.map Data.node ∧
        List.Forall₂ (fun j c => c.IsFor p ∧ ∃ P, d.forest.Holds c j P) js (t.slot σ).list := by
  obtain ⟨js, hshows, hholds⟩ := hd.slot hσ
  have hchildren : List.Forall₂ (fun j c => c.IsFor p ∧ ∃ P, d.forest.Holds c j P) js
      (t.slot σ).trees := by
    obtain ⟨hlength, hget⟩ := List.forall₂_iff_get.1 hholds
    exact List.forall₂_iff_get.2 ⟨hlength, fun n hn hn' =>
      ⟨hfits.isFor _ (List.get_mem _ _), hget n hn hn'⟩⟩
  have hmem : σ ∈ (d.forest.get i).kind.attributes := by
    rw [hd.kind]
    exact List.mem_append_right _ hσ
  refine ⟨js, ?_, hshows.nodes, ?_⟩
  · unfold membersOf
    rw [Results.bind_of_ok (read_eq hmem)]
    cases hslot : t.slot σ with
    | empty =>
      rw [hslot] at hshows
      rw [hshows.1, hshows.2]
      rfl
    | members ts =>
      rw [hslot] at hshows
      obtain ⟨-, mark, hvalue⟩ := hshows
      rw [hvalue]
      cases js <;> rfl
    | flag x =>
      rw [hslot] at hfits
      obtain ⟨k, rfl⟩ := hfits
      exact nomatch hlist
    | child c =>
      rw [hslot] at hfits
      exact absurd hfits.1 (by rw [hlist]; exact Bool.false_ne_true)
  · cases hslot : t.slot σ with
    | empty => rw [hslot] at hchildren; exact hchildren
    | members ts => rw [hslot] at hchildren; exact hchildren
    | flag x => rw [hslot] at hchildren; exact hchildren
    | child c =>
      rw [hslot] at hfits
      exact absurd hfits.1 (by rw [hlist]; exact Bool.false_ne_true)

/-- A member that a search has found, or a new one. -/
theorem foundOr (hd : d.forest.Holds t i A) (hp : t.kind.placement? σ = some p)
    (hfits : (t.slot σ).Fits p) (hlist : p.isSingle = false) {fields : Entries}
    (hfields : fields.AreFields p.kind) {js : List NodeId}
    (hnodes : ((d.forest.get i).value σ).nodes = js.map Data.node)
    (hlength : js.length = (t.slot σ).list.length) :
    Meets (match nodeAt? (js.map Data.node) ((t.slot σ).list.findIdx? (·.hasValues fields)) with
      | some j => (return j : Edit NodeId)
      | none => return (← Edit.appendItem i σ p.kind fields).1) d F
        (d.Located i A t σ p fields) := by
  cases hfound : (t.slot σ).list.findIdx? (·.hasValues fields) with
  | some n =>
    obtain ⟨hn, -⟩ := List.findIdx?_eq_some_iff_getElem.1 hfound
    have hc : (t.slot σ).list[n]? = some (t.slot σ).list[n] := List.getElem?_eq_getElem hn
    have hn' : n < js.length := by omega
    have hj : (js.map Data.node)[n]? = some (.node js[n]) := by
      rw [List.getElem?_map, List.getElem?_eq_getElem hn']
      rfl
    have hat : nodeAt? (js.map Data.node) (some n) = some js[n] := by
      show ((js.map Data.node)[n]?.bind Data.node?) = _
      rw [hj]
      rfl
    rw [hat]
    -- A slot in which something is found holds a list already.
    have hmembers : t.slot σ = .members (t.slot σ).list := by
      cases hslot : t.slot σ with
      | members ts => rfl
      | _ => rw [hslot] at hn; exact absurd hn (Nat.not_lt_zero _)
    refine .pure ⟨(t.slot σ).list, n, _, ?_, ?_, hc, fun absorb rest => ?_⟩
    · rw [← hmembers, Tree.setSlot_self]
      exact .refl hd
    · rw [hnodes]
      exact hj
    · exact upsert_of_found hfound hc
  | none =>
    refine .bind (appendItem hd hp hfits hlist hfields) fun r d' h => .pure ?_
    refine ⟨_, _, (Tree.fresh p.kind p.keys).putFields fields, h.1, h.2, ?_, fun absorb rest => ?_⟩
    · rw [List.getElem?_append_right (Nat.le_refl _), Nat.sub_self]
      rfl
    · rw [Tree.putMember, upsert_of_none hfound, List.set_append_right _ _ (Nat.le_refl _),
        Nat.sub_self]
      rfl

/-- The member under a text, found or made. -/
theorem indexedItem (hd : d.forest.Holds t i A) (ht : t.Typed) {key : String}
    (hp : t.kind.placement? σ = some (.keyed k key)) (s : String) :
    Meets (Edit.indexedItem i k (.str s)) d F
      (d.Located i A t σ (.keyed k key) [(.str key, .str s)]) := by
  have hσ := Kind.mem_slots_of_placement? hp
  obtain ⟨slot, hslot, rfl, rfl⟩ := Kind.mem_indexed_of_placement? hp
  have hlookup : (d.forest.get i).kind.layout.indexed.lookup k = some slot := by
    rw [hd.kind]
    exact t.kind.lookup_indexed _ hslot
  have hfields : Entries.AreFields k [(.str slot.key, .str s)] := by
    intro e he
    rw [List.mem_singleton.1 he]
    exact ⟨slot.key, t.kind.index_mem_fields _ hslot, rfl⟩
  have hfits := ht slot.name _ hp
  obtain ⟨js, hmembers, hnodes, hchildren⟩ := membersOf_eq hd hσ hfits rfl
  have hsearch : searchIndexed (js.map Data.node) slot.key (.str s) d
      = .ok ((t.slot slot.name).list.findIdx? (·.hasValues [(.str slot.key, .str s)])) d := by
    have htest : List.Forall₂ (fun x (c : Tree) => hasKey d.forest slot.key (.str s) x
        = .ok (c.hasValues [(.str slot.key, .str s)])) (js.map Data.node) (t.slot slot.name).list := by
      refine List.forall₂_map_left_iff.2 (hchildren.imp ?_)
      rintro j c ⟨hc, P, hj⟩
      refine hj.hasKey_eq ?_ s
      rw [hc.keys]
      exact List.mem_singleton_self _
    show ofExcept (position? (hasKey d.forest slot.key (.str s)) 0 (js.map Data.node)) d = _
    rw [position?_eq htest]
    simp [ofExcept, pure, EStateM.pure]
  refine .after_look (slotFor_eq .indexed (·.indexed) hlookup) (.after_look hmembers ?_)
  refine .after_look hsearch ?_
  exact foundOr hd hp hfits rfl hfields hnodes hchildren.length_eq

/-- The member with some values, found or made. There has to be something to compare. -/
theorem collectionItem (hd : d.forest.Holds t i A) (ht : t.Typed) {slot : CollectionSlot}
    (hp : t.kind.placement? σ = some (.listed k slot)) {fields : Entries} (hsome : fields ≠ [])
    (hkeys : ∀ e ∈ fields, ∃ name ∈ slot.identifying, e.1 = .str name) :
    Meets (Edit.collectionItem i k fields) d F
      (d.Located i A t σ (.listed k slot) fields) := by
  have hσ := Kind.mem_slots_of_placement? hp
  obtain ⟨hslot, rfl⟩ := Kind.mem_collections_of_placement? hp
  have hlookup : (d.forest.get i).kind.layout.collections.lookup k = some slot := by
    rw [hd.kind]
    exact t.kind.lookup_collections _ hslot
  have hfields : Entries.AreFields k fields := by
    intro e he
    obtain ⟨name, hname, hkey⟩ := hkeys e he
    exact ⟨name, Kind.keys_subset_fields hp name hname, hkey⟩
  have hfits := ht slot.name _ hp
  obtain ⟨js, hmembers, hnodes, hchildren⟩ := membersOf_eq hd hσ hfits rfl
  have hsearch : searchCollection (js.map Data.node) fields d
      = .ok ((t.slot slot.name).list.findIdx? (·.hasValues fields)) d := by
    have htest : List.Forall₂ (fun x (c : Tree) => hasValues d.forest x fields
        = .ok (c.hasValues fields)) (js.map Data.node) (t.slot slot.name).list := by
      refine List.forall₂_map_left_iff.2 (hchildren.imp ?_)
      rintro j c ⟨hc, P, hj⟩
      refine hj.hasValues_eq ?_
      rw [hc.keys]
      exact hkeys
    show ofExcept (position? (fun x => hasValues d.forest x fields) 0 (js.map Data.node)) d = _
    rw [position?_eq htest]
    simp [ofExcept, pure, EStateM.pure]
  have hempty : fields.isEmpty = false := by
    rw [List.isEmpty_eq_false_iff]
    exact hsome
  refine .after_look (slotFor_eq .collection (·.collections) hlookup) ?_
  simp only [hempty, Bool.false_eq_true, if_false]
  refine .after_look hmembers (.after_look hsearch ?_)
  exact foundOr hd hp hfits rfl hfields hnodes hchildren.length_eq

end Edit.Meets

end ApiDoc
