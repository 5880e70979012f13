import ApiDoc.Proofs.Growth.Built
import ApiDoc.Proofs.Growth.Contents
import ApiDoc.Proofs.Growth.Frame
import ApiDoc.Proofs.Policy.Success

namespace ApiDoc

/-!
# Calls that are refused

A call that finds or makes a child can fail before it changes anything, or with a new child that
cannot be created:

* `Edit.ChildCall` — such a call, `ChildCall.Opens` — the list that it opens before it makes the
  child;
* `Edit.Refused` — what holds of the draft that an edit leaves where it fails;
* `Consistent.content_unmoved` — trees that have not changed show what they have shown;
* `ChildCall.refused_leaves` — what a refused call leaves.
-/

open Forest

/-! ### Content of trees that have not changed -/

/-- Computations that agree on each item agree on the list. -/
theorem Except.mapM_congr {ε α β : Type} {g h : α → Except ε β} {xs : List α}
    (hall : ∀ x ∈ xs, g x = h x) : xs.mapM g = xs.mapM h := by
  induction xs with
  | nil => rfl
  | cons x xs ih =>
    obtain ⟨hhead, hall⟩ := List.forall_mem_cons.1 hall
    rw [List.mapM_cons, List.mapM_cons, hhead, ih hall]

namespace Forest

variable {f g : Forest} {content content' : NodeId → Except Failure Data} {i j : NodeId} {n : Node}
  {σ : String} {p : Placement} {v : Data} {es : Entries}

/-- A node shows the same where all its slots do. -/
theorem assemble_congr (h : ∀ σ p, n.kind.placement? σ = some p →
      f.shownIn content p (n.value σ) = g.shownIn content' p (n.value σ)) :
    f.assemble content n = g.assemble content' n := by
  -- What a slot shows is all that the content of a node reads of the forest.
  have hentries : ∀ {σ p}, n.kind.placement? σ = some p →
      f.slotEntries content n σ p = g.slotEntries content' n σ p := by
    intro σ p hp
    rw [slotEntries, slotEntries, h σ p hp]
  rw [assemble_eq, assemble_eq]
  rw [Except.mapM_congr fun q hq => hentries (n.kind.placement?_singular q hq),
    Except.mapM_congr fun q hq => hentries (n.kind.placement?_collections q hq),
    Except.mapM_congr fun q hq => hentries (n.kind.placement?_indexed q hq)]

/-- What a slot shows depends on its children only. -/
theorem shownIn_congr {T : NodeId → Prop} (hp : n.kind.placement? σ = some p)
    (hfills : f.Fills T i p v) (hcontent : ∀ j, .node j ∈ v.nodes → content j = content' j)
    (hget : ∀ j, .node j ∈ v.nodes → g.get j = f.get j) :
    f.shownIn content p v = g.shownIn content' p v := by
  cases hfills with
  | unset => cases p <;> rfl
  | flag => rfl
  | child => exact hcontent _ List.mem_cons_self
  | @list _ xs mark hlist hxs =>
    -- Every member of a list is a node that the value refers to.
    have hmember : ∀ x ∈ xs, shownMember content x = shownMember content' x := by
      intro x hx
      obtain ⟨j, rfl, -⟩ := hxs x hx
      exact hcontent j hx
    cases p with
    | single => cases hlist
    | listed k slot =>
      show (xs.mapM (shownMember content) >>= fun ws => pure (Data.ofList ws)) = _
      rw [Except.mapM_congr hmember]
      rfl
    | keyed k key =>
      refine congrArg (· >>= fun pairs => pure (Data.ofEntries (Entries.ofPairs pairs)))
        (Except.mapM_congr fun x hx => ?_)
      obtain ⟨j, rfl, hj, -⟩ := hxs x hx
      -- The key of a member is a field of the member itself, so both forests read the same.
      have hread : f.readFrom (.node j) key = g.readFrom (.node j) key := by
        have hkey : key ∈ (f.get j).kind.attributes := by
          refine List.mem_append_left _ ?_
          rw [hj.2.1]
          exact (Kind.keyed_field hp).1
        show f.read j key = g.read j key
        rw [read_attribute hkey, read_attribute (by rwa [hget j hx]), hget j hx]
      rw [hread, hmember _ hx]

/-- A tree that has not changed shows what it has shown. -/
theorem Consistent.contentIn_unmoved (hf : f.Consistent) (depth : Nat) (hi : i < f.size)
    (h : f.Unmoved g i) : g.contentIn depth i = f.contentIn depth i := by
  induction depth generalizing i with
  | zero => rfl
  | succ depth ih =>
    show g.assemble _ (g.get i) = f.assemble _ (f.get i)
    rw [h i .self]
    refine (assemble_congr fun σ p hp => ?_).symm
    have hσ := Kind.mem_slots_of_placement? hp
    -- A child and all below it lie below `i`, and one level of the depth is spent on the way.
    refine shownIn_congr hp (hf.formed.slots i trivial hi σ p hp) (fun j hj => ?_) fun j hj => ?_
    · obtain ⟨_, -, hchild, -⟩ := hf.child hi hσ hj
      rw [ih hchild.1 (h.part (Below.self.child hσ hj))]
    · exact h j (Below.self.child hσ hj)

/-- A tree that has not moved has the content it had. -/
theorem Consistent.content_unmoved (hf : f.Consistent) (hi : i < f.size) (hsize : g.size = f.size)
    (h : f.Unmoved g i) : g.content i = f.content i := by
  show g.contentIn (g.size + 1) i = _
  rw [hsize]
  exact hf.contentIn_unmoved _ hi h

/-! ### Lists opened -/

/-- The forest with an empty list in a slot of a node. -/
def opened (f : Forest) (i : NodeId) (σ : String) : Forest :=
  f.put i ((f.get i).putValue σ (.ofList []))

/-- An opened list moves no tree that does not hold its node. -/
theorem opened_unmoved (h : ¬f.Below j i) : f.Unmoved (f.opened i σ) j := by
  intro c hc
  refine f.get_put_of_ne ?_ _
  rintro rfl
  exact h hc

/-- What an empty list shows. -/
theorem shownIn_nil (hlist : p.isSingle = false) :
    ∃ w ∈ [Data.ofList [], .ofEntries []], f.shownIn content p (.ofList []) = .ok w := by
  cases p with
  | single => cases hlist
  | keyed k key => exact ⟨.ofEntries [], by simp, rfl⟩
  | listed k slot => exact ⟨.ofList [], by simp, rfl⟩

/-- An empty list opened in a slot that was unset shows up at its node. -/
theorem Consistent.content_opened (hf : f.Consistent) (hi : i < f.size)
    (hp : (f.get i).kind.placement? σ = some p) (hlist : p.isSingle = false)
    (hunset : (f.get i).value σ = .unset) (hes : f.content i = .ok es) :
    es.text? (wireName σ) = none ∧ ∃ fs, (f.opened i σ).content i = .ok fs ∧
      ∃ w ∈ [Data.ofList [], .ofEntries []], fs.text? (wireName σ) = some w := by
  obtain ⟨-, xs, mark, hxs, hextensions⟩ := hf.tidy i hi
  have hσ := Kind.mem_slots_of_placement? hp
  have hself : (f.opened i σ).get i = (f.get i).putValue σ (.ofList []) := f.get_put_self hi _
  have hsize : (f.opened i σ).size = f.size := size_put ..
  have hassemble : f.assemble (fun j => Data.ofEntries <$> f.contentIn f.size j) (f.get i)
      = .ok es := hes
  refine ⟨?_, ?_⟩
  · rw [text?_assemble hassemble hxs hextensions (List.mem_append_right _ hσ), shownUnder, if_neg]
    rw [Node.isSet, hunset]
    decide
  -- The children are not above the node, so that they show what they have shown.
  have hcontent : ∀ τ ∈ (f.get i).kind.slots, ∀ j, .node j ∈ ((f.get i).value τ).nodes →
      f.Unmoved (f.opened i σ) j := by
    intro τ hτ j hj
    obtain ⟨_, -, hchild, hlt⟩ := hf.child hi hτ hj
    exact opened_unmoved fun hbelow => absurd (hf.below_lt hchild.1 hbelow).1 (Nat.not_le_of_lt hlt)
  let content' (j : NodeId) : Except Failure Data :=
    Data.ofEntries <$> (f.opened i σ).contentIn (f.opened i σ).size j
  have hslots : ∀ τ q, (f.get i).kind.placement? τ = some q →
      ((f.get i).putValue σ (.ofList [])).isSet τ = true → ∃ w, (f.opened i σ).shownIn content' q
        (((f.get i).putValue σ (.ofList [])).value τ) = .ok w := by
    intro τ q hq hset
    by_cases hτ : τ = σ
    · subst hτ
      cases hp.symm.trans hq
      rw [Node.value_putValue_self _ _ rfl]
      obtain ⟨w, -, hw⟩ := shownIn_nil hlist
      exact ⟨w, hw⟩
    · rw [Node.isSet, Node.value_putValue_of_ne _ hτ] at hset
      rw [Node.value_putValue_of_ne _ hτ]
      have hmem := Kind.mem_slots_of_placement? hq
      obtain ⟨w, hw⟩ := (assemble_eq_ok hassemble hxs).2 τ q hq hset
      refine ⟨w, (shownIn_congr hq (hf.formed.slots i trivial hi τ q hq) (fun j hj => ?_)
        fun j hj => hcontent τ hmem j hj j .self).symm.trans hw⟩
      obtain ⟨_, -, hchild, -⟩ := hf.child hi hmem hj
      show _ = Data.ofEntries <$> (f.opened i σ).contentIn (f.opened i σ).size j
      rw [hsize, hf.contentIn_unmoved f.size hchild.1 (hcontent τ hmem j hj)]
  have hxs' : ((f.get i).putValue σ (.ofList [])).extensions = .map xs mark := hxs
  obtain ⟨fs, hfs⟩ := exists_assemble hxs' hslots
  have hfs' : (f.opened i σ).content i = .ok fs := by
    show (f.opened i σ).assemble content' ((f.opened i σ).get i) = _
    rw [hself]
    exact hfs
  have hset : ((f.get i).putValue σ (.ofList [])).isSet σ = true := by
    rw [Node.isSet, Node.value_putValue_self _ _ rfl]
    rfl
  obtain ⟨w, hw, htext⟩ := text?_assemble_slot hfs hxs' hextensions hp hset
  rw [Node.value_putValue_self _ _ rfl] at hw
  obtain ⟨w', hmem, hw'⟩ := shownIn_nil hlist
  cases hw.symm.trans hw'
  exact ⟨fs, hfs', w, hmem, htext⟩

end Forest

namespace Edit

/-! ### Calls -/

/-- A call that finds a child or makes one. -/
inductive ChildCall where
  | child (p : NodeId) (k : Kind) (fields : Entries)
  | collectionItem (p : NodeId) (k : Kind) (fields : Entries)
  | indexedItem (p : NodeId) (k : Kind) (key : Data)
  | appendItem (p : NodeId) (slot : String) (k : Kind) (fields : Entries)
  | operation (p : NodeId) (method : Data)

namespace ChildCall

def run : ChildCall → Edit Unit
  | child p k fields => do let _ ← Edit.child p k fields
  | collectionItem p k fields => do let _ ← Edit.collectionItem p k fields
  | indexedItem p k key => do let _ ← Edit.indexedItem p k key
  | appendItem p slot k fields => do let _ ← Edit.appendItem p slot k fields
  | operation p method => do let _ ← Edit.operation p method

/-- What a call may be given: a node that exists, and for a new member a slot of it that holds a
    list of children of its kind. -/
def Declared (f : Forest) : ChildCall → Prop
  | child p _ _ => p < f.size
  | collectionItem p _ _ => p < f.size
  | indexedItem p _ _ => p < f.size
  | appendItem p σ k _ => p < f.size ∧ ∃ q, (f.get p).kind.placement? σ = some q ∧
      q.isSingle = false ∧ q.kind = k
  | operation p _ => p < f.size

/-- A call that is to add a member where no list stands: it opens a list there before it makes the
    member. -/
def Opens (f : Forest) (p : NodeId) (σ : String) : ChildCall → Prop
  | collectionItem q k _ => q = p ∧ (∀ items mark, (f.get p).value σ ≠ .list items mark) ∧
      ∃ slot, (k, slot) ∈ (f.get p).kind.layout.collections ∧ slot.name = σ
  | appendItem q τ _ _ => q = p ∧ (∀ items mark, (f.get p).value σ ≠ .list items mark) ∧ τ = σ
  | _ => False

end ChildCall

/-! ### Failures -/

/-- An edit that leaves a draft of some kind where it fails. -/
def Refused {α : Type} (act : Edit α) (d : Draft) (P : Draft → Prop) : Prop :=
  ∀ e d', act d = .error e d' → P d'

namespace Refused

variable {α β : Type} {d : Draft} {P : Draft → Prop} {p : NodeId} {k : Kind} {σ : String}
  {fields : Entries}

/-- An edit that only looks leaves the draft when it fails. -/
theorem of_peeks {act : Edit α} (hact : Peeks act) (h : P d) : Refused act d P := by
  intro e d' he
  rwa [← after_of_error he, hact d]

/-- Less may be said of what a failure leaves. -/
theorem mono {act : Edit α} {Q : Draft → Prop} (h : Refused act d Q) (hQP : ∀ d', Q d' → P d') :
    Refused act d P := fun e d' he => hQP d' (h e d' he)

/-- An edit that succeeds does not fail. -/
theorem of_succeeds {act : Edit α} (hact : Succeeds act d) : Refused act d P := by
  obtain ⟨a, d', ha⟩ := hact
  intro e d'' he
  cases ha.symm.trans he

/-- An answer is no failure. -/
protected theorem pure (a : α) : Refused (pure a) d P := of_succeeds (.pure a)

/-- The first edit fails, or the second one after it. -/
theorem bind {x : Edit α} {f : α → Edit β} (hx : Refused x d P)
    (hf : ∀ a d₁, x d = .ok a d₁ → Refused (f a) d₁ P) : Refused (x >>= f) d P := by
  intro e d' he
  -- Either half may be the one that fails; the second starts in the state that the first leaves.
  cases h : x d with
  | ok a d₁ =>
    rw [Results.bind_of_ok h] at he
    exact hf a d₁ h e d' he
  | error e₁ d₁ =>
    rw [Results.bind_of_error h] at he
    cases he
    exact hx _ _ h

/-- A look before an edit. -/
theorem after_look {x : Edit α} {f : α → Edit β} {Q : α → Prop} (hx : Peeks x) (hQ : Looks x d Q)
    (h : P d) (hf : ∀ a, Q a → Refused (f a) d P) : Refused (x >>= f) d P := by
  refine .bind (.of_peeks hx h) fun a d₁ ha => ?_
  obtain ⟨rfl, hanswer⟩ := hQ a d₁ ha
  exact hf a hanswer

/-- After a look only the second edit counts. -/
theorem after_peek {x : Edit α} {f : α → Edit β} (hx : Peeks x) (h : P d)
    (hf : ∀ a, Refused (f a) d P) : Refused (x >>= f) d P := by
  refine .bind (.of_peeks hx h) fun a d₁ ha => ?_
  obtain rfl : d₁ = d := (after_of_ok ha).symm.trans (hx d)
  exact hf a

/-- What becomes of the result of an edit does not make it fail. -/
theorem discard {x : Edit α} (h : Refused x d P) : Refused (do let _ ← x) d P :=
  .bind h fun _ _ _ => .pure _

/-! ### Children that cannot be created -/

/-- A new child that is put somewhere is refused when it is to be created, or not at all. -/
theorem addDetached {β : Type} {rest : NodeId → Edit β} (h : P d)
    (hrest : ∀ n, Refused (rest d.forest.size) (d.to (d.forest.add n).2) P) :
    Refused (Edit.addDetached p k fields >>= rest) d P := by
  refine .bind (.bind (.of_peeks (.ofExcept _) h) fun n d₁ hn => ?_) fun i d₁ hi => ?_
  · intro e d' he
    -- The forest takes any node in, so only making the node could have failed.
    cases he
  · obtain ⟨n, d₂, hn, hadd⟩ := Results.bind_eq_ok.1 hi
    obtain ⟨rfl, -⟩ := (Looks.ofExcept _) n d₂ hn
    cases hadd
    exact hrest n

/-- A child that cannot be created leaves the draft as it is. -/
theorem child : Refused (Edit.child p k fields) d (· = d) := by
  -- The child is made before it is put into its slot, which cannot fail.
  refine .after_look (.slotFor _ _ _ _) (.slotFor .singular (·.singular)) rfl fun σ _ => ?_
  refine .after_look (.node p) (.node p) rfl fun n _ => ?_
  split
  · exact .pure _
  · refine .addDetached rfl fun n => ?_
    rintro e d' ⟨⟩

/-- A list is there, or an empty one is opened. -/
theorem ensureList_cases (hσ : σ ∈ (d.forest.get p).kind.slots) :
    (∃ items mark, (d.forest.get p).value σ = .list items mark ∧
      ensureList p σ d = .ok (items, mark) d) ∨
      (∀ items mark, (d.forest.get p).value σ ≠ .list items mark) ∧
        ensureList p σ d = .ok ([], 0) (d.to (d.forest.opened p σ)) := by
  have hread := read_eq (d := d) (i := p) (List.mem_append_right _ hσ)
  unfold ensureList
  rw [Results.bind_of_ok hread]
  -- The slot is opened unless a list stands in it.
  by_cases hlist : ∃ items mark, (d.forest.get p).value σ = .list items mark
  · obtain ⟨items, mark, hlist⟩ := hlist
    rw [hlist]
    exact .inl ⟨items, mark, rfl, rfl⟩
  · refine .inr ⟨fun items mark h => hlist ⟨items, mark, h⟩, ?_⟩
    generalize (d.forest.get p).value σ = v at hlist
    cases v with
    | list items mark => exact absurd ⟨items, mark, rfl⟩ hlist
    | _ => exact Results.bind_of_ok (assign?_slot hσ _)

/-- A new member of a list. Where the list is there already nothing changes. -/
theorem appendItem (hp : p < d.forest.size) (hσ : σ ∈ (d.forest.get p).kind.slots) :
    Refused (Edit.appendItem p σ k fields) d fun d' =>
      (∃ items mark, (d.forest.get p).value σ = .list items mark) ∧ d' = d ∨
      (∀ items mark, (d.forest.get p).value σ ≠ .list items mark) ∧
        d' = d.to (d.forest.opened p σ) := by
  -- Once a member has been created it can be put into the list.
  have hmember : ∀ (d₁ : Draft) (items : List Data) (mark : Nat) {P : Draft → Prop}, P d₁ →
      p < d₁.forest.size → σ ∈ (d₁.forest.get p).kind.slots → Refused (do
        let i ← Edit.addDetached p k fields
        assign? p σ (.list (items ++ [.node i]) mark)
        return (i, items.length)) d₁ P := by
    intro d₁ items mark P h hp hσ
    refine .addDetached h fun n => ?_
    have hslot : σ ∈ ((d₁.to (d₁.forest.add n).2).forest.get p).kind.slots := by
      show σ ∈ ((d₁.forest.add n).2.get p).kind.slots
      rwa [get_add_of_lt _ hp]
    intro e d' he
    rw [Results.bind_of_ok (assign?_slot hslot _)] at he
    cases he
  rcases ensureList_cases hσ with ⟨items, mark, hlist, hfound⟩ | ⟨hnone, hopened⟩
  · refine .bind (fun e d' he => ?_) fun l d₁ hl => ?_
    · cases hfound.symm.trans he
    · cases hfound.symm.trans hl
      exact hmember d _ _ (.inl ⟨⟨items, mark, hlist⟩, rfl⟩) hp hσ
  · refine .bind (fun e d' he => ?_) fun l d₁ hl => ?_
    · cases hopened.symm.trans he
    · cases hopened.symm.trans hl
      refine hmember _ _ _ (.inr ⟨hnone, rfl⟩) ?_ ?_
      · show p < (d.forest.opened p σ).size
        rwa [Forest.opened, size_put]
      · show σ ∈ ((d.forest.opened p σ).get p).kind.slots
        rw [Forest.opened, get_put_self _ hp]
        exact hσ

/-- The member under a key can be created always. -/
theorem indexedItem {key : Data} (hp : p < d.forest.size) :
    Refused (Edit.indexedItem p k key) d (· = d) := by
  refine .after_look (.slotFor _ _ _ _) (.slotFor .indexed (·.indexed)) rfl fun slot hslot => ?_
  refine .after_peek (.membersOf _ _) rfl fun items =>
    .after_peek (.searchIndexed _ _ _) rfl fun i? => ?_
  split
  · exact .pure _
  -- No member has the key: the new one carries it in a field of its kind.
  · have hσ := Kind.mem_slots_of_placement? (Kind.placement?_indexed _ _ hslot)
    have hfields : Entries.AreFields k [(.str slot.key, key)] := fun e he =>
      ⟨slot.key, Kind.index_mem_fields _ _ hslot, by rw [List.mem_singleton.1 he]⟩
    exact .bind (.of_succeeds (.appendItem hp hσ hfields)) fun _ _ _ => .pure _

/-- A member that cannot be created leaves the draft, or an empty list in the place of what is none.
    -/
theorem collectionItem (hp : p < d.forest.size) :
    Refused (Edit.collectionItem p k fields) d fun d' => d' = d ∨
      ∃ slot : CollectionSlot, (k, slot) ∈ (d.forest.get p).kind.layout.collections ∧
        (∀ items mark, (d.forest.get p).value slot.name ≠ .list items mark) ∧
        d' = d.to (d.forest.opened p slot.name) := by
  refine .after_look (.slotFor _ _ _ _) (.slotFor .collection (·.collections)) (.inl rfl)
    fun slot hslot => ?_
  have hσ := Kind.mem_slots_of_placement? (Kind.placement?_collections _ _ hslot)
  extract_lets answer
  -- Whether a member was looked for or not, only a new member can be refused.
  have hanswer : ∀ j? : Option NodeId, Refused (answer j?) d fun d' => d' = d ∨
      ∃ slot : CollectionSlot, (k, slot) ∈ (d.forest.get p).kind.layout.collections ∧
        (∀ items mark, (d.forest.get p).value slot.name ≠ .list items mark) ∧
        d' = d.to (d.forest.opened p slot.name) := by
    intro j?
    cases j? with
    | some j => exact .pure _
    | none =>
      refine .bind ((appendItem hp hσ).mono fun d' hd' => ?_) fun _ _ _ => .pure _
      exact hd'.imp And.right fun ⟨hnone, hd'⟩ => ⟨slot, hslot, hnone, hd'⟩
  split
  · exact hanswer none
  · exact .after_peek (.membersOf _ _) (.inl rfl) fun items =>
      .after_peek (.searchCollection _ _) (.inl rfl) fun i? => hanswer _

/-- An operation that cannot be created leaves the draft as it is. -/
theorem operation {method : Data} : Refused (Edit.operation p method) d (· = d) := by
  unfold Edit.operation
  split
  · split
    -- Only a text that names a method of paths gets as far as the child.
    · refine .after_look (.read p "path") (.read p "path") rfl fun path _ => .child
    · exact .of_peeks (.throw _) rfl
  · exact .of_peeks (.throw _) rfl
  · exact .of_peeks (.bind (.node _) fun _ => .throw _) rfl
  · exact .of_peeks (.throw _) rfl

end Refused

namespace ChildCall

variable {d d' : Draft} {e : Failure} {p : NodeId} {σ : String} {c : ChildCall}

/-- A refused call changes nothing, or it opens a list. -/
theorem eq_of_refused (hc : c.Declared d.forest) (h : c.run d = .error e d') :
    d' = d ∨ ∃ p σ, c.Opens d.forest p σ ∧ d' = d.to (d.forest.opened p σ) := by
  -- `collectionItem` and `appendItem` alone may leave a slot open.
  cases c with
  | child p k fields => exact .inl (Refused.child.discard e d' h)
  | collectionItem p k fields =>
    refine ((Refused.collectionItem hc).discard e d' h).imp_right ?_
    rintro ⟨slot, hslot, hnone, hd'⟩
    exact ⟨p, slot.name, ⟨rfl, hnone, slot, hslot, rfl⟩, hd'⟩
  | indexedItem p k key => exact .inl ((Refused.indexedItem hc).discard e d' h)
  | appendItem p σ k fields =>
    obtain ⟨hp, q, hq, -⟩ := hc
    refine ((Refused.appendItem hp (Kind.mem_slots_of_placement? hq)).discard e d' h).imp
      And.right ?_
    exact fun ⟨hnone, hd'⟩ => ⟨p, σ, ⟨rfl, hnone, rfl⟩, hd'⟩
  | operation p method => exact .inl (Refused.operation.discard e d' h)

/-- The slot of a list that is opened has been unset. -/
theorem Opens.unset (hf : d.forest.Formed fun _ => True) (hc : c.Declared d.forest)
    (ho : c.Opens d.forest p σ) : p < d.forest.size ∧ (d.forest.get p).value σ = .unset ∧
      ∃ q, (d.forest.get p).kind.placement? σ = some q ∧ q.isSingle = false := by
  -- Each call that opens a slot names a collection in which no list stands.
  have hplaced : p < d.forest.size ∧ (∀ items mark, (d.forest.get p).value σ ≠ .list items mark) ∧
      ∃ q, (d.forest.get p).kind.placement? σ = some q ∧ q.isSingle = false := by
    cases c with
    | collectionItem p k fields =>
      obtain ⟨rfl, hnone, slot, hslot, rfl⟩ := ho
      exact ⟨hc, hnone, _, Kind.placement?_collections _ _ hslot, rfl⟩
    | appendItem p σ k fields =>
      obtain ⟨rfl, hnone, rfl⟩ := ho
      obtain ⟨hp, q, hq, hlist, -⟩ := hc
      exact ⟨hp, hnone, q, hq, hlist⟩
    | child => exact ho.elim
    | indexedItem => exact ho.elim
    | operation => exact ho.elim
  obtain ⟨hp, hnone, q, hq, hlist⟩ := hplaced
  refine ⟨hp, ?_, q, hq, hlist⟩
  -- Of the values that fit such a slot, only the unset one is no list.
  have hfills := hf.slots p trivial hp σ q hq
  generalize (d.forest.get p).value σ = v at hfills hnone
  cases hfills with
  | unset => rfl
  | flag => cases hlist
  | child => cases hlist
  | @list _ xs mark => exact absurd rfl (hnone xs mark)

/-- A call that opens a list leaves it open where it is refused. -/
theorem opened_of_refused (hf : d.forest.Formed fun _ => True) (hc : c.Declared d.forest)
    (ho : c.Opens d.forest p σ) (h : c.run d = .error e d') :
    d' = d.to (d.forest.opened p σ) := by
  obtain ⟨hp, hunset, q, hq, hlist⟩ := ho.unset hf hc
  have happend : ∀ {k fields}, Refused (Edit.appendItem p σ k fields) d
      (· = d.to (d.forest.opened p σ)) := fun {k fields} =>
    (Refused.appendItem hp (Kind.mem_slots_of_placement? hq)).mono fun d' hd' =>
      (hd'.resolve_left fun ⟨⟨items, mark, hvalue⟩, _⟩ => by
        rw [hunset] at hvalue
        cases hvalue).2
  cases c with
  | collectionItem p k fields =>
    obtain ⟨rfl, -, slot, hslot, rfl⟩ := ho
    -- Nothing is looked for where there are no members.
    have hslotFor := slotFor_eq (d := d) .collection (·.collections)
      (Kind.lookup_collections _ _ hslot)
    have hmembers := membersOf_formed hf trivial hp hq hlist
    rw [hunset] at hmembers
    have hrefused : Refused (Edit.collectionItem p k fields) d
        (· = d.to (d.forest.opened p slot.name)) := by
      refine .bind (.of_succeeds ⟨_, _, hslotFor⟩) fun slot' d₁ hslot' => ?_
      cases hslotFor.symm.trans hslot'
      extract_lets answer
      have hanswer : Refused (answer none) d (· = d.to (d.forest.opened p slot.name)) :=
        .bind happend fun _ _ _ => .pure _
      split
      · exact hanswer
      · refine .bind (.of_succeeds ⟨_, _, hmembers⟩) fun items d₁ hitems => ?_
        cases hmembers.symm.trans hitems
        refine .bind (.of_succeeds ⟨none, d, rfl⟩) fun i? d₁ hi? => ?_
        cases hi?
        exact hanswer
    exact hrefused.discard e d' h
  | appendItem p σ k fields =>
    obtain ⟨rfl, -, rfl⟩ := ho
    exact happend.discard e d' h
  | child => exact ho.elim
  | indexedItem => exact ho.elim
  | operation => exact ho.elim

/-- What a refused call leaves: the draft as it was, or, where the call was to add a member to a list
    that had not been set, the draft with an empty list there, which shows at its node and in all
    trees above it only. -/
theorem refused_leaves (hd : Built d) (hc : c.Declared d.forest) (h : c.run d = .error e d') :
    ((∀ p σ, ¬c.Opens d.forest p σ) → d' = d) ∧ ∀ p σ, c.Opens d.forest p σ →
      d' = d.to (d.forest.opened p σ) ∧
      (∀ j < d.forest.size, ¬d.forest.Below j p → d'.forest.content j = d.forest.content j) ∧
      ∀ es, d.forest.content p = .ok es → es.text? (wireName σ) = none ∧
        ∃ fs, d'.forest.content p = .ok fs ∧
          ∃ w ∈ [Data.ofList [], .ofEntries []], fs.text? (wireName σ) = some w := by
  have hf := hd.consistent
  refine ⟨fun hno => ?_, fun p σ ho => ?_⟩
  · exact (eq_of_refused hc h).resolve_right fun ⟨p, σ, ho, _⟩ => hno p σ ho
  · obtain ⟨hp, hunset, q, hq, hlist⟩ := ho.unset hf.formed hc
    obtain rfl := opened_of_refused hf.formed hc ho h
    refine ⟨rfl, fun j hj hbelow => ?_, fun es hes => ?_⟩
    · exact hf.content_unmoved hj (size_put ..) (opened_unmoved hbelow)
    · exact hf.content_opened hp hq hlist hunset hes

/-- A tag that brings its external documentation along is refused, and leaves a list of tags. -/
theorem refused_tag : ∃ d e d' es fs, Built d ∧
    (collectionItem 0 .tag [(.str "external_docs", .null)]).run d = .error e d' ∧
    d' = d.to (d.forest.opened 0 "tags") ∧ d.forest.content 0 = .ok es ∧
    d'.forest.content 0 = .ok fs ∧ es.text? "tags" = none ∧ (fs.text? "tags").isSome := by
  let d := draftAfter [.newDocument (.str "3.0.0")]
  have hbuilt : Built d := .call .start (.newDocument (.str "3.0.0")) trivial
  -- The call fails at a new document, which is shown, holds no tags and declares a slot for them.
  obtain ⟨hfails, hsize, hkind, hunset, hcontent⟩ : Results.failsIn
        (collectionItem 0 .tag [(.str "external_docs", .null)]).run (fun _ _ => true) d = true ∧
      0 < d.forest.size ∧ (d.forest.get 0).kind = .openApi ∧
      ((d.forest.get 0).value "tags").isUnset = true ∧
      (d.forest.content 0).toOption.isSome = true := by
    decide +kernel
  obtain ⟨e, d', h, -⟩ := Results.exists_of_failsIn hfails
  have hopens : (collectionItem 0 .tag [(.str "external_docs", .null)]).Opens d.forest 0 "tags" := by
    refine ⟨rfl, fun items mark hlist => ?_, ⟨"tags", ["name"]⟩, by rw [hkind]; decide, rfl⟩
    cases (Data.isUnset_iff.1 hunset).symm.trans hlist
  have hdeclared : (collectionItem 0 .tag [(.str "external_docs", .null)]).Declared d.forest := hsize
  obtain ⟨-, hopened⟩ := refused_leaves hbuilt hdeclared h
  obtain ⟨hd', -, hshown⟩ := hopened 0 "tags" hopens
  cases hes : d.forest.content 0 with
  | error e =>
    rw [hes] at hcontent
    cases hcontent
  | ok es =>
    obtain ⟨hnone, fs, hfs, w, -, hw⟩ := hshown es hes
    rw [show wireName "tags" = "tags" by decide +kernel] at hnone hw
    exact ⟨d, e, d', es, fs, hbuilt, h, hd', hes, hfs, hnone, by rw [hw]; rfl⟩

/-- A server with a misspelt field is refused, and the document shows a list of servers that it has
    not shown before. -/
theorem refused_not_unchanged : ∃ e d',
    (collectionItem 0 .server [(.str "urls", .str "https://a")]).run
      (draftAfter [.newDocument (.str "3.0.0")]) = .error e d' ∧
    (((draftAfter [.newDocument (.str "3.0.0")]).forest.content 0).toOption.bind
      (·.text? "servers")).isSome = false ∧
    ((d'.forest.content 0).toOption.bind (·.text? "servers")).isSome = true := by
  obtain ⟨hfails, hnone⟩ : Results.failsIn
        (collectionItem 0 .server [(.str "urls", .str "https://a")]).run
        (fun _ d' => ((d'.forest.content 0).toOption.bind (·.text? "servers")).isSome)
        (draftAfter [.newDocument (.str "3.0.0")]) = true ∧
      (((draftAfter [.newDocument (.str "3.0.0")]).forest.content 0).toOption.bind
        (·.text? "servers")).isSome = false := by
    decide +kernel
  obtain ⟨e, d', hrun, hshown⟩ := Results.exists_of_failsIn hfails
  exact ⟨e, d', hrun, hnone, hshown⟩

end ChildCall

end Edit

end ApiDoc
