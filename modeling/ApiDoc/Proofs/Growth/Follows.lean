import ApiDoc.Proofs.Growth.Step

namespace ApiDoc

/-!
# Edits that follow a licence

* `Edit.after` — the draft that an edit leaves, whether it succeeds or fails;
* `Edit.Peeks` — an edit that leaves every draft as it is, and may fail;
* `Edit.Follows` — an edit that takes only steps that a licence allows, also where it fails, with
  what holds of its result where it succeeds;
* `Follows.bind`, `Follows.after_look`, `Follows.forM` — edits one after the other;
* `Follows.child`, `Follows.appendItem`, `Follows.indexedItem`, `Follows.collectionItem` — the
  children that are found or made.
-/

open Forest

namespace Edit

variable {α β : Type}

/-! ### The draft that is left -/

/-- The draft that an edit leaves, whether it succeeds or fails. -/
def after (act : Edit α) (d : Draft) : Draft :=
  match act d with
  | .ok _ d' => d'
  | .error _ d' => d'

/-- An edit that succeeds leaves the draft of its result. -/
theorem after_of_ok {act : Edit α} {d d' : Draft} {a : α} (h : act d = .ok a d') :
    after act d = d' := by
  rw [after, h]

/-- An edit that fails leaves the draft of its failure. -/
theorem after_of_error {act : Edit α} {d d' : Draft} {e : Failure} (h : act d = .error e d') :
    after act d = d' := by
  rw [after, h]

/-- After a first edit that succeeds the second one counts. -/
theorem after_bind_of_ok {x : Edit α} {f : α → Edit β} {d d' : Draft} {a : α}
    (h : x d = .ok a d') : after (x >>= f) d = after (f a) d' := by
  rw [after, Results.bind_of_ok h, after]

/-- After a first edit that fails there is no second one. -/
theorem after_bind_of_error {x : Edit α} {f : α → Edit β} {d d' : Draft} {e : Failure}
    (h : x d = .error e d') : after (x >>= f) d = d' := by
  rw [after, Results.bind_of_error h]

/-! ### Looking -/

/-- An edit that leaves every draft as it is. -/
def Peeks (act : Edit α) : Prop := ∀ d, after act d = d

namespace Peeks

/-- An answer. -/
protected theorem pure (a : α) : Peeks (pure a) := fun _ => rfl

/-- A failure. -/
protected theorem throw (e : Failure) : Peeks (throw e : Edit α) := fun _ => rfl

/-- Two edits that only look, one after the other. -/
theorem bind {x : Edit α} {f : α → Edit β} (hx : Peeks x) (hf : ∀ a, Peeks (f a)) :
    Peeks (x >>= f) := by
  intro d
  have hd := hx d
  cases h : x d with
  | ok a d' =>
    obtain rfl : d' = d := (after_of_ok h).symm.trans hd
    rw [after_bind_of_ok h, hf a]
  | error e d' =>
    rw [after_bind_of_error h, ← hd, after_of_error h]

/-- A result that does not look at the draft. -/
theorem ofExcept (x : Except Failure α) : Peeks (Edit.ofExcept x) := by
  cases x with
  | ok a => exact .pure a
  | error e => exact .throw e

/-- Looking at the forest. -/
theorem forest : Peeks Edit.forest := fun _ => rfl

/-- Looking at a node. -/
theorem node (i : NodeId) : Peeks (Edit.node i) := fun _ => rfl

/-- Whatever is found out about the forest. -/
theorem look (g : Forest → Except Failure α) : Peeks (do Edit.ofExcept (g (← Edit.forest))) :=
  .bind forest fun _ => .ofExcept _

/-- Reading a value of a node. -/
theorem read (i : NodeId) (name : String) : Peeks (Edit.read i name) := look fun f => f.read i name

/-- The location of a node, as messages have it. -/
theorem location (i : NodeId) : Peeks (Edit.location i) := look fun f => f.location i

/-- The content of a node. -/
theorem content (i : NodeId) : Peeks (Edit.content i) := look fun f => f.content i

/-- Looking for the slot of a kind of children. -/
theorem slotFor {α : Type} (role : SlotRole) (table : Layout → List (Kind × α)) (p : NodeId)
    (k : Kind) : Peeks (slotFor role table p k) := by
  refine .bind (node p) fun n => ?_
  extract_lets holder
  split
  · exact .pure _
  · exact .bind (location p) fun _ => .throw _

/-- The items under a name. -/
theorem membersOf (p : NodeId) (name : String) : Peeks (membersOf p name) :=
  .bind (read p name) fun _ => .ofExcept _

/-- Looking for the item with a key. -/
theorem searchIndexed (items : List Data) (name : String) (v : Data) :
    Peeks (searchIndexed items name v) :=
  look fun f => position? (hasKey f name v) 0 items

/-- Looking for the item with given values. -/
theorem searchCollection (items : List Data) (fields : Entries) :
    Peeks (searchCollection items fields) :=
  look fun f => position? (fun v => hasValues f v fields) 0 items

end Peeks

/-! ### Steps -/

/-- An edit that takes steps which a licence allows, also where it fails. -/
def Follows (S : Licence) (act : Edit α) (d : Draft) (Q : α → Forest → Prop) : Prop :=
  Steps S d.forest (after act d).forest ∧ ∀ a d', act d = .ok a d' → Q a d'.forest

namespace Follows

variable {S : Licence} {d : Draft} {Q : α → Forest → Prop} {Q' : β → Forest → Prop}

/-- An edit that succeeds has taken steps that are allowed. -/
theorem run {act : Edit α} (h : Follows S act d Q) {a : α} {d' : Draft} (hact : act d = .ok a d') :
    Steps S d.forest d'.forest := by
  have hrun := h.1
  rwa [after_of_ok hact] at hrun

/-- Less may be said of the result. -/
theorem mono {act : Edit α} {P : α → Forest → Prop} (h : Follows S act d P)
    (hPQ : ∀ a g, Steps S d.forest g → P a g → Q a g) : Follows S act d Q :=
  ⟨h.1, fun a d' hact => hPQ a _ (h.run hact) (h.2 a d' hact)⟩

/-- An edit that only looks takes no step. -/
theorem of_peeks {act : Edit α} {P : α → Prop} (hact : Peeks act) (h : Looks act d P)
    (hPQ : ∀ a, P a → Q a d.forest) : Follows S act d Q := by
  refine ⟨?_, fun a d' ha => ?_⟩
  · rw [hact d]
    exact .refl _
  · obtain ⟨rfl, hP⟩ := h a d' ha
    exact hPQ a hP

/-- An answer that fits the forest. -/
protected theorem pure {a : α} (h : Q a d.forest) : Follows S (pure a) d Q :=
  of_peeks (.pure a) (.pure a) fun _ he => he ▸ h

/-- A failure takes no step. -/
protected theorem throw (e : Failure) : Follows S (throw e : Edit α) d Q :=
  of_peeks (P := fun _ => False) (.throw e) (.throw e) fun _ h => h.elim

/-- An edit, and then one that starts from whatever forest the first leaves. -/
theorem bind {x : Edit α} {f : α → Edit β} (hx : Follows S x d Q)
    (hf : ∀ a d', Steps S d.forest d'.forest → Q a d'.forest → Follows S (f a) d' Q') :
    Follows S (x >>= f) d Q' := by
  cases h : x d with
  | ok a d' =>
    have hrun := hx.run h
    obtain ⟨hrest, hQ⟩ := hf a d' hrun (hx.2 a d' h)
    refine ⟨?_, fun b d'' hb => ?_⟩
    · rw [after_bind_of_ok h]
      exact hrun.trans hrest
    · rw [Results.bind_of_ok h] at hb
      exact hQ b d'' hb
  | error e d' =>
    refine ⟨?_, fun b d'' hb => ?_⟩
    · have hrun := hx.1
      rwa [after_of_error h, ← after_bind_of_error (f := f) h] at hrun
    · rw [Results.bind_of_error h] at hb
      cases hb

/-- A look before an edit. -/
theorem after_look {x : Edit α} {f : α → Edit β} {P : α → Prop} (hx : Peeks x) (hP : Looks x d P)
    (hf : ∀ a, P a → Follows S (f a) d Q') : Follows S (x >>= f) d Q' := by
  cases h : x d with
  | ok a d' =>
    obtain ⟨rfl, ha⟩ := hP a d' h
    obtain ⟨hrun, hQ⟩ := hf a ha
    refine ⟨?_, fun b d'' hb => ?_⟩
    · rw [after_bind_of_ok h]
      exact hrun
    · rw [Results.bind_of_ok h] at hb
      exact hQ b d'' hb
  | error e d' =>
    refine ⟨?_, fun b d'' hb => ?_⟩
    · rw [after_bind_of_error h, ← after_of_error h, hx d]
      exact .refl _
    · rw [Results.bind_of_error h] at hb
      cases hb

/-- A choice, with the condition known in each branch. -/
theorem ite {c : Prop} [Decidable c] {x y : Edit α} (hx : c → Follows S x d Q)
    (hy : ¬c → Follows S y d Q) : Follows S (if c then x else y) d Q := by
  split
  · exact hx ‹_›
  · exact hy ‹_›

/-- A loop. What a turn has established holds at the end, since later turns keep it. -/
theorem forM {f : α → Edit Unit} {R : α → Forest → Prop} {xs : List α}
    (hkeep : ∀ x g h, Steps S d.forest g → Steps S g h → R x g → R x h)
    (hf : ∀ x ∈ xs, ∀ d', Steps S d.forest d'.forest → Follows S (f x) d' fun _ g => R x g) :
    Follows S (xs.forM f) d fun _ g => ∀ x ∈ xs, R x g := by
  induction xs generalizing d with
  | nil => exact .pure fun x hx => absurd hx List.not_mem_nil
  | cons x xs ih =>
    refine .bind (hf x List.mem_cons_self d (.refl _)) fun _ d₁ hrun hx => ?_
    refine (ih (fun y g h hg => hkeep y g h (hrun.trans hg)) fun y hy d' hd' =>
      hf y (List.mem_cons_of_mem _ hy) d' (hrun.trans hd')).mono fun _ g hg hxs => ?_
    exact List.forall_mem_cons.2 ⟨hkeep x _ g hrun hg hx, hxs⟩

/-- A warning changes no node. -/
theorem warn (message : String) : Follows S (warn message) d fun _ g => g = d.forest := by
  refine ⟨.refl _, fun a d' h => ?_⟩
  cases h
  rfl

/-- A node altered. -/
theorem setNode {i : NodeId} {n : Node} (hi : S.nodes i) (hlt : i < d.forest.size)
    (h : (d.forest.get i).Alters S n) :
    Follows S (setNode i n) d fun _ g => g = d.forest.put i n := by
  refine ⟨.step (.alter hi hlt h), fun a d' ha => ?_⟩
  cases ha
  rfl

end Follows

end Edit

/-! ### Children -/

/-- Entries that set neither what makes a node one of its kind and place, nor its extensions. -/
def Entries.Unreserved (fields : Entries) : Prop :=
  ∀ e ∈ fields, ∀ name, e.1 = .str name → name ∉ Edit.Keeps.reserved

/-- Fields of a kind have no reserved names. -/
theorem Entries.AreFields.unreserved {k : Kind} {fields : Entries} (h : fields.AreFields k) :
    fields.Unreserved := by
  intro e he name hname
  obtain ⟨field, hfield, hkey⟩ := h e he
  rw [hkey] at hname
  cases hname
  exact k.field_notMem_reserved _ hfield

/-- A child can be created with fields of its kind only. -/
theorem Node.areFields_of_createChild {k : Kind} {p : NodeId} {fields : Entries} {n : Node}
    (hfree : fields.Unreserved) (h : Node.createChild k p fields = .ok n) : fields.AreFields k := by
  -- Each entry is set on a node of the kind, under a name that is one of its attributes.
  have hattributes : ∀ (fields : Entries) (n m : Node), fields.Unreserved → n.kind = k →
      fields.foldlM (fun n f => do n.assign? (← nameOf? f.1) f.2) n = .ok m →
      ∀ e ∈ fields, ∃ name ∈ k.attributes, e.1 = .str name := by
    intro fields
    induction fields with
    | nil => exact fun _ _ _ _ _ _ h => absurd h List.not_mem_nil
    | cons e fields ih =>
      intro n m hfree hn hfold
      rw [List.foldlM_cons] at hfold
      cases hkey : e.1 with
      | scalar s =>
        cases s with
        | str name =>
          rw [hkey] at hfold
          cases hassign : n.assign? name e.2 with
          | error failure =>
            rw [show (nameOf? (.str name) >>= fun m => n.assign? m e.2) = .error failure from
              hassign] at hfold
            cases hfold
          | ok n' =>
            rw [show (nameOf? (.str name) >>= fun m => n.assign? m e.2) = .ok n' from
              hassign] at hfold
            obtain ⟨rfl, hmem⟩ :=
              Edit.Keeps.assign?_eq (hfree e List.mem_cons_self name hkey) hassign
            rw [hn] at hmem
            refine List.forall_mem_cons.2 ⟨⟨name, hmem, hkey⟩, ?_⟩
            exact ih (n.putValue name e.2) m (fun e he => hfree e (List.mem_cons_of_mem _ he)) hn
              hfold
        | _ =>
          rw [hkey] at hfold
          cases hfold
      | _ =>
        rw [hkey] at hfold
        cases hfold
  unfold Node.createChild at h
  extract_lets nested at h
  split at h
  · rename_i hnested
    intro e he
    obtain ⟨name, hname, hkey⟩ := hattributes fields _ n hfree rfl h e he
    refine ⟨name, (List.mem_append.1 hname).resolve_right fun hslot => ?_, hkey⟩
    have hmem : name ∈ nested := by
      refine List.mem_filter.2 ⟨List.mem_filterMap.2 ⟨e, he, ?_⟩, List.contains_iff_mem.2 hslot⟩
      rw [hkey]
      rfl
    rw [List.isEmpty_iff.1 hnested] at hmem
    exact absurd hmem List.not_mem_nil
  · cases h

namespace Kind

/-- No two slots of a node are for children of one kind. -/
theorem slot_unique {k : Kind} {σ τ : String} {p q : Placement} (hp : k.placement? σ = some p)
    (hq : k.placement? τ = some q) (h : p.kind = q.kind) : σ = τ := by
  have hall : ∀ c : Kind, ∀ σ ∈ c.slots, ∀ τ ∈ c.slots,
      (c.placement? σ).map Placement.kind = (c.placement? τ).map Placement.kind → σ = τ := by
    intro c
    cases c <;> decide
  refine hall k σ (mem_slots_of_placement? hp) τ (mem_slots_of_placement? hq) ?_
  rw [hp, hq, Option.map_some, Option.map_some, h]

end Kind

/-- A child that a node has in one of its slots, for a key if its children stand under keys. An
    only child need not be there any more where truth values may take its place. -/
structure Forest.Linked (S : Licence) (f : Forest) (i : NodeId) (σ : String) (p : Placement)
    (v : Data) (j : NodeId) : Prop where
  holder : i < f.size
  owner : S.nodes i
  placed : (f.get i).kind.placement? σ = some p
  child : f.IsChild i p.kind j
  node : S.nodes j
  slot : p.isBoolean = false ∨ S.overwrite = false → .node j ∈ ((f.get i).value σ).nodes
  key : ∀ k key s, p = .keyed k key → v = .str s → ¬S.fields k key →
    (f.get j).value key = .str s

/-- What stands in a list of children is a child. -/
theorem Forest.Formed.member {T : NodeId → Prop} {f : Forest} (hf : f.Formed T) {i : NodeId}
    (hi : T i) (hlt : i < f.size) {σ : String} {p : Placement}
    (hp : (f.get i).kind.placement? σ = some p) (hlist : p.isSingle = false) {x : Data}
    (hx : x ∈ ((f.get i).value σ).nodes) : ∃ j, x = .node j ∧ f.IsChild i p.kind j ∧ T j := by
  have hfills := hf.slots i hi hlt σ p hp
  generalize (f.get i).value σ = v at hfills hx
  cases hfills with
  | unset => exact absurd hx List.not_mem_nil
  | flag => cases hlist
  | child => cases hlist
  | list _ _ hxs => exact hxs x hx

namespace Edit

variable {S : Licence} {d : Draft} {i : NodeId} {k : Kind} {σ : String} {p : Placement}
  {fields : Entries}

/-- The members of a slot are what its list holds. -/
theorem Looks.slotMembers {T : NodeId → Prop} (hf : d.forest.Formed T) (hi : T i)
    (hlt : i < d.forest.size) (hp : (d.forest.get i).kind.placement? σ = some p)
    (hlist : p.isSingle = false) :
    Looks (Edit.membersOf i σ) d fun items => items = ((d.forest.get i).value σ).nodes := by
  refine .bind (readSlot (Kind.mem_slots_of_placement? hp)) fun v hv => ?_
  refine (Looks.ofExcept _).mono fun items hitems => ?_
  have hfills := hf.slots i hi hlt σ p hp
  rw [← hv] at hfills ⊢
  rw [itemsOf] at hitems
  cases hfills with
  | unset =>
    cases hitems
    rfl
  | flag => cases hlist
  | child => cases hlist
  | @list _ xs =>
    cases xs with
    | nil =>
      cases hitems
      rfl
    | cons x xs =>
      cases hitems
      rfl

/-- A search among nodes that answers none has found that none passes the test. -/
theorem test_of_nodeAt?_eq_none {test : Data → Except Failure Bool} {items : List Data}
    {i? : Option Nat} (hnodes : ∀ x ∈ items, ∃ j, x = .node j)
    (hsearch : position? test 0 items = .ok i?) (h : nodeAt? items i? = none) :
    ∀ x ∈ items, test x = .ok false := by
  cases i? with
  | none => exact position?_none hsearch
  | some n =>
    obtain ⟨m, x, hn, hx, -⟩ := position?_some hsearch
    rw [Nat.zero_add] at hn
    subst hn
    obtain ⟨j, rfl⟩ := hnodes x (List.mem_of_getElem? hx)
    simp [nodeAt?, hx, Data.node?] at h

/-- A child is created, or nothing happens. -/
theorem addDetached_cases (hfree : fields.Unreserved) :
    (∃ e, addDetached i k fields d = .error e d) ∨ fields.AreFields k := by
  cases h : Node.createChild k i fields with
  | ok n => exact .inr (Node.areFields_of_createChild hfree h)
  | error e =>
    refine .inl ⟨e, ?_⟩
    show (ofExcept (Node.createChild k i fields) >>= fun n => addNode n) d = _
    rw [h]
    rfl

/-- A new child at the end of a list. -/
theorem addDetached_member (hfields : fields.AreFields k) (hlt : i < d.forest.size)
    (hσ : σ ∈ (d.forest.get i).kind.slots) (xs : List Data) (mark : Nat) :
    (do
      let j ← addDetached i k fields
      assign? i σ (.list (xs ++ [.node j]) mark)
      return (j, xs.length) : Edit (NodeId × Nat)) d
      = .ok (d.forest.size, xs.length) (d.to (withChild d.forest i k fields σ
        (.list (xs ++ [.node d.forest.size]) mark))) := by
  rw [addDetached_assign? hfields hlt hσ (fun j => .list (xs ++ [Data.node j]) mark) xs.length]

namespace Follows

/-- A new child attached under the name of a slot. -/
theorem attach {β : Type} (hi : S.nodes i) (hlt : i < d.forest.size)
    (hp : (d.forest.get i).kind.placement? σ = some p) (hfree : fields.Unreserved) {v : Data}
    (ha : d.forest.Attaches (d.forest.get i) σ p fields v) {rest : NodeId → Edit β} {b : β}
    (hrest : fields.AreFields p.kind → (addDetached i p.kind fields >>= rest) d
      = .ok b (d.to (withChild d.forest i p.kind fields σ v))) :
    Follows S (addDetached i p.kind fields >>= rest) d fun b' g =>
      b' = b ∧ fields.AreFields p.kind ∧ g = withChild d.forest i p.kind fields σ v := by
  rcases addDetached_cases (d := d) (i := i) (k := p.kind) hfree with ⟨e, he⟩ | hfields
  · refine ⟨?_, fun b d' hb => ?_⟩
    · rw [after_bind_of_error he]
      exact .refl _
    · rw [Results.bind_of_error he] at hb
      cases hb
  · have hok := hrest hfields
    refine ⟨?_, fun b' d' hb => ?_⟩
    · rw [after_of_ok hok]
      exact .step (.attach hi hlt hp hfields ha)
    · rw [hok] at hb
      cases hb
      exact ⟨rfl, hfields, rfl⟩

/-- The child of a singular slot, found or made. -/
theorem child (hf : d.forest.Formed S.nodes) (hi : S.nodes i) (hlt : i < d.forest.size)
    (hfree : fields.Unreserved) :
    Follows S (Edit.child i k fields) d fun j g => ∃ σ b,
      g.Linked S i σ (.single k b) .unset j := by
  refine .after_look (.slotFor _ _ _ _) (.slotFor .singular (·.singular)) fun σ hσ => ?_
  have hp : (d.forest.get i).kind.placement? σ
      = some (.single k ((d.forest.get i).kind.layout.booleanSlots.contains σ)) :=
    Kind.placement?_singular _ _ hσ
  have hfills := hf.slots i hi hlt σ _ hp
  refine .after_look (.node i) (.node i) fun n hn => ?_
  subst hn
  generalize (d.forest.get i).kind.layout.booleanSlots.contains σ = b at hp hfills
  -- Whatever else stands in the slot gives way to a new child.
  have hnew : d.forest.Attaches (d.forest.get i) σ (.single k b) fields (.node d.forest.size) →
      Follows S (do
        let j ← addDetached i k fields
        assign i σ (.node j)
        return j) d fun j g => ∃ σ b, g.Linked S i σ (.single k b) .unset j := by
    intro ha
    have hattach := attach hi hlt hp hfree ha fun hfields =>
      addDetached_assign hfields hlt fun j => Data.node j
    refine hattach.mono fun j g hrun h => ?_
    have hplaced := hrun.later.placed hlt hp
    obtain ⟨rfl, hfields, rfl⟩ := h
    refine ⟨σ, b, hplaced.1, hi, hplaced.2, isChild_withChild hlt hfields,
      hf.fresh _ (Nat.le_refl _), fun _ => ?_, ?_⟩
    · rw [value_withChild hlt ha, if_pos rfl]
      exact List.mem_singleton_self _
    · rintro _ _ _ ⟨⟩
  generalize hv : (d.forest.get i).value σ = v at hfills
  cases hfills with
  | unset => exact hnew (.child (.inl hv))
  | flag c => exact hnew (.child (.inr ⟨rfl, c, hv⟩))
  | child hj hT =>
    refine .pure ⟨σ, b, hlt, hi, hp, hj, hT, fun _ => ?_, ?_⟩
    · rw [hv]
      exact List.mem_singleton_self _
    · rintro _ _ _ ⟨⟩
  | list _ hlist => cases hlist

/-- A slot set. -/
theorem assignSlot (hi : S.nodes i) (hlt : i < d.forest.size)
    (hσ : σ ∈ (d.forest.get i).kind.slots) {v : Data}
    (h : (d.forest.get i).Alters S ((d.forest.get i).putValue σ v)) :
    Follows S (assign? i σ v) d
      fun _ g => g = d.forest.put i ((d.forest.get i).putValue σ v) := by
  have hok := assign?_slot (d := d) hσ v
  refine ⟨?_, fun a d' ha => ?_⟩
  · rw [after_of_ok hok]
    exact .step (.alter hi hlt h)
  · rw [hok] at ha
    cases ha
    rfl

/-- The list of a slot, opened if it is not there. -/
theorem ensureList (hf : d.forest.Formed S.nodes) (hi : S.nodes i) (hlt : i < d.forest.size)
    (hp : (d.forest.get i).kind.placement? σ = some p) (hlist : p.isSingle = false) :
    Follows S (Edit.ensureList i σ) d fun l g => (g.get i).value σ = .list l.1 l.2 ∧
      (g = d.forest ∧ l.1 = ((d.forest.get i).value σ).nodes ∨ l.1 = []) := by
  have hσ := Kind.mem_slots_of_placement? hp
  have hfills := hf.slots i hi hlt σ p hp
  refine .after_look (.read i σ) (.readSlot hσ) fun v hv => ?_
  subst hv
  generalize hv : (d.forest.get i).value σ = v at hfills
  cases hfills with
  | unset =>
    refine .bind (assignSlot hi hlt hσ (.list hp hlist hv)) fun _ d₁ _ hd₁ => .pure ⟨?_, .inr rfl⟩
    rw [hd₁, d.forest.get_put_self hlt, Node.value_putValue_self _ _ rfl]
  | @list _ xs mark => exact .pure ⟨hv, .inl ⟨rfl, rfl⟩⟩
  | flag => cases hlist
  | child => cases hlist

/-- A new member at the end of a list. Among members under keys it has a key of its own. -/
theorem appendItem (hf : d.forest.Formed S.nodes) (hi : S.nodes i) (hlt : i < d.forest.size)
    (hp : (d.forest.get i).kind.placement? σ = some p) (hlist : p.isSingle = false)
    (hfree : fields.Unreserved) (hfresh : ∀ k key, p = .keyed k key →
      ∃ v, fields = [(.str key, v)] ∧ ∀ j, .node j ∈ ((d.forest.get i).value σ).nodes →
        ((d.forest.get j).value key).identical v = false) :
    Follows S (Edit.appendItem i σ p.kind fields) d fun r g => g.IsChild i p.kind r.1 ∧
      S.nodes r.1 ∧ .node r.1 ∈ ((g.get i).value σ).nodes ∧
        g.get r.1 = Node.putFields { kind := p.kind, parent := .node i } fields := by
  unfold Edit.appendItem
  refine .bind (ensureList hf hi hlt hp hlist) fun l d₁ hrun hl => ?_
  obtain ⟨items, mark⟩ := l
  obtain ⟨hvalue, hitems⟩ := hl
  dsimp only at hvalue hitems
  have hlater := hrun.later
  have hlt₁ : i < d₁.forest.size := Nat.lt_of_lt_of_le hlt hlater.size_le
  have hp₁ : (d₁.forest.get i).kind.placement? σ = some p := by
    rw [hlater.kind_eq i hlt]
    exact hp
  have hσ₁ := Kind.mem_slots_of_placement? hp₁
  -- The member that is attached differs in its key from all that the list holds.
  have ha : d₁.forest.Attaches (d₁.forest.get i) σ p fields
      (.list (items ++ [.node d₁.forest.size]) mark) := by
    refine .member hlist hvalue fun k key hkeyed => ?_
    obtain ⟨v, hfields, hkeys⟩ := hfresh k key hkeyed
    refine ⟨v, hfields, fun j hj => ?_⟩
    -- The list stood there before, or it was opened and is empty.
    rcases hitems with ⟨hsame, rfl⟩ | rfl
    · rw [hsame]
      exact hkeys j hj
    · exact absurd hj List.not_mem_nil
  have hattach := attach hi hlt₁ hp₁ hfree ha fun hfields =>
    addDetached_member hfields hlt₁ hσ₁ items mark
  refine hattach.mono fun r g _ h => ?_
  obtain ⟨rfl, hfields, rfl⟩ := h
  refine ⟨isChild_withChild hlt₁ hfields, ?_, ?_, get_withChild_new hlt₁⟩
  · exact hf.fresh _ hlater.size_le
  · rw [value_withChild hlt₁ ha, if_pos rfl]
    exact List.mem_append_right _ (List.mem_singleton_self _)

/-! ### Members found or made -/

/-- The member of a slot with a key, found or made. -/
theorem indexedItem (hf : d.forest.Formed S.nodes) (hi : S.nodes i) (hlt : i < d.forest.size)
    (v : Data) :
    Follows S (Edit.indexedItem i k v) d fun j g => ∃ slot : IndexedSlot,
      g.Linked S i slot.name (.keyed k slot.key) v j := by
  refine .after_look (.slotFor _ _ _ _) (.slotFor .indexed (·.indexed)) fun slot hslot => ?_
  have hp : (d.forest.get i).kind.placement? slot.name = some (.keyed k slot.key) :=
    Kind.placement?_indexed _ _ hslot
  have hkey : slot.key ∈ k.fields := Kind.index_mem_fields _ _ hslot
  have hmem := fun x => hf.member hi hlt hp rfl (x := x)
  refine .after_look (.membersOf _ _) (.slotMembers hf hi hlt hp rfl) fun items hitems => ?_
  subst hitems
  refine .after_look (.searchIndexed _ _ _) (.searchIndexed _ _ _) fun i? hsearch => ?_
  split
  · rename_i j hfound
    obtain ⟨n, rfl, hj⟩ := nodeAt?_eq_some hfound
    obtain ⟨m, x, hn, hx, htest⟩ := position?_some hsearch
    rw [Nat.zero_add] at hn
    subst hn
    obtain rfl : x = .node j := Option.some.inj (hx.symm.trans hj)
    obtain ⟨j', he, hchild, hT⟩ := hmem _ (List.mem_of_getElem? hj)
    cases he
    refine .pure ⟨slot, hlt, hi, hp, hchild, hT, fun _ => List.mem_of_getElem? hj, ?_⟩
    rintro _ _ s ⟨⟩ rfl -
    -- The search has looked at what stands under the key.
    have hidentical := hasKey_node (by rw [hchild.2.1]; exact hkey) htest
    exact Data.identical_str_iff.1 hidentical.symm
  · rename_i hnone
    have hall := test_of_nodeAt?_eq_none (fun x hx => (hmem x hx).imp fun _ h => h.1) hsearch hnone
    have hfields : Entries.AreFields k [(.str slot.key, v)] := by
      intro e he
      rw [List.mem_singleton.1 he]
      exact ⟨slot.key, hkey, rfl⟩
    refine .bind (appendItem (p := .keyed k slot.key) hf hi hlt hp rfl hfields.unreserved ?_)
      fun r d₁ hrun h => ?_
    · rintro _ _ ⟨⟩
      refine ⟨v, rfl, fun j hj => ?_⟩
      obtain ⟨j', he, hchild, -⟩ := hmem _ hj
      cases he
      exact (hasKey_node (by rw [hchild.2.1]; exact hkey) (hall _ hj)).symm
    · obtain ⟨hchild, hT, hin, hnew⟩ := h
      have hplaced := hrun.later.placed hlt hp
      refine .pure ⟨slot, hplaced.1, hi, hplaced.2, hchild, hT, fun _ => hin, ?_⟩
      rintro _ _ s ⟨⟩ rfl -
      rw [hnew]
      exact Node.putFields_single ..

/-- The member of a slot that has some values, found or made. -/
theorem collectionItem (hf : d.forest.Formed S.nodes) (hi : S.nodes i) (hlt : i < d.forest.size)
    (hfree : fields.Unreserved) :
    Follows S (Edit.collectionItem i k fields) d fun j g => ∃ slot : CollectionSlot,
      ∀ v, g.Linked S i slot.name (.listed k slot) v j := by
  refine .after_look (.slotFor _ _ _ _) (.slotFor .collection (·.collections)) fun slot hslot => ?_
  have hp : (d.forest.get i).kind.placement? slot.name = some (.listed k slot) :=
    Kind.placement?_collections _ _ hslot
  extract_lets answer
  -- A member that was found stands in the slot; otherwise one is appended to it.
  have hanswer : ∀ j? : Option NodeId,
      (∀ j, j? = some j → .node j ∈ ((d.forest.get i).value slot.name).nodes) →
      Follows S (answer j?) d fun j g => ∃ slot : CollectionSlot,
        ∀ v, g.Linked S i slot.name (.listed k slot) v j := by
    intro j? hj?
    cases j? with
    | some j =>
      obtain ⟨j', he, hchild, hT⟩ := hf.member hi hlt hp rfl (hj? j rfl)
      cases he
      refine .pure ⟨slot, fun v => ⟨hlt, hi, hp, hchild, hT, fun _ => hj? j rfl, ?_⟩⟩
      rintro _ _ _ ⟨⟩
    | none =>
      refine .bind (appendItem (p := .listed k slot) hf hi hlt hp rfl hfree ?_)
        fun r d₁ hrun h => ?_
      · rintro _ _ ⟨⟩
      · obtain ⟨hchild, hT, hin, -⟩ := h
        have hplaced := hrun.later.placed hlt hp
        refine .pure ⟨slot, fun v => ⟨hplaced.1, hi, hplaced.2, hchild, hT, fun _ => hin, ?_⟩⟩
        rintro _ _ _ ⟨⟩
  refine .ite (fun _ => hanswer none fun j hj => by cases hj) fun _ => ?_
  -- The member is searched among those of the slot, and so it is one of them.
  refine .after_look (.membersOf _ _) (.slotMembers hf hi hlt hp rfl) fun items hitems => ?_
  refine .after_look (.searchCollection _ _) (.searchCollection _ _) fun i? _ =>
    hanswer _ fun j hj => ?_
  obtain ⟨n, -, hn⟩ := nodeAt?_eq_some hj
  rw [← hitems]
  exact List.mem_of_getElem? hn

end Follows

end Edit

end ApiDoc
