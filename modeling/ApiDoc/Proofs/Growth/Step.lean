import Mathlib.Logic.Relation
import ApiDoc.Proofs.Tree.Edits

namespace ApiDoc

/-!
# Forests that grow

An edit changes a forest in small steps, each at one node: a value set, a list made longer, a new
child attached. What each step may do is told by a licence.

* `Licence` — the nodes that may change, the fields that may be written, and whether values that
  are set may be replaced;
* `Node.Alters`, `Forest.Attaches` — what may become of one node without and with a new child;
* `Forest.Step`, `Forest.Steps` — a step of a forest, and any number of steps;
* `Forest.Becomes`, `Forest.Shifts` — what may become of a node, and of a slot, in one step;
* `Forest.Fills`, `Forest.Formed` — what a slot may hold, and forests whose slots do;
* `Forest.Below` — the nodes of the tree at a node;
* `Steps.later`, `Steps.formed` — what any number of steps keeps.
-/

/-- Whether a truth value may stand in the place of a child. -/
def Placement.isBoolean : Placement → Bool
  | single _ b => b
  | _ => false

/-! ### What a step may do -/

/-- What edits may change: some nodes, and of these some fields. -/
structure Licence where
  nodes : NodeId → Prop
  fields : Kind → String → Prop
  overwrite : Bool

/-- A node of which a value has changed, and no child has been added. -/
inductive Node.Alters (S : Licence) (n : Node) : Node → Prop
  | field {name : String} (v : Data) (hname : name ∈ n.kind.fields)
      (hscalar : name ∉ n.kind.arrayFields) (hmay : S.fields n.kind name)
      (hset : S.overwrite = true ∨ n.value name = .unset) : Alters S n (n.putValue name v)
  | grow {name : String} (ys : List Data) (hname : name ∈ n.kind.fields)
      (harray : name ∈ n.kind.arrayFields) : Alters S n
        (n.putValue name (.ofList (Merge.unionItems ((n.value name).items?.getD []) ys)))
  | extension {key : String} {es : Entries} {mark : Nat} (v : Data)
      (hkey : key.startsWith "x-" = true) (hes : n.extensions = .map es mark)
      (hset : S.overwrite = true ∨ es.has (.str key) = false) :
      Alters S n { n with extensions := .map (es.insert (.str key) v) mark }
  | flag {σ : String} {k : Kind} (b : Bool) (hp : n.kind.placement? σ = some (.single k true))
      (hset : S.overwrite = true ∨ n.value σ = .unset) : Alters S n (n.putValue σ (.bool b))
  | list {σ : String} {p : Placement} (hp : n.kind.placement? σ = some p)
      (hlist : p.isSingle = false) (hunset : n.value σ = .unset) :
      Alters S n (n.putValue σ (.ofList []))

namespace Forest

/-- What a slot holds once the next node of the forest is a child in it. Among children under keys
    the new one has a key that no other has. -/
inductive Attaches (f : Forest) (n : Node) (σ : String) : Placement → Entries → Data → Prop
  | child {k : Kind} {b : Bool} {fields : Entries}
      (hfree : n.value σ = .unset ∨ b = true ∧ ∃ c, n.value σ = .bool c) :
      Attaches f n σ (.single k b) fields (.node f.size)
  | member {p : Placement} {fields : Entries} {xs : List Data} {mark : Nat}
      (hlist : p.isSingle = false) (hvalue : n.value σ = .list xs mark)
      (hfresh : ∀ k key, p = .keyed k key → ∃ v, fields = [(.str key, v)] ∧
        ∀ j, .node j ∈ xs → ((f.get j).value key).identical v = false) :
      Attaches f n σ p fields (.list (xs ++ [.node f.size]) mark)

/-- One step of a forest: a node altered, or a child attached to it. -/
inductive Step (S : Licence) (f : Forest) : Forest → Prop
  | alter {i : NodeId} {n : Node} (hi : S.nodes i) (hlt : i < f.size)
      (h : (f.get i).Alters S n) : Step S f (f.put i n)
  | attach {i : NodeId} {σ : String} {p : Placement} {fields : Entries} {v : Data}
      (hi : S.nodes i) (hlt : i < f.size) (hp : (f.get i).kind.placement? σ = some p)
      (hfields : fields.AreFields p.kind) (h : f.Attaches (f.get i) σ p fields v) :
      Step S f (Edit.withChild f i p.kind fields σ v)

/-- Any number of steps. -/
def Steps (S : Licence) : Forest → Forest → Prop := Relation.ReflTransGen (Step S)

end Forest

/-! ### What a step leaves -/

/-- What is not the mark of the unset is set. -/
theorem Data.isUnset_eq_false {v : Data} (h : v ≠ .unset) : v.isUnset = false := by
  rw [Bool.eq_false_iff]
  exact fun hv => h (Data.isUnset_iff.1 hv)

namespace Node.Alters

variable {S : Licence} {n m : Node}

/-- A changed value leaves the kind. -/
theorem kind_eq (h : n.Alters S m) : m.kind = n.kind := by
  cases h <;> rfl

/-- A changed value leaves the parent. -/
theorem parent_eq (h : n.Alters S m) : m.parent = n.parent := by
  cases h <;> rfl

/-- A slot stays as it is, or holds a truth value or an empty list. -/
theorem slot (h : n.Alters S m) {σ : String} {p : Placement}
    (hp : n.kind.placement? σ = some p) :
    m.value σ = n.value σ ∨
      (∃ k b, p = .single k true ∧ m.value σ = .bool b ∧
        (S.overwrite = true ∨ n.value σ = .unset)) ∨
      p.isSingle = false ∧ n.value σ = .unset ∧ m.value σ = .ofList [] := by
  have hσ := Kind.mem_slots_of_placement? hp
  have hfield : ∀ {name}, name ∈ n.kind.fields → σ ≠ name := by
    rintro name hname rfl
    exact n.kind.field_notMem_slots _ hname hσ
  cases h with
  | field v hname => exact .inl (n.value_putValue_of_ne (hfield hname) v)
  | grow ys hname => exact .inl (n.value_putValue_of_ne (hfield hname) _)
  | extension => exact .inl rfl
  | @flag τ k b hτ hset =>
    by_cases he : σ = τ
    · subst he
      rw [hp] at hτ
      cases hτ
      exact .inr (.inl ⟨k, b, rfl, n.value_putValue_self _ rfl, hset⟩)
    · exact .inl (n.value_putValue_of_ne he _)
  | @list τ q hτ hlist hunset =>
    by_cases he : σ = τ
    · subst he
      rw [hp] at hτ
      cases hτ
      exact .inr (.inr ⟨hlist, hunset, n.value_putValue_self _ rfl⟩)
    · exact .inl (n.value_putValue_of_ne he _)

/-- A field stays as it is, or may be written. -/
theorem field_eq (h : n.Alters S m) {name : String} (hname : name ∈ n.kind.fields)
    (hscalar : name ∉ n.kind.arrayFields) :
    m.value name = n.value name ∨
      S.fields n.kind name ∧ (S.overwrite = true ∨ n.value name = .unset) := by
  have hslot : ∀ {σ p}, n.kind.placement? σ = some p → name ≠ σ := by
    rintro σ p hp rfl
    exact n.kind.field_notMem_slots _ hname (Kind.mem_slots_of_placement? hp)
  cases h with
  | @field other v _ _ hmay hset =>
    by_cases he : name = other
    · subst he
      exact .inr ⟨hmay, hset⟩
    · exact .inl (n.value_putValue_of_ne he v)
  | grow ys _ harray =>
    refine .inl (n.value_putValue_of_ne ?_ _)
    rintro rfl
    exact hscalar harray
  | extension => exact .inl rfl
  | flag b hp => exact .inl (n.value_putValue_of_ne (hslot hp) _)
  | list hp => exact .inl (n.value_putValue_of_ne (hslot hp) _)

end Node.Alters

namespace Forest

variable {S : Licence} {f g h : Forest} {i j : NodeId} {k : Kind} {σ : String} {p : Placement}
  {fields : Entries} {v : Data}

/-! ### New children -/

@[simp] theorem size_withChild : (Edit.withChild f i k fields σ v).size = f.size + 1 := by
  simp [Edit.withChild]

/-- Where a child is attached, only its parent changes. -/
theorem get_withChild_of_ne (hj : j < f.size) (hne : j ≠ i) :
    (Edit.withChild f i k fields σ v).get j = f.get j := by
  rw [Edit.withChild, get_put_of_ne _ hne, get_add_of_lt _ hj]

/-- The new child is the last node, with the fields given. -/
theorem get_withChild_new (hi : i < f.size) :
    (Edit.withChild f i k fields σ v).get f.size
      = Node.putFields { kind := k, parent := .node i } fields := by
  rw [Edit.withChild, get_put_of_ne _ (Nat.ne_of_gt hi), get_add_self]

/-- A slot in which a child has been put is set. -/
theorem Attaches.isUnset_eq_false {n : Node} (h : f.Attaches n σ p fields v) :
    v.isUnset = false := by
  cases h <;> rfl

/-- The slots of a node to which a child is attached. -/
theorem value_withChild (hi : i < f.size) (h : f.Attaches (f.get i) σ p fields v) (τ : String) :
    ((Edit.withChild f i k fields σ v).get i).value τ
      = if τ = σ then v else (f.get i).value τ := by
  rw [Edit.get_withChild hi]
  split
  · rename_i he
    rw [he, Node.value_putValue_self _ _ h.isUnset_eq_false]
  · rename_i hne
    rw [Node.value_putValue_of_ne _ hne]

/-! ### What stays -/

/-- A forest with all nodes of another, which have kept their kinds and parents. -/
structure Later (f g : Forest) : Prop where
  size_le : f.size ≤ g.size
  kind_eq : ∀ j < f.size, (g.get j).kind = (f.get j).kind
  parent_eq : ∀ j < f.size, (g.get j).parent = (f.get j).parent

/-- A forest is as late as itself. -/
theorem Later.refl (f : Forest) : f.Later f := ⟨Nat.le_refl _, fun _ _ => rfl, fun _ _ => rfl⟩

/-- What is later than a later forest is later. -/
theorem Later.trans (hfg : f.Later g) (hgh : g.Later h) : f.Later h where
  size_le := Nat.le_trans hfg.size_le hgh.size_le
  kind_eq j hj := (hgh.kind_eq j (Nat.lt_of_lt_of_le hj hfg.size_le)).trans (hfg.kind_eq j hj)
  parent_eq j hj :=
    (hgh.parent_eq j (Nat.lt_of_lt_of_le hj hfg.size_le)).trans (hfg.parent_eq j hj)

/-- Children stay children. -/
theorem Later.isChild (hfg : f.Later g) (hj : f.IsChild i k j) : g.IsChild i k j :=
  ⟨Nat.lt_of_lt_of_le hj.1 hfg.size_le, (hfg.kind_eq j hj.1).trans hj.2.1,
    (hfg.parent_eq j hj.1).trans hj.2.2⟩

/-- A slot stays a slot for the same. -/
theorem Later.placed (hfg : f.Later g) (hi : i < f.size)
    (hp : (f.get i).kind.placement? σ = some p) :
    i < g.size ∧ (g.get i).kind.placement? σ = some p := by
  refine ⟨Nat.lt_of_lt_of_le hi hfg.size_le, ?_⟩
  rw [hfg.kind_eq i hi]
  exact hp

/-- What may become of a node in one step. -/
inductive Becomes (S : Licence) (f : Forest) (n : Node) : Node → Prop
  | same : Becomes S f n n
  | alter {m : Node} (h : n.Alters S m) : Becomes S f n m
  | attach {σ : String} {p : Placement} {fields : Entries} {v : Data}
      (hp : n.kind.placement? σ = some p) (h : f.Attaches n σ p fields v) :
      Becomes S f n (n.putValue σ v)

/-- One step makes of each node what it may. -/
theorem Step.becomes (hstep : Step S f g) (hj : j < f.size) :
    f.Becomes S (f.get j) (g.get j) := by
  cases hstep with
  | @alter i n hi hlt hn =>
    by_cases he : j = i
    · subst he
      rw [f.get_put_self hlt]
      exact .alter hn
    · rw [f.get_put_of_ne he]
      exact .same
  | @attach i σ p fields v hi hlt hp hfields ha =>
    by_cases he : j = i
    · subst he
      rw [Edit.get_withChild hlt]
      exact .attach hp ha
    · rw [get_withChild_of_ne hj he]
      exact .same

/-- Whatever becomes of a node, its kind stays. -/
theorem Becomes.kind_eq {n m : Node} (h : f.Becomes S n m) : m.kind = n.kind := by
  cases h with
  | same => rfl
  | alter h => exact h.kind_eq
  | attach => rfl

/-- Whatever becomes of a node, its parent stays. -/
theorem Becomes.parent_eq {n m : Node} (h : f.Becomes S n m) : m.parent = n.parent := by
  cases h with
  | same => rfl
  | alter h => exact h.parent_eq
  | attach => rfl

/-- A step leaves all nodes in their places. -/
theorem Step.later (hstep : Step S f g) : f.Later g := by
  refine ⟨?_, fun j hj => (hstep.becomes hj).kind_eq, fun j hj => (hstep.becomes hj).parent_eq⟩
  cases hstep with
  | alter => simp
  | attach => simp

/-- Children stay where they are, but for an only child where truth values may take its place. -/
theorem Becomes.nodes_subset {n m : Node} (h : f.Becomes S n m) {σ : String} {p : Placement}
    (hp : n.kind.placement? σ = some p) (hkeep : p.isBoolean = false ∨ S.overwrite = false) :
    (n.value σ).nodes ⊆ (m.value σ).nodes := by
  cases h with
  | same => exact List.Subset.refl _
  -- An altered node keeps its members, for a flag takes the place of a child by overwriting only.
  | alter h =>
    rcases h.slot hp with heq | ⟨k, b, rfl, -, hset⟩ | ⟨-, hunset, -⟩
    · rw [heq]
      exact List.Subset.refl _
    · have hover : S.overwrite = false := hkeep.resolve_left Bool.noConfusion
      rw [hset.resolve_left (by rw [hover]; exact Bool.false_ne_true)]
      exact List.nil_subset _
    · rw [hunset]
      exact List.nil_subset _
  -- An attached child is put into a free slot or behind the members of a list.
  | @attach τ q fields v hq ha =>
    by_cases he : σ = τ
    · subst he
      rw [hp] at hq
      cases hq
      rw [n.value_putValue_self _ ha.isUnset_eq_false]
      cases ha with
      | child hfree =>
        rcases hfree with hunset | ⟨-, c, hflag⟩
        · rw [hunset]
          exact List.nil_subset _
        · rw [hflag]
          exact List.nil_subset _
      | member hlist hvalue =>
        rw [hvalue]
        exact List.subset_append_left _ _
    · rw [n.value_putValue_of_ne he]
      exact List.Subset.refl _

/-- A field stays as it is, or may be written. -/
theorem Becomes.field_eq {n m : Node} (h : f.Becomes S n m) {name : String}
    (hname : name ∈ n.kind.fields) (hscalar : name ∉ n.kind.arrayFields) :
    m.value name = n.value name ∨
      S.fields n.kind name ∧ (S.overwrite = true ∨ n.value name = .unset) := by
  cases h with
  | same => exact .inl rfl
  | alter h => exact h.field_eq hname hscalar
  | attach hp =>
    refine .inl (n.value_putValue_of_ne ?_ _)
    rintro rfl
    exact n.kind.field_notMem_slots _ hname (Kind.mem_slots_of_placement? hp)

/-- A node that may not change stays as it is. -/
theorem Step.get_eq (hstep : Step S f g) (hj : j < f.size) (hnot : ¬S.nodes j) :
    g.get j = f.get j := by
  have hne : ∀ {i}, S.nodes i → j ≠ i := by
    rintro i hi rfl
    exact hnot hi
  cases hstep with
  | alter hi hlt hn => exact f.get_put_of_ne (hne hi) _
  | attach hi hlt hp hfields ha => exact get_withChild_of_ne hj (hne hi)

/-- A new child is a child of its kind. -/
theorem isChild_withChild (hi : i < f.size) (hfields : fields.AreFields k) :
    (Edit.withChild f i k fields σ v).IsChild i k f.size := by
  obtain ⟨hkind, hparent, -⟩ := Node.putFields_spec hfields { kind := k, parent := .node i }
  refine ⟨by simp, ?_, ?_⟩
  · rw [get_withChild_new hi]
    exact hkind
  · rw [get_withChild_new hi]
    exact hparent

/-- The slots of a new child are empty. -/
theorem value_withChild_new (hi : i < f.size) (hfields : fields.AreFields k) {τ : String}
    (hτ : τ ∈ k.slots) :
    ((Edit.withChild f i k fields σ v).get f.size).value τ = .unset := by
  rw [get_withChild_new hi]
  exact (Node.putFields_spec hfields { kind := k, parent := .node i }).2.2 τ hτ

/-- What a slot may hold after one step: what it held, something else without children, or one child
    more. -/
inductive Shifts (f g : Forest) (j : NodeId) (σ : String) (p : Placement) : Prop
  | fresh (h : (g.get j).value σ = .unset)
  | same (hj : j < f.size) (hp : (f.get j).kind.placement? σ = some p)
      (h : (g.get j).value σ = (f.get j).value σ)
  | flag {k : Kind} (b : Bool) (he : p = .single k true) (h : (g.get j).value σ = .bool b)
  | opened (hlist : p.isSingle = false) (h : (g.get j).value σ = .ofList [])
  | attached {fields : Entries} {v : Data} (hj : j < f.size)
      (hp : (f.get j).kind.placement? σ = some p) (h : (g.get j).value σ = v)
      (ha : f.Attaches (f.get j) σ p fields v) (hchild : g.IsChild j p.kind f.size)
      (hnew : g.get f.size = Node.putFields { kind := p.kind, parent := .node j } fields)

/-- One step makes of each slot what it may. -/
theorem Step.shifts (hstep : Step S f g) (hj : j < g.size)
    (hp : (g.get j).kind.placement? σ = some p) : f.Shifts g j σ p := by
  have hkind := hstep.later.kind_eq j
  cases hstep with
  | @alter i n hi hlt hn =>
    rw [size_put] at hj
    -- The node is altered: its slot stays, takes a flag or is opened.
    rw [hkind hj] at hp
    by_cases he : j = i
    · subst he
      have hself := f.get_put_self hlt n
      rcases hn.slot hp with hsame | ⟨k, b, he, hflag, -⟩ | ⟨hlist, -, hopened⟩
      · exact .same hj hp (by rw [hself, hsame])
      · exact .flag b he (by rw [hself, hflag])
      · exact .opened hlist (by rw [hself, hopened])
    · exact .same hj hp (by rw [f.get_put_of_ne he])
  | @attach i τ q fields v hi hlt hq hfields ha =>
    rw [size_withChild] at hj
    by_cases hnew : j = f.size
    · -- The slots of a node that has just come are empty.
      subst hnew
      rw [(isChild_withChild (σ := τ) (v := v) hlt hfields).2.1] at hp
      exact .fresh (value_withChild_new hlt hfields (Kind.mem_slots_of_placement? hp))
    have hj : j < f.size := Nat.lt_of_le_of_ne (Nat.le_of_lt_succ hj) hnew
    -- A child is attached: to this slot of this node, or somewhere else.
    rw [hkind hj] at hp
    by_cases he : j = i
    · subst he
      have hvalue := value_withChild (k := q.kind) hlt ha σ
      by_cases hτ : σ = τ
      · subst hτ
        obtain rfl : p = q := Option.some.inj (hp.symm.trans hq)
        rw [if_pos rfl] at hvalue
        exact .attached hj hp hvalue ha (isChild_withChild hlt hfields) (get_withChild_new hlt)
      · rw [if_neg hτ] at hvalue
        exact .same hj hp hvalue
    · exact .same hj hp (by rw [get_withChild_of_ne hj he])

namespace Steps

/-- No step at all. -/
theorem refl (f : Forest) : Steps S f f := Relation.ReflTransGen.refl

/-- One step. -/
theorem step (hstep : Step S f g) : Steps S f g := .single hstep

/-- Steps after steps. -/
theorem trans (hfg : Steps S f g) (hgh : Steps S g h) : Steps S f h :=
  Relation.ReflTransGen.trans hfg hgh

/-- What every step keeps and what is put together from steps holds of every run. -/
theorem induct {I : Forest → Prop} {R : Forest → Forest → Prop} (hrefl : ∀ f, R f f)
    (htrans : ∀ f g h, R f g → R g h → R f h)
    (hstep : ∀ f g, I f → Step S f g → I g ∧ R f g) (hf : I f) (hrun : Steps S f g) :
    I g ∧ R f g := by
  induction hrun with
  | refl => exact ⟨hf, hrefl f⟩
  | tail _ hlast ih =>
    obtain ⟨hI, hR⟩ := hstep _ _ ih.1 hlast
    exact ⟨hI, htrans _ _ _ ih.2 hR⟩

/-- Any number of steps leaves all nodes in their places. -/
theorem later (hrun : Steps S f g) : f.Later g :=
  (induct (I := fun _ => True) Later.refl (fun _ _ _ => Later.trans)
    (fun _ _ _ hstep => ⟨trivial, hstep.later⟩) trivial hrun).2

end Steps

/-! ### Slots that hold what they are for -/

/-- What may stand in a slot of a node: nothing, a child of its kind, a list of such children, and
    in some slots a truth value in the place of a child. -/
inductive Fills (T : NodeId → Prop) (f : Forest) (i : NodeId) : Placement → Data → Prop
  | unset {p : Placement} : Fills T f i p .unset
  | flag {k : Kind} (b : Bool) : Fills T f i (.single k true) (.bool b)
  | child {k : Kind} {b : Bool} {j : NodeId} (hj : f.IsChild i k j) (hT : T j) :
      Fills T f i (.single k b) (.node j)
  | list {p : Placement} {xs : List Data} (mark : Nat) (hlist : p.isSingle = false)
      (hxs : ∀ x ∈ xs, ∃ j, x = .node j ∧ f.IsChild i p.kind j ∧ T j) :
      Fills T f i p (.list xs mark)

/-- A forest in which the slots of some nodes hold what they are for, the children being such
    nodes, too. All nodes that are still to come are among them. -/
structure Formed (T : NodeId → Prop) (f : Forest) : Prop where
  fresh : ∀ j, f.size ≤ j → T j
  slots : ∀ i, T i → i < f.size → ∀ σ p, (f.get i).kind.placement? σ = some p →
    f.Fills T i p ((f.get i).value σ)

/-- What fills a slot fills it among more nodes. -/
theorem Fills.imp {T T' : NodeId → Prop} (hv : f.Fills T i p v) (h : ∀ j, T j → T' j) :
    f.Fills T' i p v := by
  cases hv with
  | unset => exact .unset
  | flag b => exact .flag b
  | child hj hT => exact .child hj (h _ hT)
  | list mark hlist hxs =>
    refine .list mark hlist fun x hx => ?_
    obtain ⟨j, he, hj, hT⟩ := hxs x hx
    exact ⟨j, he, hj, h j hT⟩

/-- The nodes that stand in a slot are children. -/
theorem Fills.isChild {T : NodeId → Prop} (hv : f.Fills T i p v) (hj : .node j ∈ v.nodes) :
    f.IsChild i p.kind j ∧ T j := by
  cases hv with
  | unset => exact absurd hj List.not_mem_nil
  | flag => exact absurd hj List.not_mem_nil
  | child hc hT =>
    cases List.mem_singleton.1 hj
    exact ⟨hc, hT⟩
  | list _ _ hxs =>
    obtain ⟨c, he, hc, hT⟩ := hxs _ hj
    cases he
    exact ⟨hc, hT⟩

/-- What fills a slot fills it later, too. -/
theorem Fills.later {T : NodeId → Prop} (hv : f.Fills T i p v) (hfg : f.Later g) :
    g.Fills T i p v := by
  cases hv with
  | unset => exact .unset
  | flag b => exact .flag b
  | child hj hT => exact .child (hfg.isChild hj) hT
  | list mark hlist hxs =>
    refine .list mark hlist fun x hx => ?_
    obtain ⟨j, he, hj, hT⟩ := hxs x hx
    exact ⟨j, he, hfg.isChild hj, hT⟩

/-- A step leaves slots that hold what they are for. -/
theorem Step.formed (hf : f.Formed S.nodes) (hstep : Step S f g) : g.Formed S.nodes := by
  have hlater := hstep.later
  refine ⟨fun j hj => hf.fresh j (Nat.le_trans hlater.size_le hj), fun j hT hj σ p hp => ?_⟩
  cases hstep.shifts hj hp with
  | fresh h =>
    rw [h]
    exact .unset
  | same hj hp h =>
    rw [h]
    exact (hf.slots j hT hj σ p hp).later hlater
  | flag b he h =>
    subst he
    rw [h]
    exact .flag b
  | opened hlist h =>
    rw [h]
    exact .list 0 hlist fun x hx => absurd hx List.not_mem_nil
  | attached hj hp h ha hchild =>
    have hnew := hf.fresh _ (Nat.le_refl _)
    rw [h]
    -- A child is attached alone, or as a member behind those that were there.
    cases ha with
    | child => exact .child hchild hnew
    | @member _ _ xs mark hlist hvalue =>
      refine .list mark hlist fun x hx => ?_
      rcases List.mem_append.1 hx with hx | hx
      · -- A child that was there before.
        have hold := hf.slots j hT hj σ p hp
        rw [hvalue] at hold
        cases hold with
        | list _ _ hxs =>
          obtain ⟨c, he, hc, hT⟩ := hxs x hx
          exact ⟨c, he, hlater.isChild hc, hT⟩
      · exact ⟨_, List.mem_singleton.1 hx, hchild, hnew⟩

/-- So does any number of steps. -/
theorem Steps.formed (hf : f.Formed S.nodes) (hrun : Steps S f g) : g.Formed S.nodes :=
  (Steps.induct (R := fun _ _ => True) (fun _ => trivial) (fun _ _ _ _ _ => trivial)
    (fun _ _ hI hstep => ⟨hstep.formed hI, trivial⟩) hf hrun).1

/-! ### Children in a slot -/

/-- What may become of the children in a slot in one step: none, those that were there, or one more.
    Among children under keys this one has a key of its own. -/
inductive Gains (f g : Forest) (j : NodeId) (σ : String) (p : Placement) : Prop
  | none (h : ((g.get j).value σ).nodes = [])
  | same (hj : j < f.size) (hp : (f.get j).kind.placement? σ = some p)
      (h : ((g.get j).value σ).nodes = ((f.get j).value σ).nodes)
  | more (hj : j < f.size) (hp : (f.get j).kind.placement? σ = some p)
      (h : ((g.get j).value σ).nodes = ((f.get j).value σ).nodes ++ [.node f.size])
      (hkey : ∀ k key, p = .keyed k key → ∀ c, .node c ∈ ((f.get j).value σ).nodes →
        ((f.get c).value key).identical ((g.get f.size).value key) = false)

/-- One step adds at most one child to a slot. -/
theorem Step.gains (hstep : Step S f g) (hj : j < g.size)
    (hp : (g.get j).kind.placement? σ = some p) : f.Gains g j σ p := by
  cases hstep.shifts hj hp with
  | fresh h => exact .none (by rw [h]; rfl)
  | same hj hp h => exact .same hj hp (by rw [h])
  | flag b _ h => exact .none (by rw [h]; rfl)
  | opened _ h => exact .none (by rw [h]; rfl)
  | attached hj hp h ha _ hnew =>
    -- Into a free slot comes the one child, so there is no other to differ from.
    cases ha with
    | child hfree =>
      have hnone : ((f.get j).value σ).nodes = [] := by
        rcases hfree with hopen | ⟨-, c, hflag⟩
        · rw [hopen]
          rfl
        · rw [hflag]
          rfl
      refine .more hj hp (by rw [h, hnone]; rfl) ?_
      rintro _ _ ⟨⟩
    -- Behind the members comes one with a key of its own.
    | member _ hlist hfresh =>
      refine .more hj hp (by rw [h, hlist]; rfl) fun k key hkeyed c hc => ?_
      obtain ⟨w, hfields, hother⟩ := hfresh k key hkeyed
      subst hfields
      rw [hnew, Node.putFields_single]
      rw [hlist] at hc
      exact hother c hc

/-! ### The nodes of a tree -/

/-- A node that is reached from another through slots. -/
inductive Below (f : Forest) (i : NodeId) : NodeId → Prop
  | self : Below f i i
  | child {p j : NodeId} {σ : String} (hp : Below f i p) (hσ : σ ∈ (f.get p).kind.slots)
      (hj : .node j ∈ ((f.get p).value σ).nodes) : Below f i j

/-- A tree whose slots hold what they are for. -/
structure WellFormed (f : Forest) (i : NodeId) : Prop where
  root : i < f.size
  slots : ∀ j, f.Below i j → ∀ σ p, (f.get j).kind.placement? σ = some p →
    f.Fills (fun _ => True) j p ((f.get j).value σ)

/-- The nodes of a tree, and all that are still to come. -/
def Around (f : Forest) (i j : NodeId) : Prop := f.Below i j ∨ f.size ≤ j

/-- In a well-formed tree the slots of all its nodes hold what they are for. -/
theorem WellFormed.formed (hf : f.WellFormed i) : f.Formed (f.Around i) := by
  refine ⟨fun j hj => .inr hj, fun j hT hj σ p hp => ?_⟩
  have hbelow : f.Below i j := hT.resolve_right (Nat.not_le_of_lt hj)
  have hσ := Kind.mem_slots_of_placement? hp
  have hfills := hf.slots j hbelow σ p hp
  generalize hv : (f.get j).value σ = v at hfills ⊢
  cases hfills with
  | unset => exact .unset
  | flag b => exact .flag b
  | child hc =>
    refine .child hc (.inl (hbelow.child hσ ?_))
    rw [hv]
    exact List.mem_singleton_self _
  | list mark hlist hxs =>
    refine .list mark hlist fun x hx => ?_
    obtain ⟨c, rfl, hc, -⟩ := hxs x hx
    refine ⟨c, rfl, hc, .inl (hbelow.child hσ ?_)⟩
    rw [hv]
    exact hx

/-- Where slots hold nodes of a set, all below one of these is in the set. -/
theorem Formed.below {T : NodeId → Prop} (hf : f.Formed T) (hi : T i) (hlt : i < f.size)
    (hj : f.Below i j) : T j ∧ j < f.size := by
  induction hj with
  | self => exact ⟨hi, hlt⟩
  | child _ hσ hj ih =>
    obtain ⟨p, hp⟩ := Kind.exists_placement? hσ
    obtain ⟨hc, hT⟩ := (hf.slots _ ih.1 ih.2 _ p hp).isChild hj
    exact ⟨hT, hc.1⟩

/-- Where slots hold what they are for, every tree is well-formed. -/
theorem Formed.wellFormed {T : NodeId → Prop} (hf : f.Formed T) (hi : T i) (hlt : i < f.size) :
    f.WellFormed i := by
  refine ⟨hlt, fun j hj σ p hp => ?_⟩
  obtain ⟨hT, hj⟩ := hf.below hi hlt hj
  exact (hf.slots j hT hj σ p hp).imp fun _ _ => trivial

/-- The nodes of a well-formed tree are nodes of the forest. -/
theorem WellFormed.lt_size (hf : f.WellFormed i) (hj : f.Below i j) : j < f.size :=
  (hf.formed.below (.inl .self) hf.root hj).2

/-- A node without children. -/
theorem WellFormed.leaf (hi : i < f.size)
    (h : ∀ σ ∈ (f.get i).kind.slots, (f.get i).value σ = .unset) : f.WellFormed i := by
  have hbelow : ∀ j, f.Below i j → j = i := by
    intro j hj
    induction hj with
    | self => rfl
    | child _ hσ hj ih =>
      subst ih
      rw [h _ hσ] at hj
      exact absurd hj List.not_mem_nil
  refine ⟨hi, fun j hj σ p hp => ?_⟩
  obtain rfl := hbelow j hj
  rw [h σ (Kind.mem_slots_of_placement? hp)]
  exact .unset

end Forest

end ApiDoc
