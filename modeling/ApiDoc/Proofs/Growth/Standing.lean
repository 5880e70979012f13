import ApiDoc.Proofs.Growth.Consistent
import ApiDoc.Proofs.Tree.Content

namespace ApiDoc

/-!
# Trees in consistent forests

In a consistent forest a tree stands at every node, and its nodes are those that are reached from
there:

* `Consistent.comparable`, `Consistent.siblings_apart` — no node is reached in two ways;
* `Forest.tree` — the tree at a node, `Consistent.holds` — where it stands;
* `Consistent.typed` — its slots hold what they are for, if all keys are texts;
* `Consistent.place_unique` — no node stands at two places;
* `Consistent.content_lists` — what the document then shows of the members of indexed slots.
-/

namespace Forest

variable {f : Forest} {i j a b : NodeId} {σ τ : String} {p : Placement}

/-! ### Reaching nodes -/

/-- What is below a node below another is below this one. -/
theorem Below.trans (hij : f.Below i j) (hja : f.Below j a) : f.Below i a := by
  induction hja with
  | self => exact hij
  | child _ hσ hc ih => exact ih.child hσ hc

namespace Consistent

variable (hf : f.Consistent)

include hf

/-- What stands in a slot of a node is a child of it. -/
theorem child (hi : i < f.size) (hσ : σ ∈ (f.get i).kind.slots)
    (hj : .node j ∈ ((f.get i).value σ).nodes) : ∃ p, (f.get i).kind.placement? σ = some p ∧
      f.IsChild i p.kind j ∧ i < j := by
  obtain ⟨p, hp⟩ := Kind.exists_placement? hσ
  refine ⟨p, hp, ((hf.formed.slots i trivial hi σ p hp).isChild hj).1, ?_⟩
  exact (List.pairwise_cons.1 (hf.ordered i hi σ p hp)).1 _ hj i j rfl rfl

/-- Nodes below another have higher numbers. -/
theorem below_lt (hi : i < f.size) (hj : f.Below i j) : i ≤ j ∧ j < f.size := by
  induction hj with
  | self => exact ⟨Nat.le_refl _, hi⟩
  | child _ hσ hc ih =>
    obtain ⟨_, -, hchild, hlt⟩ := hf.child ih.2 hσ hc
    exact ⟨Nat.le_trans ih.1 (Nat.le_of_lt hlt), hchild.1⟩

/-- A node that is reached from two others is reached from the one by way of the other. -/
theorem comparable (ha : a < f.size) (hb : b < f.size) (haj : f.Below a j) (hbj : f.Below b j) :
    f.Below a b ∨ f.Below b a := by
  induction haj with
  | self => exact .inr hbj
  | @child p j σ hap hσ hj ih =>
    cases hbj with
    | self => exact .inl (hap.child hσ hj)
    | @child q _ τ hbq hτ hj' =>
      -- Both ways end with the step from the parent.
      obtain ⟨_, -, hchild, -⟩ := hf.child (hf.below_lt ha hap).2 hσ hj
      obtain ⟨_, -, hchild', -⟩ := hf.child (hf.below_lt hb hbq).2 hτ hj'
      obtain rfl : p = q := by
        have he := hchild.2.2.symm.trans hchild'.2.2
        cases he
        rfl
      exact ih hbq

/-- From two children of a node no node is reached in common. -/
theorem siblings_apart (hi : i < f.size) (hσ : σ ∈ (f.get i).kind.slots)
    (hτ : τ ∈ (f.get i).kind.slots) (ha : .node a ∈ ((f.get i).value σ).nodes)
    (hb : .node b ∈ ((f.get i).value τ).nodes) (hne : a ≠ b) (haj : f.Below a j)
    (hbj : f.Below b j) : False := by
  have hup : ∀ {a b : NodeId} {σ τ : String}, σ ∈ (f.get i).kind.slots →
      τ ∈ (f.get i).kind.slots → .node a ∈ ((f.get i).value σ).nodes →
      .node b ∈ ((f.get i).value τ).nodes → a ≠ b → f.Below a b → False := by
    intro a b σ τ hσ hτ ha hb hne hab
    obtain ⟨_, -, hchild, hlt⟩ := hf.child hi hσ ha
    cases hab with
    | self => exact hne rfl
    | @child q _ υ haq hυ hb' =>
      obtain ⟨hle, hq⟩ := hf.below_lt hchild.1 haq
      obtain ⟨_, -, hchild', -⟩ := hf.child hi hτ hb
      obtain ⟨_, -, hchild'', -⟩ := hf.child hq hυ hb'
      obtain rfl : i = q := by
        have he := hchild'.2.2.symm.trans hchild''.2.2
        cases he
        rfl
      exact absurd hlt (Nat.not_lt_of_le hle)
  obtain ⟨_, -, hchild, -⟩ := hf.child hi hσ ha
  obtain ⟨_, -, hchild', -⟩ := hf.child hi hτ hb
  rcases hf.comparable hchild.1 hchild'.1 haj hbj with hab | hba
  · exact hup hσ hτ ha hb hne hab
  · exact hup hτ hσ hb ha (Ne.symm hne) hba

/-- A node stands in one slot only, and there at one position only. -/
theorem place_unique {i' : NodeId} {m n : Nat} (hi : i < f.size) (hi' : i' < f.size)
    (hσ : σ ∈ (f.get i).kind.slots) (hτ : τ ∈ (f.get i').kind.slots)
    (hm : ((f.get i).value σ).nodes[m]? = some (.node j))
    (hn : ((f.get i').value τ).nodes[n]? = some (.node j)) : i = i' ∧ σ = τ ∧ m = n := by
  obtain ⟨p, hp, hchild, -⟩ := hf.child hi hσ (List.mem_of_getElem? hm)
  obtain ⟨q, hq, hchild', -⟩ := hf.child hi' hτ (List.mem_of_getElem? hn)
  obtain rfl : i = i' := by
    have he := hchild.2.2.symm.trans hchild'.2.2
    cases he
    rfl
  obtain rfl : σ = τ := Kind.slot_unique hp hq (hchild.2.1.symm.trans hchild'.2.1)
  refine ⟨rfl, rfl, ?_⟩
  have hbefore : ∀ {m n : Nat}, m < n → ((f.get i).value σ).nodes[m]? = some (.node j) →
      ((f.get i).value σ).nodes[n]? = some (.node j) → False := by
    intro m n hmn hm hn
    obtain ⟨hm', hm⟩ := List.getElem?_eq_some_iff.1 hm
    obtain ⟨hn', hn⟩ := List.getElem?_eq_some_iff.1 hn
    have hordered := (List.pairwise_cons.1 (hf.ordered i hi σ p hp)).2
    have hlt := List.pairwise_iff_getElem.1 hordered m n hm' hn' hmn j j hm hn
    exact absurd hlt (Nat.lt_irrefl j)
  rcases Nat.lt_trichotomy m n with hlt | heq | hgt
  · exact (hbefore hlt hm hn).elim
  · exact heq
  · exact (hbefore hgt hn hm).elim

end Consistent

/-! ### Trees -/

end Forest

/-- What stands in a slot that holds a value, from what stands at each node. -/
def Slot.ofValue (tree : NodeId → Tree) : Data → Slot Tree
  | .scalar (.bool b) => .flag b
  | .node j => .child (tree j)
  | .list xs _ => .members ((xs.filterMap Data.node?).map tree)
  | _ => .empty

namespace Forest

/-- The tree at a node, to so many levels. -/
def tree (f : Forest) : (depth : Nat) → (keys : List String) → NodeId → Tree
  | 0, keys, i => .fresh (f.get i).kind keys
  | depth + 1, keys, i =>
    let n := f.get i
    { kind := n.kind
      keys := keys
      extensions := match n.extensions with
        | .map es _ => es
        | _ => []
      field := fun name => Tree.told n.kind keys name (n.value name)
      slot := fun σ => match n.kind.placement? σ with
        | some p => .ofValue (f.tree depth p.keys) (n.value σ)
        | none => .empty }

/-- The children in a slot. -/
def idsOf (f : Forest) (i : NodeId) (σ : String) : List NodeId :=
  match (f.get i).kind.placement? σ with
  | some _ => ((f.get i).value σ).nodes.filterMap Data.node?
  | none => []

/-- The nodes that are reached from a node. -/
noncomputable def reached (f : Forest) (i : NodeId) : Finset NodeId := by
  classical exact (Finset.range f.size).filter (f.Below i)

variable {f : Forest} {i j a b : NodeId} {σ τ : String} {p : Placement} {keys : List String}
  {depth : Nat}

/-- The nodes that are reached are those below. -/
theorem mem_reached : j ∈ f.reached i ↔ j < f.size ∧ f.Below i j := by
  classical simp [reached]

@[simp] theorem tree_kind (f : Forest) (depth : Nat) (keys : List String) (i : NodeId) :
    (f.tree depth keys i).kind = (f.get i).kind := by
  cases depth <;> rfl

@[simp] theorem tree_keys (f : Forest) (depth : Nat) (keys : List String) (i : NodeId) :
    (f.tree depth keys i).keys = keys := by
  cases depth <;> rfl

/-- The children of a tree are the trees of the nodes in the slot. -/
theorem slot_tree (hp : (f.get i).kind.placement? σ = some p) :
    (f.tree (depth + 1) keys i).slot σ = .ofValue (f.tree depth p.keys) ((f.get i).value σ) := by
  show (match (f.get i).kind.placement? σ with | some p => _ | none => _) = _
  rw [hp]

/-- The numbers of the nodes in a slot. -/
theorem idsOf_eq (hp : (f.get i).kind.placement? σ = some p) :
    f.idsOf i σ = ((f.get i).value σ).nodes.filterMap Data.node? := by
  rw [idsOf, hp]

namespace Consistent

variable (hf : f.Consistent)

include hf

/-- A slot shows its children. -/
theorem shows (hi : i < f.size) (hp : (f.get i).kind.placement? σ = some p) :
    ((f.tree (depth + 1) keys i).slot σ).Shows (f.idsOf i σ) ((f.get i).value σ) := by
  rw [slot_tree hp, idsOf_eq hp]
  have hfills := hf.formed.slots i trivial hi σ p hp
  generalize (f.get i).value σ = v at hfills ⊢
  cases hfills with
  | unset => exact ⟨rfl, rfl⟩
  | flag b => exact ⟨rfl, rfl⟩
  | @child _ _ j => exact ⟨j, rfl, rfl⟩
  | @list _ xs mark hlist hxs =>
    refine ⟨(List.length_map _).symm, mark, ?_⟩
    suffices h : xs = (xs.filterMap Data.node?).map Data.node by
      show Data.list xs mark = .list ((xs.filterMap Data.node?).map Data.node) mark
      rw [← h]
    clear hlist
    induction xs with
    | nil => rfl
    | cons x xs ih =>
      obtain ⟨c, rfl, -⟩ := hxs x List.mem_cons_self
      show _ = Data.node c :: _
      rw [← ih fun x hx => hxs x (List.mem_cons_of_mem _ hx)]

/-- In a consistent forest a slot holds nodes and nothing else. -/
theorem nodes_eq (hi : i < f.size) (hp : (f.get i).kind.placement? σ = some p) :
    ((f.get i).value σ).nodes = (f.idsOf i σ).map Data.node := by
  have hshows : ((f.tree 1 [] i).slot σ).Shows (f.idsOf i σ) ((f.get i).value σ) :=
    hf.shows hi hp
  exact hshows.nodes

/-- A number in a slot belongs to a node there. -/
theorem mem_idsOf (hi : i < f.size) {n : Nat} (hj : (f.idsOf i σ)[n]? = some j) :
    ∃ p, (f.get i).kind.placement? σ = some p ∧
      ((f.get i).value σ).nodes[n]? = some (.node j) := by
  cases hp : (f.get i).kind.placement? σ with
  | none =>
    rw [idsOf, hp] at hj
    cases hj
  | some p =>
    refine ⟨p, rfl, ?_⟩
    rw [hf.nodes_eq hi hp, List.getElem?_map, hj]
    rfl

/-- The trees in a slot are those at the children in it. -/
theorem trees_eq (hi : i < f.size) (hp : (f.get i).kind.placement? σ = some p) :
    ((f.tree (depth + 1) keys i).slot σ).trees = (f.idsOf i σ).map (f.tree depth p.keys) := by
  rw [slot_tree hp, idsOf_eq hp]
  have hfills := hf.formed.slots i trivial hi σ p hp
  generalize (f.get i).value σ = v at hfills ⊢
  cases hfills with
  | unset => rfl
  | flag b => rfl
  | child => rfl
  | list => rfl

/-- A child has a greater number than its parent, so that one level less is enough for it. -/
theorem child_depth (hi : i < f.size) (hσ : σ ∈ (f.get i).kind.slots)
    (hj : .node j ∈ ((f.get i).value σ).nodes) (hdepth : f.size ≤ i + (depth + 1)) :
    j < f.size ∧ f.size ≤ j + depth := by
  obtain ⟨_, -, hchild, hlt⟩ := hf.child hi hσ hj
  refine ⟨hchild.1, ?_⟩
  rw [← Nat.succ_add_eq_add_succ] at hdepth
  exact Nat.le_trans hdepth (Nat.add_le_add_right hlt _)

/-- What is reached from a child is reached from its parent, which is not among it. -/
theorem reached_subset (hi : i < f.size) (hσ : σ ∈ (f.get i).kind.slots)
    (hj : .node j ∈ ((f.get i).value σ).nodes) : f.reached j ⊆ (f.reached i).erase i := by
  obtain ⟨_, -, hchild, hlt⟩ := hf.child hi hσ hj
  intro k hk
  obtain ⟨hk, hjk⟩ := mem_reached.1 hk
  refine Finset.mem_erase.2 ⟨?_, mem_reached.2 ⟨hk, (Below.self.child hσ hj).trans hjk⟩⟩
  rintro rfl
  exact absurd (hf.below_lt hchild.1 hjk).1 (Nat.not_le_of_lt hlt)

/-- From different children nothing is reached in common. -/
theorem reached_apart {m n : Nat} (hi : i < f.size) (ha : (f.idsOf i σ)[n]? = some a)
    (hb : (f.idsOf i τ)[m]? = some b) (hne : (σ, n) ≠ (τ, m)) :
    Disjoint (f.reached a) (f.reached b) := by
  obtain ⟨p, hp, ha⟩ := hf.mem_idsOf hi ha
  obtain ⟨q, hq, hb⟩ := hf.mem_idsOf hi hb
  have hσ := Kind.mem_slots_of_placement? hp
  have hτ := Kind.mem_slots_of_placement? hq
  refine Finset.disjoint_left.2 fun k hk hk' => ?_
  refine hf.siblings_apart hi hσ hτ (List.mem_of_getElem? ha) (List.mem_of_getElem? hb) ?_
    (mem_reached.1 hk).2 (mem_reached.1 hk').2
  rintro rfl
  obtain ⟨-, rfl, rfl⟩ := hf.place_unique hi hi hσ hτ ha hb
  exact hne rfl

/-- The tree at a node stands there. -/
theorem holds (hkeys : ∀ name ∈ keys, name ∈ (f.get i).kind.fields) (hi : i < f.size)
    (hdepth : f.size ≤ i + depth) : f.Holds (f.tree depth keys i) i (f.reached i) := by
  induction depth generalizing i keys with
  | zero => exact absurd hi (Nat.not_lt_of_le hdepth)
  | succ depth ih =>
    obtain ⟨hnames, es, mark, hextensions, -⟩ := hf.tidy i hi
    let part (σ : String) (n : Nat) : Finset NodeId := ((f.idsOf i σ)[n]?).elim ∅ f.reached
    refine .mk (f.idsOf i) part ⟨⟨rfl, hkeys, ⟨mark, ?_⟩, hnames, fun _ => rfl⟩,
      mem_reached.2 ⟨hi, .self⟩, fun j hj => (mem_reached.1 hj).1, fun σ hσ => ?_, fun σ hσ => ?_,
      fun σ n => ?_, fun σ n τ m hne => ?_⟩ fun σ n c j hc hj => ?_
    -- The extensions of the node are a mapping.
    · show (f.get i).extensions =
        .map (match (f.get i).extensions with | .map es _ => es | _ => []) mark
      rw [hextensions]
    -- Each slot holds the nodes that are listed for it.
    · obtain ⟨p, hp⟩ := Kind.exists_placement? hσ
      exact hf.shows hi hp
    · show (match (f.get i).kind.placement? σ with | some p => _ | none => _) = _
      cases hp : (f.get i).kind.placement? σ with
      | none => rfl
      | some p => exact absurd (Kind.mem_slots_of_placement? hp) hσ
    -- What is reached from a part is reached from the node.
    · show ((f.idsOf i σ)[n]?).elim ∅ f.reached ⊆ _
      cases hj : (f.idsOf i σ)[n]? with
      | none => exact Finset.empty_subset _
      | some j =>
        obtain ⟨p, hp, hmem⟩ := hf.mem_idsOf hi hj
        exact hf.reached_subset hi (Kind.mem_slots_of_placement? hp) (List.mem_of_getElem? hmem)
    -- Two parts have no node in common, since a node has one parent and one place below it.
    · show Disjoint (((f.idsOf i σ)[n]?).elim ∅ f.reached) (((f.idsOf i τ)[m]?).elim ∅ f.reached)
      cases ha : (f.idsOf i σ)[n]? with
      | none => exact Finset.disjoint_empty_left _
      | some a =>
        cases hb : (f.idsOf i τ)[m]? with
        | none => exact Finset.disjoint_empty_right _
        | some b => exact hf.reached_apart hi ha hb hne
    -- Each child stands for its own tree, one level less deep.
    · obtain ⟨p, hp, hmem⟩ := hf.mem_idsOf hi hj
      have hmem := List.mem_of_getElem? hmem
      obtain ⟨hlt, hle⟩ := hf.child_depth hi (Kind.mem_slots_of_placement? hp) hmem hdepth
      have hchild := (hf.formed.slots i trivial hi σ p hp).isChild hmem
      rw [hf.trees_eq hi hp, List.getElem?_map, hj] at hc
      obtain rfl : f.tree depth p.keys j = c := Option.some.inj hc
      show f.Holds _ j (((f.idsOf i σ)[n]?).elim ∅ f.reached)
      rw [hj]
      refine ih ?_ hlt hle
      rw [hchild.1.2.1]
      exact Kind.keys_subset_fields hp

end Consistent

/-! ### Content -/

/-- A forest in which all members of indexed slots that are reached from a node have texts for
    keys. -/
def TextKeys (f : Forest) (i : NodeId) : Prop :=
  ∀ a, f.Below i a → ∀ σ k key, (f.get a).kind.placement? σ = some (.keyed k key) →
    ∀ j, .node j ∈ ((f.get a).value σ).nodes → ∃ s : String, (f.get j).value key = .str s

/-- Entries that stand for nodes, each under the key of its node and with its content. -/
def Lists (f : Forest) (key : String) (xs : List Data) (es : Entries) : Prop :=
  List.Forall₂ (fun x e => ∃ (j : NodeId) (gs : Entries), x = .node j ∧
    e = ((f.get j).value key, .ofEntries gs) ∧ f.content j = .ok gs) xs es

/-- Keys below a child are texts, too. -/
theorem TextKeys.child (h : f.TextKeys i) (hσ : σ ∈ (f.get i).kind.slots)
    (hj : .node j ∈ ((f.get i).value σ).nodes) : f.TextKeys j :=
  fun a ha => h a ((Below.self.child hσ hj).trans ha)

/-- A field by which a tree is told from others shows a text as it is. -/
theorem field_tree {name : String} (hname : name ∈ keys) {s : String}
    (h : (f.get i).value name = .str s) : (f.tree (depth + 1) keys i).field name = .str s := by
  show Tree.told _ _ _ _ = _
  rw [Tree.told_of_key hname, h]
  rfl

/-- What is shown for a member of an indexed slot. -/
def memberEntry (f : Forest) (depth : Nat) (key : String) (j : NodeId) : Data × Data :=
  ((f.tree depth [key] j).field key, .ofEntries (f.tree depth [key] j).shown)

namespace Consistent

variable (hf : f.Consistent)

include hf

/-- The tree at a child is for the slot in which the child stands. -/
theorem isFor (hi : i < f.size) (hp : (f.get i).kind.placement? σ = some p)
    (hj : .node j ∈ ((f.get i).value σ).nodes) (hdepth : f.size ≤ i + (depth + 1))
    (htext : f.TextKeys i) : (f.tree depth p.keys j).IsFor p where
  kind := by
    rw [tree_kind]
    exact ((hf.formed.slots i trivial hi σ p hp).isChild hj).1.2.1
  keys := tree_keys ..
  text := by
    rintro k key rfl
    obtain ⟨s, hs⟩ := htext i .self σ k key hp j hj
    obtain ⟨hlt, hle⟩ := hf.child_depth hi (Kind.mem_slots_of_placement? hp) hj hdepth
    cases depth with
    | zero => exact absurd hlt (Nat.not_lt_of_le hle)
    | succ depth => exact ⟨s, field_tree (List.mem_singleton_self key) hs⟩

/-- A slot of the tree at a node holds what it is for. -/
theorem fits (hi : i < f.size) (hp : (f.get i).kind.placement? σ = some p)
    (hdepth : f.size ≤ i + (depth + 1)) (htext : f.TextKeys i) :
    ((f.tree (depth + 1) keys i).slot σ).Fits p := by
  have hfills := hf.formed.slots i trivial hi σ p hp
  have hfor : ∀ j : NodeId, .node j ∈ ((f.get i).value σ).nodes →
      (f.tree depth p.keys j).IsFor p := fun j hj => hf.isFor hi hp hj hdepth htext
  rw [slot_tree hp]
  generalize (f.get i).value σ = v at hfills hfor ⊢
  cases hfills with
  | unset => trivial
  | @flag k b => exact ⟨k, rfl⟩
  | child => exact ⟨rfl, hfor _ List.mem_cons_self⟩
  | list mark hlist hxs =>
    refine ⟨hlist, fun t ht => ?_⟩
    obtain ⟨j, hj, rfl⟩ := List.mem_map.1 ht
    obtain ⟨x, hx, hnode⟩ := List.mem_filterMap.1 hj
    obtain ⟨c, rfl, -⟩ := hxs x hx
    cases hnode
    exact hfor j hx

/-- The slots of the tree at a node hold what they are for. -/
theorem typed (hi : i < f.size) (hdepth : f.size ≤ i + depth) (htext : f.TextKeys i) :
    (f.tree depth keys i).All Tree.Typed := by
  induction depth generalizing i keys with
  | zero => exact absurd hi (Nat.not_lt_of_le hdepth)
  | succ depth ih =>
    refine .mk (fun σ p hp => ?_) fun σ c hc => ?_
    · rw [tree_kind] at hp
      exact hf.fits hi hp hdepth htext
    · cases hp : (f.get i).kind.placement? σ with
      | none =>
        have hslot : (f.tree (depth + 1) keys i).slot σ = .empty := by
          show (match (f.get i).kind.placement? σ with | some p => _ | none => _) = _
          rw [hp]
        rw [hslot] at hc
        exact absurd hc List.not_mem_nil
      | some p =>
        have hσ := Kind.mem_slots_of_placement? hp
        rw [hf.trees_eq hi hp] at hc
        obtain ⟨j, hj, rfl⟩ := List.mem_map.1 hc
        obtain ⟨n, hn⟩ := List.getElem?_of_mem hj
        obtain ⟨_, _, hmem⟩ := hf.mem_idsOf hi hn
        have hmem := List.mem_of_getElem? hmem
        obtain ⟨hlt, hle⟩ := hf.child_depth hi hσ hmem hdepth
        exact ih hlt hle (htext.child hσ hmem)

/-- The content of a node is what is shown of the tree there. -/
theorem content_tree (hkeys : ∀ name ∈ keys, name ∈ (f.get i).kind.fields) (hi : i < f.size)
    (hdepth : f.size ≤ i + depth) (htext : f.TextKeys i) :
    f.content i = .ok (f.tree depth keys i).shown :=
  (hf.holds hkeys hi hdepth).content_eq (hf.typed hi hdepth htext)

/-- What the content shows for a member of an indexed slot. -/
theorem memberEntry_spec {k : Kind} {key : String} (hi : i < f.size)
    (hp : (f.get i).kind.placement? σ = some (.keyed k key))
    (hj : .node j ∈ ((f.get i).value σ).nodes) (hdepth : f.size ≤ i + (depth + 1))
    (htext : f.TextKeys i) : ∃ (s : String) (gs : Entries), (f.get j).value key = .str s ∧
      f.memberEntry depth key j = (.str s, .ofEntries gs) ∧ f.content j = .ok gs := by
  have hσ := Kind.mem_slots_of_placement? hp
  obtain ⟨hlt, hle⟩ := hf.child_depth hi hσ hj hdepth
  obtain ⟨s, hs⟩ := htext i .self σ k key hp j hj
  have hkey : ∀ name ∈ [key], name ∈ (f.get j).kind.fields := by
    intro name hname
    rw [((hf.formed.slots i trivial hi σ _ hp).isChild hj).1.2.1]
    exact Kind.keys_subset_fields hp name hname
  refine ⟨s, (f.tree depth [key] j).shown, hs, ?_,
    hf.content_tree hkey hlt hle (htext.child hσ hj)⟩
  cases depth with
  | zero => exact absurd hlt (Nat.not_lt_of_le hle)
  | succ depth => rw [memberEntry, field_tree (List.mem_singleton_self key) hs]

/-- The members of an indexed slot are shown under different keys. -/
theorem memberEntries_distinct {k : Kind} {key : String} (hi : i < f.size)
    (hp : (f.get i).kind.placement? σ = some (.keyed k key)) (hdepth : f.size ≤ i + (depth + 1))
    (htext : f.TextKeys i) :
    Entries.Distinct ((f.idsOf i σ).map (f.memberEntry depth key)) := by
  have hnodes := hf.nodes_eq hi hp
  have hentry : ∀ j ∈ f.idsOf i σ, ∃ (s : String) (gs : Entries), (f.get j).value key = .str s ∧
      f.memberEntry depth key j = (.str s, .ofEntries gs) ∧ f.content j = .ok gs :=
    fun j hj => hf.memberEntry_spec hi hp (hnodes ▸ List.mem_map_of_mem hj) hdepth htext
  refine ⟨fun e he => ?_, ?_⟩
  · obtain ⟨j, hj, rfl⟩ := List.mem_map.1 he
    obtain ⟨s, gs, -, hj, -⟩ := hentry j hj
    exact ⟨s, by rw [hj]⟩
  · have hapart := hf.unambiguous i trivial hi σ k key hp
    rw [hnodes] at hapart
    refine List.pairwise_map.2 ((List.pairwise_map.1 hapart).imp_of_mem fun {a b} ha hb hab => ?_)
    obtain ⟨s, gs, hs, ha, -⟩ := hentry a ha
    obtain ⟨s', gs', hs', hb, -⟩ := hentry b hb
    have hdiffer := hab a b rfl rfl
    rw [ha, hb]
    rintro ⟨⟩
    rw [hs, hs', Data.identical_str_iff.2 rfl] at hdiffer
    cases hdiffer

/-- The members of indexed slots are shown under their keys, each with an entry of its own. -/
theorem content_lists (hi : i < f.size) (htext : f.TextKeys i) : ∃ es : Entries,
    f.content i = .ok es ∧ ∀ σ k key, (f.get i).kind.placement? σ = some (.keyed k key) →
      ∀ xs mark, (f.get i).value σ = .list xs mark →
        ∃ fs : Entries, es.text? (wireName σ) = some (.ofEntries fs) ∧ f.Lists key xs fs := by
  obtain ⟨n, hn⟩ : ∃ n, f.size = n + 1 :=
    Nat.exists_eq_succ_of_ne_zero (Nat.ne_of_gt (Nat.lt_of_le_of_lt (Nat.zero_le i) hi))
  have hdepth : f.size ≤ i + (n + 1) := hn ▸ Nat.le_add_left _ _
  refine ⟨(f.tree (n + 1) [] i).shown,
    hf.content_tree (fun _ h => absurd h List.not_mem_nil) hi hdepth htext,
    fun σ k key hp xs mark hvalue => ⟨(f.idsOf i σ).map (f.memberEntry n key), ?_, ?_⟩⟩
  -- The entries of the slot are listed in the order of its members.
  · obtain ⟨-, es, mark', he, hextensions⟩ := hf.tidy i hi
    have htree : (f.tree (n + 1) [] i).extensions.AreExtensions := by
      show Entries.AreExtensions (match (f.get i).extensions with | .map es _ => es | _ => [])
      rw [he]
      exact hextensions
    have hids := idsOf_eq hp
    rw [hvalue] at hids
    rw [Tree.text?_shown_slot htree (by rw [tree_kind]; exact hp), slot_tree hp, hvalue]
    show Tree.shownSlot _ (.members _) = _
    have hentries := Entries.ofPairs_eq (hf.memberEntries_distinct hi hp hdepth htext)
    rw [hids] at hentries ⊢
    rw [Tree.shownSlot_members, List.map_map]
    exact congrArg (fun es => some (Data.ofEntries es)) hentries
  -- The members of the slot and their entries go in pairs.
  · have hxs : xs = (f.idsOf i σ).map Data.node := by
      rw [← hf.nodes_eq hi hp, hvalue]
      rfl
    rw [hxs]
    refine List.forall₂_map_left_iff.2 (List.forall₂_map_right_iff.2 (List.forall₂_same.2 ?_))
    intro j hj
    have hmem : .node j ∈ ((f.get i).value σ).nodes := by
      rw [hvalue]
      exact hxs ▸ List.mem_map_of_mem hj
    obtain ⟨s, gs, hs, hentry, hcontent⟩ := hf.memberEntry_spec hi hp hmem hdepth htext
    exact ⟨j, gs, rfl, by rw [hentry, hs], hcontent⟩

end Consistent

end Forest

end ApiDoc
