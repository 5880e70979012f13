import Mathlib.Data.Finset.Card
import Mathlib.Order.Interval.Finset.Nat
import ApiDoc.Proofs.Tree.Merge

namespace ApiDoc

/-!
# Trees that stand in a forest

Nodes refer to each other by number. A tree stands at a node if the nodes that are reached from
there look as the tree does, and none is reached twice.

* `Node.Matches` — a node that looks as the root of a tree does;
* `Forest.Holds` — a tree that stands at a node, within a set of nodes that are its own;
* `Holds.frame` — a tree stands where it stood while its nodes stay;
* `Holds.focus` — a child of a tree, and the tree that stands there once the child has changed;
* `Holds.touch`, `Holds.addChild` — the root changed, and a child added;
* `Holds.contentIn_eq` — the content of a node is what is shown of the tree that stands there.
-/

/-! ### Values of nodes -/

namespace Node

/-- Under the name that a value is put under stands the value. -/
theorem lookup_put {values : List (String × Data)} (h : (values.map (·.1)).Nodup) (name : String)
    (v : Data) : ((put name v values).lookup name).getD .unset = v := by
  induction values with
  | nil =>
    unfold put
    split
    · rename_i hv
      exact (Data.isUnset_iff.1 hv).symm
    · simp
  | cons p rest ih =>
    obtain ⟨m, w⟩ := p
    have hm : m ∉ rest.map (·.1) := (List.nodup_cons.1 h).1
    unfold put
    split
    · rename_i he
      obtain rfl : m = name := by simpa using he
      split
      · -- The name stands nowhere else.
        rename_i hv
        have hnone : rest.lookup m = none := by
          rw [List.lookup_eq_none_iff]
          intro q hq
          have hne : m ≠ q.1 := by
            rintro rfl
            exact hm (List.mem_map_of_mem hq)
          simpa using hne
        rw [hnone]
        exact (Data.isUnset_iff.1 hv).symm
      · simp
    · rename_i he
      have hne : (name == m) = false := by
        rw [beq_eq_false_iff_ne]
        rintro rfl
        exact he (beq_self_eq_true _)
      rw [List.lookup_cons, hne]
      exact ih (List.nodup_cons.1 h).2

/-- Where no name stands twice, a value set stands under its name, whatever it is. -/
theorem value_putValue {n : Node} (h : (n.values.map (·.1)).Nodup) (name other : String)
    (v : Data) : (n.putValue name v).value other = if other = name then v else n.value other := by
  split
  · rename_i he
    subst he
    exact lookup_put h other v
  · rename_i hne
    exact n.value_putValue_of_ne hne v

/-- Putting a value adds no name but its own. -/
theorem names_put_subset (name : String) (v : Data) (values : List (String × Data)) :
    ∀ m ∈ (put name v values).map (·.1), m = name ∨ m ∈ values.map (·.1) := by
  induction values with
  | nil =>
    unfold put
    split <;> simp
  | cons p rest ih =>
    obtain ⟨m, w⟩ := p
    unfold put
    split
    · split
      · exact fun m hm => .inr (List.mem_cons_of_mem _ hm)
      · rintro m (_ | ⟨_, hm⟩)
        · exact .inl rfl
        · exact .inr (List.mem_cons_of_mem _ hm)
    · rintro m' (_ | ⟨_, hm⟩)
      · exact .inr List.mem_cons_self
      · exact (ih m' hm).imp_right (List.mem_cons_of_mem _)

/-- Names of values stay distinct. -/
theorem names_putValue {n : Node} (h : (n.values.map (·.1)).Nodup) (name : String) (v : Data) :
    ((n.putValue name v).values.map (·.1)).Nodup := by
  suffices hput : ∀ values : List (String × Data), (values.map (·.1)).Nodup →
      ((put name v values).map (·.1)).Nodup from hput _ h
  intro values hvalues
  induction values with
  | nil =>
    unfold put
    split <;> simp
  | cons p rest ih =>
    obtain ⟨m, w⟩ := p
    obtain ⟨hm, hrest⟩ := List.nodup_cons.1 hvalues
    unfold put
    split
    · rename_i he
      obtain rfl : m = name := by simpa using he
      split
      · exact hrest
      · exact List.nodup_cons.2 ⟨hm, hrest⟩
    · rename_i he
      refine List.nodup_cons.2 ⟨fun hmem => ?_, ih hrest⟩
      rcases names_put_subset name v rest m hmem with rfl | hmem
      · exact he (beq_self_eq_true _)
      · exact hm hmem

/-! ### Roots -/

/-- A node that looks as the root of a tree does. -/
structure Matches (n : Node) (t : Tree) : Prop where
  kind : n.kind = t.kind
  keys : ∀ name ∈ t.keys, name ∈ t.kind.fields
  extensions : ∃ mark, n.extensions = .map t.extensions mark
  names : (n.values.map (·.1)).Nodup
  field : ∀ name, t.field name = Tree.told t.kind t.keys name (n.value name)

namespace Matches

variable {n : Node} {t : Tree}

/-- A value set under any name. -/
theorem put (h : n.Matches t) (name : String) (v : Data) :
    (n.putValue name v).Matches (t.put name v) where
  kind := h.kind
  keys := h.keys
  extensions := h.extensions
  names := names_putValue h.names name v
  field other := by
    rw [value_putValue h.names]
    show (if other = name then _ else _) = _
    split
    · rename_i he
      rw [he]
      rfl
    · exact h.field other

/-- A tree keeps nothing of a slot among its fields. -/
theorem told_slot (h : n.Matches t) {σ : String} (hσ : σ ∈ t.kind.slots) (v : Data) :
    Tree.told t.kind t.keys σ v = .unset := by
  have hfield : σ ∉ t.kind.fields := fun hf => t.kind.field_notMem_slots σ hf hσ
  have hkeys : σ ∉ t.keys := fun hk => hfield (h.keys σ hk)
  have hshown : σ ∉ t.kind.shownFields := fun hs => hfield (List.mem_filter.1 hs).1
  rw [Tree.told, if_neg hkeys, if_neg hshown]

/-- Something put into a slot. -/
theorem putSlot (h : n.Matches t) {σ : String} (hσ : σ ∈ t.kind.slots) (v : Data)
    (s : Slot Tree) : (n.putValue σ v).Matches (t.setSlot σ s) where
  kind := h.kind
  keys := h.keys
  extensions := h.extensions
  names := names_putValue h.names σ v
  field other := by
    rw [value_putValue h.names]
    split
    · rename_i he
      subst he
      exact (h.field other).trans ((h.told_slot hσ _).trans (h.told_slot hσ _).symm)
    · exact h.field other

/-- The extensions replaced. -/
theorem setExtensions (h : n.Matches t) (es : Entries) (mark : Nat) :
    ({ n with extensions := .map es mark } : Node).Matches { t with extensions := es } where
  kind := h.kind
  keys := h.keys
  extensions := ⟨mark, rfl⟩
  names := h.names
  field := h.field

/-- A new node. -/
theorem fresh {k : Kind} {keys : List String} (hkeys : ∀ name ∈ keys, name ∈ k.fields)
    (parent : Data) : ({ kind := k, parent := parent } : Node).Matches (Tree.fresh k keys) where
  kind := rfl
  keys := hkeys
  extensions := ⟨0, rfl⟩
  names := List.nodup_nil
  field name := by
    show Data.unset = Tree.told k keys name .unset
    unfold Tree.told
    split
    · rfl
    · split <;> rfl

/-- A node and a tree still match after the same fields are set. -/
theorem putFields (h : n.Matches t) (fields : Entries) :
    (n.putFields fields).Matches (t.putFields fields) := by
  induction fields generalizing n t with
  | nil => exact h
  | cons e fields ih => exact ih (h.put _ _)

end Matches

end Node

/-! ### Slots -/

/-- One more element behind the first ones of a list. -/
theorem getElem?_take_concat {α : Type} {l : List α} {m : Nat} (hm : m ≤ l.length) (x : α)
    (k : Nat) : (l.take m ++ [x])[k]? = if k < m then l[k]? else if k = m then some x else none := by
  have htake : (l.take m).length = m := List.length_take_of_le hm
  split
  · rename_i hk
    rw [List.getElem?_append_left (by omega), List.getElem?_take_of_lt hk]
  · rw [List.getElem?_append_right (by omega), htake]
    split
    · rename_i hk
      rw [hk, Nat.sub_self]
      rfl
    · rw [List.getElem?_eq_none]
      rw [List.length_singleton]
      omega

/-- The nodes that a value holds. -/
def Data.nodes : Data → List Data
  | .node j => [.node j]
  | .list xs _ => xs
  | _ => []

namespace Slot

/-- A value that shows what stands in a slot, the children by their numbers. -/
def Shows : Slot Tree → List NodeId → Data → Prop
  | .empty, js, v => js = [] ∧ v = .unset
  | .flag b, js, v => js = [] ∧ v = .bool b
  | .child _, js, v => ∃ j, js = [j] ∧ v = .node j
  | .members ts, js, v => js.length = ts.length ∧ ∃ mark, v = .list (js.map Data.node) mark

variable {s : Slot Tree} {js : List NodeId} {v : Data}

/-- The nodes in a slot are those of its children. -/
theorem Shows.nodes (h : s.Shows js v) : v.nodes = js.map Data.node := by
  cases s with
  | empty => obtain ⟨rfl, rfl⟩ := h; rfl
  | flag b => obtain ⟨rfl, rfl⟩ := h; rfl
  | child t => obtain ⟨j, rfl, rfl⟩ := h; rfl
  | members ts => obtain ⟨-, mark, rfl⟩ := h; rfl

/-- A slot has as many nodes as children. -/
theorem Shows.length (h : s.Shows js v) : js.length = s.trees.length := by
  cases s with
  | empty => obtain ⟨rfl, -⟩ := h; rfl
  | flag b => obtain ⟨rfl, -⟩ := h; rfl
  | child t => obtain ⟨j, rfl, -⟩ := h; rfl
  | members ts => exact h.1

/-- The slot with one of its children replaced. -/
def set (s : Slot Tree) (n : Nat) (c : Tree) : Slot Tree :=
  match s, n with
  | .child _, 0 => .child c
  | .members ts, n => .members (ts.set n c)
  | s, _ => s

/-- One of the children replaced. -/
theorem trees_set (s : Slot Tree) (n : Nat) (c : Tree) : (s.set n c).trees = s.trees.set n c := by
  cases s with
  | empty => simp [set, trees]
  | flag b => simp [set, trees]
  | child t => cases n <;> rfl
  | members ts => rfl

/-- What a slot holds is the same when a child becomes another tree. -/
theorem Shows.set (h : s.Shows js v) (n : Nat) (c : Tree) : (s.set n c).Shows js v := by
  cases s with
  | empty => exact h
  | flag b => exact h
  | child t => cases n <;> exact h
  | members ts => exact ⟨by rw [h.1, List.length_set], h.2⟩

end Slot

namespace Forest

/-! ### Forests that grow -/

/-- The numbers of the nodes that one forest has and another does not. -/
def newIds (f g : Forest) : Finset NodeId := Finset.Ico f.size g.size

/-- A forest in which some nodes are changed, and nodes added. -/
structure Grows (f : Forest) (A : Finset NodeId) (g : Forest) : Prop where
  size_le : f.size ≤ g.size
  get_eq : ∀ j < f.size, j ∉ A → g.get j = f.get j

variable {f g h : Forest} {A B : Finset NodeId} {i j : NodeId} {t : Tree}

/-- The new nodes are those behind the last one of before. -/
theorem mem_newIds : j ∈ newIds f g ↔ f.size ≤ j ∧ j < g.size := Finset.mem_Ico

/-- Without a change there are no new nodes. -/
theorem newIds_self (f : Forest) : newIds f f = ∅ := Finset.Ico_self _

/-- The new nodes of two changes are those of both. -/
theorem newIds_trans (hfg : f.size ≤ g.size) (hgh : g.size ≤ h.size) :
    newIds f g ∪ newIds g h = newIds f h :=
  Finset.Ico_union_Ico_eq_Ico hfg hgh

namespace Grows

/-- A forest grows into itself. -/
theorem refl (f : Forest) (A : Finset NodeId) : f.Grows A f := ⟨Nat.le_refl _, fun _ _ _ => rfl⟩

/-- More nodes may change. -/
theorem mono (hfg : f.Grows A g) (hAB : A ⊆ B) : f.Grows B g :=
  ⟨hfg.size_le, fun j hj hB => hfg.get_eq j hj fun hA => hB (hAB hA)⟩

/-- A second change may touch what is new after the first. -/
theorem trans (hfg : f.Grows A g) (hgh : g.Grows (A ∪ newIds f g) h) : f.Grows A h where
  size_le := Nat.le_trans hfg.size_le hgh.size_le
  get_eq j hj hA := by
    rw [hgh.get_eq j (Nat.lt_of_lt_of_le hj hfg.size_le), hfg.get_eq j hj hA]
    -- A node that was there before is not among the new ones.
    rw [Finset.mem_union, mem_newIds]
    rintro (hmem | ⟨hle, -⟩)
    · exact hA hmem
    · exact absurd hj (Nat.not_lt.2 hle)

end Grows

/-! ### Standing trees -/

/-- A tree whose root stands at a node. Each child has nodes of its own within those of the
    tree. -/
structure Stands (f : Forest) (t : Tree) (i : NodeId) (A : Finset NodeId)
    (ids : String → List NodeId) (part : String → Nat → Finset NodeId) : Prop where
  root : (f.get i).Matches t
  mem : i ∈ A
  bound : ∀ j ∈ A, j < f.size
  slots : ∀ σ ∈ t.kind.slots, (t.slot σ).Shows (ids σ) ((f.get i).value σ)
  others : ∀ σ, σ ∉ t.kind.slots → t.slot σ = .empty
  part_subset : ∀ σ n, part σ n ⊆ A.erase i
  apart : ∀ σ n τ m, (σ, n) ≠ (τ, m) → Disjoint (part σ n) (part τ m)

/-- A tree that stands at a node, within a set of nodes that are its own. -/
inductive Holds (f : Forest) : Tree → NodeId → Finset NodeId → Prop
  | mk {t : Tree} {i : NodeId} {A : Finset NodeId} (ids : String → List NodeId)
      (part : String → Nat → Finset NodeId) (own : f.Stands t i A ids part)
      (children : ∀ σ n c j, (t.slot σ).trees[n]? = some c → (ids σ)[n]? = some j →
        f.Holds c j (part σ n)) : f.Holds t i A

namespace Holds

/-- A node that holds a tree matches its root. -/
theorem root (hf : f.Holds t i A) : (f.get i).Matches t := by
  cases hf with
  | mk _ _ own _ => exact own.root

/-- The root is among the nodes of the tree. -/
theorem mem (hf : f.Holds t i A) : i ∈ A := by
  cases hf with
  | mk _ _ own _ => exact own.mem

/-- The nodes of the tree are nodes of the forest. -/
theorem bound (hf : f.Holds t i A) : ∀ j ∈ A, j < f.size := by
  cases hf with
  | mk _ _ own _ => exact own.bound

/-- The root is a node of the forest. -/
theorem lt_size (hf : f.Holds t i A) : i < f.size := hf.bound i hf.mem

/-- The root is of the kind of the tree. -/
theorem kind (hf : f.Holds t i A) : (f.get i).kind = t.kind := hf.root.kind

/-- A tree stands where it stood while its nodes stay. -/
theorem frame (hf : f.Holds t i A) (hsize : f.size ≤ g.size)
    (hA : ∀ j ∈ A, g.get j = f.get j) : g.Holds t i A := by
  induction hf with
  | mk ids part own _ ih =>
    have hroot := hA _ own.mem
    refine .mk ids part ⟨?_, own.mem, ?_, ?_, own.others, own.part_subset, own.apart⟩ ?_
    · rw [hroot]
      exact own.root
    · exact fun j hj => Nat.lt_of_lt_of_le (own.bound j hj) hsize
    · rw [hroot]
      exact own.slots
    · intro σ n c j hc hj
      exact ih σ n c j hc hj fun k hk => hA k (Finset.mem_of_mem_erase (own.part_subset σ n hk))

/-- A tree stands where it stood while only other nodes change. -/
theorem grows (hf : f.Holds t i A) (hfg : f.Grows B g) (hAB : Disjoint A B) : g.Holds t i A :=
  hf.frame hfg.size_le fun j hj =>
    hfg.get_eq j (hf.bound j hj) fun hB => Finset.disjoint_left.1 hAB hj hB

end Holds

/-! ### Slots changed -/

namespace Stands

variable {ids : String → List NodeId} {part : String → Nat → Finset NodeId} {σ : String} {n : Nat}
  {P : Finset NodeId}

/-- The nodes below a child are nodes of the forest. -/
theorem part_lt (own : f.Stands t i A ids part) (hj : j ∈ part σ n) : j < f.size :=
  own.bound j (Finset.mem_of_mem_erase (own.part_subset σ n hj))

/-- The nodes below a child are none of the new ones. -/
theorem disjoint_newIds (own : f.Stands t i A ids part) (σ : String) (n : Nat) (g : Forest) :
    Disjoint (part σ n) (newIds f g) := by
  rw [Finset.disjoint_left]
  intro j hj hnew
  exact absurd (own.part_lt hj) (Nat.not_lt.2 (mem_newIds.1 hnew).1)

/-- The nodes of all children, where one child has others now. -/
def reassign (part : String → Nat → Finset NodeId) (σ : String) (n : Nat) (P : Finset NodeId) :
    String → Nat → Finset NodeId :=
  fun τ m => if (τ, m) = (σ, n) then P else part τ m

/-- The child concerned has the nodes given to it. -/
theorem reassign_self : reassign part σ n P σ n = P := if_pos rfl

/-- All other children keep their nodes. -/
theorem reassign_of_ne {τ : String} {m : Nat} (h : (τ, m) ≠ (σ, n)) :
    reassign part σ n P τ m = part τ m := if_neg h

/-- The nodes below children are those of before or new ones, and never the root. -/
theorem reassign_subset (own : f.Stands t i A ids part) (hP : P ⊆ part σ n ∪ newIds f g)
    (τ : String) (m : Nat) : reassign part σ n P τ m ⊆ (A ∪ newIds f g).erase i := by
  have hkeep : ∀ τ m, part τ m ⊆ (A ∪ newIds f g).erase i := fun τ m =>
    (own.part_subset τ m).trans (Finset.erase_subset_erase i Finset.subset_union_left)
  by_cases he : (τ, m) = (σ, n)
  · cases he
    rw [reassign_self]
    refine hP.trans (Finset.union_subset (hkeep σ n) fun j hj => ?_)
    refine Finset.mem_erase.2 ⟨?_, Finset.mem_union_right _ hj⟩
    rintro rfl
    exact absurd (own.bound j own.mem) (Nat.not_lt.2 (mem_newIds.1 hj).1)
  · rw [reassign_of_ne he]
    exact hkeep τ m

/-- The nodes below two children stay apart. -/
theorem reassign_apart (own : f.Stands t i A ids part) (hP : P ⊆ part σ n ∪ newIds f g)
    (τ : String) (m : Nat) (ρ : String) (k : Nat) (hne : (τ, m) ≠ (ρ, k)) :
    Disjoint (reassign part σ n P τ m) (reassign part σ n P ρ k) := by
  have hother : ∀ τ m, (τ, m) ≠ (σ, n) → Disjoint P (part τ m) := fun τ m h =>
    Disjoint.mono_left hP (Finset.disjoint_union_left.2
      ⟨own.apart σ n τ m h.symm, (own.disjoint_newIds τ m g).symm⟩)
  by_cases hτ : (τ, m) = (σ, n)
  · cases hτ
    rw [reassign_self, reassign_of_ne hne.symm]
    exact hother ρ k hne.symm
  · rw [reassign_of_ne hτ]
    by_cases hρ : (ρ, k) = (σ, n)
    · cases hρ
      rw [reassign_self]
      exact (hother τ m hτ).symm
    · rw [reassign_of_ne hρ]
      exact own.apart τ m ρ k hne

/-- A tree with another root, and with another child in one slot. That child keeps to its nodes
    and to some new ones. -/
theorem rebuild (own : f.Stands t i A ids part)
    (children : ∀ σ n c j, (t.slot σ).trees[n]? = some c → (ids σ)[n]? = some j →
      f.Holds c j (part σ n))
    {u : Tree} (js : List NodeId) (hfg : f.size ≤ g.size) (hσ : σ ∈ t.kind.slots)
    (hroot : (g.get i).Matches u) (hkind : u.kind = t.kind)
    (hslot : ∀ τ, τ ≠ σ → u.slot τ = t.slot τ ∧ (g.get i).value τ = (f.get i).value τ)
    (hshows : (u.slot σ).Shows js ((g.get i).value σ)) (hP : P ⊆ part σ n ∪ newIds f g)
    (hframe : ∀ τ m, (τ, m) ≠ (σ, n) → ∀ j ∈ part τ m, g.get j = f.get j)
    (hchild : ∀ c j, (u.slot σ).trees[n]? = some c → js[n]? = some j → g.Holds c j P)
    (hothers : ∀ m, m ≠ n → ∀ c j, (u.slot σ).trees[m]? = some c → js[m]? = some j →
      (t.slot σ).trees[m]? = some c ∧ (ids σ)[m]? = some j) :
    g.Holds u i (A ∪ newIds f g) := by
  refine .mk (fun τ => if τ = σ then js else ids τ) (reassign part σ n P)
    ⟨hroot, Finset.mem_union_left _ own.mem, fun j hj => ?_, fun τ hτ => ?_, fun τ hτ => ?_,
      own.reassign_subset hP, own.reassign_apart hP⟩ fun τ m c j hc hj => ?_
  · rcases Finset.mem_union.1 hj with hj | hj
    · exact Nat.lt_of_lt_of_le (own.bound j hj) hfg
    · exact (mem_newIds.1 hj).2
  · rw [hkind] at hτ
    by_cases he : τ = σ
    · subst he
      simpa using hshows
    · obtain ⟨hu, hvalue⟩ := hslot τ he
      rw [if_neg he, hu, hvalue]
      exact own.slots τ hτ
  · rw [hkind] at hτ
    have hne : τ ≠ σ := fun he => hτ (he ▸ hσ)
    rw [(hslot τ hne).1]
    exact own.others τ hτ
  · by_cases he : (τ, m) = (σ, n)
    · cases he
      rw [if_pos rfl] at hj
      rw [reassign_self]
      exact hchild c j hc hj
    · -- All other children are the same as before, and stand where they stood.
      rw [reassign_of_ne he]
      suffices hold : (t.slot τ).trees[m]? = some c ∧ (ids τ)[m]? = some j from
        (children τ m c j hold.1 hold.2).frame hfg (hframe τ m he)
      by_cases hτ : τ = σ
      · subst hτ
        rw [if_pos rfl] at hj
        exact hothers m (fun hm => he (by rw [hm])) c j hc hj
      · rw [if_neg hτ] at hj
        rw [(hslot τ hτ).1] at hc
        exact ⟨hc, hj⟩

end Stands

namespace Holds

/-- A child of a tree stands at a node of its own, and when it has changed there, so has the
    tree. -/
theorem focus (hf : f.Holds t i A) {σ : String} {n : Nat} {c : Tree}
    (hc : (t.slot σ).trees[n]? = some c) (hj : ((f.get i).value σ).nodes[n]? = some (.node j)) :
    ∃ P ⊆ A, f.Holds c j P ∧ ∀ g c', f.Grows P g → g.Holds c' j (P ∪ newIds f g) →
      g.Holds (t.setSlot σ ((t.slot σ).set n c')) i (A ∪ newIds f g) := by
  cases hf with
  | mk ids part own children =>
    have hσ : σ ∈ t.kind.slots := by
      refine Classical.byContradiction fun hσ => ?_
      rw [own.others σ hσ] at hc
      simp [Slot.trees] at hc
    have hshows := own.slots σ hσ
    have hid : (ids σ)[n]? = some j := by
      rw [hshows.nodes, List.getElem?_map] at hj
      obtain ⟨j', hj', he⟩ := Option.map_eq_some_iff.1 hj
      cases he
      exact hj'
    have hsubset : part σ n ⊆ A := fun k hk => Finset.mem_of_mem_erase (own.part_subset σ n hk)
    refine ⟨part σ n, hsubset, children σ n c j hc hid, fun g c' hfg hc' => ?_⟩
    have hi : i ∉ part σ n := fun hmem => absurd rfl (Finset.mem_erase.1 (own.part_subset σ n hmem)).1
    have hroot : g.get i = f.get i := hfg.get_eq i (own.bound i own.mem) hi
    have hslot : (t.setSlot σ ((t.slot σ).set n c')).slot σ = (t.slot σ).set n c' :=
      Tree.setSlot_slot_self ..
    refine own.rebuild children (ids σ) hfg.size_le hσ ?_ rfl (fun τ hτ => ?_) ?_ (P :=
      part σ n ∪ newIds f g) (n := n) (Finset.Subset.refl _) (fun τ m hne k hk => ?_)
      (fun c'' j' hc'' hj' => ?_) fun m hm c'' j' hc'' hj' => ?_
    · rw [hroot]
      exact ⟨own.root.kind, own.root.keys, own.root.extensions, own.root.names, own.root.field⟩
    · exact ⟨if_neg hτ, by rw [hroot]⟩
    · rw [hroot, hslot]
      exact hshows.set n c'
    · -- Nodes of other children are not among those that have changed.
      exact hfg.get_eq k (own.part_lt hk) (Finset.disjoint_left.1 (own.apart τ m σ n hne) hk)
    · rw [hslot, Slot.trees_set, List.getElem?_set_self (List.getElem?_eq_some_iff.1 hc).1] at hc''
      rw [hid] at hj'
      cases hc''
      cases hj'
      exact hc'
    · rw [hslot, Slot.trees_set, List.getElem?_set_ne (Ne.symm hm)] at hc''
      exact ⟨hc'', hj'⟩

/-- The root of a tree replaced by one whose slots hold the same. -/
theorem touch (hf : f.Holds t i A) {n : Node} {u : Tree} (hroot : n.Matches u)
    (hkind : u.kind = t.kind) (hslot : u.slot = t.slot)
    (hvalue : ∀ σ ∈ t.kind.slots, n.value σ = (f.get i).value σ) : (f.put i n).Holds u i A := by
  cases hf with
  | mk ids part own children =>
    have hi := own.bound i own.mem
    have hget : (f.put i n).get i = n := f.get_put_self hi n
    refine .mk ids part ⟨?_, own.mem, ?_, ?_, ?_, own.part_subset, own.apart⟩ ?_
    · rw [hget]
      exact hroot
    · rw [size_put]
      exact own.bound
    · intro σ hσ
      rw [hkind] at hσ
      rw [hget, hslot, hvalue σ hσ]
      exact own.slots σ hσ
    · intro σ hσ
      rw [hkind] at hσ
      rw [hslot]
      exact own.others σ hσ
    · intro σ m c j hc hj
      rw [hslot] at hc
      refine (children σ m c j hc hj).frame (by simp) fun k hk => ?_
      exact f.get_put_of_ne (Finset.mem_erase.1 (own.part_subset σ m hk)).1 n

/-- A node without children. -/
theorem leaf {n : Node} {c : Tree} (hn : n.Matches c)
    (hslots : ∀ σ ∈ c.kind.slots, n.value σ = .unset) (hc : c.slot = fun _ => .empty)
    (hi : i < f.size) (hget : f.get i = n) : f.Holds c i {i} := by
  refine .mk (fun _ => []) (fun _ _ => ∅) ⟨?_, Finset.mem_singleton_self i, ?_, ?_, ?_, ?_, ?_⟩ ?_
  · rw [hget]
    exact hn
  · intro j hj
    rw [Finset.mem_singleton.1 hj]
    exact hi
  · intro σ hσ
    rw [hc, hget]
    exact ⟨rfl, hslots σ hσ⟩
  · intro σ _
    rw [hc]
  · exact fun _ _ => Finset.empty_subset _
  · exact fun _ _ _ _ _ => Finset.disjoint_empty_left _
  · intro σ m c' j hc' _
    rw [hc] at hc'
    simp [Slot.trees] at hc'

/-- A child added behind some of the children in a slot. -/
theorem addChild (hf : f.Holds t i A) {σ : String} (hσ : σ ∈ t.kind.slots) {n : Node} {c : Tree}
    (hn : n.Matches c) (hslots : ∀ τ ∈ c.kind.slots, n.value τ = .unset)
    (hc : c.slot = fun _ => .empty) {s : Slot Tree} {v : Data} {m : Nat}
    (hm : m ≤ (t.slot σ).trees.length)
    (htrees : s.trees = (t.slot σ).trees.take m ++ [c])
    (hshows : ∀ js, (t.slot σ).Shows js ((f.get i).value σ) →
      s.Shows (js.take m ++ [f.size]) v) :
    ((f.add n).2.put i ((f.get i).putValue σ v)).Holds (t.setSlot σ s) i
      (A ∪ newIds f ((f.add n).2.put i ((f.get i).putValue σ v))) := by
  cases hf with
  | mk ids part own children =>
    have hi := own.bound i own.mem
    have hi' : i < (f.add n).2.size := by
      rw [size_add]
      exact Nat.lt_succ_of_lt hi
    have hget : ((f.add n).2.put i ((f.get i).putValue σ v)).get i = (f.get i).putValue σ v :=
      get_put_self _ hi' _
    have hkeep : ∀ k < f.size, k ≠ i →
        ((f.add n).2.put i ((f.get i).putValue σ v)).get k = f.get k := by
      intro k hk hne
      rw [get_put_of_ne _ hne, f.get_add_of_lt hk]
    have hnew : newIds f ((f.add n).2.put i ((f.get i).putValue σ v)) = {f.size} := by
      simp [newIds]
    have hlength := (own.slots σ hσ).length
    have hslot : (t.setSlot σ s).slot σ = s := Tree.setSlot_slot_self ..
    refine own.rebuild children ((ids σ).take m ++ [f.size]) (by simp) hσ ?_ rfl (fun τ hτ => ?_)
      ?_ (P := {f.size}) (n := m) ?_ (fun τ k _ j hj => ?_) (fun c' j hc' hj => ?_)
      fun k hk c' j hc' hj => ?_
    · rw [hget]
      exact own.root.putSlot hσ v s
    · refine ⟨if_neg hτ, ?_⟩
      rw [hget, Node.value_putValue own.root.names, if_neg hτ]
    · rw [hget, Node.value_putValue own.root.names, if_pos rfl, hslot]
      exact hshows _ (own.slots σ hσ)
    · rw [hnew]
      exact Finset.subset_union_right
    · have hmem := Finset.mem_erase.1 (own.part_subset τ k hj)
      exact hkeep j (own.bound j hmem.2) hmem.1
    · rw [hslot, htrees, getElem?_take_concat hm, if_neg (Nat.lt_irrefl m), if_pos rfl] at hc'
      rw [getElem?_take_concat (hlength ▸ hm), if_neg (Nat.lt_irrefl m), if_pos rfl] at hj
      cases hc'
      cases hj
      refine leaf hn hslots hc (by simp) ?_
      rw [get_put_of_ne _ (Nat.ne_of_lt hi).symm, f.get_add_self]
    · rw [hslot, htrees, getElem?_take_concat hm, if_neg hk] at hc'
      rw [getElem?_take_concat (hlength ▸ hm), if_neg hk] at hj
      by_cases hlt : k < m
      · rw [if_pos hlt] at hc' hj
        exact ⟨hc', hj⟩
      · rw [if_neg hlt] at hc'
        cases hc'

end Holds

end Forest

end ApiDoc
