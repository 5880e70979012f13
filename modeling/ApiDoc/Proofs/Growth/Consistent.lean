import ApiDoc.Proofs.Growth.Keys

namespace ApiDoc

/-!
# Consistent forests

What all nodes of a forest have in common that is built from new documents, one edit after the
other:

* `Forest.Ordered` — children have greater numbers than their parent, and members of a slot come
  in the order of their numbers;
* `Node.Tidy` — no name stands twice in a node, and its extensions are a mapping;
* `Forest.Consistent` — both for all nodes, slots that hold what they are for, and keys apart;
* `Steps.consistent` — steps that write no key keep a forest consistent;
* `Consistent.add`, `Consistent.remove` — new roots, and members taken out.
-/

open Forest

/-- Two nodes in the order of their numbers. -/
def Data.Before (x y : Data) : Prop := ∀ a b : NodeId, x = .node a → y = .node b → a < b

/-- A forest in which children come after their parent, and in the order of their numbers. -/
def Forest.Ordered (f : Forest) : Prop :=
  ∀ i < f.size, ∀ σ p, (f.get i).kind.placement? σ = some p →
    (Data.node i :: ((f.get i).value σ).nodes).Pairwise Data.Before

/-- A node in which no name stands twice, with a mapping of extensions. -/
structure Node.Tidy (n : Node) : Prop where
  names : (n.values.map (·.1)).Nodup
  extensions : ∃ (es : Entries) (mark : Nat), n.extensions = .map es mark ∧ es.AreExtensions

/-- A forest with nothing out of place. -/
structure Forest.Consistent (f : Forest) : Prop where
  formed : f.Formed fun _ => True
  unambiguous : f.Unambiguous fun _ => True
  ordered : f.Ordered
  tidy : ∀ i < f.size, (f.get i).Tidy

/-! ### Tidy nodes -/

namespace Node.Tidy

variable {S : Licence} {n m : Node}

/-- A tidy node stays so when a value is put. -/
theorem putValue (h : n.Tidy) (name : String) (v : Data) : (n.putValue name v).Tidy :=
  ⟨names_putValue h.names name v, h.extensions⟩

/-- It stays so when fields are set. -/
theorem putFields (h : n.Tidy) (fields : Entries) : (n.putFields fields).Tidy := by
  induction fields generalizing n with
  | nil => exact h
  | cons e fields ih => exact ih (h.putValue _ _)

/-- A fresh node is tidy. -/
theorem fresh (k : Kind) (parent : Data) : ({ kind := k, parent := parent } : Node).Tidy :=
  ⟨List.nodup_nil, [], 0, rfl, .nil, fun _ he => absurd he List.not_mem_nil⟩

/-- A tidy node stays so in a step. -/
theorem alters (h : n.Tidy) (hm : n.Alters S m) : m.Tidy := by
  cases hm with
  | field v => exact h.putValue _ v
  | grow => exact h.putValue _ _
  | @extension key es mark v hkey hes =>
    obtain ⟨es', mark', he, hextensions⟩ := h.extensions
    rw [hes] at he
    cases he
    have hinserted : (Tree.extend true es (.str key, v)).AreExtensions := hextensions.extend hkey
    exact ⟨h.names, _, mark, rfl, hinserted⟩
  | flag => exact h.putValue _ _
  | list => exact h.putValue _ _

end Node.Tidy

namespace Forest

variable {S : Licence} {f g : Forest} {i j : NodeId}

/-! ### Steps -/

/-- Children stay behind their parents. -/
theorem Step.ordered (hf : f.Formed fun _ => True) (ho : f.Ordered) (hstep : Step S f g) :
    g.Ordered := by
  intro j hj σ p hp
  cases hstep.gains hj hp with
  | none h =>
    rw [h]
    exact List.pairwise_singleton _ _
  | same hj hp h =>
    rw [h]
    exact ho j hj σ p hp
  | more hj hp h =>
    rw [h, ← List.cons_append]
    refine List.pairwise_append.2 ⟨ho j hj σ p hp, List.pairwise_singleton _ _, fun x hx y hy => ?_⟩
    cases List.mem_singleton.1 hy
    rintro a _ rfl ⟨⟩
    rcases List.mem_cons.1 hx with he | hx
    · cases he
      exact hj
    · exact ((hf.slots j trivial hj σ p hp).isChild hx).1.1

/-- Nodes stay tidy. -/
theorem Step.tidy (ht : ∀ i < f.size, (f.get i).Tidy) (hstep : Step S f g) :
    ∀ i < g.size, (g.get i).Tidy := by
  intro j hj
  by_cases hold : j < f.size
  · have hbecomes := hstep.becomes hold
    have hj := ht j hold
    generalize g.get j = m at hbecomes ⊢
    cases hbecomes with
    | same => exact hj
    | alter h => exact hj.alters h
    | attach => exact hj.putValue _ _
  · cases hstep with
    | alter =>
      rw [size_put] at hj
      exact absurd hj hold
    | attach hi hlt hp hfields ha =>
      rw [size_withChild] at hj
      obtain rfl : j = f.size := Nat.le_antisymm (Nat.le_of_lt_succ hj) (Nat.le_of_not_lt hold)
      rw [get_withChild_new hlt]
      exact (Node.Tidy.fresh _ _).putFields _

/-- A step that may write no key leaves a consistent forest. -/
theorem Step.consistent (hS : S.KeepsKeys) (hall : S.nodes = fun _ => True) (hf : f.Consistent)
    (hstep : Step S f g) : g.Consistent where
  formed := by
    have hformed := hf.formed
    rw [← hall] at hformed ⊢
    exact hstep.formed hformed
  unambiguous := by
    have hformed := hf.formed
    have hkeys := hf.unambiguous
    rw [← hall] at hformed hkeys ⊢
    exact hstep.unambiguous hS hformed hkeys
  ordered := hstep.ordered hf.formed hf.ordered
  tidy := hstep.tidy hf.tidy

/-- So does any number of such steps. -/
theorem Steps.consistent (hS : S.KeepsKeys) (hall : S.nodes = fun _ => True) (hf : f.Consistent)
    (hrun : Steps S f g) : g.Consistent :=
  (Steps.induct (R := fun _ _ => True) (fun _ => trivial) (fun _ _ _ _ _ => trivial)
    (fun _ _ h hstep => ⟨hstep.consistent hS hall h, trivial⟩) hf hrun).1

/-! ### Nodes added and members taken out -/

/-- A forest with all nodes of another and the same fields, in which slots have no other children
    than they had. -/
structure Retains (f g : Forest) : Prop where
  later : f.Later g
  fields : ∀ c < f.size, ∀ name ∈ (f.get c).kind.fields,
    (g.get c).value name = (f.get c).value name
  nodes : ∀ j < g.size, ∀ σ p, (g.get j).kind.placement? σ = some p →
    ((g.get j).value σ).nodes = [] ∨ j < f.size ∧ (f.get j).kind.placement? σ = some p ∧
      ((g.get j).value σ).nodes.Sublist ((f.get j).value σ).nodes

/-- A forest from which members were taken out stays consistent. -/
theorem Retains.consistent (hfg : f.Retains g) (hf : f.Consistent)
    (hformed : g.Formed fun _ => True) (htidy : ∀ i < g.size, (g.get i).Tidy) : g.Consistent where
  formed := hformed
  unambiguous := by
    intro j _ hj σ k key hp
    -- A slot holds part of what it held, so members that were apart stay apart.
    rcases hfg.nodes j hj σ _ hp with hnone | ⟨hj, hp, hsub⟩
    · rw [hnone]
      exact .nil
    · refine ((hf.unambiguous j trivial hj σ k key hp).imp_of_mem
        fun {x y} hx hy hxy => ?_).sublist hsub
      have hkey := (Kind.keyed_field hp).1
      -- The keys of the members that are left are as they were.
      have hsame : ∀ {c}, Data.node c ∈ ((f.get j).value σ).nodes →
          (g.get c).value key = (f.get c).value key := by
        intro c hc
        obtain ⟨hchild, -⟩ := (hf.formed.slots j trivial hj σ _ hp).isChild hc
        refine hfg.fields c hchild.1 key ?_
        rw [hchild.2.1]
        exact hkey
      rintro a b rfl rfl
      rw [hsame hx, hsame hy]
      exact hxy a b rfl rfl
  ordered := by
    intro j hj σ p hp
    rcases hfg.nodes j hj σ p hp with hnone | ⟨hj, hp, hsub⟩
    · rw [hnone]
      exact List.pairwise_singleton _ _
    · exact (hf.ordered j hj σ p hp).sublist (hsub.cons_cons _)
  tidy := htidy

/-- A new node without children. -/
theorem Consistent.add (hf : f.Consistent) {n : Node} (hn : n.Tidy)
    (hslots : ∀ σ ∈ n.kind.slots, n.value σ = .unset) : (f.add n).2.Consistent := by
  have hnew : (f.add n).2.get f.size = n := get_add_self ..
  have hsize : (f.add n).2.size = f.size + 1 := size_add ..
  have hlater : f.Later (f.add n).2 := by
    refine ⟨by rw [hsize]; exact Nat.le_succ _, fun j hj => ?_, fun j hj => ?_⟩
    · rw [get_add_of_lt _ hj]
    · rw [get_add_of_lt _ hj]
  -- A node of the new forest is one of the old, or has just come.
  have hcases : ∀ j < (f.add n).2.size, j < f.size ∧ (f.add n).2.get j = f.get j ∨
      (f.add n).2.get j = n := by
    intro j hj
    rw [hsize] at hj
    rcases Nat.lt_or_eq_of_le (Nat.le_of_lt_succ hj) with hlt | rfl
    · exact .inl ⟨hlt, get_add_of_lt _ hlt _⟩
    · exact .inr hnew
  refine Retains.consistent ⟨hlater, fun c hc name _ => ?_, fun j hj σ p hp => ?_⟩ hf
    ⟨fun _ _ => trivial, fun j _ hj σ p hp => ?_⟩ fun j hj => ?_
  · rw [get_add_of_lt _ hc]
  · rcases hcases j hj with ⟨hlt, he⟩ | he
    · rw [he] at hp ⊢
      exact .inr ⟨hlt, hp, List.Sublist.refl _⟩
    · rw [he] at hp ⊢
      exact .inl (by rw [hslots σ (Kind.mem_slots_of_placement? hp)]; rfl)
  · rcases hcases j hj with ⟨hlt, he⟩ | he
    · rw [he] at hp ⊢
      exact (hf.formed.slots j trivial hlt σ p hp).later hlater
    · rw [he] at hp ⊢
      rw [hslots σ (Kind.mem_slots_of_placement? hp)]
      exact .unset
  · rcases hcases j hj with ⟨hlt, he⟩ | he
    · rw [he]
      exact hf.tidy j hlt
    · rw [he]
      exact hn

/-- A node of the same kind and parent may be put in the place of another. -/
theorem later_put {n : Node} (hi : i < f.size) (hkind : n.kind = (f.get i).kind)
    (hparent : n.parent = (f.get i).parent) : f.Later (f.put i n) := by
  have hcases : ∀ j, j = i ∧ (f.put i n).get j = n ∨ (f.put i n).get j = f.get j := by
    intro j
    by_cases he : j = i
    · subst he
      exact .inl ⟨rfl, f.get_put_self hi n⟩
    · exact .inr (f.get_put_of_ne he n)
  refine ⟨by rw [size_put], fun j _ => ?_, fun j _ => ?_⟩
  · rcases hcases j with ⟨rfl, hself⟩ | hother
    · rw [hself, hkind]
    · rw [hother]
  · rcases hcases j with ⟨rfl, hself⟩ | hother
    · rw [hself, hparent]
    · rw [hother]

/-- A value put is the only one that differs. -/
theorem value_put (hi : i < f.size) (ht : (f.get i).Tidy) (σ : String) (v : Data) (j : NodeId)
    (τ : String) : ((f.put i ((f.get i).putValue σ v)).get j).value τ
      = if j = i ∧ τ = σ then v else (f.get j).value τ := by
  by_cases he : j = i
  · subst he
    rw [f.get_put_self hi, Node.value_putValue ht.names]
    simp
  · rw [f.get_put_of_ne he, if_neg fun h => he h.1]

/-- A list of children with some taken out. -/
theorem Consistent.remove (hf : f.Consistent) (hi : i < f.size) {σ : String} {p : Placement}
    (hp : (f.get i).kind.placement? σ = some p) {xs ys : List Data} {mark : Nat}
    (hvalue : (f.get i).value σ = .list xs mark) (hsub : ys.Sublist xs) :
    (f.put i ((f.get i).putValue σ (.list ys mark))).Consistent := by
  have hput := value_put hi (hf.tidy i hi) σ (.list ys mark)
  have hlater : f.Later (f.put i ((f.get i).putValue σ (.list ys mark))) := later_put hi rfl rfl
  -- A slot holds what it held, or the list from which some have been taken out.
  have hslot : ∀ j τ, ((f.put i ((f.get i).putValue σ (.list ys mark))).get j).value τ
      = (f.get j).value τ ∨ (f.get j).value τ = .list xs mark ∧
        ((f.put i ((f.get i).putValue σ (.list ys mark))).get j).value τ = .list ys mark := by
    intro j τ
    rw [hput]
    split
    · rename_i he
      rw [he.1, he.2]
      exact .inr ⟨hvalue, rfl⟩
    · exact .inl rfl
  refine Retains.consistent ⟨hlater, fun c _ name hname => ?_, fun j hj τ q hq => ?_⟩ hf
    ⟨fun _ _ => trivial, fun j _ hj τ q hq => ?_⟩ fun j hj => ?_
  · rw [hput, if_neg]
    rintro ⟨rfl, rfl⟩
    exact (f.get c).kind.field_notMem_slots _ hname (Kind.mem_slots_of_placement? hp)
  · rw [size_put] at hj
    rw [hlater.kind_eq j hj] at hq
    refine .inr ⟨hj, hq, ?_⟩
    rcases hslot j τ with hsame | ⟨hold, hnew⟩
    · rw [hsame]
    · rw [hold, hnew]
      exact hsub
  · rw [size_put] at hj
    rw [hlater.kind_eq j hj] at hq
    have hfills := hf.formed.slots j trivial hj τ q hq
    rcases hslot j τ with hsame | ⟨hold, hnew⟩
    · rw [hsame]
      exact hfills.later hlater
    · rw [hold] at hfills
      rw [hnew]
      cases hfills with
      | list _ hlist hxs =>
        refine .list mark hlist fun x hx => ?_
        obtain ⟨c, he, hc, -⟩ := hxs x (hsub.subset hx)
        exact ⟨c, he, hlater.isChild hc, trivial⟩
  · rw [size_put] at hj
    by_cases he : j = i
    · subst he
      rw [f.get_put_self hj]
      exact (hf.tidy j hj).putValue _ _
    · rw [f.get_put_of_ne he]
      exact hf.tidy j hj

end Forest

end ApiDoc
