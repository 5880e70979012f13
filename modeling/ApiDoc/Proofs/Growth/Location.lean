import ApiDoc.Proofs.Growth.Step

namespace ApiDoc

/-!
# Locations in growing trees

The way up from a node is followed for no more steps than there are nodes. In a tree that grows
below a node with a location all nodes have one:

* `Forest.Rooted` — a node whose way up ends at a node without a parent;
* `Forest.Way` — the nodes on this way, which are no more than the forest has;
* `Rooted.location` — a rooted node has a location;
* `Forest.Upright`, `Upright.steps` — trees whose nodes are rooted, with extensions under keys, stay
  so whatever is attached to them.
-/

/-- Fields set leave the extensions. -/
theorem Node.putFields_extensions (n : Node) (fields : Entries) :
    (n.putFields fields).extensions = n.extensions := by
  induction fields generalizing n with
  | nil => rfl
  | cons e fields ih => exact ih (n.putValue (e.1.str?.getD "") e.2)

namespace Forest

/-- A node in whose lists the position of a member can be looked up. -/
def Searchable (n : Node) : Prop := ∀ c slot, n.kind.layout.collections.lookup c = some slot →
  ∃ xs, Edit.itemsOf (n.value slot.name) = .ok xs

/-- A node whose way up ends at a node without a parent. -/
inductive Rooted (f : Forest) : NodeId → Prop
  | root {j : NodeId} (hlt : j < f.size) (hparent : (f.get j).parent = .null) : Rooted f j
  | under {p j : NodeId} (hlt : j < f.size) (hparent : (f.get j).parent = .node p)
      (hsearch : Searchable (f.get p)) (hp : Rooted f p) : Rooted f j

/-- The nodes on the way up from a node. -/
inductive Way (f : Forest) : NodeId → List NodeId → Prop
  | root {j : NodeId} (hlt : j < f.size) (hparent : (f.get j).parent = .null) : Way f j [j]
  | under {p j : NodeId} {js : List NodeId} (hlt : j < f.size)
      (hparent : (f.get j).parent = .node p) (hsearch : Searchable (f.get p)) (hp : Way f p js) :
      Way f j (j :: js)

variable {S : Licence} {f g : Forest} {i j : NodeId} {js : List NodeId}

/-! ### The way up -/

/-- There is a way up from every node of a rooted tree. -/
theorem Rooted.exists_way (h : f.Rooted j) : ∃ js, f.Way j js := by
  induction h with
  | root hlt hparent => exact ⟨_, .root hlt hparent⟩
  | under hlt hparent hsearch _ ih =>
    obtain ⟨js, hjs⟩ := ih
    exact ⟨_, .under hlt hparent hsearch hjs⟩

namespace Way

/-- The nodes on the way are nodes of the forest. -/
theorem lt_size (h : f.Way j js) : ∀ a ∈ js, a < f.size := by
  induction h with
  | root hlt => exact fun a ha => List.mem_singleton.1 ha ▸ hlt
  | under hlt _ _ _ ih => exact List.forall_mem_cons.2 ⟨hlt, ih⟩

/-- The way up from a node on the way is a part of it. -/
theorem exists_suffix (h : f.Way j js) : ∀ a ∈ js, ∃ as, f.Way a as ∧ as.length ≤ js.length := by
  induction h with
  | root hlt hparent =>
    intro a ha
    rw [List.mem_singleton.1 ha]
    exact ⟨_, .root hlt hparent, Nat.le_refl _⟩
  | @under p j js hlt hparent hsearch hp ih =>
    refine List.forall_mem_cons.2 ⟨⟨_, .under hlt hparent hsearch hp, Nat.le_refl _⟩, fun a ha => ?_⟩
    obtain ⟨as, has, hlength⟩ := ih a ha
    exact ⟨as, has, Nat.le_succ_of_le hlength⟩

/-- There is one way up only. -/
theorem unique {ks : List NodeId} (h : f.Way j js) (h' : f.Way j ks) : js = ks := by
  induction h generalizing ks with
  | root _ hparent =>
    cases h' with
    | root => rfl
    | under _ hparent' => rw [hparent] at hparent'; cases hparent'
  | under _ hparent _ _ ih =>
    cases h' with
    | root _ hparent' => rw [hparent] at hparent'; cases hparent'
    | under _ hparent' _ hp =>
      rw [hparent] at hparent'
      cases hparent'
      rw [ih hp]

/-- No node is passed twice. -/
theorem nodup (h : f.Way j js) : js.Nodup := by
  induction h with
  | root => exact List.nodup_singleton _
  | @under p j js hlt hparent hsearch hp ih =>
    refine List.nodup_cons.2 ⟨fun hj => ?_, ih⟩
    -- The way from the node is a part of the way from its parent, and one step longer.
    obtain ⟨as, has, hlength⟩ := hp.exists_suffix j hj
    rw [has.unique (.under hlt hparent hsearch hp), List.length_cons] at hlength
    omega

/-- The way is no longer than there are nodes. -/
theorem length_le (h : f.Way j js) : js.length ≤ f.size := by
  have hsubset : js ⊆ List.range f.size := fun a ha => List.mem_range.2 (h.lt_size a ha)
  simpa using (List.subperm_of_subset h.nodup hsubset).length_le

end Way

/-! ### Locations -/

/-- The position in a slot can be told if the slot has items. -/
theorem exists_positionText {p : NodeId} {σ : String}
    (h : ∃ xs, Edit.itemsOf ((f.get p).value σ) = .ok xs) (j : NodeId) :
    ∃ text, f.positionText p j σ = .ok text := by
  obtain ⟨xs, hxs⟩ := h
  unfold Edit.itemsOf at hxs
  simp only [positionText]
  split at hxs
  · rw [if_pos ‹_›, hxs]
    exact ⟨_, rfl⟩
  · rw [if_neg ‹_›]
    exact ⟨_, rfl⟩

/-- The step down from a node in whose lists members can be looked up. -/
theorem exists_segment {p : NodeId} (h : Searchable (f.get p)) (write : Data → String)
    (j : NodeId) : ∃ text, f.segment write p j = .ok text := by
  unfold segment
  extract_lets n layout
  split
  · exact ⟨_, rfl⟩
  · exact ⟨_, rfl⟩
  · rename_i slot _ _ hslot
    obtain ⟨text, htext⟩ := exists_positionText (h _ slot hslot) j
    rw [htext]
    exact ⟨_, rfl⟩
  · exact ⟨_, rfl⟩

/-- With enough fuel the location can be told. -/
theorem Way.exists_locationIn (h : f.Way j js) {n : Nat} (hn : js.length ≤ n) :
    ∃ text, f.locationIn n j = .ok text := by
  induction h generalizing n with
  | root _ hparent =>
    cases n with
    | zero => cases hn
    | succ n =>
      simp only [locationIn, hparent]
      exact ⟨_, rfl⟩
  | @under p j js _ hparent hsearch _ ih =>
    cases n with
    | zero => cases hn
    | succ n =>
      obtain ⟨holder, hholder⟩ := ih (Nat.le_of_succ_le_succ hn)
      obtain ⟨step, hstep⟩ := exists_segment hsearch
        (fun v => v.plainWith fun j => f.shownAs j (f.locationIn n j)) j
      simp only [locationIn, hparent, hholder, hstep]
      exact ⟨holder ++ step, rfl⟩

/-- A rooted node has a location. -/
theorem Rooted.location (h : f.Rooted j) : ∃ text, f.location j = .ok text := by
  obtain ⟨js, hjs⟩ := h.exists_way
  exact hjs.exists_locationIn (Nat.le_succ_of_le hjs.length_le)

/-! ### Trees that grow -/

/-- A slot that holds what it is for can be searched. -/
theorem Formed.searchable {T : NodeId → Prop} (hf : f.Formed T) (hj : T j) (hlt : j < f.size) :
    Searchable (f.get j) := by
  intro c slot hslot
  have hp := Kind.placement?_collections _ _ (mem_of_lookup hslot)
  have hfills := hf.slots j hj hlt slot.name _ hp
  generalize (f.get j).value slot.name = v at hfills
  cases hfills with
  | unset => exact ⟨[], rfl⟩
  | @list _ xs =>
    cases xs with
    | nil => exact ⟨[], rfl⟩
    | cons x xs => exact ⟨x :: xs, rfl⟩

/-- What a licence allows leaves nodes rooted. -/
theorem Rooted.step (hf : f.Formed S.nodes) (hstep : Step S f g) (h : f.Rooted j) : g.Rooted j := by
  have hlater := hstep.later
  have hsize := fun {j} (hlt : j < f.size) => Nat.lt_of_lt_of_le hlt hlater.size_le
  induction h with
  | root hlt hparent => exact .root (hsize hlt) ((hlater.parent_eq _ hlt).trans hparent)
  | @under p j hlt hparent hsearch hp ih =>
    refine .under (hsize hlt) ((hlater.parent_eq _ hlt).trans hparent) ?_ ih
    have hpsize : p < f.size := by
      cases hp with
      | root hlt => exact hlt
      | under hlt => exact hlt
    by_cases hnode : S.nodes p
    · exact (hstep.formed hf).searchable hnode (hsize hpsize)
    · rw [hstep.get_eq hpsize hnode]
      exact hsearch

/-- A forest in which the nodes of some trees are rooted, hold in their slots what these are for,
    and have their extensions under keys. -/
structure Upright (T : NodeId → Prop) (f : Forest) : Prop where
  formed : f.Formed T
  rooted : ∀ j, T j → j < f.size → f.Rooted j
  extensions : ∀ j, T j → j < f.size → ∃ es mark, (f.get j).extensions = .map es mark

/-- A step leaves an upright forest. -/
theorem Upright.step (hf : f.Upright S.nodes) (hstep : Step S f g) : g.Upright S.nodes := by
  have hformed := hstep.formed hf.formed
  have hold : ∀ j, S.nodes j → j < f.size → g.Rooted j :=
    fun j hj hlt => (hf.rooted j hj hlt).step hf.formed hstep
  refine ⟨hformed, fun j hj hlt => ?_, fun j hj hlt => ?_⟩
  -- Rooted: the nodes of before as before, the new one under the node it was attached to.
  · by_cases hnew : j < f.size
    · exact hold j hj hnew
    cases hstep with
    | alter => exact absurd (by simpa using hlt) hnew
    | @attach i σ p fields v hi hilt hp hfields ha =>
      obtain rfl : j = f.size := by
        rw [size_withChild] at hlt
        exact Nat.le_antisymm (Nat.le_of_lt_succ hlt) (Nat.not_lt.1 hnew)
      have hchild := isChild_withChild (σ := σ) (v := v) hilt hfields
      exact .under hlt hchild.2.2
        (hformed.searchable hi (by rw [size_withChild]; exact Nat.lt_succ_of_lt hilt)) (hold i hi hilt)
  -- Extensions: a step may add to them but leaves them a mapping.
  · by_cases hnew : j < f.size
    · obtain ⟨es, mark, hes⟩ := hf.extensions j hj hnew
      have hbecomes := hstep.becomes hnew
      generalize g.get j = m at hbecomes
      cases hbecomes with
      | same => exact ⟨es, mark, hes⟩
      | attach => exact ⟨es, mark, hes⟩
      | alter h =>
        cases h with
        | extension => exact ⟨_, _, rfl⟩
        | _ => exact ⟨es, mark, hes⟩
    cases hstep with
    | alter => exact absurd (by simpa using hlt) hnew
    | @attach i σ p fields v hi hilt hp hfields ha =>
      obtain rfl : j = f.size := by
        rw [size_withChild] at hlt
        exact Nat.le_antisymm (Nat.le_of_lt_succ hlt) (Nat.not_lt.1 hnew)
      rw [get_withChild_new hilt]
      exact ⟨[], 0, Node.putFields_extensions _ _⟩

/-- So does any number of steps. -/
theorem Upright.steps (hf : f.Upright S.nodes) (hrun : Steps S f g) : g.Upright S.nodes :=
  (Steps.induct (R := fun _ _ => True) (fun _ => trivial) (fun _ _ _ _ _ => trivial)
    (fun _ _ hI hstep => ⟨hI.step hstep, trivial⟩) hf hrun).1

/-- In a tree whose root is rooted all nodes are. -/
theorem WellFormed.upright (hf : f.WellFormed i) (hroot : f.Rooted i)
    (hextensions : ∀ j, f.Below i j → ∃ es mark, (f.get j).extensions = .map es mark) :
    f.Upright (f.Around i) := by
  have hbelow : ∀ j, f.Below i j → f.Rooted j := by
    intro j hj
    induction hj with
    | self => exact hroot
    | @child p j σ hp hσ hj ih =>
      obtain ⟨q, hq⟩ := Kind.exists_placement? hσ
      obtain ⟨hchild, -⟩ := (hf.slots p hp σ q hq).isChild hj
      exact .under hchild.1 hchild.2.2 (hf.formed.searchable (.inl hp) (hf.lt_size hp)) ih
  refine ⟨hf.formed, fun j hj hlt => hbelow j ?_, fun j hj hlt => hextensions j ?_⟩
  · exact hj.resolve_right (Nat.not_le_of_lt hlt)
  · exact hj.resolve_right (Nat.not_le_of_lt hlt)

end Forest

end ApiDoc
