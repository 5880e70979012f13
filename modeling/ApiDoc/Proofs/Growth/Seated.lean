import ApiDoc.Proofs.Growth.Built
import ApiDoc.Proofs.Growth.Contents
import ApiDoc.Proofs.Growth.Frame
import ApiDoc.Proofs.Growth.Richer

namespace ApiDoc

/-!
# Sources that are found in a forest

* `Licence.Spares` — a licence that spares internal fields, and with them all keys of members;
* `Node.Tells` — the keys of fields and extensions under which a node has a value;
* `Merge.Seated` — a source all of whose keys are found at a node and in the tree below it;
* `Seated.unmoved` — where nothing has changed they are still found;
* `Seated.later` — where nothing has been taken away, too, but for what may give way to a truth
  value;
* `Forest.NewKeys` — a forest whose new members under keys have texts as their keys.
-/

open Forest

/-! ### Licences that spare internal fields -/

/-- A licence to write no internal field. -/
def Licence.Spares (S : Licence) : Prop := ∀ k name, S.fields k name → name ∉ k.internalFields

namespace Licence.Spares

variable {S : Licence} {f g : Forest}

theorem keepsKeys (hS : S.Spares) : S.KeepsKeys :=
  fun _ _ c key hp hmay => hS c key hmay (Kind.key_mem_internalFields hp)

theorem consistent (hS : S.Spares) (hf : f.Consistent) (hrun : Steps S f g) : g.Consistent :=
  Steps.consistent (Licence.sparing_keepsKeys S.overwrite) rfl hf
    (hrun.widen (fun _ _ => trivial) hS fun h => h)

end Licence.Spares

/-! ### What a node tells -/

/-- A key under which a node has a value to show: that of an extension, or of a field that is set. -/
def Node.Tells (n : Node) (s : String) : Prop :=
  (∃ (es : Entries) (mark : Nat), n.extensions = .map es mark ∧ (es.text? s).isSome = true) ∨
    ∃ name, n.kind.fieldOfWire? s = some name ∧ name ∉ n.kind.internalFields ∧
      n.value name ≠ .unset

theorem Node.Tells.richer {n m : Node} {s : String} (h : n.Tells s) (hkind : m.kind = n.kind)
    (hnm : n.Richer m) : m.Tells s := by
  rcases h with ⟨es, mark, hes, hs⟩ | ⟨name, hname, hshown, hset⟩
  · obtain ⟨es', mark', hes', hkeep⟩ := hnm.extensions es mark hes
    exact .inl ⟨es', mark', hes', hkeep s hs⟩
  · refine .inr ⟨name, ?_, ?_, hnm.values name hset⟩
    · rwa [hkind]
    · rwa [hkind]

theorem Data.ne_unset_of_mem_nodes {v x : Data} (h : x ∈ v.nodes) : v ≠ .unset := by
  rintro rfl
  exact absurd h List.not_mem_nil

/-! ### What is found of a source -/

namespace Merge

/-- A value of a source that is found in a forest: its keys are told by the nodes into which it has
    been merged, and children are there for all content that it holds. Inside an item of a list,
    a child that a truth value may replace need not be there any more, only something in its
    place. -/
inductive Seated (S : Licence) (f₀ f : Forest) : (inItem : Bool) → Role → NodeId → Data → Prop
  | node {inItem : Bool} {k : Kind} {i j : NodeId} {gs : Entries} (hread : ReadBetween S f₀ f j gs)
      (h : Seated S f₀ f inItem (.content k) i (.ofEntries gs)) :
      Seated S f₀ f inItem (.content k) i (.node j)
  | map {inItem : Bool} {k : Kind} {i : NodeId} {es : Entries} (mark : Nat)
      (hkind : (f.get i).kind = k)
      (plain : ∀ e ∈ Merge.plain k es, ∃ s, e.1 = .str s ∧ (f.get i).Tells s)
      (slots : ∀ σ p v, k.placement? σ = some p → es.text? (wireName σ) = some v →
        Seated S f₀ f inItem (.slot σ p) i v) :
      Seated S f₀ f inItem (.content k) i (.map es mark)
  | flag {inItem : Bool} {σ : String} {k : Kind} {i : NodeId} (b : Bool)
      (hset : (f.get i).value σ ≠ .unset) :
      Seated S f₀ f inItem (.slot σ (.single k true)) i (.bool b)
  | single {inItem : Bool} {σ : String} {k : Kind} {b : Bool} {i j : NodeId} {v : Data}
      (hlinked : f.Linked S i σ (.single k b) .unset j)
      (hj : .node j ∈ ((f.get i).value σ).nodes) (h : Seated S f₀ f inItem (.content k) j v) :
      Seated S f₀ f inItem (.slot σ (.single k b)) i v
  | replaced {σ : String} {k : Kind} {i : NodeId} {v : Data} (hover : S.overwrite = true)
      (hset : (f.get i).value σ ≠ .unset) :
      Seated S f₀ f true (.slot σ (.single k true)) i v
  | keyed {inItem : Bool} {σ : String} {k : Kind} {key : String} {i : NodeId} {fs : Entries}
      (mark : Nat) (hne : fs ≠ []) (member : Data × Data → NodeId)
      (hlinked : ∀ e ∈ fs, f.Linked S i σ (.keyed k key) e.1 (member e))
      (htext : ∀ e ∈ fs, ∃ s, e.1 = .str s)
      (h : ∀ e ∈ fs, Seated S f₀ f inItem (.content k) (member e) e.2) :
      Seated S f₀ f inItem (.slot σ (.keyed k key)) i (.map fs mark)
  | listed {inItem : Bool} {σ : String} {k : Kind} {slot : CollectionSlot} {i : NodeId} {v : Data}
      {xs : List Data} (hv : v.items? = some xs) (hne : xs ≠ []) (member : Data → NodeId)
      (hlinked : ∀ x ∈ xs, f.Linked S i σ (.listed k slot) .unset (member x))
      (h : ∀ x ∈ xs, Seated S f₀ f true (.item k slot) (member x) x) :
      Seated S f₀ f inItem (.slot σ (.listed k slot)) i v
  | itemNode {inItem : Bool} {k : Kind} {slot : CollectionSlot} {i j : NodeId} {gs : Entries}
      (hread : ReadBetween S f₀ f j gs)
      (h : Seated S f₀ f inItem (.item k slot) i (.ofEntries gs)) :
      Seated S f₀ f inItem (.item k slot) i (.node j)
  | itemMap {inItem : Bool} {k : Kind} {slot : CollectionSlot} {i : NodeId} {gs : Entries}
      (mark : Nat) (hidentifies : ∀ name ∈ slot.identifying, f.Identifies i name)
      (identity : ∀ e ∈ gs.identity k slot, ∃ name ∈ slot.identifying, e.1 = .str name ∧
        (f.get i).value name ≠ .unset ∧
        ((f.get i).value name = e.2 ∨ ((f.get i).value name).alike e.2 = true))
      (h : Seated S f₀ f inItem (.content k) i (.ofEntries (gs.rest k slot))) :
      Seated S f₀ f inItem (.item k slot) i (.map gs mark)

/-- What must not have changed for what is found of a source to be found still: a tree, or a slot. -/
def Role.Unmoved (f g : Forest) (i : NodeId) : Role → Prop
  | .content _ => f.Unmoved g i
  | .slot σ _ => f.SlotUnmoved g i σ
  | .item _ _ => f.Unmoved g i

namespace Seated

variable {S : Licence} {f₀ f g : Forest} {inItem : Bool} {r : Role} {i : NodeId} {v : Data}

/-- Where nothing has changed all is found still. -/
theorem unmoved (h : Seated S f₀ f inItem r i v) (hrun : Steps S f g) (hsame : r.Unmoved f g i) :
    Seated S f₀ g inItem r i v := by
  -- Nothing at or below the node has changed, so all that is seated there still is.
  induction h with
  | node hread _ ih => exact .node (hread.later hrun) (ih hsame)
  | @map inItem k i es mark hkind plain slots ih =>
    have hself : g.get i = f.get i := hsame i .self
    refine .map mark (hself ▸ hkind) (by rwa [hself]) fun σ p v hp hv => ih σ p v hp hv ?_
    refine Unmoved.slot hsame ?_
    rw [hkind]
    exact Kind.mem_slots_of_placement? hp
  | flag b hset =>
    refine .flag b ?_
    rw [SlotUnmoved.value hsame]
    exact hset
  | single hlinked hj _ ih =>
    refine .single (hlinked.steps hrun) ?_ (ih (SlotUnmoved.children hsame _ hj))
    rw [SlotUnmoved.value hsame]
    exact hj
  | replaced hover hset =>
    refine .replaced hover ?_
    rw [SlotUnmoved.value hsame]
    exact hset
  | keyed mark hne member hlinked htext _ ih =>
    refine .keyed mark hne member (fun e he => (hlinked e he).steps hrun) htext fun e he => ?_
    exact ih e he (SlotUnmoved.children hsame _ ((hlinked e he).slot (.inl rfl)))
  | listed hv hne member hlinked _ ih =>
    refine .listed hv hne member (fun x hx => (hlinked x hx).steps hrun) fun x hx => ?_
    exact ih x hx (SlotUnmoved.children hsame _ ((hlinked x hx).slot (.inl rfl)))
  | itemNode hread _ ih => exact .itemNode (hread.later hrun) (ih hsame)
  | itemMap mark hidentifies identity _ ih =>
    refine .itemMap mark (fun name hname => (hidentifies name hname).later hrun.later) ?_ (ih hsame)
    rwa [hsame _ .self]

/-- Where nothing has been taken away all is found still, as in an item of a list: a child may have
    given way to a truth value. -/
theorem later (h : Seated S f₀ f inItem r i v) (hrun : Steps S f g)
    (hricher : f.Richer (fun _ => False) g) (hi : i < f.size) : Seated S f₀ g true r i v := by
  -- Nodes only gain, so what is seated stays seated, but for a child that a flag may replace.
  induction h with
  | node hread _ ih => exact .node (hread.later hrun) (ih hi)
  | map mark hkind plain _ ih =>
    have hkind' := hricher.later.kind_eq _ hi
    refine .map mark (hkind'.trans hkind) (fun e he => ?_) fun σ p v hp hv => ih σ p v hp hv hi
    obtain ⟨s, hs, htells⟩ := plain e he
    exact ⟨s, hs, htells.richer hkind' (hricher.nodes _ hi)⟩
  | flag b hset => exact .flag b ((hricher.nodes _ hi).values _ hset)
  | @single inItem σ k b i j v hlinked hj _ ih =>
    -- In a slot that takes flags, an overwriting merge may have put one in place of the child.
    by_cases hkeep : b = false ∨ S.overwrite = false
    · have hlinked' := hlinked.steps hrun
      exact .single hlinked' (hlinked'.slot hkeep) (ih hlinked.child.1)
    · obtain ⟨hb, hover⟩ := not_or.1 hkeep
      obtain rfl : b = true := by simpa using hb
      refine .replaced (by simpa using hover) ((hricher.nodes _ hi).values _ ?_)
      exact Data.ne_unset_of_mem_nodes hj
  | replaced hover hset => exact .replaced hover ((hricher.nodes _ hi).values _ hset)
  | keyed mark hne member hlinked htext _ ih =>
    exact .keyed mark hne member (fun e he => (hlinked e he).steps hrun) htext
      fun e he => ih e he (hlinked e he).child.1
  | listed hv hne member hlinked _ ih =>
    exact .listed hv hne member (fun x hx => (hlinked x hx).steps hrun)
      fun x hx => ih x hx (hlinked x hx).child.1
  | itemNode hread _ ih => exact .itemNode (hread.later hrun) (ih hi)
  | itemMap mark hidentifies identity _ ih =>
    refine .itemMap mark (fun name hname => (hidentifies name hname).later hricher.later)
      (fun e he => ?_) (ih hi)
    obtain ⟨name, hname, hkey, hvalue⟩ := identity e he
    have hkept := hricher.identity _ hi (fun h => h) name (hidentifies name hname)
    exact ⟨name, hname, hkey, by rwa [hkept]⟩

end Seated

end Merge

/-! ### Keys of new members -/

namespace Forest

variable {S : Licence} {f g h : Forest} {a b i : NodeId} {σ : String}

/-- A forest whose members under keys have texts as their keys, as far as they are new. -/
def NewKeys (f g : Forest) : Prop :=
  ∀ a < g.size, ∀ σ k key, (g.get a).kind.placement? σ = some (.keyed k key) →
    ∀ b, f.size ≤ b → .node b ∈ ((g.get a).value σ).nodes →
      ∃ s : String, (g.get b).value key = .str s

/-- A member that is not new has been in the slot before. -/
theorem Steps.mem_of_lt (hrun : Steps S f g) (ha : a < g.size) (hσ : σ ∈ (g.get a).kind.slots)
    (hb : .node b ∈ ((g.get a).value σ).nodes) (hlt : b < f.size) :
    a < f.size ∧ σ ∈ (f.get a).kind.slots ∧ .node b ∈ ((f.get a).value σ).nodes := by
  induction hrun with
  | refl => exact ⟨ha, hσ, hb⟩
  | @tail f' g hrun hlast ih =>
    obtain ⟨p, hp⟩ := Kind.exists_placement? hσ
    have hle := (Steps.later hrun).size_le
    cases hlast.gains ha hp with
    | none hnone =>
      rw [hnone] at hb
      exact absurd hb List.not_mem_nil
    | same ha hp hsame => exact ih ha (Kind.mem_slots_of_placement? hp) (hsame ▸ hb)
    | more ha hp hmore =>
      refine ih ha (Kind.mem_slots_of_placement? hp) ?_
      rw [hmore] at hb
      refine (List.mem_append.1 hb).resolve_right fun hnew => ?_
      cases List.mem_singleton.1 hnew
      exact absurd hlt (Nat.not_lt_of_le hle)

/-- A node that is not new has been in the tree before. -/
theorem Steps.below_of_lt (hg : g.Consistent) (hrun : Steps S f g)
    (hi : i < f.size) (ha : g.Below i a) (hlt : a < f.size) : f.Below i a := by
  have hi' := Nat.lt_of_lt_of_le hi hrun.later.size_le
  induction ha with
  | self => exact .self
  | @child p a σ hp hσ hmem ih =>
    obtain ⟨hp', hσ', hmem'⟩ := hrun.mem_of_lt (hg.below_lt hi' hp).2 hσ hmem hlt
    exact (ih hp').child hσ' hmem'

/-- A member keeps its key. -/
theorem Steps.key_eq (hS : S.KeepsKeys) (hf : f.Consistent) (hrun : Steps S f g) (ha : a < f.size)
    {k : Kind} {key : String} (hp : (f.get a).kind.placement? σ = some (.keyed k key))
    (hb : .node b ∈ ((f.get a).value σ).nodes) : (g.get b).value key = (f.get b).value key := by
  obtain ⟨hchild, -⟩ := (hf.formed.slots a trivial ha σ _ hp).isChild hb
  obtain ⟨hfield, hscalar⟩ := Kind.keyed_field hp
  have hkind : (f.get b).kind = k := hchild.2.1
  exact hrun.field_eq hchild.1 (hkind ▸ hfield) (hkind ▸ hscalar) (hkind ▸ hS _ _ _ _ hp)

namespace NewKeys

theorem refl (hf : f.Consistent) : f.NewKeys f := by
  intro a ha σ k key hp b hb hmem
  obtain ⟨_, -, hchild, -⟩ := hf.child ha (Kind.mem_slots_of_placement? hp) hmem
  exact absurd hchild.1 (Nat.not_lt_of_le hb)

/-- Steps between which no nodes are added. -/
theorem of_size_eq (hg : g.Consistent) (hsize : g.size = f.size) : f.NewKeys g := by
  intro a ha σ k key hp b hb hmem
  obtain ⟨_, -, hchild, -⟩ := hg.child ha (Kind.mem_slots_of_placement? hp) hmem
  exact absurd hchild.1 (Nat.not_lt_of_le (hsize ▸ hb))

theorem trans (hS : S.KeepsKeys) (hg : g.Consistent) (hgh : Steps S g h) (hfirst : f.NewKeys g)
    (hrest : g.NewKeys h) : f.NewKeys h := by
  intro a ha σ k key hp b hb hmem
  by_cases hnew : g.size ≤ b
  · exact hrest a ha σ k key hp b hnew hmem
  -- A member that came before the last steps has kept its key.
  obtain ⟨ha', -, hmem'⟩ := hgh.mem_of_lt ha (Kind.mem_slots_of_placement? hp) hmem
    (Nat.lt_of_not_le hnew)
  have hp' : (g.get a).kind.placement? σ = some (.keyed k key) := hgh.later.kind_eq a ha' ▸ hp
  obtain ⟨s, hs⟩ := hfirst a ha' σ k key hp' b hb hmem'
  exact ⟨s, (hgh.key_eq hS hg ha' hp' hmem').trans hs⟩

end NewKeys

/-- A tree that can be shown still can if new members have texts as their keys. -/
theorem HashableKeys.steps (hS : S.KeepsKeys) (hf : f.Consistent) (hg : g.Consistent)
    (hrun : Steps S f g) (hi : i < f.size) (hkeys : f.HashableKeys i) (hnew : f.NewKeys g) :
    g.HashableKeys i := by
  intro a ha σ k key hp b hmem
  have ha' := (hg.below_lt (Nat.lt_of_lt_of_le hi hrun.later.size_le) ha).2
  by_cases hb : f.size ≤ b
  · obtain ⟨s, hs⟩ := hnew a ha' σ k key hp b hb hmem
    rw [hs]
    rfl
  obtain ⟨haf, -, hmem'⟩ := hrun.mem_of_lt ha' (Kind.mem_slots_of_placement? hp) hmem
    (Nat.lt_of_not_le hb)
  have hp' : (f.get a).kind.placement? σ = some (.keyed k key) := hrun.later.kind_eq a haf ▸ hp
  rw [hrun.key_eq hS hf haf hp' hmem']
  exact hkeys a (hrun.below_of_lt hg hi ha haf) σ k key hp' b hmem'

/-- The new children of a node have texts as their keys if they are made with such. -/
theorem Touches.newKeys {k : Kind} {fields : Entries} {p : Placement}
    (h : f.Touches i σ (.newChild i k fields) g) (hg : g.Consistent)
    (hp : (g.get i).kind.placement? σ = some p) (hk : p.kind = k) (hfields : fields.AreFields k)
    (hkey : ∀ c key, p = .keyed c key → ∃ s : String, fields = [(.str key, .str s)]) :
    f.NewKeys g := by
  intro a ha τ c key hq b hb hmem
  obtain ⟨hchild, -⟩ := (hg.formed.slots a trivial ha τ _ hq).isChild hmem
  have hnew := h.fresh b hchild.1 hb
  obtain ⟨hkind, hparent, -⟩ := Node.putFields_spec hfields { kind := k, parent := .node i }
  obtain rfl : i = a := by
    have hparents := hchild.2.2
    rw [hnew] at hparents
    have he := hparent.symm.trans hparents
    cases he
    rfl
  have hkinds : p.kind = c := by
    have hkinds := hchild.2.1
    rw [hnew] at hkinds
    exact hk.trans (hkind.symm.trans hkinds)
  obtain rfl := Kind.slot_unique hp hq hkinds
  cases hp.symm.trans hq
  obtain ⟨s, rfl⟩ := hkey c key rfl
  refine ⟨s, ?_⟩
  rw [hnew]
  exact Node.putFields_single ..

end Forest

end ApiDoc
