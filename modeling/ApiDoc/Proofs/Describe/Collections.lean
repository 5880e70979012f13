import ApiDoc.Proofs.Describe.Inference
import ApiDoc.Proofs.Describe.Later

namespace ApiDoc

/-!
# Classes inside collections

A property of a class and one of collections of the class are described alike, up to the collections
around the reference:

* `Describe.IgnoresUsage` — computations that do not look at what is known of the groups that
  classes declare, which is found out for a collection under another name;
* `Wraps` — types that are collections of another type, one inside the other;
* `Forest.Refers` — a reference written at the inner node of collections, and nothing else;
* `MetadataDescriber.describeItem_wraps` — a class in collections described, by induction on the
  collections;
* `MetadataDescriber.describeProperty_wraps` — the two runs compared.
-/

/-! ### What is known of the groups of classes -/

/-- The site with other knowledge of whether classes declare groups. -/
def Site.withUsage (us : List (String × Option Bool)) (s : Site) : Site :=
  { s with desk? := s.desk?.map fun e => { e with cache := { e.cache with groupUsage := us } } }

namespace Results

variable {σ α : Type}

/-- A result with another state. -/
def mapState (g : σ → σ) : EStateM.Result Failure σ α → EStateM.Result Failure σ α
  | .ok a s => .ok a (g s)
  | .error e s => .error e (g s)

/-- Whether a computation succeeds with an answer that passes a check. -/
def answers (x : EStateM Failure σ α) (check : α → Bool) (s : σ) : Bool :=
  match x s with
  | .ok a _ => check a
  | .error _ _ => false

end Results

namespace Describe

variable {α β : Type}

/-- Computations that do not look at what is known of whether classes declare groups. -/
def IgnoresUsage (act : Describe α) : Prop :=
  ∀ us s, act (s.withUsage us) = Results.mapState (Site.withUsage us) (act s)

namespace IgnoresUsage

/-! ### Steps -/

/-- An answer. -/
protected theorem pure (a : α) : IgnoresUsage (pure a : Describe α) := fun _ _ => rfl

/-- A failure. -/
protected theorem throw (e : Failure) : IgnoresUsage (throw e : Describe α) := fun _ _ => rfl

/-- A result that does not look at the site. -/
theorem ofExcept (x : Except Failure α) : IgnoresUsage (Describe.ofExcept x) := by
  cases x with
  | ok a => exact .pure a
  | error e => exact .throw e

/-- Two computations, one after the other. -/
theorem bind {x : Describe α} {f : α → Describe β} (hx : IgnoresUsage x)
    (hf : ∀ a, IgnoresUsage (f a)) : IgnoresUsage (x >>= f) := by
  intro us s
  have hfirst := hx us s
  cases h : x s with
  | ok a s' =>
    rw [h] at hfirst
    rw [Results.bind_of_ok hfirst, Results.bind_of_ok h]
    exact hf a us s'
  | error e s' =>
    rw [h] at hfirst
    rw [Results.bind_of_error hfirst, Results.bind_of_error h]
    rfl

/-- A choice between two computations. -/
theorem ite {c : Prop} [Decidable c] {x y : Describe α} (hx : IgnoresUsage x)
    (hy : IgnoresUsage y) : IgnoresUsage (if c then x else y) := by
  split
  · exact hx
  · exact hy

/-- A loop over a list. -/
theorem forM {f : α → Describe Unit} {xs : List α} (h : ∀ x ∈ xs, IgnoresUsage (f x)) :
    IgnoresUsage (xs.forM f) := by
  induction xs with
  | nil => exact .pure ()
  | cons x xs ih =>
    obtain ⟨hx, hxs⟩ := List.forall_mem_cons.1 h
    exact .bind hx fun _ => ih hxs

/-- An edit sees the draft only. -/
theorem edit (act : Edit α) : IgnoresUsage (Describe.edit act) := by
  intro us s
  have hdraft : (s.withUsage us).draft = s.draft := rfl
  unfold Describe.edit
  rw [hdraft]
  cases act s.draft <;> rfl

/-- A registry does not ask whether classes declare groups. -/
theorem register (missing : Failure) (m : Model) : IgnoresUsage (Describe.register missing m) := by
  rintro us ⟨draft, desk?, met, shelf⟩
  cases desk? <;> rfl

/-- Neither does the model of a target. -/
theorem modelOf (target : Target) (groups : Data) :
    IgnoresUsage (Describe.modelOf target groups) := by
  cases target with
  | named name => exact .pure _
  | itself name => exact .bind (x := Describe.meet [name]) (fun _ _ => rfl) fun _ => .pure _

/-- Neither does a look at the type of a node. -/
theorem isDecided (i : NodeId) : IgnoresUsage (Describe.isDecided i) :=
  .bind (.bind (.edit _) fun _ => .pure _) fun _ => .ite (.pure _)
    (.bind (.edit _) fun _ => .pure _)

/-! ### Overrides -/

/-- The reference to a model in an override. -/
theorem reference (r : Reader) (target : Target) (own groups : Data) :
    IgnoresUsage (r.reference target own groups) := by
  have hregister : ∀ g, IgnoresUsage
      (do Describe.register .noRegistry (← Describe.modelOf target g)) := fun g =>
    .bind (.modelOf target g) fun m => .register _ m
  unfold Reader.reference
  cases r.hasRegistry with
  | false => exact .bind (.throw _) fun _ => hregister _
  | true => exact hregister _

mutual

/-- The value of an override, by recursion on it. -/
theorem resolveValue (r : Reader) (groups : Data) (key? : Option Data) (v : Data) :
    IgnoresUsage (r.resolve groups key? v) := by
  match v with
  | .modelRef target own =>
    unfold Reader.resolve
    refine .bind (.reference r target own groups) fun ref => ?_
    exact .ite (.pure _) (.bind (.edit _) fun _ => .pure _)
  | .map es _ =>
    unfold Reader.resolve
    exact .bind (.edit _) fun _ => .bind (.resolveEntries r groups es) fun _ => .pure _
  | .list xs mark =>
    unfold Reader.resolve
    refine .ite (.pure _) ?_
    exact .bind (.edit _) fun _ => .bind (.resolveItems r groups xs) fun _ => .pure _
  | .scalar _ | .tuple _ _ | .set _ _ | .unset | .node _ | .bare _ => exact .pure _

/-- The same for the entries of a mapping. -/
theorem resolveEntries (r : Reader) (groups : Data) (es : List (Data × Data)) :
    IgnoresUsage (r.resolveEntries groups es) := by
  match es with
  | [] => exact .pure _
  | (k, v) :: rest =>
    unfold Reader.resolveEntries
    exact .bind (.resolveValue r groups (some k) v) fun _ =>
      .bind (.resolveEntries r groups rest) fun _ => .pure _

/-- The same for the items of a list. -/
theorem resolveItems (r : Reader) (groups : Data) (xs : List Data) :
    IgnoresUsage (r.resolveItems groups xs) := by
  match xs with
  | [] => exact .pure _
  | v :: rest =>
    unfold Reader.resolveItems
    exact .bind (.resolveValue r groups none v) fun _ =>
      .bind (.resolveItems r groups rest) fun _ => .pure _

end

variable {w : World}

/-- The overrides of a property. -/
theorem updateProperty (r : Reader) (x : Reflection) (groups : Data) (i : NodeId) :
    IgnoresUsage (r.updateProperty w x groups i) :=
  .forM fun _ _ => .bind (.resolveEntries r groups _) fun _ =>
    .bind (.ofExcept _) fun _ => .edit _

/-- The property of a class behind metadata. -/
theorem reflection? (p : PropertyMetadata) :
    IgnoresUsage (MetadataDescriber.reflection? w p) := by
  intro us s
  have hmet : (s.withUsage us).met = s.met := rfl
  unfold MetadataDescriber.reflection?
  rw [hmet]
  cases p.reflection? with
  | some x => rfl
  | none =>
    cases Reflection.ofName w.classes s.met p.className p.name with
    | ok x => rfl
    | error e => cases e <;> rfl

/-- The node of a property, with its overrides. -/
theorem propertyNode (r : Reader) (p : PropertyMetadata) (groups name : Data) (schema : NodeId) :
    IgnoresUsage (MetadataDescriber.propertyNode w r p groups name schema) := by
  refine .bind (.reflection? p) fun x? => ?_
  cases x? with
  | none => exact .edit _
  | some x => exact .bind (.edit _) fun i => .bind (.updateProperty r x groups i) fun _ => .pure _

end IgnoresUsage

/-- The node of a property is found at a later site. -/
theorem Advances.propertyNode {w : World} {key? : Option String} (r : Reader) (p : PropertyMetadata)
    (groups name : Data) (schema : NodeId) :
    Advances key? (MetadataDescriber.propertyNode w r p groups name schema) := by
  refine .bind (Repeats.reflection? p).advances fun x? => ?_
  cases x? with
  | none => exact .edit _
  | some x =>
    refine .bind (.edit _) fun i => .bind (.forM fun o _ => ?_) fun _ => .pure _
    exact .bind (Repeats.resolveEntries (t := []) r groups _).advances fun _ =>
      .bind (.ofExcept _) fun _ => .edit _

end Describe

/-! ### References written -/

/-- Slots of collections that lead from a node to another one. -/
inductive Forest.Collects (f : Forest) : NodeId → List String → NodeId → Prop
  | here {i : NodeId} : Collects f i [] i
  | items {i j k : NodeId} {slots : List String} (htype : (f.get i).value "type" = .str "array")
    (hslot : (f.get i).value "items" = .node j) (h : Collects f j slots k) :
    Collects f i ("items" :: slots) k
  | values {i j k : NodeId} {slots : List String} (htype : (f.get i).value "type" = .str "object")
    (hslot : (f.get i).value "additional_properties" = .node j) (h : Collects f j slots k) :
    Collects f i ("additional_properties" :: slots) k

/-- The names under which a node has what it says of its type. -/
def typeNames : List String := ["type", "ref", "items", "additional_properties"]

/-- A reference written at the inner node of collections that start at a node, and nothing else. -/
structure Forest.Refers (f g : Forest) (i : NodeId) (slots : List String) (ref : String) :
    Prop where
  size_le : f.size ≤ g.size
  others : ∀ j < f.size, j ≠ i → g.get j = f.get j
  rest : ∀ name ∉ typeNames, (g.get i).value name = (f.get i).value name
  inner : ∃ j, g.Collects i slots j ∧ (g.get j).value "ref" = .str ref

namespace Forest

/-- A forest in which a node has become a collection with a new child. -/
def collection (f : Forest) (i : NodeId) (type slot : String) (k : Kind) : Forest :=
  Edit.withChild (f.put i ((f.get i).putValue "type" (.str type))) i k [] slot (.node f.size)

variable {f g : Forest} {i j : NodeId} {type slot ref : String} {k : Kind} {slots : List String}

theorem size_collection : (f.collection i type slot k).size = f.size + 1 := by
  rw [collection, size_withChild, size_put]

variable (f i type slot k) in
/-- The node inside a collection is a new one. -/
theorem size_lt_collection : f.size < (f.collection i type slot k).size := by
  rw [size_collection]
  exact Nat.lt_succ_self _

/-- The node of a collection names its type and holds the node inside. -/
theorem get_collection (hi : i < f.size) : (f.collection i type slot k).get i
    = ((f.get i).putValue "type" (.str type)).putValue slot (.node f.size) := by
  rw [collection, Edit.get_withChild (by rwa [size_put]), get_put_self _ hi]

/-- Other nodes stay as they are. -/
theorem get_collection_of_ne (hj : j < f.size) (hne : j ≠ i) :
    (f.collection i type slot k).get j = f.get j := by
  rw [collection, get_withChild_of_ne (by rwa [size_put]) hne, get_put_of_ne _ hne]

/-- The node inside a collection has its kind. -/
theorem kind_collection (hi : i < f.size) : ((f.collection i type slot k).get f.size).kind = k := by
  let f₁ := f.put i ((f.get i).putValue "type" (.str type))
  have hnew : (Edit.withChild f₁ i k [] slot (.node f.size)).get f₁.size
      = Node.putFields { kind := k, parent := .node i } [] :=
    get_withChild_new (by rwa [size_put])
  rw [size_put] at hnew
  rw [collection, hnew]
  rfl

/-- A reference written at the node itself. -/
theorem Refers.here (hi : i < f.size) (ref : String) :
    f.Refers (f.put i ((f.get i).putValue "ref" (.str ref))) i [] ref := by
  have hself := f.get_put_self hi ((f.get i).putValue "ref" (.str ref))
  refine ⟨Nat.le_of_eq (size_put ..).symm, fun j _ hne => get_put_of_ne _ hne _,
    fun name hname => ?_, i, .here, ?_⟩
  · have hne : name ≠ "ref" := fun he => hname (by rw [he]; decide)
    rw [hself, Node.value_putValue_of_ne _ hne]
  · rw [hself, Node.value_putValue_self _ _ rfl]

/-- A reference written inside the child of a new collection. -/
theorem Refers.collection (hi : i < f.size)
    (hslot : (type, slot) ∈ [("array", "items"), ("object", "additional_properties")])
    (h : (f.collection i type slot k).Refers g f.size slots ref) :
    f.Refers g i (slot :: slots) ref := by
  have hsize := h.size_le
  rw [size_collection] at hsize
  -- The node of the collection is none of those written inside.
  have hself : g.get i = ((f.get i).putValue "type" (.str type)).putValue slot (.node f.size) :=
    (h.others i (by rw [size_collection]; exact Nat.lt_succ_of_lt hi) (Nat.ne_of_lt hi)).trans
      (get_collection hi)
  refine ⟨Nat.le_of_succ_le hsize, fun j hj hne => ?_, fun name hname => ?_, ?_⟩
  · rw [h.others j (by rw [size_collection]; exact Nat.lt_succ_of_lt hj) (Nat.ne_of_lt hj),
      get_collection_of_ne hj hne]
  · have hne : name ≠ slot ∧ name ≠ "type" := by
      simp only [typeNames, List.mem_cons, List.not_mem_nil, or_false, not_or] at hname
      simp only [List.mem_cons, Prod.mk.injEq, List.not_mem_nil, or_false] at hslot
      rcases hslot with ⟨-, rfl⟩ | ⟨-, rfl⟩
      · exact ⟨hname.2.2.1, hname.1⟩
      · exact ⟨hname.2.2.2, hname.1⟩
    rw [hself, Node.value_putValue_of_ne _ hne.1, Node.value_putValue_of_ne _ hne.2]
  · obtain ⟨j, hcollects, hj⟩ := h.inner
    have hchild : (g.get i).value slot = .node f.size := by
      rw [hself, Node.value_putValue_self _ _ rfl]
    have htype : (g.get i).value "type" = .str type := by
      have hne : "type" ≠ slot := by
        simp only [List.mem_cons, Prod.mk.injEq, List.not_mem_nil, or_false] at hslot
        rcases hslot with ⟨-, rfl⟩ | ⟨-, rfl⟩ <;> decide
      rw [hself, Node.value_putValue_of_ne _ hne, Node.value_putValue_self _ _ rfl]
    simp only [List.mem_cons, Prod.mk.injEq, List.not_mem_nil, or_false] at hslot
    rcases hslot with ⟨rfl, rfl⟩ | ⟨rfl, rfl⟩
    · exact ⟨j, .items htype hchild hcollects, hj⟩
    · exact ⟨j, .values htype hchild hcollects, hj⟩

end Forest

/-- A desk at which a model has been referred to, with the groups around it remembered. -/
def Desk.refer (e : Desk) (m : Model) (previous : Data) : Desk where
  registry := (e.registry.register m).2
  cache := if previous.truthy then e.cache.remember m.hash previous else e.cache

namespace MetadataDescriber

open Describe

/-! ### Types -/

/-- Types that are collections of a type, with the slots that lead to that type. -/
inductive Wraps (t : TypeExpr) : TypeExpr → List String → Prop
  | self : Wraps t t []
  | items {c : String} {v : TypeExpr} {slots : List String} (hc : c ∈ arrayTypes)
    (h : Wraps t v slots) : Wraps t (.mk c [.type v]) ("items" :: slots)
  | values {c : String} {key v : TypeExpr} {slots : List String} (hc : c ∈ arrayTypes)
    (h : Wraps t v slots) :
    Wraps t (.mk c [.type key, .type v]) ("additional_properties" :: slots)

/-- A name that stands for a class, whatever other classes are met. -/
structure NamesClass (w : World) (d : MetadataDescriber) (met : List String) (name : String) :
    Prop where
  family : name ∉ familyNames
  stands : ∀ s : Site, met ⊆ s.met → ∃ c?, resolve? w name s = .ok c? s ∧
    (∀ c ∈ c?, w.classes.isDate c = false) ∧ (c?.isSome ∨ (d.metadata.find? name).isSome)

variable {w : World} {d : MetadataDescriber} {met : List String} {name : String}
  {groups previous : Data} {s : Site} {e : Desk} {i : NodeId}

/-- A class is registered, its reference is written, and the groups around it are remembered. -/
theorem NamesClass.describeLeaf (h : NamesClass w d met name) (hmet : met ⊆ s.met)
    (hdesk : s.desk? = some e) (hfield : "ref" ∈ (s.draft.forest.get i).kind.fields) :
    describeLeaf w d name groups previous i s = .ok () { s with
      draft := s.draft.to (s.draft.forest.put i ((s.draft.forest.get i).putValue "ref"
        (.str (e.registry.register (.ofClass name groups)).1)))
      desk? := some (e.refer (.ofClass name groups) previous) } := by
  -- The name belongs to no family of types, so none of the early branches is taken.
  have hfamily := h.family
  simp only [familyNames, List.mem_append, not_or] at hfamily
  obtain ⟨⟨⟨⟨harray, hplain⟩, hinteger⟩, hnumber⟩, hmoment⟩ := hfamily
  obtain ⟨c?, hresolve, hdate, hsome⟩ := h.stands s hmet
  -- Not a moment: the class, where there is one, is no date.
  have hisMoment : isMoment w name s = .ok false s := by
    unfold isMoment
    rw [if_neg (by simpa using hmoment)]
    refine (Results.bind_of_ok hresolve).trans ?_
    cases c? with
    | none => rfl
    | some c =>
      show EStateM.Result.ok (w.classes.isDate c) s = _
      rw [hdate c rfl]
  -- A class: it resolves, or the metadata tell of it.
  have hisClass : isClass w d name s = .ok true s := by
    refine (Results.bind_of_ok hresolve).trans ?_
    cases c? with
    | none =>
      show EStateM.Result.ok (d.metadata.find? name).isSome s = _
      rw [hsome.resolve_left (by decide)]
    | some c => rfl
  rw [describeLeaf_of_notMem harray hplain hinteger hnumber]
  refine (Results.bind_of_ok hisMoment).trans ((Results.bind_of_ok hisClass).trans ?_)
  refine (Results.bind_of_ok (register_of_some hdesk _ _)).trans ?_
  obtain ⟨draft, desk?, classes, shelf⟩ := s
  -- The reference is written, and the model recorded, with its groups if it has any.
  cases hdesk
  have hset : setField i "ref" (.str (e.registry.register (.ofClass name groups)).1)
      ⟨draft, some { e with registry := (e.registry.register (.ofClass name groups)).2 }, classes,
        shelf⟩ = _ :=
    edit_of_ok (Edit.assign?_field hfield _)
  refine (Results.bind_of_ok hset).trans ?_
  unfold Desk.refer
  cases previous.truthy <;> rfl

/-- A collection is described as its items are in a new child. -/
theorem collect_eq {type slot : String} {k : Kind} {act : NodeId → Describe Unit}
    (hi : i < s.draft.forest.size) (htype : "type" ∈ (s.draft.forest.get i).kind.fields)
    (hslot : slot ∈ (s.draft.forest.get i).kind.slots) :
    (do setField i "type" (.str type)
        act (← renewChild i slot k) : Describe Unit) s
      = act s.draft.forest.size
        { s with draft := s.draft.to (s.draft.forest.collection i type slot k) } := by
  let d₁ := s.draft.to (s.draft.forest.put i ((s.draft.forest.get i).putValue "type" (.str type)))
  refine (Results.bind_of_ok (edit_of_ok (Edit.assign?_field htype _))).trans ?_
  let d₂ := d₁.to (Edit.withChild d₁.forest i k [] slot (.node d₁.forest.size))
  have hrenew : renewChild i slot k { s with draft := d₁ }
      = .ok d₁.forest.size { s with draft := d₂ } := by
    refine edit_of_ok (Edit.renew_eq rfl ((Forest.size_put ..).symm ▸ hi) ?_)
    rw [Forest.get_put_self _ hi]
    exact hslot
  refine (Results.bind_of_ok hrenew).trans ?_
  have hsize : d₁.forest.size = s.draft.forest.size := Forest.size_put ..
  have hd₂ : d₂ = s.draft.to (s.draft.forest.collection i type slot k) := by
    show d₁.to _ = _
    rw [hsize]
    rfl
  rw [hsize, hd₂]

variable {t v : TypeExpr} {slots : List String}

/-- What is a class in collections is no array of anything. -/
theorem Wraps.isOpenArray (h : Wraps t v slots) (ht : t.name ∉ arrayTypes) :
    isOpenArray v = false := by
  cases h with
  | self =>
    have hname : t.name ≠ "array" := fun he => ht (he ▸ by decide)
    rw [MetadataDescriber.isOpenArray, beq_false_of_ne hname, Bool.false_and]
  | items | values => exact Bool.and_false _

/-- A class in collections is described: it is registered, its reference is written at the inner
    node, and the groups around it are remembered. -/
theorem describeItem_wraps (groups previous : Data) (hwraps : Wraps t v slots)
    (h : NamesClass w d met t.name) (hmet : met ⊆ s.met) (hdesk : s.desk? = some e)
    (hi : i < s.draft.forest.size) (hk : (s.draft.forest.get i).kind ∈ Kind.schemas) :
    ∃ f, s.draft.forest.Refers f i slots (e.registry.register (.ofClass t.name groups)).1 ∧
      describeItem w d groups previous i v s = .ok () { s with
        draft := s.draft.to f
        desk? := some (e.refer (.ofClass t.name groups) previous) } := by
  -- The names of arrays are among those that no class has.
  have harray : t.name ∉ arrayTypes := fun hmem => h.family (by
    simp only [familyNames, List.mem_append]
    exact .inl (.inl (.inl (.inl hmem))))
  induction hwraps generalizing s i with
  | self =>
    obtain ⟨name, params⟩ := t
    have hitem : itemType? (.mk name params) = none :=
      if_neg (by rw [List.contains_iff_mem]; exact harray)
    refine ⟨_, .here hi _, ?_⟩
    rw [describeItem, hitem]
    -- Innermost, the class is described as a leaf.
    exact h.describeLeaf hmet hdesk (Kind.schemaFields_subset _ hk (by decide))
  | @items c v slots hc hwraps ih =>
    have hitem : itemType? (.mk c [.type v]) = some (v, false) :=
      if_pos (List.contains_iff_mem.2 hc)
    -- One level further in: the part is made, and what is inside it is described there.
    let f₁ := s.draft.forest.collection i "array" "items" .items
    obtain ⟨f, hf, hinner⟩ := ih (s := { s with draft := s.draft.to f₁ }) hmet hdesk
      (Forest.size_lt_collection ..) (by rw [Forest.kind_collection hi]; decide)
    refine ⟨f, hf.collection hi (by decide), ?_⟩
    rw [describeItem, hitem]
    dsimp only
    rw [collect_eq hi (Kind.schemaFields_subset _ hk (by decide)) (Kind.mem_slots_of_placement?
      (SharedType.placement?_parts hk).1), describeParam]
    exact hinner
  | @values c key v slots hc hwraps ih =>
    have hitem : itemType? (.mk c [.type key, .type v]) = some (v, true) :=
      if_pos (List.contains_iff_mem.2 hc)
    let f₁ := s.draft.forest.collection i "object" "additional_properties" .additionalProperties
    obtain ⟨f, hf, hinner⟩ := ih (s := { s with draft := s.draft.to f₁ }) hmet hdesk
      (Forest.size_lt_collection ..) (by rw [Forest.kind_collection hi]; decide)
    refine ⟨f, hf.collection hi (by decide), ?_⟩
    rw [describeItem, hitem]
    dsimp only
    rw [hwraps.isOpenArray harray, if_neg Bool.false_ne_true,
      collect_eq hi (Kind.schemaFields_subset _ hk (by decide)) (Kind.mem_slots_of_placement?
        (SharedType.placement?_parts hk).2), describeParam, describeParam]
    exact hinner

end MetadataDescriber

/-! ### Groups -/

/-- Whether the class of a name declares groups: as it is known at a desk, or else as the metadata
    has it. -/
def Desk.uses? (e : Desk) (d : MetadataDescriber) (name : String) : Option Bool :=
  (e.cache.groupUsage.lookup name).getD (d.metadata.usesGroups? name)

/-- The groups through which the type of a property is seen, and those around it that are narrowed
    down, where it is known whether the type declares groups. -/
def Desk.groupsFor (e : Desk) (m : Model) (property : Data) (uses? : Option Bool) : Data × Data :=
  match Groups.nested m.groups property with
  | some narrowed => (narrowed, m.groups)
  | none =>
    if (e.cache.previous m.hash).truthy = false then (m.groups, .null)
    else if uses? = some false then (.null, .null)
    else (e.cache.previous m.hash, .null)

/-- Sites at which the same models are registered, and the same groups are remembered. -/
def Site.SameRecords (s₁ s₂ : Site) : Prop :=
  ∃ e₁ e₂, s₁.desk? = some e₁ ∧ s₂.desk? = some e₂ ∧ e₂.registry = e₁.registry ∧
    e₂.cache.previousGroups = e₁.cache.previousGroups

/-- Two sites at which one model of a class has been referred to: at a node, and inside collections
    that start at the node. -/
def Site.ReferTo (s₁ s₂ : Site) (className : String) (slots : List String) : Prop :=
  ∃ (f : Forest) (i : NodeId) (e : Desk) (m : Model), s₁.desk? = some e ∧
    m.className? = some className ∧ m.hash ∈ e.registry.keys ∧
      f.Refers s₁.draft.forest i [] (e.registry.reference m.hash) ∧
        f.Refers s₂.draft.forest i slots (e.registry.reference m.hash)

namespace MetadataDescriber

open Describe

variable {w : World} {d : MetadataDescriber} {r : Reader} {m : Model} {p : PropertyMetadata}
  {schema : NodeId} {s : Site} {e : Desk} {t v : TypeExpr} {slots : List String}

/-- The answer is the one of the desk, which may know more afterwards. -/
theorem typeUsesGroups?_eq (hdesk : s.desk? = some e) :
    ∃ us, d.typeUsesGroups? t s = .ok (e.uses? d t.name) (s.withUsage us) := by
  obtain ⟨draft, desk?, classes, shelf⟩ := s
  cases hdesk
  unfold typeUsesGroups? Desk.uses?
  cases hlookup : e.cache.groupUsage.lookup t.name with
  | some known =>
    refine ⟨e.cache.groupUsage, (Results.bind_of_ok (desk_of_some rfl _)).trans ?_⟩
    dsimp only
    rw [hlookup]
    rfl
  | none =>
    refine ⟨e.cache.groupUsage ++ [(t.name, d.metadata.usesGroups? t.name)],
      (Results.bind_of_ok (desk_of_some rfl _)).trans ?_⟩
    dsimp only
    rw [hlookup]
    rfl

/-- The groups for a typed property are those of the desk, which may know more afterwards. -/
theorem propertyGroups_of_type (hdesk : s.desk? = some e) (htype : p.type? = some t) :
    ∃ us, d.propertyGroups m p s
      = .ok (e.groupsFor m p.name (e.uses? d t.name)) (s.withUsage us) := by
  have hsame : s.withUsage e.cache.groupUsage = s := by
    obtain ⟨draft, desk?, classes, shelf⟩ := s
    cases hdesk
    rfl
  unfold propertyGroups Desk.groupsFor
  cases Groups.nested m.groups p.name with
  | some narrowed => exact ⟨e.cache.groupUsage, by rw [hsame]; rfl⟩
  | none =>
    cases htruthy : (e.cache.previous m.hash).truthy with
    | false =>
      refine ⟨e.cache.groupUsage, (Results.bind_of_ok (desk_of_some hdesk _)).trans ?_⟩
      rw [hsame, htruthy]
      rfl
    | true =>
      obtain ⟨us, huses⟩ := typeUsesGroups?_eq (d := d) (t := t) hdesk
      refine ⟨us, (Results.bind_of_ok (desk_of_some hdesk _)).trans ?_⟩
      rw [htruthy, htype]
      refine (Results.bind_of_ok huses).trans ?_
      rcases e.uses? d t.name with _ | _ | _ <;> rfl

/-- The node of a property with its overrides, and whether they decide its type. -/
def openProperty (w : World) (d : MetadataDescriber) (r : Reader) (p : PropertyMetadata)
    (groups : Data) (schema : NodeId) : Describe (NodeId × Bool) := do
  let name ← Describe.ofExcept (d.exposedName p)
  let i ← propertyNode w r p groups name schema
  let decided ← Describe.isDecided i
  return (i, decided)

/-- A property with a type is described by its overrides if they decide its type, and else by the
    type. -/
theorem describeProperty_of_type (htype : p.type? = some t) {groups previous : Data} {s' : Site}
    (hgroups : d.propertyGroups m p s = .ok (groups, previous) s') :
    let groups := Groups.ofNames (Groups.normalize groups Groups.defaultGroup)
    d.describeProperty w r m p schema s = (do
      let (i, decided) ← openProperty w d r p groups schema
      if decided then return
      describeItem w d groups previous i t) s' := by
  refine (Results.bind_of_ok hgroups).trans ?_
  simp only [openProperty, bind_assoc, pure_bind, htype]

/-- A property is opened without asking whether classes declare groups. -/
theorem openProperty_ignoresUsage (groups : Data) :
    IgnoresUsage (openProperty w d r p groups schema) :=
  .bind (.ofExcept _) fun name => .bind (.propertyNode r p groups name schema) fun i =>
    .bind (.isDecided i) fun _ => .pure _

/-- What the opening of a property leaves. -/
theorem ready_openProperty {T : NodeId → Prop} {groups : Data} {i : NodeId} {decided : Bool}
    {s' : Site} (hs : s.Ready T schema [])
    (h : openProperty w d r p groups schema s = .ok (i, decided) s') :
    s'.Ready T i [] ∧ s.met ⊆ s'.met := by
  have hlawful := Rules.upright_lawful T
  constructor
  · have hdoes : (Rules.upright T).Does (openProperty w d r p groups schema) s
        fun a f => (Rules.upright T).isProperty f a.1 := by
      refine .bind hlawful (.ofExcept hlawful (Q := fun _ _ => True) fun _ _ => trivial)
        fun name t ht _ => ?_
      refine .bind hlawful (.metadataNode hlawful (Rules.upright_covers w) r (p := p)
        ⟨fun _ _ _ _ => trivial, fun _ _ _ _ => trivial⟩ trivial
        (hlawful.isOpen_of_leads ht hs.isOpen)) fun i u _ hi => ?_
      refine .bind hlawful (.isDecided hlawful i) fun decided v hv _ => ?_
      exact .pure hlawful (hlawful.isProperty_of_leads hv hi)
    obtain ⟨hready, hproperty⟩ := hs.does hdoes h
    exact { hready with isOpen := hlawful.isOpen_of_isProperty hproperty }
  · have hadvances : Advances none (openProperty w d r p groups schema) :=
      .bind (.ofExcept _) fun name => .bind (.propertyNode r p groups name schema) fun i =>
        .bind (.isDecided i) fun _ => .pure _
    exact (hadvances s _ s' h).met

/-- A class and collections of the class described at one node, whatever is known of the groups that
    classes declare. -/
theorem describeItem_alike {met : List String} {i : NodeId} (groups previous : Data)
    (hclass : NamesClass w d met t.name) (hwraps : Wraps t v slots) (hmet : met ⊆ s.met)
    (hdesk : s.desk? = some e) (hi : i < s.draft.forest.size)
    (hk : (s.draft.forest.get i).kind ∈ Kind.schemas) (us us' : List (String × Option Bool)) :
    ∃ s₁ s₂, describeItem w d groups previous i t (s.withUsage us) = .ok () s₁ ∧
      describeItem w d groups previous i v (s.withUsage us') = .ok () s₂ ∧
        s₁.SameRecords s₂ ∧ s₁.ReferTo s₂ t.name slots := by
  have hknown : ∀ us, (s.withUsage us).desk? = some { e with
      cache := { e.cache with groupUsage := us } } := by
    intro us
    show s.desk?.map _ = _
    rw [hdesk]
    rfl
  obtain ⟨f, hf, hok⟩ := describeItem_wraps groups previous
    (s := s.withUsage us) .self hclass hmet (hknown us) hi hk
  obtain ⟨f', hf', hok'⟩ := describeItem_wraps groups previous
    (s := s.withUsage us') hwraps hclass hmet (hknown us') hi hk
  refine ⟨_, _, hok, hok', ⟨_, _, rfl, rfl, rfl, ?_⟩, s.draft.forest, i, _,
    .ofClass t.name groups, rfl, rfl, Registry.mem_keys_add_self .., hf, hf'⟩
  unfold Desk.refer
  cases previous.truthy <;> rfl

/-- A property of a class, and the same property with collections of the class, are described alike
    if the model was not narrowed down, or the property is narrowed down itself, or it is known of
    the class and of the collections alike whether they declare no groups. Either both fail, and for
    the same reason, or the same models are registered, the same groups are remembered, and both
    refer to the same model of the class, unless overrides decide the type: then the documents are
    the same. -/
theorem describeProperty_wraps {T : NodeId → Prop} (hs : s.Ready T schema [])
    (hdesk : s.desk? = some e) (htype : p.type? = some t)
    (hclass : NamesClass w d s.met t.name) (hwraps : Wraps t v slots)
    (husage : Groups.nested m.groups p.name = none → (e.cache.previous m.hash).truthy = true →
      (e.uses? d v.name = some false ↔ e.uses? d t.name = some false)) :
    (∀ s₁, d.describeProperty w r m p schema s = .ok () s₁ → ∃ s₂,
      d.describeProperty w r m { p with type? := some v } schema s = .ok () s₂ ∧
        s₁.SameRecords s₂ ∧ (s₂.draft = s₁.draft ∨ s₁.ReferTo s₂ t.name slots)) ∧
    (∀ e' s₁, d.describeProperty w r m p schema s = .error e' s₁ → ∃ s₂,
      d.describeProperty w r m { p with type? := some v } schema s = .error e' s₂) := by
  obtain ⟨us, hgroups⟩ := propertyGroups_of_type (d := d) (m := m) hdesk htype
  obtain ⟨us', hgroups'⟩ := propertyGroups_of_type (d := d) (m := m)
    (p := { p with type? := some v }) hdesk rfl
  -- The groups of both properties are the same.
  have hsame : e.groupsFor m p.name (e.uses? d v.name)
      = e.groupsFor m p.name (e.uses? d t.name) := by
    unfold Desk.groupsFor
    cases hnested : Groups.nested m.groups p.name with
    | some narrowed => rfl
    | none =>
      cases htruthy : (e.cache.previous m.hash).truthy with
      | false => rfl
      | true => simp only [husage hnested htruthy, Bool.true_eq_false, if_false]
  rw [hsame] at hgroups'
  generalize e.groupsFor m p.name (e.uses? d t.name) = both at hgroups hgroups'
  obtain ⟨groups, previous⟩ := both
  rw [describeProperty_of_type htype hgroups, describeProperty_of_type (t := v) rfl hgroups']
  dsimp only
  generalize Groups.ofNames (Groups.normalize groups Groups.defaultGroup) = groups
  rw [show openProperty w d r { p with type? := some v } groups schema
    = openProperty w d r p groups schema from rfl]
  have hopens : IgnoresUsage (openProperty w d r p groups schema) := openProperty_ignoresUsage groups
  have hopens₁ := hopens us s
  have hopens₂ := hopens us' s
  cases hopen : openProperty w d r p groups schema s with
  | error e' s' =>
    rw [hopen] at hopens₁ hopens₂
    rw [Results.bind_of_error hopens₁, Results.bind_of_error hopens₂]
    refine ⟨fun s₁ h => ?_, fun e'' s₁ h => ?_⟩
    · cases h
    · cases h
      exact ⟨_, rfl⟩
  | ok a s' =>
    obtain ⟨i, decided⟩ := a
    rw [hopen] at hopens₁ hopens₂
    rw [Results.bind_of_ok hopens₁, Results.bind_of_ok hopens₂]
    obtain ⟨hready, hmet⟩ := ready_openProperty hs hopen
    obtain ⟨e', hdesk'⟩ := hready.desk
    obtain ⟨-, -, hi, hk⟩ := hready.isOpen
    cases decided with
    | true =>
      dsimp only
      rw [if_pos rfl, if_pos rfl]
      refine ⟨fun s₁ h => ?_, fun _ _ h => by cases h⟩
      cases h
      exact ⟨_, rfl, ⟨_, _, congrArg (Option.map _) hdesk', congrArg (Option.map _) hdesk', rfl,
        rfl⟩, .inl rfl⟩
    | false =>
      obtain ⟨s₁, s₂, h₁, h₂, hrecords, hrefer⟩ :=
        describeItem_alike groups previous hclass hwraps hmet hdesk' hi hk us us'
      dsimp only
      rw [if_neg Bool.false_ne_true, if_neg Bool.false_ne_true, h₁, h₂]
      refine ⟨fun s₁ h => ?_, fun _ _ h => by cases h⟩
      cases h
      exact ⟨s₂, rfl, hrecords, .inr hrefer⟩

/-! ### A class that declares no groups -/

/-- What metadata says about a class without groups. -/
def pointMetadata : Metadata where
  classes := [{ name := .str "shop.Point", properties := [{ className := .str "shop.Point"
                                                            name := .str "x" }] }]

/-- What metadata says about a property of the class. -/
def centreMetadata : PropertyMetadata where
  className := .str "shop.Shape"
  name := .str "centre"
  type? := some (.mk "shop.Point" [])

/-- An empty schema, with groups remembered around a model. -/
def rememberingSite (m : Model) (previous : Data) : Site :=
  { emptySchemaSite with desk? := some ⟨Registry.create "#/components/schemas/" none [],
      ({} : Cache).remember m.hash previous⟩ }

/-- The class of points is one that the describer finds. -/
theorem namesClass_point (d : MetadataDescriber) (met : List String) :
    NamesClass { classes := pointClasses } d met "shop.Point" := by
  refine ⟨by decide +kernel, fun s _ => ⟨some "shop.Point", ?_, ?_, .inl rfl⟩⟩
  · have hnew : pointClasses.resolve [] "shop.Point" = .ok (some "shop.Point") := by rfl
    refine resolve?_of_ok ?_
    rw [ClassTable.resolve_eq, hnew, ite_self]
  · rintro c ⟨⟩
    decide +kernel

/-- A schema stands ready at the desk that remembers groups. -/
theorem ready_rememberingSite (m : Model) (previous : Data) :
    (rememberingSite m previous).Ready (fun j => j = 0 ∨ 1 ≤ j) 0 [] := by
  have hblank : emptySchemaSite.draft.forest.Blank 0 .schema :=
    ⟨by decide, by decide, .fresh (fun _ h => absurd h List.not_mem_nil) _, fun _ _ => rfl⟩
  have hroot : emptySchemaSite.draft.forest.Rooted 0 := .root (by decide) rfl
  exact .of_blank hblank hroot rfl

/-- Lists of points under texts are described as a point is, where the property is narrowed down. -/
theorem describeProperty_wraps_centre :
    let w : World := { classes := pointClasses }
    let m : Model := .ofClass "shop.Shape" (.ofList [.ofEntries [(.str "centre", .ofList [])]])
    let lists : TypeExpr := .mk "array" [.type (.mk "string" []),
      .type (.mk "list" [.type (.mk "shop.Point" [])])]
    ∃ s₁ s₂, describeProperty w ⟨pointMetadata, none⟩ ⟨true, none⟩ m centreMetadata 0
        (rememberingSite m (.ofList [.str "a"])) = .ok () s₁ ∧
      describeProperty w ⟨pointMetadata, none⟩ ⟨true, none⟩ m
        { centreMetadata with type? := some lists } 0 (rememberingSite m (.ofList [.str "a"]))
          = .ok () s₂ ∧
      s₁.SameRecords s₂ ∧ s₁.ReferTo s₂ "shop.Point" ["additional_properties", "items"] := by
  intro w m lists
  obtain ⟨s₁, h₁, hsize⟩ : ∃ s₁, describeProperty w ⟨pointMetadata, none⟩ ⟨true, none⟩ m
      centreMetadata 0 (rememberingSite m (.ofList [.str "a"])) = .ok () s₁ ∧
        (s₁.draft.forest.size == 2) = true := Results.exists_of_endsIn (by decide +kernel)
  have hwraps : Wraps (.mk "shop.Point" []) lists ["additional_properties", "items"] :=
    .values (by decide) (.items (by decide) .self)
  obtain ⟨hall, -⟩ := describeProperty_wraps (d := ⟨pointMetadata, none⟩) (r := ⟨true, none⟩)
    (m := m) (p := centreMetadata) (ready_rememberingSite m (.ofList [.str "a"])) rfl rfl
    (namesClass_point _ _) hwraps fun h => absurd h (by decide +kernel)
  obtain ⟨s₂, h₂, hrecords, hrefer⟩ := hall s₁ h₁
  refine ⟨s₁, s₂, h₁, h₂, hrecords, hrefer.resolve_left fun hdraft => ?_⟩
  obtain ⟨s₂', h₂', hsize'⟩ : ∃ s₂, describeProperty w ⟨pointMetadata, none⟩ ⟨true, none⟩ m
      { centreMetadata with type? := some lists } 0 (rememberingSite m (.ofList [.str "a"]))
        = .ok () s₂ ∧ (s₂.draft.forest.size == 4) = true :=
    Results.exists_of_endsIn (by decide +kernel)
  cases h₂.symm.trans h₂'
  rw [hdraft, beq_iff_eq.1 hsize] at hsize'
  exact absurd hsize' (by decide)

/-- Not so where it is not: the class is known to declare no groups, of a list nothing is known, and
    so the items of the list are seen through the groups around the model. -/
theorem describeProperty_wraps_differs :
    let w : World := { classes := pointClasses }
    let m : Model := .ofClass "shop.Shape" (.ofList [.str "x"])
    let list : TypeExpr := .mk "array" [.type (.mk "shop.Point" [])]
    ∃ s₁ s₂, describeProperty w ⟨pointMetadata, none⟩ ⟨true, none⟩ m centreMetadata 0
        (rememberingSite m (.ofList [.str "a"])) = .ok () s₁ ∧
      describeProperty w ⟨pointMetadata, none⟩ ⟨true, none⟩ m
        { centreMetadata with type? := some list } 0 (rememberingSite m (.ofList [.str "a"]))
          = .ok () s₂ ∧
      ¬s₁.SameRecords s₂ := by
  intro w m list
  let key : String := (Model.ofClass "shop.Point" .null).hash
  let run (p : PropertyMetadata) : Describe Unit :=
    describeProperty w ⟨pointMetadata, none⟩ ⟨true, none⟩ m p 0
  let site := rememberingSite m (.ofList [.str "a"])
  -- Alone the class is registered without groups, in the list it is not.
  obtain ⟨hcentre, hlist⟩ : Results.endsIn (run centreMetadata)
        (fun s => s.desk?.map (·.registry.has key) == some true) site = true ∧
      Results.endsIn (run { centreMetadata with type? := some list })
        (fun s => s.desk?.map (·.registry.has key) == some false) site = true := by
    decide +kernel
  obtain ⟨s₁, h₁, hkey⟩ := Results.exists_of_endsIn hcentre
  obtain ⟨s₂, h₂, hkey'⟩ := Results.exists_of_endsIn hlist
  refine ⟨s₁, s₂, h₁, h₂, ?_⟩
  rintro ⟨e₁, e₂, he₁, he₂, hregistry, -⟩
  rw [beq_iff_eq] at hkey hkey'
  rw [he₁, Option.map_some] at hkey
  rw [he₂, Option.map_some, hregistry, hkey] at hkey'
  cases hkey'

end MetadataDescriber

end ApiDoc
