import ApiDoc.Proofs.Describe.Results
import ApiDoc.Proofs.Describe.SharedTypes
import ApiDoc.Proofs.Registry.Register
import ApiDoc.Proofs.Tree.Refinement

namespace ApiDoc

/-!
# Schemas of shared types

* `SharedType.fill` — a type written into a node that holds nothing yet;
* `SharedType.into` — the tree that stands there then;
* `SharedType.schema` — the content that the document shows for it;
* `Forest.Blank` — a node that holds nothing yet;
* `Forest.Blank.fill` — a type can be written into such a node, which then shows the content.
-/

namespace SharedType

variable (r : Registry)

/-- The reference of a class without groups. -/
def referenceOf (c : TypeExpr.Name) : String := r.reference (Model.ofClass c.text .null).hash

/-- A type written into a node that holds nothing yet. -/
def fill : SharedType → NodeId → Edit Unit
  | plain p, i => do
    Edit.assign? i "type" (.str p.type)
    if let some format := p.format? then Edit.assign? i "format" (.str format)
  | object c, i => Edit.assign? i "ref" (.str (referenceOf r c))
  | list a, i => do
    Edit.assign? i "type" (.str "array")
    fill a (← Edit.child i .items)
  | mapping a, i => do
    Edit.assign? i "type" (.str "object")
    fill a (← Edit.child i .additionalProperties)

/-- The tree of a type at a node of a kind of schemas. -/
def into : SharedType → Kind → Tree
  | plain p, k => match p.format? with
    | none => (Tree.fresh k []).setField "type" (.str p.type)
    | some format =>
      ((Tree.fresh k []).setField "type" (.str p.type)).setField "format" (.str format)
  | object c, k => (Tree.fresh k []).setField "ref" (.str (referenceOf r c))
  | list a, k => ((Tree.fresh k []).setField "type" (.str "array")).setSlot "items"
    (.child (into a .items))
  | mapping a, k => ((Tree.fresh k []).setField "type" (.str "object")).setSlot
    "additional_properties" (.child (into a .additionalProperties))

/-- The content that a document shows for a type. -/
def schema : SharedType → Entries
  | plain p => (Data.str "type", .str p.type) ::
    p.format?.toList.map fun format => (Data.str "format", .str format)
  | object c => [(.str "$ref", .str (referenceOf r c))]
  | list a => [(.str "type", .str "array"), (.str "items", .ofEntries a.schema)]
  | mapping a => [(.str "type", .str "object"), (.str "additionalProperties", .ofEntries a.schema)]

variable {r : Registry}

/-! ### The tree and its content -/

theorem into_spec (T : SharedType) (k : Kind) :
    (T.into r k).kind = k ∧ (T.into r k).keys = [] := by
  cases T with
  | plain p => cases p <;> exact ⟨rfl, rfl⟩
  | object c => exact ⟨rfl, rfl⟩
  | list a => exact ⟨rfl, rfl⟩
  | mapping a => exact ⟨rfl, rfl⟩

/-- Schemas of all kinds show the same. -/
theorem shown_withKind {t : Tree} (ht : t.kind = .items) {k : Kind} (hk : k ∈ Kind.schemas) :
    ({ t with kind := k } : Tree).shown = t.shown := by
  have hnames : k.shownNames = Kind.shownNames .items := by
    revert k
    decide
  have hlayout : k.layout = Kind.layout .items := by
    revert k
    decide
  have hplacement : ∀ name, k.placement? name = Kind.placement? .items name := fun name => by
    rw [Kind.placement?, Kind.placement?, hlayout]
  rw [Tree.shown_eq, Tree.shown_eq, Tree.own, Tree.own, hnames, ht]
  simp only [Tree.shownAt, hplacement, ht]

theorem into_withKind (T : SharedType) (k : Kind) :
    T.into r k = { T.into r .items with kind := k } := by
  cases T with
  | plain p => cases p <;> rfl
  | object c => rfl
  | list a => rfl
  | mapping a => rfl

/-- What a document shows for the tree of a type is the content of the type. -/
theorem shown_into (T : SharedType) {k : Kind} (hk : k ∈ Kind.schemas) :
    (T.into r k).shown = T.schema r := by
  rw [into_withKind T k, shown_withKind (T.into_spec .items).1 hk]
  induction T generalizing k with
  | plain p => cases p <;> rfl
  | object c => rfl
  | list a ih =>
    rw [schema, ← ih (k := .items) (by decide)]
    rfl
  | mapping a ih =>
    rw [schema, ← ih (k := .items) (by decide),
      ← shown_withKind (a.into_spec .items).1 (k := .additionalProperties) (by decide),
      ← into_withKind]
    rfl

/-- The slots of schemas for the parts of a type. -/
theorem placement?_parts {k : Kind} (hk : k ∈ Kind.schemas) :
    k.placement? "items" = some (.single .items false) ∧
    k.placement? "additional_properties" = some (.single .additionalProperties true) := by
  revert k
  decide

/-- The fields of schemas for a type are shown. -/
theorem shownFields_schemas {k : Kind} (hk : k ∈ Kind.schemas) :
    "type" ∈ k.shownFields ∧ "format" ∈ k.shownFields ∧ "ref" ∈ k.shownFields := by
  revert k
  decide

/-- A child in one slot, of the kind that the slot is for. -/
theorem typed_setChild {u c : Tree} {σ : String} {k : Kind} {b : Bool}
    (hu : u.slot = fun _ => .empty) (hp : u.kind.placement? σ = some (.single k b))
    (hkind : c.kind = k) (hkeys : c.keys = []) (hc : c.All Tree.Typed) :
    (u.setSlot σ (.child c)).All Tree.Typed := by
  have hslot : ∀ τ, (u.setSlot σ (.child c)).slot τ = if τ = σ then .child c else .empty := by
    intro τ
    show (if τ = σ then _ else u.slot τ) = _
    rw [hu]
  refine .mk (fun τ p hτ => ?_) fun τ d hd => ?_
  · rw [hslot]
    split
    · rename_i he
      subst he
      cases hp.symm.trans hτ
      exact ⟨rfl, hkind, hkeys, fun _ _ h => nomatch h⟩
    · trivial
  · rw [hslot] at hd
    split at hd
    · rw [List.mem_singleton.1 hd]
      exact hc
    · cases hd

theorem typed_into (T : SharedType) {k : Kind} (hk : k ∈ Kind.schemas) :
    (T.into r k).All Tree.Typed := by
  have hleaf : ∀ u : Tree, u.slot = (fun _ => .empty) → u.All Tree.Typed := fun u hu =>
    .leaf (Tree.typed_fresh hu) hu
  induction T generalizing k with
  | plain p => cases p <;> exact hleaf _ rfl
  | object c => exact hleaf _ rfl
  | list a ih =>
    exact typed_setChild rfl (placement?_parts hk).1 (a.into_spec _).1 (a.into_spec _).2
      (ih (by decide))
  | mapping a ih =>
    exact typed_setChild rfl (placement?_parts hk).2 (a.into_spec _).1 (a.into_spec _).2
      (ih (by decide))

end SharedType

/-! ### Writing a type -/

namespace Edit

variable {d : Draft} {F : Prop} {i : NodeId} {A : Finset NodeId} {t : Tree}

theorem assign?_field {name : String} (hname : name ∈ (d.forest.get i).kind.fields) (v : Data) :
    assign? i name v d = assign i name v d := by
  show (ofExcept ((d.forest.get i).assign? name v) >>= fun n => setNode i n) d = _
  rw [Node.assign?_field _ hname]
  rfl

/-- A new child put into a slot, in place of what is there. -/
theorem renew_eq {k c : Kind} {σ : String} (hkind : (d.forest.get i).kind = k)
    (hi : i < d.forest.size) (hσ : σ ∈ k.slots) :
    (do
      let j ← addDetached i c []
      assign? i σ (.node j)
      return j : Edit NodeId) d
      = .ok d.forest.size (d.to (withChild d.forest i c [] σ (.node d.forest.size))) := by
  have hfields : Entries.AreFields c [] := fun _ h => absurd h List.not_mem_nil
  rw [Results.bind_of_ok (addDetached_eq hfields), Results.bind_of_ok (assign?_slot ?_ _)]
  · show EStateM.Result.ok d.forest.size (d.to ((d.forest.add _).2.put i
      (((d.forest.add _).2.get i).putValue σ (.node d.forest.size)))) = _
    rw [d.forest.get_add_of_lt hi]
    rfl
  · show σ ∈ ((d.forest.add _).2.get i).kind.slots
    rw [d.forest.get_add_of_lt hi, hkind]
    exact hσ

/-- A text set in a field that is shown. -/
theorem Meets.assignText? (hd : d.forest.Holds t i A) (hkeys : t.keys = []) {name : String}
    (hname : name ∈ t.kind.shownFields) (s : String) : Meets (assign? i name (.str s)) d F
      fun _ d' => d.Turned i A (t.setField name (.str s)) d' := by
  have hfield : name ∈ t.kind.fields := (List.mem_filter.1 hname).1
  have hput : t.put name (.str s) = t.setField name (.str s) := by
    rw [Tree.put, Tree.told, hkeys, if_neg List.not_mem_nil, if_pos hname]
    rfl
  unfold Meets
  rw [assign?_field (hd.kind ▸ hfield), ← hput]
  exact Meets.assignField (F := F) hd hfield _

/-- A new child of a node, and what is written into it. -/
theorem Meets.fill_part {u c : Tree} {σ : String} {k : Kind} {b : Bool} {d₁ : Draft}
    {act : NodeId → Edit Unit} (h : d.Turned i A u d₁) (hu : u.slot = fun _ => .empty)
    (hp : u.kind.placement? σ = some (.single k b))
    (hact : ∀ P j d₂, d₂.forest.Holds (.fresh k []) j P →
      Meets (act j) d₂ F fun _ d' => d₂.Turned j P c d') :
    Meets (do act (← Edit.child i k)) d₁ F fun _ d' => d.Turned i A (u.setSlot σ (.child c)) d' := by
  refine .bind (.child h.holds (Tree.typed_fresh hu) hp) fun j d₂ ⟨h₂, hj⟩ => ?_
  have hslot : (u.setSlot σ (.child ((u.slot σ).childOr (.fresh k [])))).slot σ
      = .child (.fresh k []) := by
    rw [Tree.setSlot_slot_self, hu]
    rfl
  refine (Meets.inside h₂.holds (n := 0) (c := .fresh k []) ?_ hj fun P hP => hact P j d₂ hP).mono
    fun _ d₃ h₃ => ?_
  · rw [hslot]
    rfl
  · have h₃ := h.trans (h₂.trans h₃)
    rw [hslot, Tree.setSlot_setSlot] at h₃
    exact h₃

end Edit

namespace SharedType

open Edit

variable {r : Registry} {d : Draft} {F : Prop} {i : NodeId} {A : Finset NodeId} {k : Kind}

/-- A type is written into a node that holds nothing yet. -/
theorem fill_meets (T : SharedType) (hk : k ∈ Kind.schemas)
    (hd : d.forest.Holds (.fresh k []) i A) :
    Meets (T.fill r i) d F fun _ d' => d.Turned i A (T.into r k) d' := by
  obtain ⟨htype, hformat, href⟩ := shownFields_schemas hk
  induction T generalizing d i A k with
  | plain p =>
    refine .bind (.assignText? hd rfl htype _) fun _ d₁ h₁ => ?_
    unfold into
    cases p.format? with
    | none => exact .pure h₁
    | some f => exact (Meets.assignText? h₁.holds rfl hformat _).mono fun _ d₂ h₂ => h₁.trans h₂
  | object c => exact .assignText? hd rfl href _
  | list a ih =>
    refine .bind (.assignText? hd rfl htype _) fun _ d₁ h₁ => ?_
    refine .fill_part h₁ rfl (placement?_parts hk).1 fun P j d₂ hj => ?_
    exact ih (by decide) hj (by decide) (by decide) (by decide)
  | mapping a ih =>
    refine .bind (.assignText? hd rfl htype _) fun _ d₁ h₁ => ?_
    refine .fill_part h₁ rfl (placement?_parts hk).2 fun P j d₂ hj => ?_
    exact ih (by decide) hj (by decide) (by decide) (by decide)

end SharedType

/-! ### Nodes that hold nothing yet -/

/-- A node of a kind of schemas that shows nothing. -/
structure Forest.Blank (f : Forest) (i : NodeId) (k : Kind) : Prop where
  schema : k ∈ Kind.schemas
  bound : i < f.size
  root : (f.get i).Matches (.fresh k [])
  slots : ∀ σ ∈ k.slots, (f.get i).value σ = .unset

namespace Forest.Blank

open Edit SharedType

variable {d d' : Draft} {i : NodeId} {k : Kind}

theorem holds {f : Forest} (h : f.Blank i k) : f.Holds (.fresh k []) i {i} :=
  .leaf h.root h.slots rfl h.bound rfl

/-- A new node. -/
theorem new {f : Forest} {j : NodeId} (hk : k ∈ Kind.schemas) (hj : j < f.size)
    (hget : f.get j = { kind := k, parent := .node i }) : f.Blank j k where
  schema := hk
  bound := hj
  root := by
    rw [hget]
    exact .fresh (fun _ h => absurd h List.not_mem_nil) _
  slots := by
    rw [hget]
    exact fun _ _ => rfl

/-- A type can be written into such a node, which then shows the content of the type. -/
theorem fill (h : d.forest.Blank i k) (r : Registry) (T : SharedType) :
    ∃ d', T.fill r i d = .ok () d' ∧ d'.forest.shown i = .ok (.ofEntries (T.schema r)) := by
  obtain ⟨⟨⟩, d', hd', hturned⟩ := (T.fill_meets (r := r) h.schema h.holds).exists_ok trivial
  refine ⟨d', hd', ?_⟩
  rw [Forest.shown, hturned.holds.content_eq (T.typed_into h.schema), T.shown_into h.schema]
  rfl

end Forest.Blank

end ApiDoc
