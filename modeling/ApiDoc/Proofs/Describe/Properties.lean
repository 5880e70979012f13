import ApiDoc.Proofs.Describe.Inference
import ApiDoc.Proofs.Describe.Replays

namespace ApiDoc

/-!
# Properties written

A describer writes the properties of a model one by one into a schema:

* `Describe.writeProperty` — a property written: its node is found or made, and overrides are
  applied. Unless these decide its type it is written there, or the property is withdrawn;
* `Draft.Opened` — a property that stands open in a schema, and what becomes of the schema with it;
* `PropertyPlan.into`, `PropertyPlan.Steady` — a plan followed in a schema, and the properties for
  which it can be followed again;
* `Replays.writeProperty`, `Plays.writeProperty` — the plan that is followed.
-/

/-! ### Lists of properties -/

namespace Members

variable {ts us : List Tree} {q : String} {c : Tree}

/-- The first member counts under its name, and the rest elsewhere. -/
theorem getD_cons (d : Tree) (ts : List Tree) (q : String) :
    getD (d :: ts) q = if d.name = q then d else getD ts q := by
  unfold getD get?
  by_cases h : d.name = q
  · rw [List.find?_cons_of_pos (by simpa using h), if_pos h]
    rfl
  · rw [List.find?_cons_of_neg (by simpa using h), if_neg h]

/-- A property that is found, or a new one, changed. -/
theorem upsert_eq_put (h : ∀ c ∈ ts, c.IsProperty) (q : String) (f : Tree → Tree) :
    upsert (·.hasValues [(.str "property", .str q)]) (f (new q)) f ts = put ts q (f (getD ts q)) := by
  induction ts with
  | nil => rfl
  | cons d ts ih =>
    obtain ⟨hd, hts⟩ := List.forall_mem_cons.1 h
    rw [put, upsert, upsert, hd.isFor.hasValues_iff, getD_cons]
    by_cases hname : d.name = q
    · rw [if_pos (by simpa using hname), if_pos (by simpa using hname), if_pos hname]
    · rw [if_neg (by simpa using hname), if_neg (by simpa using hname), if_neg hname, ih hts]
      rfl

/-- A property taken out by its key. -/
theorem eraseP_eq_erase (h : ∀ c ∈ ts, c.IsProperty) (q : String) :
    ts.eraseP (·.hasValues [(.str "property", .str q)]) = erase ts q := by
  induction ts with
  | nil => rfl
  | cons d ts ih =>
    obtain ⟨hd, hts⟩ := List.forall_mem_cons.1 h
    rw [erase, List.eraseP_cons, List.eraseP_cons, hd.isFor.hasValues_iff, ih hts]
    rfl

/-! ### Marks -/

/-- A member keeps its name without its marks. -/
theorem name_unmarked (c : Tree) : c.unmarked.name = c.name := by
  rw [Tree.name, Tree.field_unmarked, Data.str?_unmarked, Tree.name]

/-- The member of a name, without marks. -/
theorem getD_unmarked (ts : List Tree) (q : String) :
    getD (ts.map Tree.unmarked) q = (getD ts q).unmarked := by
  induction ts with
  | nil =>
    show new q = (new q).unmarked
    rw [new, Tree.unmarked_putFields, Tree.unmarked_fresh]
    rfl
  | cons d ts ih =>
    rw [List.map_cons, getD_cons, getD_cons, name_unmarked, ih]
    split <;> rfl

/-- A member put under its name, and marks taken away. -/
theorem put_unmarked (ts : List Tree) (q : String) (c : Tree) :
    (put ts q c).map Tree.unmarked = put (ts.map Tree.unmarked) q c.unmarked := by
  show (upsert (·.name == q) c (fun _ => c) ts).map _
    = upsert (·.name == q) c.unmarked (fun _ => c.unmarked) _
  refine map_upsert (fun d => ?_) (fun _ => ?_) ts
  · rw [name_unmarked]
  · rfl

/-- A member taken out, and marks taken away. -/
theorem erase_unmarked (ts : List Tree) (q : String) :
    (erase ts q).map Tree.unmarked = erase (ts.map Tree.unmarked) q := by
  induction ts with
  | nil => rfl
  | cons d ts ih =>
    unfold erase at ih ⊢
    rw [List.map_cons, List.eraseP_cons, List.eraseP_cons, name_unmarked, ← ih]
    cases d.name == q <;> rfl

end Members

namespace Tree

variable {t u c c' : Tree}

/-- A schema with other properties. -/
def withProperties (t : Tree) (ts : List Tree) : Tree := t.setSlot "properties" (.members ts)

@[simp] theorem properties_withProperties (t : Tree) (ts : List Tree) :
    (t.withProperties ts).properties = ts := by
  rw [properties, withProperties, setSlot_slot_self]
  rfl

/-- The properties of a schema without marks. -/
theorem properties_unmarked (t : Tree) : t.unmarked.properties = t.properties.map unmarked := by
  rw [properties, slot_unmarked, Slot.list_map, properties]

/-- Properties put into a schema, and marks taken away. -/
theorem unmarked_withProperties (t : Tree) (ts : List Tree) :
    (t.withProperties ts).unmarked = t.unmarked.withProperties (ts.map unmarked) :=
  unmarked_setSlot t _ _

/-- A schema with other properties is typed if these are properties. -/
theorem All.withProperties (ht : t.All Typed) (hk : t.kind ∈ Kind.schemas) {ts : List Tree}
    (hts : ∀ c ∈ ts, c.IsProperty) : (t.withProperties ts).All Typed :=
  ht.setSlot (Kind.placement?_properties hk) ⟨rfl, fun c hc => (hts c hc).isFor⟩
    fun c hc => (hts c hc).typed

/-- A property but for marks. -/
theorem IsProperty.of_unmarked (h : c.IsProperty) (hc' : c'.All Typed)
    (hsame : c'.unmarked = c.unmarked) : c'.IsProperty := by
  refine ⟨⟨?_, ?_, fun _ key he => ⟨c.name, ?_⟩⟩, hc'⟩
  · rw [← kind_unmarked, hsame, kind_unmarked, h.kind]
    rfl
  · rw [← keys_unmarked, hsame, keys_unmarked, h.isFor.keys]
  · cases he
    have hfield := congrFun (congrArg field hsame) "property"
    rw [field_unmarked, field_unmarked, h.isFor.field_property] at hfield
    exact Data.str?_eq_some.1 (by rw [← Data.str?_unmarked, hfield]; rfl)

/-- Marks do not count for whether a type is decided. -/
theorem isDecided_unmarked (c : Tree) : c.unmarked.isDecided = c.isDecided := by
  unfold isDecided
  rw [field_unmarked, field_unmarked, Data.isUnset_unmarked, Data.isUnset_unmarked]

end Tree

/-- What a sketch makes of a tree does not depend on marks. -/
theorem Sketch.draw_unmarked {renews : Bool} (k : Sketch) {t u : Tree}
    (h : t.unmarked = u.unmarked) :
    (k.draw renews t).unmarked = (k.draw renews u).unmarked := by
  have hfields : ∀ fs : Entries, (t.putFields fs).unmarked = (u.putFields fs).unmarked :=
    fun fs => by rw [Tree.unmarked_putFields, Tree.unmarked_putFields, h]
  -- Whether a part is renewed or kept, it is drawn over trees that differ in marks at most.
  have hpart : ∀ (σ : String) (c : Kind), (part renews (t.slot σ) c).unmarked
      = (part renews (u.slot σ) c).unmarked := by
    intro σ c
    unfold part
    split
    · rfl
    · have hslot := congrFun (congrArg Tree.slot h) σ
      rw [Tree.slot_unmarked, Tree.slot_unmarked] at hslot
      rw [← Slot.childOr_map (f := Tree.unmarked), ← Slot.childOr_map (f := Tree.unmarked), hslot]
  -- The two shapes with a part go one level down; all others write fields only.
  cases k with
  | items a =>
    unfold draw
    rw [Tree.unmarked_setSlot, Tree.unmarked_setSlot, hfields]
    exact congrArg (fun c => Tree.setSlot _ "items" (.child c)) (draw_unmarked a (hpart _ _))
  | mapping a =>
    unfold draw
    rw [Tree.unmarked_setSlot, Tree.unmarked_setSlot, hfields]
    exact congrArg (fun c => Tree.setSlot _ "additional_properties" (.child c))
      (draw_unmarked a (hpart _ _))
  | anything =>
    unfold draw
    rw [Tree.unmarked_setSlot, Tree.unmarked_setSlot, hfields]
  | _ => exact hfields _

/-! ### Plans in schemas -/

namespace PropertyPlan

variable {renews : Bool} {p : PropertyPlan} {c c' t u : Tree}

/-- What a plan makes of a property depends on it up to marks. -/
theorem outcome_unmarked (h : c.unmarked = c'.unmarked) :
    (p.outcome renews c).map Tree.unmarked = (p.outcome renews c').map Tree.unmarked := by
  -- The overrides see trees that differ in marks at most, and decide alike.
  have hmerged : (Tree.mergeAll true p.overrides c).unmarked
      = (Tree.mergeAll true p.overrides c').unmarked := by
    rw [Tree.mergeAll_unmarked, Tree.mergeAll_unmarked, h]
  have hdecided : (Tree.mergeAll true p.overrides c).isDecided
      = (Tree.mergeAll true p.overrides c').isDecided := by
    rw [← Tree.isDecided_unmarked, hmerged, Tree.isDecided_unmarked]
  unfold outcome
  dsimp only
  rw [hdecided]
  split
  · exact congrArg some hmerged
  · cases p.sketch? with
    | none => rfl
    | some k => exact congrArg some (k.draw_unmarked hmerged)

/-- A plan followed in a schema. -/
noncomputable def into (renews : Bool) (p : PropertyPlan) (t : Tree) : Tree :=
  t.withProperties (Members.settle renews t.properties p)

/-- A plan that makes something of a property puts it under its name. -/
theorem into_of_some (h : p.outcome renews (Members.getD t.properties p.name) = some c) :
    p.into renews t = t.withProperties (Members.put t.properties p.name c) := by
  rw [into, Members.settle, h]

/-- A plan that withdraws a property takes it out. -/
theorem into_of_none (h : p.outcome renews (Members.getD t.properties p.name) = none) :
    p.into renews t = t.withProperties (Members.erase t.properties p.name) := by
  rw [into, Members.settle, h]

/-- What a plan makes of a schema does not depend on marks. -/
theorem into_unmarked (h : t.unmarked = u.unmarked) :
    (p.into renews t).unmarked = (p.into renews u).unmarked := by
  have hproperties : t.properties.map Tree.unmarked = u.properties.map Tree.unmarked := by
    rw [← Tree.properties_unmarked, h, Tree.properties_unmarked]
  have hmembers : (Members.getD t.properties p.name).unmarked
      = (Members.getD u.properties p.name).unmarked := by
    rw [← Members.getD_unmarked, hproperties, Members.getD_unmarked]
  have houtcome : (p.outcome renews _).map Tree.unmarked = (p.outcome renews _).map Tree.unmarked :=
    outcome_unmarked hmembers
  -- Withdrawn in one tree, the property is withdrawn in the other.
  cases ht : p.outcome renews (Members.getD t.properties p.name) with
  | none =>
    rw [ht] at houtcome
    have hu := Option.map_eq_none_iff.1 houtcome.symm
    rw [into_of_none ht, into_of_none hu, Tree.unmarked_withProperties,
      Tree.unmarked_withProperties, Members.erase_unmarked, Members.erase_unmarked, h, hproperties]
  | some c =>
    rw [ht] at houtcome
    obtain ⟨c', hu, hsame⟩ := Option.map_eq_some_iff.1 houtcome.symm
    rw [into_of_some ht, into_of_some hu, Tree.unmarked_withProperties,
      Tree.unmarked_withProperties, Members.put_unmarked, Members.put_unmarked, h, hproperties, hsame]

/-- A plan followed leaves a typed schema. -/
theorem typed_into (ht : t.All Tree.Typed) (hk : t.kind ∈ Kind.schemas)
    (hp : ∀ es ∈ p.overrides, es.ForProperty) : (p.into renews t).All Tree.Typed := by
  have hproperties := ht.isProperty hk
  cases houtcome : p.outcome renews (Members.getD t.properties p.name) with
  | none =>
    rw [into_of_none houtcome]
    exact ht.withProperties hk (Members.forall_erase hproperties)
  | some c =>
    rw [into_of_some houtcome]
    have hc := (isProperty_outcome hp (Members.isProperty_getD hproperties _).1 houtcome).1
    exact ht.withProperties hk (Members.forall_put hproperties hc)

/-- A property for which a plan can be followed again: overrides decide its type, or the sketch
    leaves it undecided. -/
def Steady (p : PropertyPlan) (c : Tree) : Prop :=
  (Tree.mergeAll true p.overrides c).isDecided = true ∨ ∀ k ∈ p.sketch?, k.Left

/-- Marks do not count for whether a property is steady. -/
theorem Steady.unmarked (h : p.Steady c) (hc : c'.unmarked = c.unmarked) : p.Steady c' := by
  refine h.imp_left fun hdecided => ?_
  rw [← Tree.isDecided_unmarked, Tree.mergeAll_unmarked, hc, ← Tree.mergeAll_unmarked,
    Tree.isDecided_unmarked, hdecided]

/-- A plan whose sources come after others. -/
theorem steady_mergeAll {ws : List Entries}
    (h : PropertyPlan.Steady { p with overrides := ws ++ p.overrides } c) :
    p.Steady (Tree.mergeAll true ws c) := by
  have happend : Tree.mergeAll true (ws ++ p.overrides) c
      = Tree.mergeAll true p.overrides (Tree.mergeAll true ws c) := List.foldl_append
  rw [Steady, happend] at h
  exact h

/-- What is withdrawn is steady. -/
theorem steady_of_none (h : p.outcome renews c = none) : p.Steady c := by
  rcases p.outcome_cases renews c with ⟨hdecided, -⟩ | ⟨-, he⟩
  · exact .inl hdecided
  · rw [he] at h
    rw [Steady, Option.map_eq_none_iff.1 h]
    exact .inr nofun

/-- What stays when it is described once more is steady. -/
theorem steady_of_outcome (hp : ∀ es ∈ p.overrides, es.ForProperty)
    (hdecisive : ∀ es ∈ p.overrides, es.Decisive) (hc : c.IsProperty)
    (h : p.outcome renews c = some c) : p.Steady c := by
  rcases p.outcome_cases renews c with ⟨hdecided, -⟩ | ⟨hundecided, he⟩
  · exact .inl hdecided
  · rw [he] at h
    obtain ⟨k, hk, hdrawn⟩ := Option.map_eq_some_iff.1 h
    obtain ⟨hleft, -⟩ := hc.undecided_of_mergeAll hp
      (fun es hes => (hdecisive es hes).given) hundecided
    refine .inr fun k' hk' => ?_
    obtain rfl : k = k' := Option.some.inj (hk.symm.trans hk')
    exact Sketch.left_of_undecided_draw (hc.mergeAll hp).1 (hdrawn.symm ▸ hleft)

end PropertyPlan

/-! ### Open properties -/

/-- A property that stands open in a schema: where it stands, and what becomes of the schema when it
    is changed. -/
structure Draft.Opened (d : Draft) (i : NodeId) (A : Finset NodeId) (t : Tree) (q : String)
    (j : NodeId) (B : Finset NodeId) (c : Tree) (d' : Draft) : Prop where
  holds : d'.forest.Holds c j B
  close : ∀ c' d₂, d'.Turned j B c' d₂ →
    d.Turned i A (t.withProperties (Members.put t.properties q c')) d₂

namespace Draft

open Forest

variable {d d₁ d₂ : Draft} {i j : NodeId} {A B : Finset NodeId} {t c c' x : Tree} {q : String}
  {renews : Bool} {p : PropertyPlan} {T : NodeId → Prop}

/-- A member found or made under a name of the properties is an open property. -/
theorem Located.opened (h : d.Located i A t "properties" (.keyed .property "property")
    [(.str "property", .str q)] j d₁) (ht : t.All Tree.Typed) (hk : t.kind ∈ Kind.schemas) :
    ∃ B, d.Opened i A t q j B (Members.getD t.properties q) d₁ := by
  obtain ⟨ts, n, c, hturned, hj, hc, hput⟩ := h
  -- The member that was found is the one of that name, and to change it is to put it back changed.
  have hset : ∀ f : Tree → Tree,
      Members.put t.properties q (f (Members.getD t.properties q)) = ts.set n (f c) := fun f =>
    (Members.upsert_eq_put (ht.isProperty hk) q f).symm.trans (hput (fun _ => f) [])
  obtain rfl : c = Members.getD t.properties q := by
    -- Both say what stands at the same place of the same list.
    have hboth : ts.set n c = ts.set n (Members.getD t.properties q) :=
      (hset id).symm.trans (hset fun _ => Members.getD t.properties q)
    have hn := (List.getElem?_eq_some_iff.1 hc).1
    have hat := congrArg (·[n]?) hboth
    simpa [List.getElem?_set, hn] using hat
  have hslot : (t.setSlot "properties" (.members ts)).slot "properties" = .members ts :=
    Tree.setSlot_slot_self ..
  obtain ⟨B, hB, hback⟩ := hturned.inside (n := n) (by rw [hslot]; exact hc) hj
  refine ⟨B, hB, fun c' d₂ h => ?_⟩
  have hclosed := hback c' d₂ h
  rw [hslot, Tree.setSlot_setSlot] at hclosed
  rw [hset fun _ => c']
  exact hclosed

namespace Opened

/-- A change of an open property. -/
theorem turn (h : d.Opened i A t q j B c d₁) (h' : d₁.Turned j B c' d₂) :
    d.Opened i A t q j (B ∪ newIds d₁.forest d₂.forest) c' d₂ :=
  ⟨h'.holds, fun c'' d₃ h'' => h.close c'' d₃ (h'.trans h'')⟩

/-- An open property leaves the schema with what has become of it. -/
theorem closed (h : d.Opened i A t q j B c d₁) :
    d.Turned i A (t.withProperties (Members.put t.properties q c)) d₁ := h.close c d₁ (.refl h.holds)

/-- A schema is as the plan says when the property has the outcome of the plan. -/
theorem restores (h : d.Opened i A t p.name j B c d₁) (hc : c.IsProperty)
    (hx : p.outcome renews (Members.getD t.properties p.name) = some x)
    (hsame : c.unmarked = x.unmarked) (ht : t.All Tree.Typed) (hk : t.kind ∈ Kind.schemas)
    (hupright : d₁.forest.Upright T) : d.Restores T i A (p.into renews t) d₁ := by
  refine ⟨_, ?_, h.closed, ht.withProperties hk ?_, hupright⟩
  · rw [PropertyPlan.into_of_some hx, Tree.unmarked_withProperties, Tree.unmarked_withProperties,
      Members.put_unmarked, Members.put_unmarked, hsame]
  · exact Members.forall_put (ht.isProperty hk) hc

end Opened

end Draft

namespace Describe

open Forest

variable {w : World} {key? : Option String} {T : NodeId → Prop} {C : Prop} {renews : Bool} {s s₁ s' L : Site}
  {d d₁ : Draft} {i j : NodeId} {A B : Finset NodeId} {t c : Tree} {r : Reader} {os : List Override}
  {groups : Data} {q : String} {content? : Option (NodeId → Describe Unit)}

/-- Whether the type of a property is decided is told from its tree. -/
theorem isDecided_property (hd : s.draft.forest.Holds c j B) (hc : c.IsProperty) :
    isDecided j s = .ok c.isDecided s := by
  have hattribute : ∀ name ∈ Kind.schemaFields, name ∈ (s.draft.forest.get j).kind.attributes := by
    intro name hname
    rw [hd.kind]
    exact List.mem_append_left _ (Kind.schemaFields_subset _ hc.mem_schemas hname)
  have hvalue : ∀ name ∈ Sketch.names,
      ((s.draft.forest.get j).value name).isUnset = (c.field name).isUnset := by
    -- The names that decide are fields that a schema shows, never keys.
    intro name hname
    rw [hd.root.field name, Tree.told, if_neg (hc.names_notMem_keys name hname),
      if_pos (Sketch.names_shown hc.mem_schemas name hname), Data.isUnset_shownValue]
  refine (Results.bind_of_ok (Site.isSet_eq (hattribute "type" (by decide)))).trans ?_
  rw [hvalue "type" (by decide), Tree.isDecided]
  cases (c.field "type").isUnset with
  | true =>
    refine (Site.isSet_eq (hattribute "ref" (by decide))).trans ?_
    rw [hvalue "ref" (by decide)]
    rfl
  | false => rfl

/-- The name of a property is read back. -/
theorem read_property (hd : d.forest.Holds c j B) (hc : c.IsProperty) :
    Edit.read j "property" d = .ok (.str c.name) d := by
  have hattribute : "property" ∈ (d.forest.get j).kind.attributes := by
    rw [hd.kind, hc.kind]
    decide
  have hkey : "property" ∈ c.keys := hc.isFor.keys ▸ List.mem_singleton_self _
  rw [Edit.read_eq hattribute, hd.value_of_text hkey hc.isFor.field_property]

/-! ### Steps -/

/-- A property taken out of its schema by the name that its node has. -/
def withdraw (schema i : NodeId) : Edit Unit := do
  let _ ← Edit.removeIndexed schema .property (← Edit.read i "property")

/-- A property written into a schema: its node is found or made, and overrides are applied. Unless
    these decide its type it is written there, or the property is withdrawn. -/
def writeProperty (w : World) (r : Reader) (os : List Override) (groups name : Data)
    (content? : Option (NodeId → Describe Unit)) (schema : NodeId) : Describe Unit := do
  let i ← edit (Edit.indexedItem schema .property name)
  os.forM fun o => r.apply w o groups i
  if ← isDecided i then return
  match content? with
  | none => edit (withdraw schema i)
  | some write => write i

/-- An open property is withdrawn. -/
theorem meets_withdraw {F : Prop} (h : d.Opened i A t q j B c d₁) (hc : c.IsProperty)
    (hname : c.name = q) (ht : t.All Tree.Typed) (hk : t.kind ∈ Kind.schemas) :
    Edit.Meets (withdraw i j) d₁ F fun _ d' =>
      d.Turned i A (t.withProperties (Members.erase t.properties q)) d' := by
  have hput : ∀ u ∈ Members.put t.properties q c, u.IsProperty :=
    Members.forall_put (ht.isProperty hk) hc
  have htyped := ht.withProperties hk hput
  refine .after_look (read_property h.holds hc) ?_
  rw [hname]
  refine .bind (.removeIndexed h.closed.holds htyped.root (Kind.placement?_properties hk)
    (Tree.setSlot_slot_self ..) q) fun _ d' hremoved => .pure ?_
  have hturned := h.closed.trans hremoved
  -- To erase a property that was put before is to erase it from the tree as it was.
  rw [Members.eraseP_eq_erase hput, Members.erase_put hname] at hturned
  rw [Tree.withProperties, Tree.setSlot_setSlot] at hturned
  exact hturned

/-- A property withdrawn leaves an upright forest. -/
theorem upright_withdraw (hd : d.forest.Upright T) (hT : T i) (hi : i < d.forest.size)
    (hk : (d.forest.get i).kind ∈ Kind.schemas) {d' : Draft} (h : withdraw i j d = .ok () d') :
    d'.forest.Upright T := by
  have hlawful := Rules.upright_lawful T
  obtain ⟨v, d₁, hread, h⟩ := Results.bind_eq_ok.1 h
  obtain ⟨_, d₂, hremove, h⟩ := Results.bind_eq_ok.1 h
  cases h
  obtain ⟨hleads, -⟩ := Rules.Allows.read hlawful _ j "property" v d₁ hread
  exact (hlawful.removed v (hlawful.isOpen_of_leads hleads ⟨hd, hT, hi, hk⟩) _ _ hremove).1
    (hleads hd).1 |>.1

/-- The node of a property is found or made in a schema that stands. -/
theorem Settles.openProperty (hd : d.Stands T i A t) (hk : t.kind ∈ Kind.schemas) (q : String) :
    Settles L (Describe.edit (Edit.indexedItem i .property (.str q))) d fun j d₁ => ∃ B,
      d.Opened i A t q j B (Members.getD t.properties q) d₁ ∧
        d₁.Stands T j B (Members.getD t.properties q) := by
  obtain ⟨j, d₁, hok, hlocated⟩ := (Edit.Meets.indexedItem (F := True) hd.holds hd.typed.root
    (Kind.placement?_properties hk) q).exists_ok trivial
  obtain ⟨B, hopened⟩ := hlocated.opened hd.typed hk
  obtain ⟨hc, -⟩ := Members.isProperty_getD (hd.typed.isProperty hk) q
  obtain ⟨hleads, hproperty⟩ := (Rules.upright_lawful T).property (.str q)
    ⟨hd.upright, hd.mem, hd.holds.lt_size, hd.holds.kind ▸ hk⟩ _ _ hok
  exact .edit hok ⟨B, hopened, hopened.holds, hc.typed, hproperty.1, hproperty.2.1⟩

/-- The plan that has been followed can be followed again where it leaves a property steady. -/
theorem Replays.writeProperty {p : PropertyPlan} {s₁ : Site} (hmet : s.met ⊆ s₁.met)
    (hlater : s₁.Later key? s')
    (hp : ∀ es ∈ p.overrides, es.ForProperty)
    (happly : Replays w key? T (·.kind = .property) (Tree.mergeAll true p.overrides)
      (fun j => os.forM fun o => r.apply w o groups j) s s₁)
    (hsome : p.sketch?.isSome = content?.isSome)
    (hwrite : ∀ write ∈ content?, ∀ k ∈ p.sketch?, k.Left →
      Replays w key? T (·.kind ∈ Kind.schemas) (k.draw renews) write s₁ s') :
    Replays w key? T (fun u => u.kind ∈ Kind.schemas ∧ p.Steady (Members.getD u.properties p.name))
      (p.into renews) (Describe.writeProperty w r os groups (.str p.name) content?) s s' := by
  rintro L hL hagree d i A t hd ⟨hk, hsteady⟩
  obtain ⟨hc, hname⟩ := Members.isProperty_getD (hd.typed.isProperty hk) p.name
  obtain ⟨hmerged, hkept⟩ := hc.mergeAll hp
  have hL₁ := hlater.trans hL
  refine (Settles.openProperty hd hk p.name).bind fun j d₁ ⟨B, hopened, hstands⟩ => ?_
  refine (happly L hL₁ hagree d₁ j B _ hstands hc.kind).bind
    fun _ d₂ ⟨c, hsame, hturned, htyped, hupright⟩ => ?_
  have hopened₂ := hopened.turn hturned
  have hproperty := hmerged.of_unmarked htyped hsame
  have hdecided : c.isDecided
      = (Tree.mergeAll true p.overrides (Members.getD t.properties p.name)).isDecided := by
    rw [← Tree.isDecided_unmarked, hsame, Tree.isDecided_unmarked]
  -- Asking whether the property is decided changes nothing.
  have hlook : Settles L (isDecided j) d₂ fun b d' => b = c.isDecided ∧ d' = d₂ :=
    ⟨_, _, isDecided_property (s := { L with draft := d₂ }) hopened₂.holds hproperty, rfl, rfl⟩
  refine hlook.bind fun b d₃ ⟨hb, hd₃⟩ => ?_
  rw [hb, hd₃, hdecided]
  -- A decided property is put back as it is.
  rcases p.outcome_cases renews (Members.getD t.properties p.name) with ⟨hyes, he⟩ | ⟨hno, he⟩
  · rw [hyes]
    exact .pure (hopened₂.restores hproperty he hsame hd.typed hk hupright)
  rw [Tree.isDecided_eq_false.2 hno]
  have hleft : ∀ k ∈ p.sketch?, k.Left := hsteady.resolve_left fun hyes => by
    rw [Tree.isDecided_eq_false.2 hno] at hyes
    cases hyes
  -- Without a shape the property is withdrawn, else its shape is written into it.
  cases content? with
  | none =>
    have hnone : p.sketch? = none := Option.not_isSome_iff_eq_none.1 (by rw [hsome]; simp)
    rw [hnone] at he
    have hcname : c.name = p.name := by
      rw [← Members.name_unmarked, hsame, Members.name_unmarked, hkept, hname]
    obtain ⟨⟨⟩, d', hok, hgone⟩ := (meets_withdraw (F := True) hopened₂ hproperty hcname hd.typed
      hk).exists_ok trivial
    -- The property stands where it was created, so it can be taken out again.
    have hstill := hopened₂.closed.holds
    refine .edit hok ⟨_, ?_, hgone, ?_, ?_⟩
    · rw [PropertyPlan.into_of_none he]
    · exact hd.typed.withProperties hk (Members.forall_erase (hd.typed.isProperty hk))
    · exact upright_withdraw hupright hd.mem hstill.lt_size (hstill.kind ▸ hk) hok
  | some write =>
    obtain ⟨k, hsketch⟩ := Option.isSome_iff_exists.1 hsome
    rw [hsketch] at he
    -- Everything that the shape is written into belongs to the property or was made for it.
    have hstands₂ : d₂.Stands T j (B ∪ newIds d₁.forest d₂.forest) c :=
      ⟨hopened₂.holds, htyped, hupright, hstands.mem⟩
    have hdrawn := (Sketch.isProperty_draw renews k hmerged).1
    refine (hwrite write rfl k hsketch (hleft k hsketch) L hL (hagree.between hmet hL₁.met) d₂ j _ c
      hstands₂ hproperty.mem_schemas).mono fun _ d₃ ⟨c', hsame', hturned', htyped', hup'⟩ => ?_
    have hsame'' := hsame'.trans (k.draw_unmarked hsame)
    exact (hopened₂.turn hturned').restores (hdrawn.of_unmarked htyped' hsame'') he hsame''
      hd.typed hk hup'

/-- A property that has been written has followed a plan. Where overrides decide its type nothing is
    known of the sketch, but that one decides it. -/
theorem Plays.writeProperty (hos : ∀ o ∈ os, o.toEntries.ForProperty)
    (hcontent : ∀ write ∈ content?, ∀ s j B c, s.draft.forest.Holds c j B → c.IsProperty →
      Yields (write j) s fun _ s' => ∃ k : Sketch, Plays w key? T C
        (fun u => u.kind ∈ Kind.schemas ∧ k.Left) (k.draw renews) write s s' j B c)
    (hd : s.draft.forest.Holds t i A) (ht : t.All Tree.Typed) (hk : t.kind ∈ Kind.schemas) :
    Yields (Describe.writeProperty w r os groups (.str q) content? i) s fun _ s' =>
      ∃ p : PropertyPlan, p.name = q ∧
        List.Forall₂ (fun o es => Entries.Resolves o.toEntries es) os p.overrides ∧
        p.sketch?.isSome = content?.isSome ∧
        Plays w key? T C (fun u => u.kind ∈ Kind.schemas ∧ p.Steady (Members.getD u.properties q))
          (p.into renews) (Describe.writeProperty w r os groups (.str q) content?) s s' i A t := by
  intro _ s' h
  obtain ⟨j, s₁, hopen, h⟩ := Results.bind_eq_ok.1 h
  obtain ⟨⟨⟩, s₂, happly, h⟩ := Results.bind_eq_ok.1 h
  obtain ⟨b, s₃, hlook, h⟩ := Results.bind_eq_ok.1 h
  obtain ⟨d₁, hitem, rfl⟩ := edit_eq_ok hopen
  obtain ⟨B, hopened⟩ := ((Edit.Meets.indexedItem (F := True) hd ht.root
    (Kind.placement?_properties hk) q).of_ok hitem).opened ht hk
  obtain ⟨hc, hname⟩ := Members.isProperty_getD (ht.isProperty hk) q
  have happlied : ∃ ws, List.Forall₂ (fun o es => Entries.Resolves o.toEntries es) os ws ∧
      Plays w key? T C (·.kind = .property) (Tree.mergeAll true ws)
        (fun j => os.forM fun o => r.apply w o groups j) { s with draft := d₁ } s₂ j B
          (Members.getD t.properties q) :=
    Plays.applyAll (by decide) (fun o ho => (hos o ho).findable) hopened.holds hc.typed hc.kind _ s₂
      happly
  obtain ⟨ws, hresolves, hplays⟩ := happlied
  have hws : ∀ es ∈ ws, es.ForProperty := by
    intro es hes
    obtain ⟨o, ho, hres⟩ := exists_of_forall₂ hresolves.flip hes
    exact hres.forProperty (hos o ho)
  have hopened₂ := hopened.turn hplays.turned
  obtain ⟨hmerged, hkept⟩ := hc.mergeAll hws
  cases hlook.symm.trans (isDecided_property hopened₂.holds hmerged)
  -- What is left to be shown of each of the ways in which the property is written.
  have hwritten : ∀ sketch? : Option Sketch, sketch?.isSome = content?.isSome →
      s.draft.Turned i A (PropertyPlan.into renews ⟨q, ws, sketch?⟩ t) s'.draft →
      (C → s₂.Later key? s') →
      (C → (∃ e, s₂.desk? = some e) → s₂.draft.forest.Upright T → T i → T j →
        s'.draft.forest.Upright T ∧ ∀ write ∈ content?, ∀ k ∈ sketch?, k.Left →
          Replays w key? T (·.kind ∈ Kind.schemas) (k.draw renews) write s₂ s') →
      ∃ p : PropertyPlan, p.name = q ∧
        List.Forall₂ (fun o es => Entries.Resolves o.toEntries es) os p.overrides ∧
        p.sketch?.isSome = content?.isSome ∧
        Plays w key? T C (fun u => u.kind ∈ Kind.schemas ∧ p.Steady (Members.getD u.properties q))
          (p.into renews) (Describe.writeProperty w r os groups (.str q) content?) s s' i A t := by
    intro sketch? hsome hturned hlater hagain
    refine ⟨⟨q, ws, sketch?⟩, rfl, hresolves, hsome, hturned, PropertyPlan.typed_into ht hk hws,
      PropertyPlan.into_unmarked, fun hC => ?_, fun hC hdesk hupright hT => ?_⟩
    · have hlater₁ : s.Later key? { s with draft := d₁ } := .of_eq rfl rfl
      exact hlater₁.trans ((hplays.later hC).trans (hlater hC))
    · obtain ⟨-, hproperty⟩ := (Rules.upright_lawful T).property (.str q)
        ⟨hupright, hT, hd.lt_size, hd.kind ▸ hk⟩ _ _ hitem
      obtain ⟨hupright₂, happlies⟩ := hplays.again hC hdesk hproperty.1 hproperty.2.1
      obtain ⟨hupright', hwrites⟩ := hagain hC ((hplays.later hC).exists_desk hdesk) hupright₂ hT
        hproperty.2.1
      exact ⟨hupright', Replays.writeProperty (p := ⟨q, ws, sketch?⟩) (hplays.later hC).met
        (hlater hC) hws happlies hsome hwrites⟩
  cases hdecided : (Tree.mergeAll true ws (Members.getD t.properties q)).isDecided with
  | true =>
    rw [hdecided] at h
    cases h
    refine hwritten (content?.map fun _ => .anything) (by simp) ?_ (fun _ => .refl key? _)
      fun _ _ hupright _ _ => ⟨hupright, fun write _ k hk hleft => ?_⟩
    · rw [PropertyPlan.into_of_some (PropertyPlan.outcome_of_decided
        (p := ⟨q, ws, content?.map fun _ => .anything⟩) hdecided)]
      exact hopened₂.closed
    · obtain ⟨_, -, rfl⟩ := Option.map_eq_some_iff.1 hk
      cases hleft
  | false =>
    have hundecided := Tree.isDecided_eq_false.1 hdecided
    rw [hdecided] at h
    cases content? with
    | none =>
      obtain ⟨d', hgone, rfl⟩ := edit_eq_ok h
      have hstill := hopened₂.closed.holds
      refine hwritten none rfl ?_ (fun _ => .of_eq rfl rfl) fun _ _ hupright hT _ =>
        ⟨upright_withdraw hupright hT hstill.lt_size (hstill.kind ▸ hk) hgone, fun _ h => nomatch h⟩
      rw [PropertyPlan.into_of_none (PropertyPlan.outcome_of_undecided (p := ⟨q, ws, none⟩)
        hundecided)]
      exact (meets_withdraw (F := True) hopened₂ hmerged (hkept.trans hname) ht hk).of_ok hgone
    | some write =>
      obtain ⟨k, hplay⟩ := hcontent write rfl s₂ j _ _ hopened₂.holds hmerged _ s' h
      refine hwritten (some k) rfl ?_ hplay.later fun hC hdesk hupright _ hT => ?_
      · rw [PropertyPlan.into_of_some (PropertyPlan.outcome_of_undecided (p := ⟨q, ws, some k⟩)
          hundecided)]
        exact (hopened₂.turn hplay.turned).closed
      · obtain ⟨hupright', hagain⟩ := hplay.again hC hdesk hupright hT
        refine ⟨hupright', ?_⟩
        rintro _ ⟨⟩ _ ⟨⟩ hleft L hL hagree d i A t hd hk
        exact hagain L hL hagree d i A t hd ⟨hk, hleft⟩

end Describe

end ApiDoc
