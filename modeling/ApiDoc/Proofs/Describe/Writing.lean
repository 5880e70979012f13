import ApiDoc.Proofs.Describe.Runs

namespace ApiDoc

/-!
# Schemas written

Both describers write a schema in the same way: they call it an object, apply the overrides of the
class, write the properties one by one, and leave a list of properties in any case:

* `Describe.openSchema`, `Describe.writeSchema` — the schema before its properties, and with them;
* `PropertyPlan.Suits`, `Plan.Suits` — plans that follow from overrides and properties;
* `Plays.ensureProperties`, `Plays.writeProperties`, `Plays.writeSchema` — the plan that is
  followed;
* `Describe.Recurs`, `Plays.twice` — a schema written a second time.
-/

/-! ### Objects -/

namespace Tree

/-- A source of one entry that is for a field. -/
theorem merge_alone {t : Tree} {name : String} (hname : name ∈ t.kind.fields)
    (harray : name ∉ t.kind.arrayFields) (v : Data) :
    merge true [(.str (wireName name), v)] t = t.put name v := by
  have hattribute := List.mem_append_left t.kind.slots hname
  -- The entry names nothing but the field.
  have hne : ∀ {other : String}, other ∈ t.kind.attributes → other ≠ name →
      Entries.text? [(.str (wireName name), v)] (wireName other) = none := by
    intro other hother hne
    refine (Entries.text?_cons_of_ne fun heq => hne ?_).trans rfl
    exact Kind.eq_of_wireName_eq hother hattribute (Scalar.str.inj (Data.scalar.inj heq)).symm
  have hdistinct : Entries.Distinct [(.str (wireName name), v)] := Entries.Distinct.nil.insert _ v
  -- Apart from the field itself, nothing in the tree is told anything.
  refine eq_of (merge_kind ..) (merge_keys ..) ?_ (fun other => ?_) fun σ => ?_
  · have hnone : List.filter Entries.isExtension [(Data.str (wireName name), v)] = [] := by
      rw [List.filter_eq_nil_iff]
      intro e he
      rw [List.mem_singleton.1 he]
      exact Bool.eq_false_iff.1 (Kind.startsWith_wireName hattribute)
    rw [merge_extensions, hnone]
    rfl
  · by_cases hother : other = name
    · subst hother
      rw [merge_field true hdistinct hname, Entries.text?_cons_self]
      show mergeField true _ _ _ _ _ = if other = other then _ else _
      rw [mergeField, if_neg (by simpa using harray), if_pos (by simp), if_pos rfl]
    · refine Eq.trans ?_ (if_neg hother).symm
      by_cases hfield : other ∈ t.kind.fields
      · rw [merge_field true hdistinct hfield, hne (List.mem_append_left _ hfield) hother]
      · exact merge_field_of_notMem true hfield
  · show _ = t.slot σ
    cases hp : t.kind.placement? σ with
    | none => exact merge_slot_of_none _ _ _ hp
    | some p =>
      have hσ := Kind.mem_slots_of_placement? hp
      have hdiffers : σ ≠ name := by
        rintro rfl
        exact t.kind.field_notMem_slots σ hname hσ
      rw [merge_slot _ _ _ hp, hne (List.mem_append_right _ hσ) hdiffers]
      cases p <;> rfl

end Tree

/-- The source that calls a schema an object. -/
def Entries.ofObject : Entries := [(.str "type", .str "object")]

/-- The type of objects says nothing of properties. -/
theorem Entries.properties_ofObject : ofObject.properties = [] := by
  have hnone : ofObject.text? "properties" = none := text?_cons_of_ne (by simp)
  rw [properties, hnone]
  rfl

/-- The type of objects is a good source for schemas. -/
theorem Entries.findable_ofObject (P : Data → Prop) {k : Kind} (hk : k ∈ Kind.schemas) :
    ofObject.All (Findable P) k := by
  have hall : ∀ k ∈ Kind.schemas, ∀ σ ∈ k.slots, wireName σ ≠ "type" := by decide
  exact findable_alone P (hall k hk) _

/-- A schema into which the type of objects is merged has this type. -/
theorem Tree.merge_ofObject {t : Tree} (hk : t.kind ∈ Kind.schemas) :
    merge true Entries.ofObject t = t.put "type" (.str "object") := by
  have hall : ∀ k ∈ Kind.schemas, "type" ∉ k.arrayFields := by decide
  exact merge_alone (Kind.schemaFields_subset _ hk (by decide)) (hall _ hk) _

/-! ### Lists of properties -/

/-- Plans followed in a schema, which has a list of properties afterwards. -/
noncomputable def Tree.settled (renews : Bool) (ps : List PropertyPlan) (t : Tree) : Tree :=
  t.withProperties (Members.settleAll renews t.properties ps)

/-- The first plan is followed, and then the others. -/
theorem Tree.settled_cons (renews : Bool) (p : PropertyPlan) (ps : List PropertyPlan) :
    settled renews (p :: ps) = settled renews ps ∘ p.into renews := by
  funext t
  show _ = (t.withProperties (Members.settle renews t.properties p)).withProperties
    (Members.settleAll renews (t.withProperties (Members.settle renews t.properties p)).properties ps)
  rw [properties_withProperties]
  exact (setSlot_setSlot ..).symm

/-- What plans make of a schema depends on it up to marks. -/
theorem Tree.settled_unmarked {renews : Bool} {ps : List PropertyPlan} {t u : Tree}
    (h : t.unmarked = u.unmarked) :
    (settled renews ps t).unmarked = (settled renews ps u).unmarked := by
  induction ps generalizing t u with
  | nil =>
    show (t.withProperties t.properties).unmarked = (u.withProperties u.properties).unmarked
    rw [unmarked_withProperties, unmarked_withProperties, ← properties_unmarked,
      ← properties_unmarked, h]
  | cons p ps ih =>
    rw [settled_cons]
    exact ih (PropertyPlan.into_unmarked h)

/-! ### Plans that suit -/

/-- A plan for a property of a name, for which overrides are given and perhaps a type. -/
structure PropertyPlan.Suits (p : PropertyPlan) (name : String) (os : List Override) (typed : Bool) :
    Prop where
  name : p.name = name
  overrides : List.Forall₂ (fun o es => Entries.Resolves o.toEntries es) os p.overrides
  sketch : p.sketch?.isSome = typed

section Suits

variable {α : Type} {os : List Override} {xs : List α} {name : α → String}
  {given : α → List Override} {typed : α → Bool}

/-- The sources of a plan that suits are good for properties. -/
theorem PropertyPlan.Suits.forProperty {p : PropertyPlan} {q : String} {b : Bool}
    (h : p.Suits q os b) (hos : ∀ o ∈ os, o.toEntries.ForProperty) :
    ∀ es ∈ p.overrides, es.ForProperty := by
  intro es hes
  obtain ⟨o, ho, hres⟩ := exists_of_forall₂ h.overrides.flip hes
  exact hres.forProperty (hos o ho)

/-- A plan for a schema for which there are overrides, and a list of properties with their names,
    their overrides, and perhaps their types. -/
structure Plan.Suits (p : Plan) (os : List Override) (xs : List α) (name : α → String)
    (given : α → List Override) (typed : α → Bool) : Prop where
  sources : ∃ ws, p.sources = Entries.ofObject :: ws ∧
    List.Forall₂ (fun o es => Entries.Resolves o.toEntries es) os ws
  properties : List.Forall₂ (fun x q => q.Suits (name x) (given x) (typed x)) xs p.properties

namespace Plan.Suits

variable {p : Plan} {k : Kind}

/-- A plan that suits has the names of the properties. -/
theorem names (h : p.Suits os xs name given typed) :
    p.properties.map PropertyPlan.name = xs.map name := by
  have hnames := h.properties
  clear h
  generalize p.properties = qs at hnames
  induction hnames with
  | nil => rfl
  | cons hq _ ih => rw [List.map_cons, List.map_cons, hq.name, ih]

/-- A plan that suits good overrides is sound. -/
theorem sound (h : p.Suits os xs name given typed) (hk : k ∈ Kind.schemas)
    (hos : ∀ o ∈ os, o.toEntries.All (Entries.Findable Data.EqualsItself) k)
    (hgiven : ∀ x ∈ xs, ∀ o ∈ given x, o.toEntries.ForProperty) (hnames : (xs.map name).Nodup) :
    p.Sound k where
  sources := by
    obtain ⟨ws, hsources, hws⟩ := h.sources
    rw [hsources]
    refine List.forall_mem_cons.2 ⟨Entries.findable_ofObject _ hk, fun es hes => ?_⟩
    obtain ⟨o, ho, hres⟩ := exists_of_forall₂ hws.flip hes
    exact hres.findable (List.mem_cons_of_mem _ hk) (hos o ho)
  overrides q hq := by
    obtain ⟨x, hx, hsuits⟩ := exists_of_forall₂ h.properties.flip hq
    exact hsuits.forProperty (hgiven x hx)
  names := h.names ▸ hnames

/-- A plan that suits decisive overrides is decisive. -/
theorem decisive (h : p.Suits os xs name given typed)
    (hos : ∀ o ∈ os, ∀ item ∈ o.toEntries.properties, item.2.Decisive)
    (hgiven : ∀ x ∈ xs, ∀ o ∈ given x, o.toEntries.Decisive) : p.Decisive := by
  intro q hq
  refine List.forall_mem_append.2 ⟨fun es hes => ?_, fun es hes => ?_⟩
  · obtain ⟨item, hitem, rfl⟩ := List.mem_map.1 hes
    obtain ⟨ws, hsources, hws⟩ := h.sources
    have hitem := List.mem_of_mem_filter hitem
    rw [Plan.given, hsources, List.flatMap_cons, Entries.properties_ofObject, List.nil_append] at hitem
    obtain ⟨fs, hfs, hitem⟩ := List.mem_flatMap.1 hitem
    obtain ⟨o, ho, hres⟩ := exists_of_forall₂ hws.flip hfs
    exact hres.decisive_properties (hos o ho) item hitem
  · obtain ⟨x, hx, hsuits⟩ := exists_of_forall₂ h.properties.flip hq
    obtain ⟨o, ho, hres⟩ := exists_of_forall₂ hsuits.overrides.flip hes
    exact hres.decisive (hgiven x hx o ho)

end Plan.Suits

end Suits

namespace Describe

open Forest

variable {w : World} {key? : Option String} {T : NodeId → Prop} {C : Prop} {renews : Bool}
  {s s' L : Site} {d : Draft} {i : NodeId} {A : Finset NodeId} {t : Tree} {r : Reader}
  {os : List Override} {α : Type} {xs : List α} {f : α → NodeId → Describe Unit}

/-- A schema has a list of properties afterwards, with those that it had. -/
theorem exists_ensureProperties (T : NodeId → Prop) (hd : s.draft.forest.Holds t i A)
    (ht : t.Typed) (hk : t.kind ∈ Kind.schemas) : ∃ d',
      ensureProperties i s = .ok () { s with draft := d' } ∧
        s.draft.Turned i A (t.withProperties t.properties) d' ∧
          (s.draft.forest.Upright T → T i → d'.forest.Upright T) := by
  have hp := Kind.placement?_properties hk
  have hσ := Kind.mem_slots_of_placement? hp
  have hσ' : "properties" ∈ (s.draft.forest.get i).kind.slots := hd.kind.symm ▸ hσ
  have hset : isSet i "properties" s = .ok (!(t.slot "properties").isEmpty) s := by
    rw [Site.isSet_eq (List.mem_append_right _ hσ')]
    exact congrArg (EStateM.Result.ok · s) (hd.isSet_slot hσ)
  unfold ensureProperties
  -- The list of properties is opened if it is not there, and left as it is if it is.
  rw [Results.bind_of_ok hset]
  cases hslot : t.slot "properties" with
  | empty =>
    have hassign := Edit.assign?_slot (d := s.draft) hσ' (.ofList [])
    have hopen : s.draft.forest.Upright T → T i → (Rules.upright T).isOpen s.draft.forest i :=
      fun hup hT => ⟨hup, hT, hd.lt_size, hd.kind ▸ hk⟩
    refine ⟨_, edit_of_ok hassign, ?_, fun hup hT => ?_⟩
    · rw [Tree.properties, hslot]
      exact .put hd.mem (hd.clear hσ ⟨rfl, 0, rfl⟩)
    · exact (((Rules.upright_lawful T).field _ (hopen hup hT) (.inr (.inr ⟨rfl, rfl⟩)) _ _
        hassign).1 hup).1
  | members ts =>
    refine ⟨s.draft, rfl, ?_, fun hup _ => hup⟩
    have hsame : t.withProperties t.properties = t := by
      rw [Tree.withProperties, Tree.properties, hslot]
      show t.setSlot "properties" (.members ts) = t
      rw [← hslot, Tree.setSlot_self]
    rw [hsame]
    exact .refl hd
  -- The slot of the properties holds members only.
  | flag b =>
    have hfits := ht _ _ hp
    rw [hslot] at hfits
    obtain ⟨k, hk⟩ := hfits
    cases hk
  | child c =>
    have hfits := ht _ _ hp
    rw [hslot] at hfits
    cases hfits.1

namespace Plays

/-- A list of properties in any case. -/
theorem ensureProperties (hd : s.draft.forest.Holds t i A) (ht : t.All Tree.Typed)
    (hk : t.kind ∈ Kind.schemas) : Yields (Describe.ensureProperties i) s fun _ s' =>
      Plays w key? T C (·.kind ∈ Kind.schemas) (Tree.settled renews [])
        Describe.ensureProperties s s' i A t := by
  intro _ s' h
  obtain ⟨d', hok, hturned, hupright⟩ := exists_ensureProperties T hd ht.root hk
  cases h.symm.trans hok
  refine ⟨hturned, ht.withProperties hk (ht.isProperty hk), Tree.settled_unmarked,
    fun _ => .of_eq rfl rfl, fun _ _ hup hT => ⟨hupright hup hT, fun L _ _ d j B u hu huk => ?_⟩⟩
  obtain ⟨d₁, hok, hturned, hupright⟩ :=
    exists_ensureProperties (s := { L with draft := d }) T hu.holds hu.typed.root huk
  exact ⟨(), d₁, hok, _, rfl, hturned, hu.typed.withProperties huk (hu.typed.isProperty huk),
    hupright hu.upright hu.mem⟩

/-- Properties written one after the other, each according to a plan of its name. -/
theorem writeProperties {R : α → PropertyPlan → Prop} {name : α → String}
    (hR : ∀ x p, R x p → p.name = name x ∧ ∀ es ∈ p.overrides, es.ForProperty)
    (hnames : (xs.map name).Nodup) (hd : s.draft.forest.Holds t i A) (ht : t.All Tree.Typed)
    (hk : t.kind ∈ Kind.schemas)
    (hstep : ∀ before x after s₁ B u, xs = before ++ x :: after →
      before.forM (f · i) s = .ok () s₁ → s₁.draft.forest.Holds u i B → u.All Tree.Typed →
      u.kind ∈ Kind.schemas → Yields (f x i) s₁ fun _ s' => ∃ p, R x p ∧ Plays w key? T C
        (fun u => u.kind ∈ Kind.schemas ∧ p.Steady (Members.getD u.properties p.name))
        (p.into renews) (f x) s₁ s' i B u) :
    Yields (do xs.forM (f · i); Describe.ensureProperties i) s fun _ s' => ∃ ps,
      List.Forall₂ R xs ps ∧ Plays w key? T C (fun u => u.kind ∈ Kind.schemas ∧
        ∀ p ∈ ps, p.Steady (Members.getD u.properties p.name)) (Tree.settled renews ps)
        (fun j => do xs.forM (f · j); Describe.ensureProperties j) s s' i A t := by
  induction xs generalizing s A t with
  | nil =>
    exact (ensureProperties hd ht hk).mono fun _ s' h => ⟨[], .nil, h.mono fun u hu => hu.1⟩
  | cons x xs ih =>
    obtain ⟨hfresh, hnames⟩ := List.nodup_cons.1 hnames
    have hassoc : (fun j => (x :: xs).forM (f · j) >>= fun _ => Describe.ensureProperties j)
        = fun j => f x j >>= fun _ => (xs.forM (f · j) >>= fun _ => Describe.ensureProperties j) :=
      funext fun j => bind_assoc (f x j) (fun _ => xs.forM (f · j)) _
    rw [hassoc, congrFun hassoc i]
    intro _ s' h
    obtain ⟨⟨⟩, s₁, hx, h⟩ := Results.bind_eq_ok.1 h
    obtain ⟨p, hp, hfirst⟩ := hstep [] x xs s A t rfl rfl hd ht hk _ s₁ hx
    obtain ⟨hname, hoverrides⟩ := hR x p hp
    have hkind : (p.into renews t).kind ∈ Kind.schemas := hk
    obtain ⟨ps, hps, hrest⟩ := ih hnames hfirst.turned.holds hfirst.typed hkind
      (fun before y after s₂ B u hxs hbefore => hstep (x :: before) y after s₂ B u (by rw [hxs]; rfl)
        ((Results.bind_of_ok hx).trans hbefore)) _ s' h
    refine ⟨p :: ps, .cons hp hps, ?_⟩
    rw [Tree.settled_cons]
    refine (hfirst.mono fun u hu => ⟨hu.1, hu.2 p List.mem_cons_self⟩).bind hrest ?_
    rintro u v hu - ⟨huk, hsteady⟩ hv
    have hvk := congrArg Tree.kind hv
    rw [Tree.kind_unmarked, Tree.kind_unmarked] at hvk
    refine ⟨hvk ▸ huk, fun p' hp' => (hsteady p' (List.mem_cons_of_mem _ hp')).unmarked ?_⟩
    -- The plans for other names find what they would have found before.
    have hne : p'.name ≠ p.name := by
      obtain ⟨y, hy, hR'⟩ := exists_of_forall₂ hps.flip hp'
      rw [(hR y p' hR').1, hname]
      exact fun he => hfresh (he ▸ List.mem_map_of_mem hy)
    rw [← Members.getD_unmarked, ← Tree.properties_unmarked, hv, Tree.properties_unmarked,
      Members.getD_unmarked, PropertyPlan.into, Tree.properties_withProperties,
      Members.getD_settle_of_ne (hu.isProperty huk) hoverrides hne]

end Plays

/-! ### Schemas -/

/-- A schema before its properties: an object, with overrides applied. -/
def openSchema (w : World) (r : Reader) (os : List Override) (i : NodeId) : Describe Unit := do
  setField i "type" (.str "object")
  os.forM fun o => r.apply w o .null i

/-- A schema with its properties. -/
def writeSchema (w : World) (r : Reader) (os : List Override) (xs : List α)
    (f : α → NodeId → Describe Unit) (i : NodeId) : Describe Unit := do
  openSchema w r os i
  xs.forM (f · i)
  ensureProperties i

/-- A computation that leaves what a node shows, and all of the site but the draft. -/
def Recurs (act : Describe Unit) (i : NodeId) (s : Site) : Prop :=
  ∃ d' es fs, act s = .ok () { s with draft := d' } ∧ s.draft.forest.content i = .ok es ∧
    d'.forest.content i = .ok fs ∧ (Data.ofEntries es).same (.ofEntries fs) = true

namespace Plays

/-- Opening a schema merges the type of objects and the resolved overrides into it. -/
theorem openSchema (hos : ∀ o ∈ os, o.toEntries.All (Entries.Findable Data.EqualsItself) t.kind)
    (hd : s.draft.forest.Holds t i A) (ht : t.All Tree.Typed) (hk : t.kind ∈ Kind.schemas) :
    Yields (Describe.openSchema w r os i) s fun _ s' => ∃ ws,
      List.Forall₂ (fun o es => Entries.Resolves o.toEntries es) os ws ∧
        Plays w key? T C (·.kind = t.kind) (Tree.mergeAll true (Entries.ofObject :: ws))
          (Describe.openSchema w r os) s s' i A t := by
  have hobject : Yields (Describe.setField i "type" (.str "object")) s fun _ s' =>
      Plays w key? T C (·.kind ∈ Kind.schemas) (Tree.put · "type" (.str "object"))
        (fun j => Describe.setField j "type" (.str "object")) s s' i A t :=
    Plays.setField hk (by decide) _ hd ht
  refine .bind hobject fun _ s₁ hfirst => ?_
  have hmerged : Plays w key? T C (·.kind = t.kind) (Tree.merge true Entries.ofObject) _ s s₁ i A t :=
    (hfirst.mono fun u hu => by rw [hu]; exact hk).congr (Tree.merge_ofObject hk)
      (fun u hu => Tree.merge_ofObject (hu ▸ hk)) fun hu => by
        rw [Tree.merge_unmarked, Tree.merge_unmarked, hu]
  intro _ s₂ h
  obtain ⟨ws, hws, hrest⟩ := applyAll (List.mem_cons_of_mem _ hk) hos
    hmerged.turned.holds hmerged.typed (Tree.merge_kind ..) _ s₂ h
  refine ⟨ws, hws, hmerged.bind hrest fun u v _ _ hu hv => ?_⟩
  have hv := congrArg Tree.kind hv
  rw [Tree.kind_unmarked, Tree.kind_unmarked, Tree.merge_kind] at hv
  exact hv.trans hu

/-- A schema that has been written has followed a plan. -/
theorem writeSchema {name : α → String} {given : α → List Override} {typed : α → Bool}
    (hgiven : ∀ x ∈ xs, ∀ o ∈ given x, o.toEntries.ForProperty) (hnames : (xs.map name).Nodup)
    (hos : ∀ o ∈ os, o.toEntries.All (Entries.Findable Data.EqualsItself) t.kind)
    (hd : s.draft.forest.Holds t i A) (ht : t.All Tree.Typed) (hk : t.kind ∈ Kind.schemas)
    (hstep : ∀ s₀, Describe.openSchema w r os i s = .ok () s₀ →
      ∀ before x after s₁ B u, xs = before ++ x :: after →
      before.forM (f · i) s₀ = .ok () s₁ → s₁.draft.forest.Holds u i B → u.All Tree.Typed →
      u.kind ∈ Kind.schemas → Yields (f x i) s₁ fun _ s' => ∃ p : PropertyPlan,
        p.Suits (name x) (given x) (typed x) ∧ Plays w key? T C
        (fun u => u.kind ∈ Kind.schemas ∧ p.Steady (Members.getD u.properties p.name))
        (p.into renews) (f x) s₁ s' i B u) :
    Yields (Describe.writeSchema w r os xs f i) s fun _ s' => ∃ p : Plan,
      p.Suits os xs name given typed ∧ Plays w key? T C (fun u => u.kind = t.kind ∧
        ∀ q ∈ p.properties, q.Steady
          (Members.getD (Tree.mergeAll true p.sources u).properties q.name))
        (p.run renews) (Describe.writeSchema w r os xs f) s s' i A t := by
  intro _ s' h
  obtain ⟨⟨⟩, s₀, hopen, h⟩ := Results.bind_eq_ok.1 h
  obtain ⟨ws, hws, hfirst⟩ := openSchema hos hd ht hk _ s₀ hopen
  have hkind : (Tree.mergeAll true (Entries.ofObject :: ws) t).kind ∈ Kind.schemas := by
    rw [Tree.mergeAll_kind]
    exact hk
  obtain ⟨ps, hps, hrest⟩ := writeProperties
    (R := fun x p => x ∈ xs ∧ p.Suits (name x) (given x) (typed x))
    (fun x p hp => ⟨hp.2.name, hp.2.forProperty (hgiven x hp.1)⟩) hnames hfirst.turned.holds
    hfirst.typed hkind (fun before x after s₁ B u hxs hbefore hu htyped huk => by
      have hx : x ∈ xs := hxs ▸ List.mem_append_right _ List.mem_cons_self
      exact (hstep s₀ hopen before x after s₁ B u hxs hbefore hu htyped huk).mono
        fun _ _ ⟨p, hp, hplays⟩ => ⟨p, ⟨hx, hp⟩, hplays⟩) _ s' h
  refine ⟨⟨Entries.ofObject :: ws, ps⟩, ⟨⟨ws, rfl, hws⟩, hps.imp fun _ _ h => h.2⟩,
    (hfirst.mono fun u hu => hu.1).bind hrest fun u v _ _ hu hv => ?_⟩
  have hvk := congrArg Tree.kind hv
  rw [Tree.kind_unmarked, Tree.kind_unmarked, Tree.mergeAll_kind, hu.1] at hvk
  refine ⟨hvk ▸ hk, fun p hp => (hu.2 p hp).unmarked ?_⟩
  rw [← Members.getD_unmarked, ← Tree.properties_unmarked, hv, Tree.properties_unmarked,
    Members.getD_unmarked]

/-- A schema that has been written can be written a second time. -/
theorem twice {p : Plan} {act : NodeId → Describe Unit} (hp : p.Sound t.kind) (hdecisive : p.Decisive)
    (hd : s.draft.Stands T i A t) (hk : t.kind ∈ Kind.schemas)
    (horderly : Members.Orderly t.properties) (hdesk : ∃ e, s.desk? = some e)
    (hagree : w.classes.Agree s.met s'.met)
    (h : Plays w key? T True (fun u => u.kind = t.kind ∧ ∀ q ∈ p.properties,
      q.Steady (Members.getD (Tree.mergeAll true p.sources u).properties q.name)) (p.run renews) act
      s s' i A t) : Recurs (act i) i s' := by
  obtain ⟨hupright, hagain⟩ := h.again trivial hdesk hd.upright hd.mem
  have hkind : (p.run renews t).kind = t.kind := Tree.mergeAll_kind true p.sources t
  have hstands : s'.draft.Stands T i _ (p.run renews t) := ⟨h.turned.holds, h.typed, hupright, hd.mem⟩
  obtain ⟨⟨⟩, d', hact, u, hsame, hturned, htyped, -⟩ := hagain s' (.refl key? s') hagree s'.draft i _ _
    hstands ⟨hkind, Plan.steady_run hp hd.typed hk horderly hdecisive⟩
  rw [Plan.run_run hp hd.typed hk horderly hdecisive] at hsame
  exact ⟨d', _, _, hact, hstands.holds.content_eq h.typed, hturned.holds.content_eq htyped,
    Tree.same_shown hsame.symm⟩

end Plays

end Describe

end ApiDoc
