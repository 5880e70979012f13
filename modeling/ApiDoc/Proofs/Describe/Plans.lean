import ApiDoc.Proofs.Describe.Sketches
import ApiDoc.Proofs.Tree.Marks
import ApiDoc.Proofs.Tree.Members

namespace ApiDoc

/-!
# Plans of descriptions

A description merges overrides into properties and draws a sketch where they leave the type
undecided. What it makes of a tree is told by a plan:

* `Tree.IsProperty`, `Entries.ForProperty` — properties, and sources that can be merged into them;
* `PropertyPlan`, `PropertyPlan.outcome` — what becomes of one property; some are withdrawn;
* `Members.absorb`, `Members.settle` — a source merged into the property of a name, a plan followed;
* `Members.get?_absorbAll`, `Members.get?_settleAll` — what is found under each name afterwards;
* `Members.settleAll_twice` — plans followed a second time.
-/

/-! ### Properties -/

namespace Kind

/-- A schema has its properties under keys. -/
theorem placement?_properties {k : Kind} (hk : k ∈ schemas) :
    k.placement? "properties" = some (.keyed .property "property") := by
  revert k
  decide

end Kind

namespace Tree

/-- A property of a schema whose slots hold what they are for. -/
structure IsProperty (c : Tree) : Prop where
  isFor : c.IsFor (.keyed .property "property")
  typed : c.All Typed

variable {t c : Tree}

/-- The properties of a typed schema are properties. -/
theorem All.isProperty (ht : t.All Typed) (hk : t.kind ∈ Kind.schemas) :
    ∀ c ∈ t.properties, c.IsProperty := fun _ hc =>
  have hc := (t.slot "properties").list_subset hc
  ⟨(ht.root _ _ (Kind.placement?_properties hk)).isFor _ hc, ht.child hc⟩

/-- A tree with the slots of another. -/
theorem All.of_slot {u : Tree} (ht : t.All Typed) (hkind : u.kind = t.kind)
    (hslot : u.slot = t.slot) : u.All Typed := by
  refine .mk (fun σ p hp => ?_) fun σ c hc => ?_
  · rw [hkind] at hp
    rw [hslot]
    exact ht.root σ p hp
  · rw [hslot] at hc
    exact ht.child hc

namespace IsProperty

/-- A property is a node of the kind of properties. -/
theorem kind (h : c.IsProperty) : c.kind = .property := h.isFor.kind

/-- A property is a schema itself. -/
theorem mem_schemas (h : c.IsProperty) : c.kind ∈ Kind.schemas := by
  rw [h.kind]
  decide

/-- What sketches set is told from the name. -/
theorem names_notMem_keys (h : c.IsProperty) : ∀ name ∈ Sketch.names, name ∉ c.keys := by
  rw [h.isFor.keys]
  decide

end IsProperty

/-- Whether a type or a reference is set. -/
def isDecided (t : Tree) : Bool := !(t.field "type").isUnset || !(t.field "ref").isUnset

/-- A property whose type is not decided has neither type nor reference. -/
theorem isDecided_eq_false : t.isDecided = false ↔ t.Undecided := by
  simp [isDecided, Undecided, Data.isUnset_iff]

end Tree

/-- A new property is one. -/
theorem Members.isProperty_new (q : String) : (Members.new q).IsProperty where
  isFor := by
    refine ⟨rfl, rfl, fun k key he => ⟨q, ?_⟩⟩
    cases he
    rfl
  typed := .leaf (Tree.typed_fresh rfl) rfl

@[simp] theorem Members.name_new (q : String) : (Members.new q).name = q := rfl

/-- The type of a new property is not decided. -/
theorem Members.undecided_new (q : String) : (Members.new q).Undecided := ⟨rfl, rfl⟩

/-! ### Sources -/

/-- A source that can be merged into a property. It does not name the key of the property. -/
structure Entries.ForProperty (es : Entries) : Prop where
  findable : es.All (Entries.Findable Data.EqualsItself) .property
  key : es.text? "property" = none

/-- A source that gives what goes with a type, such as a format or items, only together with a type
    or a reference. -/
structure Entries.Decisive (es : Entries) : Prop where
  whole : ∀ name ∈ Sketch.names ++ Sketch.slots, es.text? (wireName name) ≠ none →
    es.text? "type" ≠ none ∨ es.text? "$ref" ≠ none
  given : es.text? "type" ≠ some .unset ∧ es.text? "$ref" ≠ some .unset

namespace Tree

variable {c : Tree} {ws : List Entries} {es : Entries}

/-- An override merged into a property leaves a property of that name. -/
theorem IsProperty.merge (h : c.IsProperty) (hes : es.ForProperty) :
    (merge true es c).IsProperty ∧ (Tree.merge true es c).name = c.name := by
  have hkey : (Tree.merge true es c).field "property" = c.field "property" :=
    merge_field_of_absent true hes.key
  refine ⟨⟨⟨(merge_kind ..).trans h.isFor.kind, (merge_keys ..).trans h.isFor.keys,
    fun k key he => ?_⟩, All.typed_merge (h.kind.symm ▸ hes.findable) h.typed⟩, ?_⟩
  · cases he
    rw [hkey]
    exact h.isFor.text _ _ rfl
  · rw [name, hkey, name]

/-- So do several overrides. -/
theorem IsProperty.mergeAll (h : c.IsProperty) (hws : ∀ es ∈ ws, es.ForProperty) :
    (mergeAll true ws c).IsProperty ∧ (Tree.mergeAll true ws c).name = c.name := by
  induction ws generalizing c with
  | nil => exact ⟨h, rfl⟩
  | cons es ws ih =>
    obtain ⟨hes, hws⟩ := List.forall_mem_cons.1 hws
    obtain ⟨hfirst, hname⟩ := h.merge hes
    obtain ⟨hall, hnames⟩ := ih hfirst hws
    exact ⟨hall, hnames.trans hname⟩

/-- A bound for several sources. -/
theorem exists_bound (ws : List Entries) : ∃ n, ∀ es ∈ ws, sizeOf es < n :=
  ⟨sizeOf ws, fun _ => List.sizeOf_lt_of_mem⟩

/-- Overrides merged a second time change nothing. -/
theorem IsProperty.mergeAll_twice (h : c.IsProperty) (hws : ∀ es ∈ ws, es.ForProperty) :
    Tree.mergeAll true ws (Tree.mergeAll true ws c) = Tree.mergeAll true ws c := by
  obtain ⟨n, hn⟩ := exists_bound ws
  exact Tree.mergeAll_twice n (fun es hes => ⟨(hws es hes).findable, hn es hes⟩) c h.kind h.typed

/-- A field that decides the type, after a merge. -/
theorem IsProperty.merge_deciding (h : c.IsProperty) (hes : es.ForProperty) {name : String}
    (hname : name = "type" ∨ name = "ref") : (Tree.merge true es c).field name
      = ((es.text? (wireName name)).map Forest.shownValue).getD (c.field name) := by
  have hfield : name ∈ c.kind.fields ∧ name ∉ c.kind.arrayFields ∧ name ∈ c.kind.shownFields ∧
      name ∉ c.keys := by
    rw [h.kind, h.isFor.keys]
    rcases hname with rfl | rfl <;> decide
  obtain ⟨hfield, harray, hshown, hkey⟩ := hfield
  rw [merge_field true hes.findable.root.distinct hfield]
  cases es.text? (wireName name) with
  | none => rfl
  | some v =>
    show Tree.mergeField true c.kind c.keys name v _ = _
    rw [mergeField, if_neg (by simpa using harray), if_pos (by simp), told, if_neg hkey,
      if_pos hshown]
    rfl

/-- What is undecided stays so where no source gives a type. -/
theorem IsProperty.undecided_mergeAll (h : c.IsProperty) (hws : ∀ es ∈ ws, es.ForProperty)
    (hnone : ∀ es ∈ ws, es.text? "type" = none ∧ es.text? "$ref" = none) (hc : c.Undecided) :
    (Tree.mergeAll true ws c).Undecided := by
  induction ws generalizing c with
  | nil => exact hc
  | cons es ws ih =>
    obtain ⟨hes, hws⟩ := List.forall_mem_cons.1 hws
    obtain ⟨⟨htype, href⟩, hnone⟩ := List.forall_mem_cons.1 hnone
    refine ih (h.merge hes).1 hws hnone ⟨?_, ?_⟩
    · exact (merge_field_of_absent true htype).trans hc.1
    · exact (merge_field_of_absent true href).trans hc.2

/-- What is undecided after some sources was undecided before, and none of them gives a type. -/
theorem IsProperty.undecided_of_mergeAll (h : c.IsProperty) (hws : ∀ es ∈ ws, es.ForProperty)
    (hgiven : ∀ es ∈ ws, es.text? "type" ≠ some .unset ∧ es.text? "$ref" ≠ some .unset)
    (hc : (Tree.mergeAll true ws c).Undecided) :
    c.Undecided ∧ ∀ es ∈ ws, es.text? "type" = none ∧ es.text? "$ref" = none := by
  induction ws generalizing c with
  | nil => exact ⟨hc, fun _ h => absurd h List.not_mem_nil⟩
  | cons es ws ih =>
    obtain ⟨hes, hws⟩ := List.forall_mem_cons.1 hws
    obtain ⟨⟨hgiven, hgiven'⟩, hrest⟩ := List.forall_mem_cons.1 hgiven
    obtain ⟨⟨htype, href⟩, hnone⟩ := ih (h.merge hes).1 hws hrest hc
    rw [h.merge_deciding hes (.inl rfl)] at htype
    rw [h.merge_deciding hes (.inr rfl)] at href
    have habsent : ∀ {v? : Option Data} {w : Data}, v? ≠ some .unset →
        (v?.map Forest.shownValue).getD w = .unset → v? = none ∧ w = .unset := by
      intro v? w hv hunset
      cases v? with
      | none => exact ⟨rfl, hunset⟩
      | some v =>
        have hv' : v = .unset := by
          rw [← Data.isUnset_iff, ← Data.isUnset_shownValue]
          exact Data.isUnset_iff.2 hunset
        exact absurd (congrArg some hv') hv
    obtain ⟨htype, htype'⟩ := habsent hgiven htype
    obtain ⟨href, href'⟩ := habsent hgiven' href
    exact ⟨⟨htype', href'⟩, List.forall_mem_cons.2 ⟨⟨htype, href⟩, hnone⟩⟩

end Tree

/-- A decisive override without type and reference has nothing that comes with a type. -/
theorem Entries.Decisive.absent {es : Entries} (h : es.Decisive)
    (hnone : es.text? "type" = none ∧ es.text? "$ref" = none) :
    ∀ name ∈ Sketch.names ++ Sketch.slots, es.text? (wireName name) = none := by
  intro name hname
  by_contra hsome
  rcases h.whole name hname hsome with h | h
  · exact h hnone.1
  · exact h hnone.2

/-! ### Sketches -/

namespace Sketch

variable {renews : Bool} {k : Sketch} {t c : Tree}

/-- A sketch leaves the other slots. -/
theorem slot_draw {σ : String} (hσ : σ ∉ slots) : (k.draw renews t).slot σ = t.slot σ := by
  have hfields := (t.putFields_frame k.fields).2.2.1
  have hitems : σ ≠ "items" := by
    rintro rfl
    exact hσ (by decide)
  have hvalues : σ ≠ "additional_properties" := by
    rintro rfl
    exact hσ (by decide)
  cases k with
  | items a => exact (if_neg hitems).trans (congrFun hfields σ)
  | anything | mapping a => exact (if_neg hvalues).trans (congrFun hfields σ)
  | _ => exact congrFun hfields σ

/-- What a sketch puts into a slot depends on what was there. -/
theorem slot_draw_congr {u : Tree} {σ : String} (h : u.slot σ = t.slot σ) :
    (k.draw renews u).slot σ = (k.draw renews t).slot σ := by
  have hfields : ∀ k : Sketch, (u.putFields k.fields).slot σ = (t.putFields k.fields).slot σ :=
    fun k => by rw [(u.putFields_frame _).2.2.1, (t.putFields_frame _).2.2.1, h]
  cases k with
  | items a =>
    show (if σ = "items" then _ else _) = if σ = "items" then _ else _
    split
    · rename_i he
      rw [← he, h]
    · exact hfields (items a)
  | mapping a =>
    show (if σ = "additional_properties" then _ else _) = if σ = "additional_properties" then _ else _
    split
    · rename_i he
      rw [← he, h]
    · exact hfields (mapping a)
  | anything =>
    show (if σ = "additional_properties" then _ else _) = if σ = "additional_properties" then _ else _
    rw [hfields anything]
  | _ => exact hfields _

/-- Slots hold what they are for after a sketch has been drawn. -/
theorem typed_draw (k : Sketch) (t : Tree) (ht : t.All Tree.Typed) (hk : t.kind ∈ Kind.schemas) :
    (k.draw renews t).All Tree.Typed := by
  obtain ⟨hitems, hvalues⟩ := SharedType.placement?_parts hk
  obtain ⟨hkind, -, hslot, -⟩ := t.putFields_frame k.fields
  have hput : (t.putFields k.fields).All Tree.Typed := ht.of_slot hkind hslot
  -- The part that is drawn into is of its kind, whether it is new or stood there.
  have hpart : ∀ {σ : String} {c : Kind} {b : Bool}, t.kind.placement? σ = some (.single c b) →
      (part renews (t.slot σ) c).IsFor (.single c b) ∧ (part renews (t.slot σ) c).All Tree.Typed := by
    intro σ c b hp
    have hfresh : (Tree.fresh c []).IsFor (.single c b) := ⟨rfl, rfl, nofun⟩
    have hnew : (Tree.fresh c []).All Tree.Typed := .leaf (Tree.typed_fresh rfl) rfl
    unfold part
    split
    · exact ⟨hfresh, hnew⟩
    · exact Tree.childOr_spec (Q := fun u => u.IsFor (.single c b) ∧ u.All Tree.Typed)
        (fun u hu => ⟨(ht.root σ _ hp).isFor u hu, ht.child hu⟩) ⟨hfresh, hnew⟩
  -- Drawing into a part leaves it one of its kind.
  have hdraw : ∀ {a : Sketch} {u : Tree} {c : Kind} {b : Bool}, u.IsFor (.single c b) →
      (a.draw renews u).IsFor (.single c b) := by
    intro a u c b hu
    obtain ⟨hkind, hkeys, -⟩ := draw_frame renews a u
    exact ⟨hkind.trans hu.kind, hkeys.trans hu.keys, nofun⟩
  -- A tree with its part drawn is typed if the part is.
  have hchild : ∀ {a : Sketch} {σ : String} {c : Kind} {b : Bool},
      t.kind.placement? σ = some (.single c b) → (t.putFields k.fields).kind = t.kind →
      (a.draw renews (part renews (t.slot σ) c)).All Tree.Typed →
      ((t.putFields k.fields).setSlot σ
        (.child (a.draw renews (part renews (t.slot σ) c)))).All Tree.Typed := by
    intro a σ c b hp hkind ha
    refine hput.setSlot (hkind.symm ▸ hp) ⟨rfl, hdraw (hpart hp).1⟩ fun u hu => ?_
    rw [List.mem_singleton.1 hu]
    exact ha
  cases k with
  | items a =>
    obtain ⟨hfor, htyped⟩ := hpart hitems
    exact hchild hitems hkind (typed_draw a _ htyped (hfor.kind.symm ▸ by decide))
  | mapping a =>
    obtain ⟨hfor, htyped⟩ := hpart hvalues
    exact hchild hvalues hkind (typed_draw a _ htyped (hfor.kind.symm ▸ by decide))
  | anything => exact hput.setSlot (hkind.symm ▸ hvalues) ⟨_, rfl⟩ fun u hu => nomatch hu
  | _ => exact hput

variable (renews k) in
/-- A sketch drawn into a property. -/
theorem isProperty_draw (hc : c.IsProperty) : (k.draw renews c).IsProperty ∧
    (k.draw renews c).name = c.name := by
  obtain ⟨hkind, hkeys, -⟩ := draw_frame renews k c
  have hname : (k.draw renews c).field "property" = c.field "property" := by
    rw [field_draw renews k c hc.mem_schemas hc.names_notMem_keys]
    have hnone : k.fields.text? "property" = none := by
      refine Entries.text?_eq_none_iff.2 fun e he heq => ?_
      obtain ⟨name, hname, hkey⟩ := fields_names k e he
      rw [hkey] at heq
      cases heq
      exact absurd hname (by decide)
    rw [hnone]
    rfl
  refine ⟨⟨⟨hkind.trans hc.isFor.kind, hkeys.trans hc.isFor.keys, fun _ key he => ?_⟩,
    typed_draw k c hc.typed hc.mem_schemas⟩, ?_⟩
  · cases he
    rw [hname]
    exact hc.isFor.text _ _ rfl
  · rw [Tree.name, hname, Tree.name]

/-- A sketch that leaves the type of a property undecided. -/
theorem left_of_undecided_draw (hc : c.IsProperty) (h : (k.draw renews c).Undecided) : k.Left := by
  obtain ⟨htype, href⟩ := h
  rw [field_draw renews k c hc.mem_schemas hc.names_notMem_keys] at htype href
  rw [(text?_fields k).1] at htype
  rw [(text?_fields k).2.1] at href
  cases k with
  | nothing => exact .nothing
  | values vs nullable =>
    refine .values ?_
    by_contra hsome
    obtain ⟨type, hsome⟩ := Option.ne_none_iff_exists'.1 hsome
    rw [type?, hsome] at htype
    cases htype
  | reference ref => cases href
  | plain _ _ _ | anything | items _ | mapping _ => cases htype

/-- Such a sketch drawn twice. -/
theorem Left.draw_draw (hk : k.Left) (hc : c.IsProperty) :
    k.draw renews (k.draw renews c) = k.draw renews c := by
  have hslot : ∀ u : Tree, (k.draw renews u).slot = u.slot := by
    intro u
    cases hk <;> exact (u.putFields_frame _).2.2.1
  have hframe := fun u => draw_frame renews k u
  refine Tree.eq_of (hframe _).1 (hframe _).2.1 (hframe _).2.2 (fun name => ?_) fun σ =>
    congrFun (hslot _) σ
  have hdrawn := (isProperty_draw renews k hc).1
  rw [field_draw renews k _ hdrawn.mem_schemas hdrawn.names_notMem_keys,
    field_draw renews k c hc.mem_schemas hc.names_notMem_keys]
  cases k.fields.text? name <;> rfl

/-- Sources that give nothing that sketches set can be merged before or after a sketch. -/
theorem mergeAll_draw {ws : List Entries} (hc : c.IsProperty) (hws : ∀ es ∈ ws, es.ForProperty)
    (habsent : ∀ es ∈ ws, ∀ name ∈ names ++ slots, es.text? (wireName name) = none) :
    Tree.mergeAll true ws (k.draw renews c) = k.draw renews (Tree.mergeAll true ws c) := by
  -- The overrides bring nothing for the names and slots that the sketch writes.
  have hnone : ∀ name ∈ names ++ slots, ws.filterMap (fun es => es.text? (wireName name)) = [] :=
    fun name hname => List.filterMap_eq_nil_iff.2 fun es hes => habsent es hes name hname
  obtain ⟨hkind, hkeys, hextensions⟩ := draw_frame renews k c
  obtain ⟨hkind', hkeys', hextensions'⟩ := draw_frame renews k (Tree.mergeAll true ws c)
  have hdistinct : ∀ es ∈ ws, es.Distinct := fun es hes => (hws es hes).findable.root.distinct
  have hmerged := hc.mergeAll hws
  refine Tree.eq_of ?_ ?_ ?_ (fun name => ?_) fun σ => ?_
  · rw [Tree.mergeAll_kind, hkind, hkind', Tree.mergeAll_kind]
  · rw [Tree.mergeAll_keys, hkeys, hkeys', Tree.mergeAll_keys]
  · rw [Tree.mergeAll_extensions, hextensions, hextensions', Tree.mergeAll_extensions]
  -- Fields: the sketch writes some, the overrides others, so their order does not count.
  · have hdraw := fun u : Tree => fun hu : u.IsProperty =>
      field_draw renews k u hu.mem_schemas hu.names_notMem_keys name
    rw [hdraw _ hmerged.1]
    by_cases hfield : name ∈ c.kind.fields
    · rw [Tree.mergeAll_field true hdistinct (hkind.symm ▸ hfield), hkind, hkeys, hdraw c hc,
        Tree.mergeAll_field true hdistinct hfield]
      cases htext : k.fields.text? name with
      | none => rfl
      | some v =>
        obtain ⟨other, hother, he⟩ := fields_names k _ (Entries.mem_of_text? htext)
        cases he
        rw [hnone name (List.mem_append_left _ hother)]
        rfl
    · rw [Tree.mergeAll_field_of_notMem true (hkind.symm ▸ hfield), hdraw c hc,
        Tree.mergeAll_field_of_notMem true hfield]
  -- Slots: those of the sketch are left alone by the overrides, and all others by the sketch.
  · by_cases hσ : σ ∈ slots
    · have hleft : ∀ u : Tree, u.kind = c.kind → (Tree.mergeAll true ws u).slot σ = u.slot σ := by
        intro u hu
        cases hp : u.kind.placement? σ with
        | none => exact Tree.mergeAll_slot_of_none true hp
        | some p =>
          rw [Tree.mergeAll_slot true hp, hnone σ (List.mem_append_right _ hσ)]
          rfl
      rw [hleft _ hkind]
      exact (slot_draw_congr (hleft c rfl)).symm
    · rw [slot_draw hσ]
      have hsame : (k.draw renews c).slot σ = c.slot σ := slot_draw hσ
      cases hp : c.kind.placement? σ with
      | none =>
        rw [Tree.mergeAll_slot_of_none true (hkind.symm ▸ hp), Tree.mergeAll_slot_of_none true hp,
          hsame]
      | some p =>
        rw [Tree.mergeAll_slot true (hkind.symm ▸ hp), Tree.mergeAll_slot true hp, hsame]

end Sketch

/-! ### One property -/

/-- What describing does to one property: the overrides that are merged into it, and the sketch of
    its type if it has one. -/
structure PropertyPlan where
  name : String
  overrides : List Entries
  sketch? : Option Sketch

namespace PropertyPlan

/-- What becomes of a property. What is left undecided without a type is withdrawn. -/
noncomputable def outcome (renews : Bool) (p : PropertyPlan) (c : Tree) : Option Tree :=
  let merged := Tree.mergeAll true p.overrides c
  if merged.isDecided then some merged else p.sketch?.map fun k => k.draw renews merged

variable {renews : Bool} {p : PropertyPlan} {c c' : Tree}

/-- A property that overrides decide is what they make of it. -/
theorem outcome_of_decided (h : (Tree.mergeAll true p.overrides c).isDecided = true) :
    p.outcome renews c = some (Tree.mergeAll true p.overrides c) := if_pos h

/-- A property that overrides leave open is drawn as the plan has it, or withdrawn. -/
theorem outcome_of_undecided (h : (Tree.mergeAll true p.overrides c).Undecided) :
    p.outcome renews c
      = p.sketch?.map fun k => k.draw renews (Tree.mergeAll true p.overrides c) :=
  if_neg (by rw [Tree.isDecided_eq_false.2 h]; exact Bool.false_ne_true)

variable (renews p c) in
/-- Overrides decide the property, or the plan does. -/
theorem outcome_cases :
    ((Tree.mergeAll true p.overrides c).isDecided = true ∧
      p.outcome renews c = some (Tree.mergeAll true p.overrides c)) ∨
    ((Tree.mergeAll true p.overrides c).Undecided ∧ p.outcome renews c
      = p.sketch?.map fun k => k.draw renews (Tree.mergeAll true p.overrides c)) := by
  cases h : (Tree.mergeAll true p.overrides c).isDecided with
  | true => exact .inl ⟨rfl, outcome_of_decided h⟩
  | false =>
    have h := Tree.isDecided_eq_false.1 h
    exact .inr ⟨h, outcome_of_undecided h⟩

/-- What a plan makes of a property is a property of that name. -/
theorem isProperty_outcome (hp : ∀ es ∈ p.overrides, es.ForProperty) (hc : c.IsProperty)
    (h : p.outcome renews c = some c') : c'.IsProperty ∧ c'.name = c.name := by
  obtain ⟨hmerged, hname⟩ := hc.mergeAll hp
  rcases outcome_cases renews p c with ⟨-, he⟩ | ⟨-, he⟩ <;> rw [he] at h
  · cases h
    exact ⟨hmerged, hname⟩
  · obtain ⟨k, -, rfl⟩ := Option.map_eq_some_iff.1 h
    obtain ⟨hdrawn, hname'⟩ := Sketch.isProperty_draw renews k hmerged
    exact ⟨hdrawn, hname'.trans hname⟩

/-- Sources merged first count as overrides. -/
theorem outcome_mergeAll (ws : List Entries) : p.outcome renews (Tree.mergeAll true ws c)
    = PropertyPlan.outcome renews { p with overrides := ws ++ p.overrides } c := by
  have happend : Tree.mergeAll true p.overrides (Tree.mergeAll true ws c)
      = Tree.mergeAll true (ws ++ p.overrides) c := List.foldl_append.symm
  rw [outcome, outcome, happend]

variable (hp : ∀ es ∈ p.overrides, es.ForProperty) (hdecisive : ∀ es ∈ p.overrides, es.Decisive)
  (hc : c.IsProperty)

include hp hdecisive hc

/-- What a property has become stays when it is described once more. -/
theorem outcome_again (h : p.outcome renews c = some c') : p.outcome renews c' = some c' := by
  obtain ⟨hmerged, -⟩ := hc.mergeAll hp
  have htwice := hc.mergeAll_twice hp
  rcases outcome_cases renews p c with ⟨hdecided, he⟩ | ⟨hundecided, he⟩ <;> rw [he] at h
  · cases h
    rw [outcome_of_decided (htwice.symm ▸ hdecided), htwice]
  · obtain ⟨k, hk, rfl⟩ := Option.map_eq_some_iff.1 h
    obtain ⟨-, hnone⟩ := hc.undecided_of_mergeAll hp
      (fun es hes => (hdecisive es hes).given) hundecided
    -- The sketch was drawn because no source gives a type, and so none gives what goes with it.
    have hsame : Tree.mergeAll true p.overrides
        (k.draw renews (Tree.mergeAll true p.overrides c))
          = k.draw renews (Tree.mergeAll true p.overrides c) := by
      rw [Sketch.mergeAll_draw hmerged hp fun es hes => (hdecisive es hes).absent (hnone es hes),
        htwice]
    cases hdrawn : (k.draw renews (Tree.mergeAll true p.overrides c)).isDecided with
    | true => rw [outcome_of_decided (hsame.symm ▸ hdrawn), hsame]
    | false =>
      have hleft := Tree.isDecided_eq_false.1 hdrawn
      rw [outcome_of_undecided (hsame.symm ▸ hleft), hsame, hk, Option.map_some,
        (Sketch.left_of_undecided_draw hmerged hleft).draw_draw hmerged]

/-- What is withdrawn would be withdrawn without anything in it, too. -/
theorem outcome_new_of_none (h : p.outcome renews c = none) (q : String) :
    p.outcome renews (Members.new q) = none := by
  rcases outcome_cases renews p c with ⟨-, he⟩ | ⟨hundecided, he⟩ <;> rw [he] at h
  · cases h
  · have hsketch := Option.map_eq_none_iff.1 h
    obtain ⟨-, hnone⟩ := hc.undecided_of_mergeAll hp
      (fun es hes => (hdecisive es hes).given) hundecided
    have hfresh := (Members.isProperty_new q).undecided_mergeAll hp hnone (Members.undecided_new q)
    rw [outcome_of_undecided hfresh, hsketch]
    rfl

end PropertyPlan

/-! ### All properties -/

namespace Members

variable {renews : Bool} {ts : List Tree} {q : String} {c : Tree}

/-- Properties with names of their own. -/
structure Orderly (ts : List Tree) : Prop where
  property : ∀ c ∈ ts, c.IsProperty
  nodup : (names ts).Nodup

/-- The property of a name, or a new one. -/
def getD (ts : List Tree) (q : String) : Tree := (get? ts q).getD (new q)

/-- A source merged into the property of a name. -/
noncomputable def absorb (ts : List Tree) (item : String × Entries) : List Tree :=
  put ts item.1 (Tree.merge true item.2 (getD ts item.1))

/-- Sources merged into the properties of their names, one after the other. -/
noncomputable def absorbAll (ts : List Tree) (items : List (String × Entries)) : List Tree :=
  items.foldl absorb ts

/-- The sources for the property of a name. -/
def given (items : List (String × Entries)) (q : String) : List Entries :=
  (items.filter (·.1 == q)).map (·.2)

/-- A plan followed. -/
noncomputable def settle (renews : Bool) (ts : List Tree) (p : PropertyPlan) : List Tree :=
  match p.outcome renews (getD ts p.name) with
  | some c => put ts p.name c
  | none => erase ts p.name

/-- Plans followed one after the other. -/
noncomputable def settleAll (renews : Bool) (ts : List Tree) (ps : List PropertyPlan) :
    List Tree := ps.foldl (settle renews) ts

/-- The member of a name, or a new one, is a property of that name. -/
theorem isProperty_getD (h : ∀ c ∈ ts, c.IsProperty) (q : String) :
    (getD ts q).IsProperty ∧ (getD ts q).name = q := by
  unfold getD
  cases hq : get? ts q with
  | none => exact ⟨isProperty_new q, name_new q⟩
  | some c => exact ⟨h c (mem_of_get? hq), name_of_get? hq⟩

/-- What holds of all members holds when one is put among them. -/
theorem forall_put {P : Tree → Prop} (h : ∀ c ∈ ts, P c) (hc : P c) : ∀ d ∈ put ts q c, P d :=
  forall_upsert h hc fun _ _ => hc

/-- What holds of all members holds when one is taken out. -/
theorem forall_erase {P : Tree → Prop} (h : ∀ c ∈ ts, P c) : ∀ d ∈ erase ts q, P d :=
  fun d hd => h d (List.mem_of_mem_eraseP hd)

/-- Members stay orderly when a property is put under its name. -/
theorem Orderly.put (h : Orderly ts) (hc : c.IsProperty) (hname : c.name = q) :
    Orderly (put ts q c) := ⟨forall_put h.property hc, nodup_put h.nodup hname⟩

/-- Members stay orderly when one is taken out. -/
theorem Orderly.erase (h : Orderly ts) (q : String) : Orderly (erase ts q) :=
  ⟨forall_erase h.property, nodup_erase h.nodup⟩

/-! ### Sources absorbed -/

section Absorb

variable {items : List (String × Entries)}

/-- A source for one member changes this member only, and takes away no name. -/
theorem absorb_spec (h : Orderly ts) {item : String × Entries} (hitem : item.2.ForProperty) :
    Orderly (absorb ts item) ∧ names ts <+: names (absorb ts item) ∧
      ∀ q, get? (absorb ts item) q = if q = item.1
        then some (Tree.merge true item.2 (getD ts item.1)) else get? ts q := by
  obtain ⟨hget, hname⟩ := isProperty_getD h.property item.1
  obtain ⟨hmerged, hkept⟩ := hget.merge hitem
  have hname := hkept.trans hname
  refine ⟨h.put hmerged hname, ?_, fun q => ?_⟩
  · show names ts <+: names (Members.put ts _ _)
    rw [names_put hname]
    split
    · exact List.prefix_refl _
    · exact List.prefix_append _ _
  · split
    · rename_i hq
      rw [hq]
      exact get?_put_self hname
    · exact get?_put_of_ne hname ‹_›

/-- Several sources leave orderly members, and take away no name. -/
theorem absorbAll_spec (hitems : ∀ item ∈ items, item.2.ForProperty) (h : Orderly ts) :
    Orderly (absorbAll ts items) ∧ names ts <+: names (absorbAll ts items) := by
  induction items generalizing ts with
  | nil => exact ⟨h, List.prefix_refl _⟩
  | cons item items ih =>
    obtain ⟨hitem, hitems⟩ := List.forall_mem_cons.1 hitems
    obtain ⟨hfirst, hprefix, -⟩ := absorb_spec h hitem
    obtain ⟨hall, hrest⟩ := ih hitems hfirst
    exact ⟨hall, hprefix.trans hrest⟩

/-- What is found under a name after sources have been absorbed. -/
theorem get?_absorbAll (hitems : ∀ item ∈ items, item.2.ForProperty) (h : Orderly ts)
    (q : String) : get? (absorbAll ts items) q = if given items q = [] then get? ts q
      else some (Tree.mergeAll true (given items q) (getD ts q)) := by
  induction items generalizing ts with
  | nil => rfl
  | cons item items ih =>
    obtain ⟨hitem, hitems⟩ := List.forall_mem_cons.1 hitems
    obtain ⟨hfirst, -, hget⟩ := absorb_spec h hitem
    have hih := ih hitems hfirst
    show get? (absorbAll (absorb ts item) items) q = _
    rw [hih]
    -- The first item concerns the name, or it leaves the member of that name as it was.
    by_cases hq : q = item.1
    · have hself : get? (absorb ts item) q = some (Tree.merge true item.2 (getD ts q)) := by
        rw [hget, if_pos hq, hq]
      have hgiven : given (item :: items) q = item.2 :: given items q := by
        simp [given, hq]
      have hat : getD (absorb ts item) q = Tree.merge true item.2 (getD ts q) := by
        rw [getD, hself]
        rfl
      rw [hself, hat, hgiven, if_neg (List.cons_ne_nil _ _)]
      split
      · rename_i hnil
        rw [hnil]
        rfl
      · rfl
    · have hother : get? (absorb ts item) q = get? ts q := by rw [hget, if_neg hq]
      have hgiven : given (item :: items) q = given items q := by
        have hne : ¬item.1 = q := fun he => hq he.symm
        simp [given, hne]
      have hat : getD (absorb ts item) q = getD ts q := by rw [getD, hother, getD]
      rw [hother, hat, hgiven]

/-- Of several sources a member takes those given for its name, in order. -/
theorem getD_absorbAll (hitems : ∀ item ∈ items, item.2.ForProperty) (h : Orderly ts)
    (q : String) :
    getD (absorbAll ts items) q = Tree.mergeAll true (given items q) (getD ts q) := by
  rw [getD, get?_absorbAll hitems h]
  split
  · rename_i hnil
    rw [hnil]
    rfl
  · rfl

end Absorb

/-! ### Plans followed -/

section Settle

variable {p : PropertyPlan} {ps : List PropertyPlan}

variable (renews) in
/-- A plan followed changes the member of its name only. -/
theorem settle_spec (h : Orderly ts) (hp : ∀ es ∈ p.overrides, es.ForProperty) :
    Orderly (settle renews ts p) ∧ ∀ q, get? (settle renews ts p) q = if q = p.name
      then p.outcome renews (getD ts p.name) else get? ts q := by
  obtain ⟨hget, hname⟩ := isProperty_getD h.property p.name
  unfold settle
  cases houtcome : p.outcome renews (getD ts p.name) with
  | none =>
    refine ⟨h.erase _, fun q => ?_⟩
    dsimp only
    split
    · rename_i hq
      rw [hq]
      exact get?_erase_self h.nodup
    · exact get?_erase_of_ne ‹_›
  | some c =>
    obtain ⟨hc, hkept⟩ := PropertyPlan.isProperty_outcome hp hget houtcome
    have hname := hkept.trans hname
    refine ⟨h.put hc hname, fun q => ?_⟩
    dsimp only
    split
    · rename_i hq
      rw [hq]
      exact get?_put_self hname
    · exact get?_put_of_ne hname ‹_›

/-- What a plan is not for stays. -/
theorem getD_settle_of_ne (h : ∀ c ∈ ts, c.IsProperty) (hp : ∀ es ∈ p.overrides, es.ForProperty)
    (hq : q ≠ p.name) : getD (settle renews ts p) q = getD ts q := by
  obtain ⟨hget, hname⟩ := isProperty_getD h p.name
  unfold settle
  cases houtcome : p.outcome renews (getD ts p.name) with
  | none =>
    dsimp only
    rw [getD, get?_erase_of_ne hq, getD]
  | some c =>
    dsimp only
    rw [getD, get?_put_of_ne ((PropertyPlan.isProperty_outcome hp hget houtcome).2.trans hname) hq,
      getD]

variable (renews) in
/-- Several plans followed leave orderly members. -/
theorem orderly_settleAll (h : Orderly ts)
    (hps : ∀ p ∈ ps, ∀ es ∈ p.overrides, es.ForProperty) : Orderly (settleAll renews ts ps) := by
  induction ps generalizing ts with
  | nil => exact h
  | cons p ps ih =>
    obtain ⟨hp, hps⟩ := List.forall_mem_cons.1 hps
    exact ih (settle_spec renews h hp).1 hps

/-- What no plan is for stays. -/
theorem get?_settleAll_of_notMem (h : Orderly ts)
    (hps : ∀ p ∈ ps, ∀ es ∈ p.overrides, es.ForProperty) (hq : q ∉ ps.map PropertyPlan.name) :
    get? (settleAll renews ts ps) q = get? ts q := by
  induction ps generalizing ts with
  | nil => rfl
  | cons p ps ih =>
    obtain ⟨hp, hps⟩ := List.forall_mem_cons.1 hps
    obtain ⟨hne, hq⟩ := not_or.1 fun h => hq (List.mem_cons.2 h)
    obtain ⟨hfirst, hget⟩ := settle_spec renews h hp
    exact (ih hfirst hps hq).trans ((hget q).trans (if_neg hne))

/-- What is found under the name of a plan. -/
theorem get?_settleAll (h : Orderly ts) (hps : ∀ p ∈ ps, ∀ es ∈ p.overrides, es.ForProperty)
    (hnames : (ps.map PropertyPlan.name).Nodup) (hp : p ∈ ps) :
    get? (settleAll renews ts ps) p.name = p.outcome renews (getD ts p.name) := by
  induction ps generalizing ts with
  | nil => cases hp
  | cons p' ps ih =>
    obtain ⟨hp', hrest⟩ := List.forall_mem_cons.1 hps
    obtain ⟨hfresh, hnames⟩ := List.nodup_cons.1 hnames
    obtain ⟨hfirst, hget⟩ := settle_spec renews h hp'
    show get? (settleAll renews (settle renews ts p') ps) _ = _
    rcases List.mem_cons.1 hp with rfl | hp
    · rw [get?_settleAll_of_notMem hfirst hrest hfresh, hget, if_pos rfl]
    · have hne : p.name ≠ p'.name := fun he => hfresh (he ▸ List.mem_map_of_mem hp)
      rw [ih hfirst hrest hnames hp, getD, hget, if_neg hne, getD]

variable (renews) in
/-- Names that no plan withdraws stay where they are. -/
theorem names_settleAll (h : Orderly ts) (hps : ∀ p ∈ ps, ∀ es ∈ p.overrides, es.ForProperty)
    (hnames : (ps.map PropertyPlan.name).Nodup) {kept more : List String}
    (hts : names ts = kept ++ more)
    (hkept : ∀ p ∈ ps, p.name ∈ kept → (p.outcome renews (getD ts p.name)).isSome) :
    ∃ more', names (settleAll renews ts ps) = kept ++ more' := by
  induction ps generalizing ts more with
  | nil => exact ⟨more, hts⟩
  | cons p ps ih =>
    obtain ⟨hp, hps⟩ := List.forall_mem_cons.1 hps
    obtain ⟨hfresh, hnames⟩ := List.nodup_cons.1 hnames
    obtain ⟨hpkept, hkept⟩ := List.forall_mem_cons.1 hkept
    obtain ⟨hfirst, hget⟩ := settle_spec renews h hp
    obtain ⟨hgot, hname⟩ := isProperty_getD h.property p.name
    have hnext : ∃ more', names (settle renews ts p) = kept ++ more' := by
      unfold settle
      cases houtcome : p.outcome renews (getD ts p.name) with
      | none =>
        have hout : p.name ∉ kept := by
          intro hmem
          have hsome := hpkept hmem
          rw [houtcome] at hsome
          cases hsome
        refine ⟨more.erase p.name, ?_⟩
        dsimp only
        rw [names_erase, hts, List.erase_append_right _ hout]
      | some c =>
        have hname := (PropertyPlan.isProperty_outcome hp hgot houtcome).2.trans hname
        dsimp only
        rw [names_put hname, hts]
        split
        · exact ⟨more, rfl⟩
        · exact ⟨more ++ [p.name], List.append_assoc ..⟩
    obtain ⟨more', hmore'⟩ := hnext
    refine ih hfirst hps hnames hmore' fun p' hp' hmem => ?_
    have hne : p'.name ≠ p.name := fun he => hfresh (he ▸ List.mem_map_of_mem hp')
    rw [getD, hget, if_neg hne, ← getD]
    exact hkept p' hp' hmem

variable (renews) in
/-- Plans for names that are not there follow in order, but for those that are withdrawn. -/
theorem names_settleAll_new (h : Orderly ts) (hps : ∀ p ∈ ps, ∀ es ∈ p.overrides, es.ForProperty)
    (hnames : (ps.map PropertyPlan.name).Nodup) (hnew : ∀ p ∈ ps, p.name ∉ names ts) :
    names (settleAll renews ts ps) = names ts
      ++ (ps.filter fun p => (p.outcome renews (new p.name)).isSome).map PropertyPlan.name := by
  induction ps generalizing ts with
  | nil => exact (List.append_nil _).symm
  | cons p ps ih =>
    obtain ⟨hp, hps⟩ := List.forall_mem_cons.1 hps
    obtain ⟨hfresh, hnames⟩ := List.nodup_cons.1 hnames
    obtain ⟨hpnew, hnew⟩ := List.forall_mem_cons.1 hnew
    obtain ⟨hfirst, -⟩ := settle_spec renews h hp
    obtain ⟨hgot, hname⟩ := isProperty_getD h.property p.name
    have hget : getD ts p.name = new p.name := by rw [getD, get?_eq_none.2 hpnew]; rfl
    have hone : names (settle renews ts p) = names ts
        ++ if (p.outcome renews (new p.name)).isSome then [p.name] else [] := by
      unfold settle
      rw [hget] at hgot hname ⊢
      cases houtcome : p.outcome renews (new p.name) with
      | none =>
        dsimp only
        rw [names_erase, List.erase_of_not_mem hpnew]
        exact (List.append_nil _).symm
      | some c =>
        have hname := (PropertyPlan.isProperty_outcome hp hgot houtcome).2.trans hname
        dsimp only
        rw [names_put hname, if_neg hpnew]
        rfl
    have hrest : ∀ p' ∈ ps, p'.name ∉ names (settle renews ts p) := by
      intro p' hp' hmem
      rw [hone, List.mem_append] at hmem
      refine hmem.elim (hnew p' hp') fun hmem => ?_
      split at hmem
      · exact hfresh (List.mem_singleton.1 hmem ▸ List.mem_map_of_mem hp')
      · exact List.not_mem_nil hmem
    show names (settleAll renews (settle renews ts p) ps) = _
    rw [ih hfirst hps hnames hrest, hone, List.append_assoc, List.filter_cons]
    split <;> rfl

end Settle

/-! ### Twice -/

section Twice

variable {items : List (String × Entries)} {ps : List PropertyPlan}

/-- Sources absorbed and plans followed a second time. -/
theorem settleAll_twice (h : Orderly ts) (hitems : ∀ item ∈ items, item.2.ForProperty)
    (hps : ∀ p ∈ ps, ∀ es ∈ p.overrides, es.ForProperty)
    (hnames : (ps.map PropertyPlan.name).Nodup)
    (hdecisive : ∀ p ∈ ps, ∀ es ∈ given items p.name ++ p.overrides, es.Decisive) :
    settleAll renews (absorbAll (settleAll renews (absorbAll ts items) ps) items) ps
      = settleAll renews (absorbAll ts items) ps := by
  have hgiven : ∀ q, ∀ es ∈ given items q, es.ForProperty := by
    intro q es hes
    obtain ⟨item, hitem, rfl⟩ := List.mem_map.1 hes
    exact hitems item (List.mem_of_mem_filter hitem)
  have hall : ∀ p ∈ ps, ∀ es ∈ given items p.name ++ p.overrides, es.ForProperty := fun p hp es hes =>
    (List.mem_append.1 hes).elim (hgiven p.name es) (hps p hp es)
  obtain ⟨hfirst, -⟩ := absorbAll_spec hitems h
  have hdone : Orderly (settleAll renews (absorbAll ts items) ps) := orderly_settleAll renews hfirst hps
  generalize hus : settleAll renews (absorbAll ts items) ps = us at hdone ⊢
  obtain ⟨hagain, ⟨more, hmore⟩⟩ := absorbAll_spec hitems hdone
  -- What is found under each name after the first time.
  have hplan : ∀ p ∈ ps, get? us p.name = PropertyPlan.outcome renews
      { p with overrides := given items p.name ++ p.overrides } (getD ts p.name) := by
    intro p hp
    rw [← hus, get?_settleAll hfirst hps hnames hp, getD_absorbAll hitems h,
      PropertyPlan.outcome_mergeAll]
  have hother : ∀ q, q ∉ ps.map PropertyPlan.name → get? us q = get? (absorbAll ts items) q :=
    fun q hq => by rw [← hus, get?_settleAll_of_notMem hfirst hps hq]
  have hself := fun q => (isProperty_getD h.property q).1
  have hsecond : ∀ p ∈ ps, get? (settleAll renews (absorbAll us items) ps) p.name
      = get? us p.name := by
    intro p hp
    rw [get?_settleAll hagain hps hnames hp, getD_absorbAll hitems hdone,
      PropertyPlan.outcome_mergeAll]
    have hfound := hplan p hp
    cases hget : get? us p.name with
    | none =>
      rw [hget] at hfound
      rw [getD, hget]
      exact PropertyPlan.outcome_new_of_none (hall p hp) (hdecisive p hp) (hself p.name)
        hfound.symm p.name
    | some c =>
      rw [hget] at hfound
      rw [getD, hget]
      exact PropertyPlan.outcome_again (hall p hp) (hdecisive p hp) (hself p.name) hfound.symm
  have hsame : ∀ q, get? (settleAll renews (absorbAll us items) ps) q = get? us q := by
    intro q
    by_cases hq : q ∈ ps.map PropertyPlan.name
    · obtain ⟨p, hp, rfl⟩ := List.mem_map.1 hq
      exact hsecond p hp
    · rw [get?_settleAll_of_notMem hagain hps hq, get?_absorbAll hitems hdone]
      split
      · rfl
      · rename_i hsome
        have hfound := hother q hq
        rw [get?_absorbAll hitems h, if_neg hsome] at hfound
        rw [hfound, getD, hfound]
        exact congrArg some ((hself q).mergeAll_twice (hgiven q))
  -- No name that is there is withdrawn, and none is left over.
  obtain ⟨more', hnames'⟩ := names_settleAll renews hagain hps hnames hmore.symm
    fun p hp hmem => by
      rw [← get?_settleAll hagain hps hnames hp, hsecond p hp]
      exact isSome_get?.2 hmem
  have hnil : more' = [] := by
    refine List.eq_nil_iff_forall_not_mem.2 fun q hq => ?_
    have hfound := isSome_get?.2 (hnames' ▸ List.mem_append_right _ hq :
      q ∈ names (settleAll renews (absorbAll us items) ps))
    rw [hsame q, isSome_get?] at hfound
    have hnodup := (orderly_settleAll renews hagain hps).nodup
    rw [hnames'] at hnodup
    exact (List.nodup_append.1 hnodup).2.2 q hfound q hq rfl
  rw [hnil, List.append_nil] at hnames'
  exact eq_of_get? hnames' (hnames'.symm ▸ hdone.nodup) fun q _ => hsame q

end Twice

end Members

end ApiDoc
