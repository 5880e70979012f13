import ApiDoc.Proofs.Describe.Filling
import ApiDoc.Proofs.Tree.Items
import ApiDoc.Proofs.Describe.Yields

namespace ApiDoc

/-!
# What types are written as

Both classifiers read a type and write into a node. What they write is a sketch, which says nothing
of the node:

* `Sketch` — a reference, a name with a format, values of an enumeration, a collection;
* `Sketch.draw` — a sketch drawn into the tree of a node. The part of a collection goes into a new
  child, or into one that is there;
* `MetadataDescriber.describeItem_draws`, `ObjectDescriber.describeType_draws` — a classifier that
  succeeds has drawn a sketch, by recursion on the type;
* `Sketch.Left` — the sketches that leave a type undecided.
-/

/-- Whether neither a type nor a reference is set. -/
def Tree.Undecided (t : Tree) : Prop := t.field "type" = .unset ∧ t.field "ref" = .unset

/-- What a classifier makes of a type. -/
inductive Sketch where
  | nothing
  | plain (type : String) (format? : Option String) (nullable : Bool)
  | values (values : List Data) (nullable : Bool)
  | reference (ref : String)
  | anything
  | items (item : Sketch)
  | mapping (value : Sketch)

namespace Sketch

/-- The mark of a type that has null as a value. -/
def nullMark (nullable : Bool) : Entries :=
  if nullable then [(.str "nullable", .bool true)] else []

/-- The fields that a sketch sets, one after the other. -/
def fields : Sketch → Entries
  | nothing => []
  | plain type format? nullable => (.str "type", .str type) ::
    ((format?.toList.map fun f => (Data.str "format", Data.str f)) ++ nullMark nullable)
  | values vs nullable =>
    ((ObjectDescriber.valueType? vs).toList.map fun t => (Data.str "type", Data.str t)) ++
      (.str "enum", .ofList vs) :: nullMark nullable
  | reference ref => [(.str "ref", .str ref)]
  | anything => [(.str "type", .str "object")]
  | items _ => [(.str "type", .str "array")]
  | mapping _ => [(.str "type", .str "object")]

/-- The tree into which the part of a collection is drawn. -/
def part (renews : Bool) (s : Slot Tree) (k : Kind) : Tree :=
  if renews then .fresh k [] else s.childOr (.fresh k [])

/-- A sketch drawn into a tree. -/
def draw (renews : Bool) : Sketch → Tree → Tree
  | anything, t =>
    (t.putFields anything.fields).setSlot "additional_properties" (.flag true)
  | items a, t => (t.putFields (items a).fields).setSlot "items"
    (.child (a.draw renews (part renews (t.slot "items") .items)))
  | mapping a, t => (t.putFields (mapping a).fields).setSlot "additional_properties"
    (.child (a.draw renews (part renews (t.slot "additional_properties") .additionalProperties)))
  | s, t => t.putFields s.fields

/-- The sketches that leave a type undecided: nothing at all, and values of different types. -/
inductive Left : Sketch → Prop
  | nothing : Left nothing
  | values {vs : List Data} {nullable : Bool} (h : ObjectDescriber.valueType? vs = none) :
    Left (values vs nullable)

/-- The name of the type that a sketch sets. -/
def type? : Sketch → Option String
  | plain type _ _ => some type
  | values vs _ => ObjectDescriber.valueType? vs
  | items _ => some "array"
  | anything | mapping _ => some "object"
  | nothing | reference _ => none

/-- The reference that a sketch sets. -/
def ref? : Sketch → Option String
  | reference ref => some ref
  | _ => none

/-- The format that a sketch sets. -/
def format? : Sketch → Option String
  | plain _ format? _ => format?
  | _ => none

/-- The fields that sketches set. -/
def names : List String := ["type", "format", "nullable", "enum", "ref"]

/-- The slots that sketches fill. -/
def slots : List String := ["items", "additional_properties"]

/-- The fields that sketches set are shown. -/
theorem names_shown {k : Kind} (hk : k ∈ Kind.schemas) : ∀ name ∈ names, name ∈ k.shownFields := by
  revert k
  decide

theorem fields_names (k : Sketch) : ∀ e ∈ k.fields, ∃ name ∈ names, e.1 = .str name := by
  -- A mark of null is an entry for one field, or none.
  have hmark : ∀ b, ∀ e ∈ nullMark b, ∃ name ∈ names, e.1 = .str name := by
    intro b e he
    cases b with
    | true => exact ⟨"nullable", by decide, by rw [List.mem_singleton.1 he]⟩
    | false => cases he
  intro e he
  cases k with
  | nothing => cases he
  | plain type format? nullable =>
    rcases List.mem_cons.1 he with rfl | he
    · exact ⟨"type", by decide, rfl⟩
    rcases List.mem_append.1 he with he | he
    · obtain ⟨f, -, rfl⟩ := List.mem_map.1 he
      exact ⟨"format", by decide, rfl⟩
    · exact hmark _ e he
  | values vs nullable =>
    rcases List.mem_append.1 he with he | he
    · obtain ⟨f, -, rfl⟩ := List.mem_map.1 he
      exact ⟨"type", by decide, rfl⟩
    rcases List.mem_cons.1 he with rfl | he
    · exact ⟨"enum", by decide, rfl⟩
    · exact hmark _ e he
  | reference ref => exact ⟨"ref", by decide, by rw [List.mem_singleton.1 he]⟩
  | anything | items _ | mapping _ => exact ⟨"type", by decide, by rw [List.mem_singleton.1 he]⟩

theorem fields_distinct (k : Sketch) : k.fields.Distinct := by
  refine ⟨fun e he => ?_, ?_⟩
  · obtain ⟨name, -, hname⟩ := fields_names k e he
    exact ⟨name, hname⟩
  cases k with
  | nothing => exact .nil
  | plain type format? nullable =>
    cases format? <;> cases nullable <;> simp [fields, nullMark]
  | values vs nullable =>
    simp only [fields]
    cases ObjectDescriber.valueType? vs <;> cases nullable <;> simp [nullMark]
  | reference ref => exact List.pairwise_singleton ..
  | anything | items _ | mapping _ => exact List.pairwise_singleton ..

/-- What a sketch sets under the names that decide a type. -/
theorem text?_fields (k : Sketch) : k.fields.text? "type" = k.type?.map Data.str ∧
    k.fields.text? "ref" = k.ref?.map Data.str ∧
      k.fields.text? "format" = k.format?.map Data.str := by
  have hnil : ∀ s, Entries.text? [] s = none := fun _ => rfl
  have hself := @Entries.text?_cons_self
  cases k with
  | nothing | reference _ | anything | items _ | mapping _ =>
    simp [fields, type?, ref?, format?, Entries.text?_cons_of_ne, hnil, hself]
  | plain type format? nullable =>
    cases format? <;> cases nullable <;>
      simp [fields, nullMark, type?, ref?, format?, Entries.text?_cons_of_ne, hnil, hself]
  | values vs nullable =>
    simp only [fields, type?]
    cases ObjectDescriber.valueType? vs <;> cases nullable <;>
      simp [nullMark, ref?, format?, Entries.text?_cons_of_ne, hnil, hself]

variable (renews : Bool) (k : Sketch) (t : Tree)

/-- The fields of a tree into which a sketch has been drawn. -/
theorem field_draw (ht : t.kind ∈ Kind.schemas) (hkeys : ∀ name ∈ names, name ∉ t.keys)
    (name : String) : (k.draw renews t).field name
      = ((k.fields.text? name).map Forest.shownValue).getD (t.field name) := by
  -- What a sketch has inside goes into slots and leaves the fields.
  have hfields : (k.draw renews t).field name = (t.putFields k.fields).field name := by
    cases k <;> rfl
  -- All keys of the entries are texts, so that a name tells which entry it is.
  have hkey : ∀ e ∈ k.fields, e.1.str?.getD "" = name → e.1 = .str name := by
    intro e he hname
    obtain ⟨other, -, hother⟩ := fields_names k e he
    rw [hother] at hname ⊢
    exact congrArg Data.str hname
  rw [hfields, Tree.field_putFields (v := (k.fields.text? name).getD .unset)]
  · cases htext : k.fields.text? name with
    | none =>
      refine if_neg ?_
      rintro ⟨e, he, hname⟩
      exact Entries.text?_eq_none_iff.1 htext e he (hkey e he hname)
    | some v =>
      have hmem := Entries.mem_of_text? htext
      obtain ⟨other, hother, he⟩ := fields_names k _ hmem
      cases he
      rw [if_pos ⟨_, hmem, rfl⟩, Tree.told, if_neg (hkeys _ hother),
        if_pos (names_shown ht _ hother)]
      rfl
  · intro e he hname
    obtain ⟨key, v⟩ := e
    obtain rfl : key = .str name := hkey _ he hname
    rw [(k.fields_distinct.text?_eq_some_iff).2 he]
    rfl

/-- A sketch and those of which it is made all have a property. -/
inductive Each (P : Sketch → Prop) : Sketch → Prop
  | nothing (h : P nothing) : Each P nothing
  | plain {type format? nullable} (h : P (plain type format? nullable)) :
    Each P (plain type format? nullable)
  | values {vs nullable} (h : P (values vs nullable)) : Each P (values vs nullable)
  | reference {ref} (h : P (reference ref)) : Each P (reference ref)
  | anything (h : P anything) : Each P anything
  | items {item} (h : P (items item)) (hitem : Each P item) : Each P (items item)
  | mapping {value} (h : P (mapping value)) (hvalue : Each P value) : Each P (mapping value)

/-- A sketch with a name that documents have for a type. Only texts and numbers have a format. -/
def Proper : Sketch → Prop
  | plain type format? _ => type ∈ ["string", "boolean", "integer", "number"] ∧
    (format?.isSome → type ∈ ["string", "number"])
  | _ => True

theorem draw_frame : (k.draw renews t).kind = t.kind ∧ (k.draw renews t).keys = t.keys ∧
    (k.draw renews t).extensions = t.extensions := by
  obtain ⟨hkind, hkeys, -, hextensions⟩ := t.putFields_frame k.fields
  cases k <;> exact ⟨hkind, hkeys, hextensions⟩

end Sketch

/-- The child in a slot, or a new one. -/
theorem Tree.All.childOr {t : Tree} (ht : t.All Tree.Typed) {σ : String} {k : Kind} {b : Bool}
    (hp : t.kind.placement? σ = some (.single k b)) :
    ((t.slot σ).childOr (.fresh k [])).kind = k ∧
      ((t.slot σ).childOr (.fresh k [])).All Tree.Typed :=
  childOr_spec (Q := fun c => c.kind = k ∧ c.All Typed)
    (fun c hc => ⟨((ht.root σ _ hp).isFor c hc).kind, ht.child hc⟩)
    ⟨rfl, .leaf (typed_fresh rfl) rfl⟩

/-! ### Fields and children -/

namespace Draft.Turned

variable {d d₁ d₂ d' : Draft} {i j : NodeId} {A : Finset NodeId} {t u c : Tree}

/-- Only the nodes count. -/
theorem congr (h : d.Turned i A t d') (hd : d₁.forest = d.forest) (hd' : d₂.forest = d'.forest) :
    d₁.Turned i A t d₂ := by
  obtain ⟨grows, holds⟩ := h
  refine ⟨?_, ?_⟩
  · rw [hd, hd']
    exact grows
  · rw [hd, hd']
    exact holds

/-- A tree stands where it stood if no node has changed. -/
theorem same (h : d.forest.Holds t i A) (hd : d'.forest = d.forest) : d.Turned i A t d' :=
  (refl h).congr rfl hd

/-- A child of a tree that stands at a node, and what becomes of the tree with the child. -/
theorem inside (h : d.Turned i A t d₁) {σ : String} {n : Nat} (hc : (t.slot σ).trees[n]? = some c)
    (hj : ((d₁.forest.get i).value σ).nodes[n]? = some (.node j)) :
    ∃ P, d₁.forest.Holds c j P ∧ ∀ c' d₂, d₁.Turned j P c' d₂ →
      d.Turned i A (t.setSlot σ ((t.slot σ).set n c')) d₂ := by
  obtain ⟨P, hPA, hP, hback⟩ := h.holds.focus hc hj
  exact ⟨P, hP, fun c' d₂ h₂ =>
    h.trans ⟨h₂.grows.mono hPA, hback _ _ h₂.grows h₂.holds⟩⟩

end Draft.Turned

namespace Describe

variable {s : Site} {i : NodeId} {A : Finset NodeId} {t : Tree}

/-- A field set. -/
theorem Yields.setField (hd : s.draft.forest.Holds t i A) {name : String}
    (hname : name ∈ t.kind.fields) (v : Data) : Yields (Describe.setField i name v) s
      fun _ s' => s.draft.Turned i A (t.put name v) s'.draft := by
  refine .edit fun a d h => ?_
  rw [Edit.assign?_field (hd.kind ▸ hname)] at h
  exact (Edit.Meets.assignField (F := True) hd hname v).of_ok h

/-- Two fields set one after the other. -/
theorem Yields.setFields (hd : s.draft.forest.Holds t i A) {a b : String}
    (ha : a ∈ t.kind.fields) (hb : b ∈ t.kind.fields) (v w : Data) :
    Yields (do Describe.setField i a v; Describe.setField i b w) s
      fun _ s' => s.draft.Turned i A ((t.put a v).put b w) s'.draft :=
  .bind (.setField hd ha v) fun _ _ h₁ => (Yields.setField h₁.holds hb w).mono fun _ _ h₂ =>
    h₁.trans h₂

/-- A truth value put into a slot. -/
theorem Yields.setFlag (hd : s.draft.forest.Holds t i A) {σ : String} (hσ : σ ∈ t.kind.slots)
    (b : Bool) : Yields (Describe.setField i σ (.bool b)) s
      fun _ s' => s.draft.Turned i A (t.setSlot σ (.flag b)) s'.draft := by
  refine .edit fun a d h => ?_
  rw [Edit.assign?_slot (hd.kind ▸ hσ)] at h
  exact (Edit.Meets.assignFlag (F := True) hd hσ b).of_ok h

/-- A new child in place of what is there. -/
theorem Yields.renewChild (hd : s.draft.forest.Holds t i A) {σ : String} {k : Kind} {b : Bool}
    (hp : t.kind.placement? σ = some (.single k b)) :
    Yields (MetadataDescriber.renewChild i σ k) s fun j s' =>
      s.draft.Turned i A (t.setSlot σ (.child (.fresh k []))) s'.draft ∧
        ((s'.draft.forest.get i).value σ).nodes[0]? = some (.node j) := by
  have hσ := Kind.mem_slots_of_placement? hp
  have hfields : Entries.AreFields k [] := fun _ h => absurd h List.not_mem_nil
  refine .edit fun j d h => ?_
  rw [Edit.renew_eq hd.kind hd.lt_size hσ] at h
  cases h
  refine ⟨Edit.Meets.turned_addChild hd hσ (List.nil_subset _) hfields (s := .child (.fresh k []))
    (Nat.zero_le _) rfl fun js _ => ⟨_, rfl, rfl⟩, ?_⟩
  show (((Edit.withChild ..).get i).value σ).nodes[0]? = _
  rw [Edit.get_withChild hd.lt_size, Node.value_putValue hd.root.names, if_pos rfl]
  rfl

/-- The child in a slot, found or made. -/
theorem Yields.child (hd : s.draft.forest.Holds t i A) (ht : t.Typed) {σ : String} {k : Kind}
    {b : Bool} (hp : t.kind.placement? σ = some (.single k b)) :
    Yields (Describe.edit (Edit.child i k)) s fun j s' =>
      s.draft.Turned i A (t.setSlot σ (.child ((t.slot σ).childOr (.fresh k [])))) s'.draft ∧
        ((s'.draft.forest.get i).value σ).nodes[0]? = some (.node j) :=
  .edit fun _ _ h => (Edit.Meets.child (F := True) hd ht hp).of_ok h

/-- The sites at whose node a sketch has been drawn into a tree. Where the type is left undecided
    more is known of how that came about. -/
def Drawn (renews : Bool) (P Q : Sketch → Prop) (i : NodeId) (A : Finset NodeId) (t : Tree)
    (s s' : Site) : Prop :=
  ∃ k : Sketch, P k ∧ (k.Left → Q k) ∧ s.draft.Turned i A (k.draw renews t) s'.draft

/-- What is drawn into a child of a node. -/
theorem Yields.part {s₁ : Site} {u c : Tree} {σ : String} {j : NodeId} {act : Describe Unit}
    {renews : Bool} {P : Sketch → Prop} {Q : Site → Sketch → Prop}
    (h : s.draft.Turned i A (u.setSlot σ (.child c)) s₁.draft)
    (hj : ((s₁.draft.forest.get i).value σ).nodes[0]? = some (.node j))
    (hact : ∀ B, s₁.draft.forest.Holds c j B → Yields act s₁ fun _ s' =>
      Drawn renews P (Q s') j B c s₁ s') :
    Yields act s₁ fun _ s' => ∃ k : Sketch, P k ∧
      s.draft.Turned i A (u.setSlot σ (.child (k.draw renews c))) s'.draft := by
  have hslot : (u.setSlot σ (.child c)).slot σ = .child c := Tree.setSlot_slot_self ..
  obtain ⟨B, hB, hback⟩ := h.inside (n := 0) (c := c) (by rw [hslot]; rfl) hj
  refine (hact B hB).mono fun _ s' ⟨k, hk, _, hturned⟩ => ⟨k, hk, ?_⟩
  have hfilled := hback _ _ hturned
  rw [hslot, Tree.setSlot_setSlot] at hfilled
  exact hfilled

end Describe

/-! ### Declared types -/

namespace MetadataDescriber

open Describe
open Sketch (Each Proper)

variable {w : World} {d : MetadataDescriber} {groups previous : Data} {s : Site} {i : NodeId}
  {A : Finset NodeId} {t : Tree}

/-- A name that describing has found to stand for nothing. -/
structure Unknown (w : World) (d : MetadataDescriber) (name : String) (s s' : Site) : Prop where
  array : arrayTypes.contains name = false
  plain : plainTypes.lookup name = none
  integer : integerTypes.contains name = false
  number : numberTypes.contains name = false
  looked : ∃ s₁, isMoment w name s = .ok false s₁ ∧ isClass w d name s₁ = .ok false s'

/-- A type that is no collection of known items. -/
theorem describeLeaf_draws (name : String) (hd : s.draft.forest.Holds t i A)
    (hk : t.kind ∈ Kind.schemas) :
    Yields (describeLeaf w d name groups previous i) s fun _ s' =>
      Drawn true (Each Proper) (fun k => k = .nothing ∧ Unknown w d name s s') i A t s s' := by
  have hfield := fun name hname => List.mem_of_mem_filter (Sketch.names_shown hk name hname)
  have htype := hfield "type" (by decide)
  have hformat := hfield "format" (by decide)
  have hσ := Kind.mem_slots_of_placement? (SharedType.placement?_parts hk).2
  -- The branches that write a type.
  have hplain : ∀ {type : String}, type ∈ ["string", "boolean", "integer", "number"] →
      Yields (setField i "type" (.str type)) s fun _ s' =>
        Drawn true (Each Proper) (fun k => k = .nothing ∧ Unknown w d name s s') i A t s s' := by
    intro type hmem
    refine (Yields.setField hd htype _).mono fun _ s' h => ?_
    exact ⟨.plain type none false, .plain ⟨hmem, fun h => nomatch h⟩, (fun h => nomatch h), h⟩
  -- The branches that write a type and a format, at any site with the same forest.
  have hformatted : ∀ {u : Site} {type format : String}, type ∈ ["string", "number"] →
      u.draft.forest = s.draft.forest → Yields (do
        setField i "type" (.str type)
        setField i "format" (.str format)) u fun _ s' =>
          Drawn true (Each Proper) (fun k => k = .nothing ∧ Unknown w d name s s') i A t s s' := by
    intro u type format hmem hu
    refine (Yields.setFields (hu ▸ hd) htype hformat _ _).mono fun _ s' h => ?_
    refine ⟨.plain type (some format) false, .plain ⟨?_, fun _ => hmem⟩, (fun h => nomatch h),
      h.congr hu.symm rfl⟩
    rcases List.mem_cons.1 hmem with rfl | hmem
    · decide
    · rw [List.mem_singleton.1 hmem]
      decide
  unfold describeLeaf
  refine .ite (fun _ => ?_) fun harray => ?_
  · refine .bind (.setField hd htype _) fun _ s₁ h₁ => ?_
    refine (Yields.setFlag h₁.holds hσ true).mono fun _ s₂ h₂ => ?_
    exact ⟨.anything, .anything trivial, (fun h => nomatch h), h₁.trans h₂⟩
  split
  · rename_i plain hlookup
    refine hplain ?_
    have hall : ∀ p ∈ plainTypes, p.2 ∈ ["string", "boolean", "integer", "number"] := by decide
    exact hall _ (mem_of_lookup hlookup)
  rename_i hlookup
  -- The name is that of no type that is written out.
  have hlookup := Option.eq_none_iff_forall_not_mem.2 hlookup
  refine .ite (fun _ => hplain (by decide)) fun hinteger =>
    .ite (fun _ => hformatted (by decide) rfl) fun hnumber => ?_
  refine (Looks.isMoment w name).before fun isMoment s₁ hmoment h₁ => ?_
  refine .ite (fun _ => hformatted (by decide) h₁) fun hno => ?_
  rw [Bool.not_eq_true] at harray hinteger hnumber hno
  subst hno
  refine (Looks.isClass w d name).before fun isClass s₂ hclass h₂ => ?_
  refine .ite (fun _ => ?_) fun hno => ?_
  rotate_left
  · rw [Bool.not_eq_true] at hno
    subst hno
    -- A name of no class: the node stays as it is, and this is what is remembered of it.
    refine .pure ⟨.nothing, .nothing trivial, fun _ => ⟨rfl, ?_⟩, .same hd (h₂.trans h₁)⟩
    exact ⟨harray, hlookup, hinteger, hnumber, s₁, hmoment, hclass⟩
  refine (Looks.register _ _).before fun reference s₃ _ h₃ => ?_
  have hforest := h₃.trans (h₂.trans h₁)
  refine .bind (.setField (hforest ▸ hd) (hfield "ref" (by decide)) _) fun _ s₄ h₄ => ?_
  -- The reference is written by now. What is remembered at the desk changes no node.
  have hdrawn : ∀ {s' : Site}, s'.draft.forest = s₄.draft.forest →
      Drawn true (Each Proper) (fun k => k = .nothing ∧ Unknown w d name s s') i A t s s' :=
    fun h => ⟨.reference reference, .reference trivial, (fun h => nomatch h), h₄.congr hforest.symm h⟩
  refine .ite (fun _ => ?_) fun _ => .pure (hdrawn rfl)
  refine (Looks.desk _).before fun desk s₅ _ h₅ => (Looks.setCache _ s₅).mono fun _ s₆ h₆ => ?_
  exact hdrawn (h₆.trans h₅)

mutual

/-- A declared type is written as a sketch. -/
theorem describeItem_draws (T : TypeExpr) (s : Site) (i : NodeId) (A : Finset NodeId) (t : Tree)
    (hd : s.draft.forest.Holds t i A) (hk : t.kind ∈ Kind.schemas) :
    Yields (describeItem w d groups previous i T) s fun _ s' =>
      Drawn true (Each Proper) (fun k => k = .nothing ∧ Unknown w d T.name s s') i A t s s' := by
  match T with
  | .mk name params =>
    have hfield := fun name hname => List.mem_of_mem_filter (Sketch.names_shown hk name hname)
    have htype := hfield "type" (by decide)
    obtain ⟨hitems, hvalues⟩ := SharedType.placement?_parts hk
    unfold describeItem
    split
    · exact describeLeaf_draws name hd hk
    · refine .bind (.setField hd htype _) fun _ s₁ h₁ => .ite (fun _ => ?_) fun _ => ?_
      · refine (Yields.setFlag h₁.holds (Kind.mem_slots_of_placement? hvalues) true).mono
          fun _ s₂ h₂ => ?_
        exact ⟨.anything, .anything trivial, (fun h => nomatch h), h₁.trans h₂⟩
      -- The values are described in a child that has been put there, by recursion.
      · refine .bind (.renewChild h₁.holds hvalues) fun j s₂ ⟨h₂, hj⟩ => ?_
        refine (Yields.part (h₁.trans h₂) hj fun B hB =>
          describeParam_draws 1 params s₂ j B _ hB (by decide)).mono fun _ s₃ ⟨k, hk, h₃⟩ => ?_
        exact ⟨.mapping k, .mapping trivial hk, (fun h => nomatch h), h₃⟩
    · refine .bind (.setField hd htype _) fun _ s₁ h₁ => ?_
      -- So are the items.
      refine .bind (.renewChild h₁.holds hitems) fun j s₂ ⟨h₂, hj⟩ => ?_
      refine (Yields.part (h₁.trans h₂) hj fun B hB =>
        describeParam_draws 0 params s₂ j B _ hB (by decide)).mono fun _ s₃ ⟨k, hk, h₃⟩ => ?_
      exact ⟨.items k, .items trivial hk, (fun h => nomatch h), h₃⟩

/-- The type at a position of parameters is written as a sketch. -/
theorem describeParam_draws (n : Nat) (params : List TypeParam) (s : Site) (i : NodeId)
    (A : Finset NodeId) (t : Tree) (hd : s.draft.forest.Holds t i A) (hk : t.kind ∈ Kind.schemas) :
    Yields (describeParam w d groups previous i n params) s fun _ s' =>
      Drawn true (Each Proper) (fun _ => True) i A t s s' := by
  have hnothing : Yields (pure () : Describe Unit) s fun _ s' =>
      Drawn true (Each Proper) (fun _ => True) i A t s s' :=
    .pure ⟨.nothing, .nothing trivial, fun _ => trivial, .refl hd⟩
  match n, params with
  | 0, [] | _ + 1, [] | 0, .literal _ :: _ =>
    unfold describeParam
    exact hnothing
  | 0, .type T :: _ =>
    unfold describeParam
    refine (describeItem_draws T s i A t hd hk).mono fun _ s' ⟨k, hk, _, h⟩ => ?_
    exact ⟨k, hk, fun _ => trivial, h⟩
  | n + 1, _ :: rest =>
    unfold describeParam
    exact describeParam_draws n rest s i A t hd hk

end

end MetadataDescriber

/-! ### Inferred types -/

/-- The type of what a collection holds in the end, or the type itself. -/
def TypeInfo.leaf : TypeInfo → TypeInfo
  | .mk _ _ _ true _ (some value) => value.leaf
  | t => t

namespace ObjectDescriber

open Describe

variable {w : World} {m : Model} {property : String} {s : Site} {i : NodeId} {A : Finset NodeId}
  {t : Tree}

/-- The sketches of inferred types. Values are those of the enumeration that a type names. -/
def Infers (w : World) (T : TypeInfo) (k : Sketch) : Prop :=
  k.Proper ∧ k ≠ .nothing ∧ ∀ vs nullable, k = .values vs nullable → ∃ met c e,
    w.classes.resolve met (T.leaf.className?.getD "") = .ok (some c) ∧
      w.classes.enumeration? c = some e ∧ vs = e.values

/-- Whether a type is no collection, and not the type of null alone. -/
def IsSingle (T : TypeInfo) : Prop := T.collection = false ∧ T.builtin ≠ "null"

/-- What an inferred type is written as. Collections are written as such, those with texts as keys
    as objects, and what is neither a collection nor a reference has the mark of the type. -/
inductive Writes (w : World) : TypeInfo → Sketch → Prop
  | plain {T : TypeInfo} {type : String} {format? : Option String} (hT : IsSingle T)
    (hproper : (Sketch.plain type format? T.nullable).Proper) :
    Writes w T (.plain type format? T.nullable)
  | values {T : TypeInfo} {met : List String} {c : String} {e : ClassInfo} (hT : IsSingle T)
    (hclass : w.classes.resolve met (T.className?.getD "") = .ok (some c))
    (henum : w.classes.enumeration? c = some e) : Writes w T (.values e.values T.nullable)
  | reference {T : TypeInfo} {ref : String} (hT : IsSingle T) : Writes w T (.reference ref)
  | items {builtin : String} {nullable : Bool} {className? : Option String}
    {key? : Option TypeInfo} {value : TypeInfo} {k : Sketch}
    (hkey : key?.map (·.builtin) ≠ some "string") (hvalue : Writes w value k) :
    Writes w (.mk builtin nullable className? true key? (some value)) (.items k)
  | mapping {builtin : String} {nullable : Bool} {className? : Option String}
    {key? : Option TypeInfo} {value : TypeInfo} {k : Sketch}
    (hkey : key?.map (·.builtin) = some "string") (hvalue : Writes w value k) :
    Writes w (.mk builtin nullable className? true key? (some value)) (.mapping k)

theorem IsSingle.leaf_eq {T : TypeInfo} (h : IsSingle T) : T.leaf = T := by
  match T, h with
  | .mk _ _ _ false _ _, _ => rfl

/-- The parts of such a sketch are sketches of the innermost type. -/
theorem Writes.each {w : World} {T : TypeInfo} {k : Sketch} (h : Writes w T k) :
    k.Each (Infers w T) := by
  induction h with
  | plain hT hproper => exact .plain ⟨hproper, nofun, nofun⟩
  | @values T met c e hT hclass henum =>
    refine .values ⟨trivial, nofun, ?_⟩
    rintro vs nullable ⟨⟩
    exact ⟨met, c, e, by rw [hT.leaf_eq]; exact hclass, henum, rfl⟩
  | reference hT => exact .reference ⟨trivial, nofun, nofun⟩
  | items _ _ ih => exact .items ⟨trivial, nofun, nofun⟩ ih
  | mapping _ _ ih => exact .mapping ⟨trivial, nofun, nofun⟩ ih

/-- The mark of a type that has null as a value. -/
theorem markNullable_yields (T : TypeInfo) (hd : s.draft.forest.Holds t i A)
    (hk : t.kind ∈ Kind.schemas) : Yields (markNullable T i) s fun _ s' =>
      s.draft.Turned i A (t.putFields (Sketch.nullMark T.nullable)) s'.draft := by
  unfold markNullable
  cases T.nullable with
  | true =>
    exact .setField hd (List.mem_of_mem_filter (Sketch.names_shown hk _ (by decide))) _
  | false => exact .pure (.refl hd)

theorem putFields_append (t : Tree) (es fs : Entries) :
    t.putFields (es ++ fs) = (t.putFields es).putFields fs := List.foldl_append

/-- An enumeration with values of different types, and the sketch of its values. -/
structure Varied (w : World) (T : TypeInfo) (met : List String) (k : Sketch) : Prop where
  found : ∃ c e, w.classes.resolve met (T.className?.getD "") = .ok (some c) ∧
    w.classes.isDate c = false ∧ w.classes.enumeration? c = some e ∧
      valueType? e.values = none ∧ k = .values e.values T.nullable

/-- The objects of a class are written as a sketch. -/
theorem describeObject_draws (T : TypeInfo) (hT : IsSingle T)
    (hd : s.draft.forest.Holds t i A) (hk : t.kind ∈ Kind.schemas) :
    Yields (describeObject w m T i) s fun _ s' =>
      Drawn false (Writes w T) (Varied w T s.met) i A t s s' := by
  have hfield := fun name hname => List.mem_of_mem_filter (Sketch.names_shown hk name hname)
  unfold describeObject
  extract_lets name
  refine (Looks.resolve w name).before fun class? s₁ hclass h₁ => ?_
  obtain ⟨hclass, hs₁⟩ := ofExcept_eq_ok hclass
  rw [hs₁]
  refine .ite (fun _ => ?_) fun hdate => ?_
  · refine .bind (.setField hd (hfield "type" (by decide)) _) fun _ s₂ h₂ => ?_
    refine .bind (.setField h₂.holds (hfield "format" (by decide)) _) fun _ s₃ h₃ => ?_
    refine (markNullable_yields T h₃.holds hk).mono fun _ s₄ h₄ => ?_
    refine ⟨.plain "string" (some "date-time") T.nullable, .plain hT ⟨?_, fun _ => ?_⟩,
      (fun h => nomatch h), h₂.trans (h₃.trans h₄)⟩
    · decide
    · decide
  split
  · rename_i e he
    obtain ⟨c, rfl, henum⟩ := Option.bind_eq_some_iff.1 he
    have hvaried : (Sketch.values e.values T.nullable).Left →
        Varied w T s.met (.values e.values T.nullable) := by
      rintro (_ | hmixed)
      exact ⟨c, e, hclass, by simpa using hdate, henum, hmixed, rfl⟩
    -- The type of the values, if they have one, and then the values.
    refine .bind (P := fun _ s' => s.draft.Turned i A (t.putFields
      ((valueType? e.values).toList.map (fun t => (Data.str "type", Data.str t)) ++
        [(.str "enum", .ofList e.values)])) s'.draft) ?_ fun _ s₂ h₂ => ?_
    · unfold describeValues
      cases valueType? e.values with
      | some type => exact .setFields hd (hfield "type" (by decide)) (hfield "enum" (by decide)) _ _
      | none => exact .setField hd (hfield "enum" (by decide)) _
    · refine (markNullable_yields T h₂.holds ?_).mono fun _ s₃ h₃ => ?_
      · rw [(t.putFields_frame _).1]
        exact hk
      · refine ⟨.values e.values T.nullable, .values hT hclass henum, hvaried, ?_⟩
        have h := h₂.trans h₃
        rw [← putFields_append, List.append_assoc] at h
        exact h
  · refine (Looks.register _ _).before fun reference s₂ _ h₂ => ?_
    refine (Yields.setField (h₂ ▸ hd) (hfield "ref" (by decide)) _).mono fun _ s₃ h₃ => ?_
    exact ⟨.reference reference, .reference hT, (fun h => nomatch h), h₃.congr h₂.symm rfl⟩

/-- An inferred type is written as a sketch. Where it stays undecided the values of an enumeration
    have been written. -/
theorem describeType_draws (T : TypeInfo) (s : Site) (i : NodeId) (A : Finset NodeId) (t : Tree)
    (hd : s.draft.forest.Holds t i A) (ht : t.All Tree.Typed) (hk : t.kind ∈ Kind.schemas) :
    Yields (describeType w m property T i) s fun _ s' =>
      Drawn false (Writes w T) (fun k => Varied w T s.met k ∧
        ∀ j, describeType w m property T j = describeObject w m T j) i A t s s' := by
  have hfield := fun name hname => List.mem_of_mem_filter (Sketch.names_shown hk name hname)
  have htype := hfield "type" (by decide)
  obtain ⟨hitems, hvalues⟩ := SharedType.placement?_parts hk
  match T with
  | .mk _ _ _ true _ none => exact .throw _
  | .mk _ _ _ true key? (some value) =>
    unfold describeType
    refine .ite (fun hkey => ?_) fun hkey => ?_
    -- Keys that are texts: the values are additional properties.
    · refine .bind (.setField hd htype _) fun _ s₁ h₁ => ?_
      refine .bind (.child h₁.holds ht.root hvalues) fun j s₂ ⟨h₂, hj⟩ => ?_
      obtain ⟨hkind, htyped⟩ := ht.childOr hvalues
      have hschema : ((t.slot "additional_properties").childOr
          (.fresh .additionalProperties [])).kind ∈ Kind.schemas := by
        rw [hkind]
        decide
      refine (Yields.part (h₁.trans h₂) hj fun B hB =>
        describeType_draws value s₂ j B _ hB htyped hschema).mono fun _ s₃ ⟨k, hk, h₃⟩ => ?_
      exact ⟨.mapping k, .mapping (beq_iff_eq.1 hkey) hk, (fun h => nomatch h), h₃⟩
    -- Other keys or none: the values are items.
    · refine .bind (.setField hd htype _) fun _ s₁ h₁ => ?_
      refine .bind (.child h₁.holds ht.root hitems) fun j s₂ ⟨h₂, hj⟩ => ?_
      obtain ⟨hkind, htyped⟩ := ht.childOr hitems
      have hschema : ((t.slot "items").childOr (.fresh .items [])).kind ∈ Kind.schemas := by
        rw [hkind]
        decide
      refine (Yields.part (h₁.trans h₂) hj fun B hB =>
        describeType_draws value s₂ j B _ hB htyped hschema).mono fun _ s₃ ⟨k, hk, h₃⟩ => ?_
      exact ⟨.items k, .items (fun h => hkey (beq_iff_eq.2 h)) hk, (fun h => nomatch h), h₃⟩
  | .mk builtin nullable className? false key? value? =>
    unfold describeType
    extract_lets T
    split
    · rename_i type format? hlookup
      obtain ⟨htypes, hformats⟩ : type ∈ ["string", "boolean", "integer", "number"] ∧
          (format?.isSome → type ∈ ["string", "number"]) := by
        have hall : ∀ p ∈ scalarTypes, p.2.1 ∈ ["string", "boolean", "integer", "number"] ∧
          (p.2.2.isSome → p.2.1 ∈ ["string", "number"]) := by decide
        exact hall _ (mem_of_lookup hlookup)
      have hsingle : IsSingle T := by
        refine ⟨rfl, ?_⟩
        rintro (rfl : builtin = "null")
        cases hlookup
      -- The mark of null comes after type and format.
      have hmarked : ∀ {Q : Sketch → Prop} (s' : Site) (fs : Entries),
          s.draft.Turned i A (t.putFields fs) s'.draft →
          fs = (.str "type", .str type) ::
            format?.toList.map (fun f => (Data.str "format", .str f)) →
          Yields (markNullable T i) s' fun _ s'' => Drawn false (Writes w T) Q i A t s s'' := by
        rintro Q s' fs h rfl
        refine (markNullable_yields T h.holds ?_).mono fun _ s'' h' => ?_
        · rw [(t.putFields_frame _).1]
          exact hk
        · have h := h.trans h'
          rw [← putFields_append] at h
          exact ⟨.plain type format? T.nullable, .plain hsingle ⟨htypes, hformats⟩,
            (fun h => nomatch h), h⟩
      refine .bind (.setField hd htype _) fun _ s₁ h₁ => ?_
      cases format? with
      | some f =>
        refine .bind (.setField h₁.holds (hfield "format" (by decide)) _) fun _ s₂ h₂ => ?_
        exact hmarked s₂ [(.str "type", .str type), (.str "format", .str f)] (h₁.trans h₂) rfl
      | none => exact hmarked s₁ [(.str "type", .str type)] h₁ rfl
    · refine .ite (fun hobject => ?_) fun _ => .throw _
      have hsingle : IsSingle T := ⟨rfl, by
        rw [show T.builtin = "object" from beq_iff_eq.1 hobject]
        decide⟩
      refine (describeObject_draws T hsingle hd hk).mono fun _ s' ⟨k, hk, hleft, h⟩ => ?_
      exact ⟨k, hk, fun hl => ⟨hleft hl, fun _ => if_pos hobject⟩, h⟩

end ObjectDescriber

end ApiDoc
