import ApiDoc.Describe.Components
import ApiDoc.Proofs.Describe.Rules

namespace ApiDoc

/-!
# Overrides keep the rules

* `Rules.Covers`, `Rules.CoversDescriber` — rules that name everything that describers find in
  classes, in metadata and in themselves;
* `Does.setField`, `Does.ensureProperties` — fields of a node that can be described;
* `Does.resolveEntries` — references to models resolved, by recursion on the values;
* `Does.apply`, `Does.updateSchema`, `Does.updateProperty` — overrides applied.
-/

/-! ### What describers find -/

mutual

/-- The names of a type and of the types inside it. -/
def TypeExpr.names : TypeExpr → List String
  | .mk name params => name :: TypeExpr.paramNames params

/-- The names of the types among parameters. -/
def TypeExpr.paramNames : List TypeParam → List String
  | [] => []
  | .type t :: rest => TypeExpr.names t ++ TypeExpr.paramNames rest
  | .literal _ :: rest => TypeExpr.paramNames rest

end

/-- The classes of a type and of the types of its values. -/
def TypeInfo.classNames : TypeInfo → List String
  | .mk _ _ className? _ _ none => [className?.getD ""]
  | .mk _ _ className? _ _ (some value) => className?.getD "" :: classNames value

namespace Rules

/-- Rules that name the overrides and the types that classes have. -/
structure Covers (R : Rules) (w : World) : Prop where
  schema : ∀ name o, w.classes.schemaOverride? name = some o → R.overrides o
  property : ∀ owner name r, Reflection.ofClass w.classes owner name = .ok r →
    ∀ o ∈ r.overrides, R.propertyOverrides o
  type : ∀ owner property, ∀ t ∈ w.classes.types owner property, ∀ name ∈ t.classNames,
    R.names name

/-- Rules that name the types and the overrides of a property in metadata. -/
structure CoversProperty (R : Rules) (p : PropertyMetadata) : Prop where
  type : ∀ t, p.type? = some t → ∀ name ∈ t.names, R.names name
  reflection : ∀ r, p.reflection? = some r → ∀ o ∈ r.overrides, R.propertyOverrides o

/-- Rules that name what a describer has of its own: the types in its metadata, or its fixed
    references. -/
def CoversDescriber (R : Rules) : ModelDescriber → Prop
  | .metadata d => ∀ className c, d.metadata.find? className = some c →
      ∀ p ∈ c.properties, R.CoversProperty p
  | .object => True
  | .outline o => ∀ className targets, o.references.lookup className = some targets →
      ∀ target ∈ targets, R.names target

variable {R : Rules} {w : World} {s : Site}

namespace Does

/-! ### Fields -/

/-- A field of a schema set on an open node. -/
theorem setField (hR : R.Lawful) {i : NodeId} {name : String} {v : Data}
    (hi : R.isOpen s.draft.forest i)
    (h : name ∈ Kind.schemaFields ∨ (name = "additional_properties" ∧ v = .bool true) ∨
      (name = "properties" ∧ v = .ofList [])) :
    R.Does (Describe.setField i name v) s fun _ _ => True :=
  .edit (hR.field v hi h)

/-- Whether a field is set. -/
theorem isSet (hR : R.Lawful) (i : NodeId) (name : String) :
    R.Does (Describe.isSet i name) s fun _ _ => True :=
  .bind hR (.edit (.read hR _ i name)) fun _ _ _ _ => .pure hR trivial

/-- Whether a type is decided. -/
theorem isDecided (hR : R.Lawful) (i : NodeId) :
    R.Does (Describe.isDecided i) s fun _ _ => True := by
  refine .bind hR (.isSet hR i _) fun b _ _ _ => ?_
  cases b with
  | true => exact .pure hR trivial
  | false => exact .isSet hR i _

/-- An empty list of properties on an open node. -/
theorem ensureProperties (hR : R.Lawful) {i : NodeId} (hi : R.isOpen s.draft.forest i) :
    R.Does (Describe.ensureProperties i) s fun _ _ => True := by
  refine .bind hR (.isSet hR i _) fun b t ht _ => ?_
  cases b with
  | true => exact .pure hR trivial
  | false => exact .setField hR (hR.isOpen_of_leads ht hi) (.inr (.inr ⟨rfl, rfl⟩))

/-! ### Overrides -/

/-- The model of a target has the class and the groups given. -/
theorem modelOf (hR : R.Lawful) (target : Target) (groups : Data) :
    R.Does (Describe.modelOf target groups) s fun m _ =>
      m = .ofClass target.className groups := by
  cases target with
  | named name => exact .pure hR rfl
  | itself name => exact .bind hR (.meet hR _) fun _ _ _ _ => .pure hR rfl

/-- A reference that the rules cover. -/
theorem reference (hR : R.Lawful) (r : Reader) {p : Target × Data} {groups : Data}
    (hp : R.CoversReference p) (hgroups : R.groups groups) :
    R.Does (r.reference p.1 p.2 groups) s fun _ _ => True := by
  have hregister : ∀ g, R.groups g → ∀ t, R.Does (do
      Describe.register .noRegistry (← Describe.modelOf p.1 g)) t fun _ _ => True :=
    fun g hg t =>
      .bind hR (.modelOf hR _ g) fun m _ _ hm => .register hR _ ⟨_, g, hp.1, hg, hm⟩
  -- Groups of its own come first.
  have hown := hp.2
  obtain ⟨target, own⟩ := p
  unfold Reader.reference
  cases r.hasRegistry with
  | false =>
    refine .bind hR (Q := fun _ _ => True) (.throw _) fun _ t _ _ => hregister _ ?_ t
    split
    · exact hgroups
    · exact hown ‹_›
  | true =>
    refine hregister _ ?_ s
    split
    · exact hgroups
    · exact hown ‹_›

mutual

/-- A value whose references the rules cover, by recursion on it. -/
theorem resolveValue (hR : R.Lawful) (r : Reader) {groups : Data} (hgroups : R.groups groups)
    (key? : Option Data) (v : Data) (hv : ∀ p ∈ v.references, R.CoversReference p) (s : Site) :
    R.Does (r.resolve groups key? v) s fun _ _ => True := by
  -- References, mappings and lists reach the draft; all other values are left alone.
  match v with
  | .modelRef target own =>
    unfold Reader.resolve
    refine .bind hR (.reference hR r (p := (target, own)) (hv _ (List.mem_singleton.2 rfl))
      hgroups) fun ref t _ _ => ?_
    split
    · exact .pure hR trivial
    · exact .bind hR (.edit (.fresh hR _)) fun _ _ _ _ => .pure hR trivial
  | .map es _ =>
    unfold Reader.resolve
    refine .bind hR (.edit (.fresh hR _)) fun mark t _ _ => ?_
    exact .bind hR (.resolveEntries hR r hgroups es hv t) fun _ _ _ _ => .pure hR trivial
  | .list xs mark =>
    unfold Reader.resolve
    split
    · exact .pure hR trivial
    · refine .bind hR (.edit (.fresh hR _)) fun mark t _ _ => ?_
      exact .bind hR (.resolveItems hR r hgroups xs hv t) fun _ _ _ _ => .pure hR trivial
  | .scalar _ => exact .pure hR trivial
  | .tuple _ _ => exact .pure hR trivial
  | .set _ _ => exact .pure hR trivial
  | .unset => exact .pure hR trivial
  | .node _ => exact .pure hR trivial
  | .bare _ => exact .pure hR trivial

/-- The entries keep their keys. -/
theorem resolveEntries (hR : R.Lawful) (r : Reader) {groups : Data} (hgroups : R.groups groups)
    (es : List (Data × Data)) (hes : ∀ p ∈ Data.entryReferences es, R.CoversReference p)
    (s : Site) : R.Does (r.resolveEntries groups es) s fun fs _ =>
      fs.map Prod.fst = es.map Prod.fst := by
  match es with
  | [] => exact .pure hR rfl
  | (k, v) :: rest =>
    unfold Reader.resolveEntries
    refine .bind hR (.resolveValue hR r hgroups (some k) v
      (fun p hp => hes p (List.mem_append_left _ hp)) s) fun v' t _ _ => ?_
    refine .bind hR (.resolveEntries hR r hgroups rest
      (fun p hp => hes p (List.mem_append_right _ hp)) t) fun fs u _ hfs => ?_
    exact .pure hR (by simp [hfs])

/-- The same for the items of a list. -/
theorem resolveItems (hR : R.Lawful) (r : Reader) {groups : Data} (hgroups : R.groups groups)
    (xs : List Data) (hxs : ∀ p ∈ Data.itemReferences xs, R.CoversReference p) (s : Site) :
    R.Does (r.resolveItems groups xs) s fun _ _ => True := by
  match xs with
  | [] => exact .pure hR trivial
  | v :: rest =>
    unfold Reader.resolveItems
    refine .bind hR (.resolveValue hR r hgroups none v
      (fun p hp => hxs p (List.mem_append_left _ hp)) s) fun v' t _ _ => ?_
    exact .bind hR (.resolveItems hR r hgroups rest
      (fun p hp => hxs p (List.mem_append_right _ hp)) t) fun _ _ _ _ => .pure hR trivial

end

/-- An override applied to a node. -/
theorem apply (hR : R.Lawful) (r : Reader) {o : Override} {groups : Data} {i : NodeId}
    (ho : R.Applies s.draft.forest i o) (hgroups : R.groups groups) :
    R.Does (r.apply w o groups i) s fun _ _ => True := by
  have hreference := hR.reference (ho.imp And.right And.right)
  refine .bind hR (.resolveEntries hR r hgroups _ hreference s) fun es _ ht hes => ?_
  refine .bind hR (.ofExcept hR (Q := fun _ _ => True) fun _ _ => trivial) fun policy u hu _ => ?_
  exact .edit (hR.merged policy (hR.applies_of_leads (hR.trans ht hu) ho) hes)

/-- The overrides of a class, applied to an open node. -/
theorem updateSchema (hR : R.Lawful) (hw : R.Covers w) (r : Reader) (className : String)
    {i : NodeId} (hi : R.isOpen s.draft.forest i) :
    R.Does (r.updateSchema w className i) s fun _ _ => True := by
  unfold Reader.updateSchema
  cases ho : w.classes.schemaOverride? className with
  | none => exact .pure hR trivial
  | some o => exact .apply hR r (.inl ⟨hi, hw.schema className o ho⟩) hR.null

/-- The overrides of a property, applied to a node for it. -/
theorem updateProperty (hR : R.Lawful) (r : Reader) {reflection : Reflection} {groups : Data}
    {i : NodeId} (ho : ∀ o ∈ reflection.overrides, R.propertyOverrides o)
    (hgroups : R.groups groups) (hi : R.isProperty s.draft.forest i) :
    R.Does (r.updateProperty w reflection groups i) s fun _ _ => True :=
  .forM hR fun o hmem _ ht =>
    .apply hR r (.inr ⟨hR.isProperty_of_leads ht hi, ho o hmem⟩) hgroups

end Does

end Rules

end ApiDoc
