import ApiDoc.Describe.Components
import ApiDoc.Proofs.Describe.Results
import ApiDoc.Proofs.Registry.Register

namespace ApiDoc

/-!
# Two runs in step

Describers look at the ambient settings only where a policy is missing, and at the classes met only
through what names stand for. Two runs that agree on the rest stay in step:

* `ClassTable.Agree` — classes met by two runs that make no difference to any name;
* `Twins` — sites with one draft, one desk, which has a policy, and such classes;
* `Lockstep` — computations that answer alike from twins on, and leave twins;
* `Lockstep.bind`, `Lockstep.forM`, `Lockstep.edit`, `Lockstep.register`, … — their steps;
* `Lockstep.apply` — overrides applied, with the policy of the desk;
* `Lockstep.describeItem`, `Lockstep.describeType` — types described, by recursion on the type;
* `Lockstep.describer` — every describer of models, under any two ambient settings.
-/

/-! ### Names and the classes met -/

namespace ClassTable

/-- Classes met by two runs. A name among those of one run only stands for itself in any case. -/
def Agree (t : ClassTable) (met met' : List String) : Prop :=
  ∀ name, t.resolve [] name = .ok (some name) ∨ (name ∈ met ↔ name ∈ met')

/-- A run agrees with itself. -/
theorem Agree.refl (t : ClassTable) (met : List String) : t.Agree met met := fun _ => .inr Iff.rfl

variable {t : ClassTable} {met met' : List String}

/-- A name that has been met stands for itself, and any other for what it stands for at the start.
    -/
theorem resolve_eq (t : ClassTable) (met : List String) (name : String) :
    t.resolve met name = if name ∈ met then .ok (some name) else t.resolve [] name := by
  by_cases h : name ∈ met
  · rw [if_pos h, resolve, if_pos (List.contains_iff_mem.2 h)]
  · rw [if_neg h, resolve, if_neg fun hc => h (List.contains_iff_mem.1 hc)]
    rfl

/-- A name that stands for itself does so whatever classes have been met. -/
theorem resolve_self {name : String} (h : t.resolve [] name = .ok (some name))
    (met : List String) : t.resolve met name = .ok (some name) := by
  rw [ClassTable.resolve_eq, h, ite_self]

/-- Names stand for the same classes. -/
theorem Agree.resolve_eq (h : t.Agree met met') (name : String) :
    t.resolve met name = t.resolve met' name := by
  rw [ClassTable.resolve_eq t met, ClassTable.resolve_eq t met']
  rcases h name with hself | hiff
  · rw [hself, ite_self, ite_self]
  · simp only [hiff]

/-- The classes met after names are met: those met before, and the names. -/
theorem mem_meet {name : String} {names : List String} :
    name ∈ met ++ names.filter (fun n => !met.contains n) ↔ name ∈ met ∨ name ∈ names := by
  simp only [List.mem_append, List.mem_filter, Bool.not_eq_true', List.contains_eq_mem,
    decide_eq_false_iff_not]
  tauto

/-- Meeting the same classes makes no difference either. -/
theorem Agree.meet (h : t.Agree met met') (names : List String) :
    t.Agree (met ++ names.filter fun n => !met.contains n)
      (met' ++ names.filter fun n => !met'.contains n) := by
  intro name
  refine (h name).imp_right fun hiff => ?_
  rw [mem_meet, mem_meet, hiff]

end ClassTable

/-! ### Twins -/

/-- Sites that differ in nothing but classes met that make no difference. The desk has a policy. -/
structure Twins (t : ClassTable) (s s' : Site) : Prop where
  draft : s'.draft = s.draft
  desk : s'.desk? = s.desk?
  policy : ∃ d, s.desk? = some d ∧ d.registry.policy?.isSome = true
  met : t.Agree s.met s'.met

/-- Results of two runs: the same answer or the same failure, and twins. No class that was met is
    forgotten. -/
inductive Alike (t : ClassTable) (met : List String) {α : Type} :
    EStateM.Result Failure Site α → EStateM.Result Failure Site α → Prop
  | ok (a : α) {s s' : Site} : Twins t s s' → met ⊆ s.met → Alike t met (.ok a s) (.ok a s')
  | error (e : Failure) {s s' : Site} :
      Twins t s s' → met ⊆ s.met → Alike t met (.error e s) (.error e s')

/-- The classes that two results keep may be fewer. -/
theorem Alike.mono {t : ClassTable} {met met' : List String} {α : Type}
    {r r' : EStateM.Result Failure Site α} (h : Alike t met r r') (hmet : met' ⊆ met) :
    Alike t met' r r' := by
  cases h with
  | ok a hs hkept => exact .ok a hs fun _ h => hkept (hmet h)
  | error e hs hkept => exact .error e hs fun _ h => hkept (hmet h)

/-- Computations that from twins on give the same answer, or fail alike, and leave twins. -/
def Lockstep (t : ClassTable) {α : Type} (x y : Describe α) : Prop :=
  ∀ s s', Twins t s s' → Alike t s.met (x s) (y s')

namespace Lockstep

variable {t : ClassTable} {a a' : Ambient} {α β : Type} {x y : Describe α} {f g : α → Describe β}

/-! ### Steps -/

/-- Computations that leave the site and answer alike. -/
theorem still (h : ∀ s s', Twins t s s' →
    ∃ r : Except Failure α, x s = Describe.ofExcept r s ∧ y s' = Describe.ofExcept r s') :
    Lockstep t x y := by
  intro s s' hs
  obtain ⟨r, hx, hy⟩ := h s s' hs
  rw [hx, hy]
  cases r with
  | ok a => exact .ok a hs fun _ => id
  | error e => exact .error e hs fun _ => id

/-- A result that does not look at the site. -/
theorem ofExcept (r : Except Failure α) :
    Lockstep t (Describe.ofExcept r) (Describe.ofExcept r) :=
  still fun _ _ _ => ⟨r, rfl, rfl⟩

/-- An answer. -/
protected theorem pure (a : α) : Lockstep t (pure a) (pure a) := ofExcept (.ok a)

/-- A failure. -/
protected theorem throw (e : Failure) : Lockstep t (throw e : Describe α) (throw e) :=
  ofExcept (.error e)

/-- Two pairs in step, one after the other. -/
theorem bind (hx : Lockstep t x y) (hf : ∀ a, Lockstep t (f a) (g a)) :
    Lockstep t (x >>= f) (y >>= g) := by
  intro s s' hs
  have hfirst := hx s s' hs
  show Alike t s.met (EStateM.bind x f s) (EStateM.bind y g s')
  unfold EStateM.bind
  generalize x s = r, y s' = r' at hfirst
  cases hfirst with
  | ok b hu hmet => exact (hf b _ _ hu).mono hmet
  | error e hu hmet => exact .error e hu hmet

/-- A choice whose condition is the same for both runs. -/
theorem ite {c : Prop} [Decidable c] {x' y' : Describe α} (hx : Lockstep t x y)
    (hx' : Lockstep t x' y') : Lockstep t (if c then x else x') (if c then y else y') := by
  split
  · exact hx
  · exact hx'

/-- A loop over the same list whose bodies stay in step. -/
theorem forM {f g : α → Describe Unit} {xs : List α} (h : ∀ x ∈ xs, Lockstep t (f x) (g x)) :
    Lockstep t (xs.forM f) (xs.forM g) := by
  induction xs with
  | nil => exact .pure ()
  | cons x xs ih =>
    exact .bind (h x List.mem_cons_self) fun _ => ih fun y hy => h y (List.mem_cons_of_mem _ hy)

/-- An edit of the draft. -/
theorem edit (act : Edit α) : Lockstep t (Describe.edit act) (Describe.edit act) := by
  intro s s' hs
  unfold Describe.edit
  rw [hs.draft]
  cases act s.draft with
  | ok b d => exact .ok b ⟨rfl, hs.desk, hs.policy, hs.met⟩ fun _ => id
  | error e d => exact .error e ⟨rfl, hs.desk, hs.policy, hs.met⟩ fun _ => id

/-! ### The registry -/

/-- The desk, which has a policy. -/
theorem desk_bind (missing : Failure) {f g : Desk → Describe β}
    (hf : ∀ d, d.registry.policy?.isSome = true → Lockstep t (f d) (g d)) :
    Lockstep t (Describe.desk missing >>= f) (Describe.desk missing >>= g) := by
  intro s s' hs
  obtain ⟨d, hd, hpolicy⟩ := hs.policy
  rw [Results.bind_of_ok (Describe.desk_of_some hd missing),
    Results.bind_of_ok (Describe.desk_of_some (hs.desk.trans hd) missing)]
  exact hf d hpolicy s s' hs

/-- Another registry with a policy. -/
theorem setRegistry {r : Registry} (h : r.policy?.isSome = true) :
    Lockstep t (Describe.setRegistry r) (Describe.setRegistry r) := by
  intro s s' hs
  obtain ⟨d, hd, -⟩ := hs.policy
  refine .ok () ⟨hs.draft, ?_, ⟨{ d with registry := r }, ?_, h⟩, hs.met⟩ fun _ => id
  · exact congrArg (Option.map fun d => { d with registry := r }) hs.desk
  · exact Describe.withRegistry_desk? hd r

/-- Remembering groups writes to the desk of both runs. -/
theorem setCache (c : Cache) : Lockstep t (Describe.setCache c) (Describe.setCache c) := by
  intro s s' hs
  obtain ⟨d, hd, hpolicy⟩ := hs.policy
  refine .ok () ⟨hs.draft, ?_, ⟨{ d with cache := c }, ?_, hpolicy⟩, hs.met⟩ fun _ => id
  · exact congrArg (Option.map fun d => { d with cache := c }) hs.desk
  · exact congrArg (Option.map fun d : Desk => { d with cache := c }) hd

/-- Registering a model answers the same reference to both runs. -/
theorem register (missing : Failure) (m : Model) :
    Lockstep t (Describe.register missing m) (Describe.register missing m) := by
  refine .desk_bind missing fun d hpolicy => .bind (.setRegistry ?_) fun _ => .pure _
  show (d.registry.add m).policy?.isSome = true
  rw [Registry.add_policy?]
  exact hpolicy

/-- Meeting the same names leaves classes that make no difference. -/
theorem meet (names : List String) : Lockstep t (Describe.meet names) (Describe.meet names) := by
  intro s s' hs
  exact .ok () ⟨hs.draft, hs.desk, hs.policy, hs.met.meet names⟩ fun _ => List.mem_append_left _

/-- The model of a target meets the same class in both runs. -/
theorem modelOf (target : Target) (groups : Data) :
    Lockstep t (Describe.modelOf target groups) (Describe.modelOf target groups) := by
  cases target with
  | named name => exact .pure _
  | itself name => exact .bind (.meet [name]) fun _ => .pure _

/-! ### Names -/

/-- A name stands for the same class under any two ambient settings. -/
theorem resolve (name : String) :
    Lockstep t (Describe.resolve ⟨t, a⟩ name) (Describe.resolve ⟨t, a'⟩ name) :=
  still fun _ _ hs => ⟨_, rfl, congrArg (Describe.ofExcept · _) (hs.met.resolve_eq name).symm⟩

/-- The same for names whose failures count as no class. -/
theorem resolve? (name : String) : Lockstep t (MetadataDescriber.resolve? ⟨t, a⟩ name)
    (MetadataDescriber.resolve? ⟨t, a'⟩ name) := by
  refine still fun s s' hs => ?_
  unfold MetadataDescriber.resolve?
  dsimp only
  rw [← hs.met.resolve_eq name]
  cases t.resolve s.met name with
  | ok c? => exact ⟨.ok c?, rfl, rfl⟩
  | error e =>
    cases e with
    | emptyModule => exact ⟨.ok none, rfl, rfl⟩
    | _ => exact ⟨.error _, rfl, rfl⟩

/-- A property is found by the name of its class through the same classes. -/
theorem ofName_eq {met met' : List String} (h : t.Agree met met') (className name : Data) :
    Reflection.ofName t met className name = Reflection.ofName t met' className name := by
  unfold Reflection.ofName
  simp only [h.resolve_eq]

/-- The property behind metadata is the same one for both runs. -/
theorem reflection? (p : PropertyMetadata) : Lockstep t (MetadataDescriber.reflection? ⟨t, a⟩ p)
    (MetadataDescriber.reflection? ⟨t, a'⟩ p) := by
  refine still fun s s' hs => ?_
  unfold MetadataDescriber.reflection?
  dsimp only
  rw [← ofName_eq hs.met]
  cases p.reflection? with
  | some r => exact ⟨.ok (some r), rfl, rfl⟩
  | none =>
    cases Reflection.ofName t s.met p.className p.name with
    | ok r => exact ⟨.ok (some r), rfl, rfl⟩
    | error e =>
      cases e with
      | noClass _ | noProperty _ _ => exact ⟨.ok none, rfl, rfl⟩
      | _ => exact ⟨.error _, rfl, rfl⟩

/-! ### Fields -/

/-- Writing a field changes the draft of both runs in the same way. -/
theorem setField (i : NodeId) (name : String) (v : Data) :
    Lockstep t (Describe.setField i name v) (Describe.setField i name v) :=
  .edit _

/-- Twins have the same fields set. -/
theorem isSet (i : NodeId) (name : String) :
    Lockstep t (Describe.isSet i name) (Describe.isSet i name) :=
  .bind (.edit _) fun _ => .pure _

/-- The type of a node is decided for both twins or for neither. -/
theorem isDecided (i : NodeId) : Lockstep t (Describe.isDecided i) (Describe.isDecided i) :=
  .bind (.isSet i _) fun _ => .ite (.pure _) (.isSet i _)

/-- An empty list of properties is put in the same place. -/
theorem ensureProperties (i : NodeId) :
    Lockstep t (Describe.ensureProperties i) (Describe.ensureProperties i) :=
  .bind (.isSet i _) fun _ => .ite (.setField i _ _) (.pure _)

/-! ### Overrides -/

/-- A reference in an override leads both runs to the same model. -/
theorem reference (r : Reader) (target : Target) (own groups : Data) :
    Lockstep t (r.reference target own groups) (r.reference target own groups) := by
  have hregister : ∀ g, Lockstep t
      (do Describe.register .noRegistry (← Describe.modelOf target g))
      (do Describe.register .noRegistry (← Describe.modelOf target g)) :=
    fun g => .bind (.modelOf target g) fun m => .register _ m
  unfold Reader.reference
  cases r.hasRegistry with
  | false => exact .bind (.throw _) fun _ => hregister _
  | true => exact hregister _

mutual

/-- The references in the value of an override are resolved alike. -/
theorem resolveValue (r : Reader) (groups : Data) (key? : Option Data) (v : Data) :
    Lockstep t (r.resolve groups key? v) (r.resolve groups key? v) := by
  match v with
  | .modelRef target own =>
    unfold Reader.resolve
    refine .bind (.reference r target own groups) fun ref => ?_
    exact .ite (.pure _) (.bind (.edit _) fun _ => .pure _)
  | .map es _ =>
    unfold Reader.resolve
    exact .bind (.edit _) fun _ => .bind (.resolveEntries r groups es) fun _ => .pure _
  | .list xs mark =>
    unfold Reader.resolve
    refine .ite (.pure _) ?_
    exact .bind (.edit _) fun _ => .bind (.resolveItems r groups xs) fun _ => .pure _
  | .scalar _ | .tuple _ _ | .set _ _ | .unset | .node _ | .bare _ => exact .pure _

/-- The same for the entries of a mapping. -/
theorem resolveEntries (r : Reader) (groups : Data) (es : List (Data × Data)) :
    Lockstep t (r.resolveEntries groups es) (r.resolveEntries groups es) := by
  match es with
  | [] => exact .pure _
  | (k, v) :: rest =>
    unfold Reader.resolveEntries
    exact .bind (.resolveValue r groups (some k) v) fun _ =>
      .bind (.resolveEntries r groups rest) fun _ => .pure _

/-- The same for the items of a list. -/
theorem resolveItems (r : Reader) (groups : Data) (xs : List Data) :
    Lockstep t (r.resolveItems groups xs) (r.resolveItems groups xs) := by
  match xs with
  | [] => exact .pure _
  | v :: rest =>
    unfold Reader.resolveItems
    exact .bind (.resolveValue r groups none v) fun _ =>
      .bind (.resolveItems r groups rest) fun _ => .pure _

end

/-- An override applied with a policy that is not the ambient one. -/
theorem apply {r : Reader} (hr : r.policy?.isSome = true) (o : Override) (groups : Data)
    (i : NodeId) : Lockstep t (r.apply ⟨t, a⟩ o groups i) (r.apply ⟨t, a'⟩ o groups i) := by
  obtain ⟨p, hp⟩ := Option.isSome_iff_exists.1 hr
  refine .bind (.resolveEntries r groups _) fun es => ?_
  rw [hp]
  exact .bind (.ofExcept (.ok p)) fun _ => .edit _

/-- Overrides of a class need no ambient policy where the reader has one. -/
theorem updateSchema {r : Reader} (hr : r.policy?.isSome = true) (className : String)
    (i : NodeId) :
    Lockstep t (r.updateSchema ⟨t, a⟩ className i) (r.updateSchema ⟨t, a'⟩ className i) := by
  unfold Reader.updateSchema
  cases t.schemaOverride? className with
  | some o => exact .apply hr o _ i
  | none => exact .pure _

/-- Overrides of a property need no ambient policy where the reader has one. -/
theorem updateProperty {r : Reader} (hr : r.policy?.isSome = true) (reflection : Reflection)
    (groups : Data) (i : NodeId) : Lockstep t (r.updateProperty ⟨t, a⟩ reflection groups i)
      (r.updateProperty ⟨t, a'⟩ reflection groups i) :=
  .forM fun o _ => .apply hr o groups i

/-! ### Declared types -/

/-- A type is one of moments for both runs or for neither. -/
theorem isMoment (name : String) : Lockstep t (MetadataDescriber.isMoment ⟨t, a⟩ name)
    (MetadataDescriber.isMoment ⟨t, a'⟩ name) := by
  unfold MetadataDescriber.isMoment
  refine .ite (.pure _) (.bind (.resolve? name) fun c? => ?_)
  cases c? <;> exact .pure _

/-- A type is a class for both runs or for neither. -/
theorem isClass (d : MetadataDescriber) (name : String) :
    Lockstep t (MetadataDescriber.isClass ⟨t, a⟩ d name)
      (MetadataDescriber.isClass ⟨t, a'⟩ d name) :=
  .bind (.resolve? name) fun _ => .ite (.pure _) (.pure _)

/-- A declared type that is no collection. -/
theorem describeLeaf (d : MetadataDescriber) (name : String) (groups previous : Data)
    (i : NodeId) : Lockstep t (MetadataDescriber.describeLeaf ⟨t, a⟩ d name groups previous i)
      (MetadataDescriber.describeLeaf ⟨t, a'⟩ d name groups previous i) := by
  unfold MetadataDescriber.describeLeaf
  refine .ite (.bind (.setField i _ _) fun _ => .setField i _ _) ?_
  cases MetadataDescriber.plainTypes.lookup name with
  | some plain => exact .setField i _ _
  | none =>
    refine .ite (.setField i _ _) ?_
    refine .ite (.bind (.setField i _ _) fun _ => .setField i _ _) ?_
    refine .bind (.isMoment name) fun _ => .ite ?_ ?_
    · exact .bind (.setField i _ _) fun _ => .setField i _ _
    refine .bind (.isClass d name) fun _ => .ite ?_ (.pure _)
    refine .bind (.register _ _) fun _ => .bind (.setField i _ _) fun _ => .ite ?_ (.pure _)
    exact .desk_bind _ fun desk _ => .setCache _

mutual

/-- A declared type described. -/
theorem describeItem (d : MetadataDescriber) (groups previous : Data) (i : NodeId) (x : TypeExpr) :
    Lockstep t (MetadataDescriber.describeItem ⟨t, a⟩ d groups previous i x)
      (MetadataDescriber.describeItem ⟨t, a'⟩ d groups previous i x) := by
  match x with
  | .mk name params =>
    unfold MetadataDescriber.describeItem
    cases MetadataDescriber.itemType? (.mk name params) with
    | none => exact .describeLeaf d name groups previous i
    | some item =>
      obtain ⟨item, keyed⟩ := item
      cases keyed with
      | true =>
        refine .bind (.setField i _ _) fun _ => .ite (.setField i _ _) ?_
        exact .bind (.edit _) fun c => .describeParam d groups previous c 1 params
      | false =>
        refine .bind (.setField i _ _) fun _ => ?_
        exact .bind (.edit _) fun c => .describeParam d groups previous c 0 params

/-- The type in a collection, at a position among the parameters. -/
theorem describeParam (d : MetadataDescriber) (groups previous : Data) (i : NodeId) (n : Nat)
    (params : List TypeParam) :
    Lockstep t (MetadataDescriber.describeParam ⟨t, a⟩ d groups previous i n params)
      (MetadataDescriber.describeParam ⟨t, a'⟩ d groups previous i n params) := by
  match n, params with
  | 0, [] | _ + 1, [] | 0, .literal _ :: _ => exact .pure _
  | 0, .type x :: _ => exact .describeItem d groups previous i x
  | n + 1, .type _ :: rest => exact .describeParam d groups previous i n rest
  | n + 1, .literal _ :: rest => exact .describeParam d groups previous i n rest

end

/-! ### Models from metadata -/

/-- Whether a type uses groups is a matter of metadata alone. -/
theorem typeUsesGroups? (d : MetadataDescriber) (x : TypeExpr) :
    Lockstep t (d.typeUsesGroups? x) (d.typeUsesGroups? x) := by
  refine .desk_bind _ fun desk _ => ?_
  cases desk.cache.groupUsage.lookup x.name with
  | some known => exact .pure _
  | none => exact .bind (.setCache _) fun _ => .pure _

/-- The groups for a property come from the model, the metadata and the desk. -/
theorem propertyGroups (d : MetadataDescriber) (m : Model) (p : PropertyMetadata) :
    Lockstep t (d.propertyGroups m p) (d.propertyGroups m p) := by
  unfold MetadataDescriber.propertyGroups
  cases Groups.nested m.groups p.name with
  | some narrowed => exact .pure _
  | none =>
    refine .desk_bind _ fun desk _ => .ite (.pure _) ?_
    cases p.type? with
    | none => exact .pure _
    | some x => exact .bind (.typeUsesGroups? d x) fun _ => .ite (.pure _) (.pure _)

/-- The node of a property is opened and its overrides are applied alike. -/
theorem metadataNode {r : Reader} (hr : r.policy?.isSome = true) (p : PropertyMetadata)
    (groups name : Data) (schema : NodeId) :
    Lockstep t (MetadataDescriber.propertyNode ⟨t, a⟩ r p groups name schema)
      (MetadataDescriber.propertyNode ⟨t, a'⟩ r p groups name schema) := by
  refine .bind (.reflection? p) fun reflection? => ?_
  cases reflection? with
  | none => exact .edit _
  | some reflection =>
    exact .bind (.edit _) fun i => .bind (.updateProperty hr reflection groups i) fun _ => .pure _

/-- One property of a class described by metadata. -/
theorem metadataProperty (d : MetadataDescriber) {r : Reader} (hr : r.policy?.isSome = true)
    (m : Model) (p : PropertyMetadata) (schema : NodeId) :
    Lockstep t (d.describeProperty ⟨t, a⟩ r m p schema)
      (d.describeProperty ⟨t, a'⟩ r m p schema) := by
  refine .bind (.propertyGroups d m p) fun g => .bind (.ofExcept _) fun name => ?_
  refine .bind (.metadataNode hr p _ name schema) fun i => .bind (.isDecided i) fun _ => ?_
  refine .ite (.pure _) ?_
  cases p.type? with
  | none => exact .edit _
  | some x => exact .describeItem d _ _ i x

/-- A property that the groups asked for may leave out. -/
theorem unlessSkipped (groups declared : Data) {x y : Describe Unit} (h : Lockstep t x y) :
    Lockstep t
      (do
        let skipped ← match groups with
          | .scalar .null => pure false
          | g => Describe.ofExcept ((Exclusion.ofGroups g Groups.defaultGroup).skips declared)
        if !skipped then x)
      (do
        let skipped ← match groups with
          | .scalar .null => pure false
          | g => Describe.ofExcept ((Exclusion.ofGroups g Groups.defaultGroup).skips declared)
        if !skipped then y) := by
  have hrest : ∀ skipped : Bool, Lockstep t (if !skipped then x else pure ())
      (if !skipped then y else pure ()) := fun _ => .ite h (.pure _)
  cases groups with
  | scalar s =>
    cases s with
    | null => exact .bind (.pure false) hrest
    | _ => exact .bind (.ofExcept _) hrest
  | _ => exact .bind (.ofExcept _) hrest

/-- A model described from its metadata. -/
theorem metadata (d : MetadataDescriber) (m : Model) (schema : NodeId) :
    Lockstep t (d.describe ⟨t, a⟩ m schema) (d.describe ⟨t, a'⟩ m schema) := by
  unfold MetadataDescriber.describe
  extract_lets className
  cases d.metadata.find? className with
  | none => exact .throw _
  | some c =>
    refine .desk_bind _ fun desk hpolicy => .bind (.setField schema _ _) fun _ => ?_
    have hr : (Reader.ofDesk desk).policy?.isSome = true := hpolicy
    have hproperty : ∀ p, Lockstep t (d.describeProperty ⟨t, a⟩ (Reader.ofDesk desk) m p schema)
        (d.describeProperty ⟨t, a'⟩ (Reader.ofDesk desk) m p schema) :=
      fun p => .metadataProperty d hr m p schema
    have hproperties : Lockstep t (c.properties.forM _) (c.properties.forM _) :=
      .forM fun p _ => .unlessSkipped m.groups p.groups (hproperty p)
    refine .bind (.resolve className) fun class? => ?_
    -- With or without an override of the class, its properties follow.
    cases class? with
    | none => exact .bind hproperties fun _ => .ensureProperties schema
    | some name =>
      refine .bind (.updateSchema hr name schema) fun _ => ?_
      exact .bind hproperties fun _ => .ensureProperties schema

/-! ### Models from annotations -/

/-- The mark of null is written or left out alike. -/
theorem markNullable (x : TypeInfo) (i : NodeId) :
    Lockstep t (ObjectDescriber.markNullable x i) (ObjectDescriber.markNullable x i) :=
  .ite (.setField i _ _) (.pure _)

/-- The values of an enumeration, and the type that they have in common. -/
theorem describeValues (values : List Data) (i : NodeId) :
    Lockstep t (ObjectDescriber.describeValues values i)
      (ObjectDescriber.describeValues values i) := by
  unfold ObjectDescriber.describeValues
  cases ObjectDescriber.valueType? values with
  | some type => exact .bind (.setField i _ _) fun _ => .setField i _ _
  | none => exact .setField i _ _

/-- A class as the type of a property. -/
theorem describeObject (m : Model) (x : TypeInfo) (i : NodeId) :
    Lockstep t (ObjectDescriber.describeObject ⟨t, a⟩ m x i)
      (ObjectDescriber.describeObject ⟨t, a'⟩ m x i) := by
  refine .bind (.resolve _) fun class? => .ite ?_ ?_
  · exact .bind (.setField i _ _) fun _ => .bind (.setField i _ _) fun _ => .markNullable x i
  · cases class?.bind t.enumeration? with
    | some e => exact .bind (.describeValues e.values i) fun _ => .markNullable x i
    | none => exact .bind (.register _ _) fun _ => .setField i _ _

/-- An inferred type described. -/
theorem describeType (m : Model) (property : String) (x : TypeInfo) (i : NodeId) :
    Lockstep t (ObjectDescriber.describeType ⟨t, a⟩ m property x i)
      (ObjectDescriber.describeType ⟨t, a'⟩ m property x i) := by
  match x with
  | .mk _ _ _ true _ none => exact .throw _
  | .mk _ _ _ true key? (some value) =>
    unfold ObjectDescriber.describeType
    refine .ite ?_ ?_
    · exact .bind (.setField i _ _) fun _ => .bind (.edit _) fun c =>
        .describeType m property value c
    · exact .bind (.setField i _ _) fun _ => .bind (.edit _) fun c =>
        .describeType m property value c
  | .mk builtin nullable className? false key? value? =>
    unfold ObjectDescriber.describeType
    extract_lets x
    cases ObjectDescriber.scalarTypes.lookup builtin with
    | some written =>
      obtain ⟨type, format?⟩ := written
      refine .bind (.setField i _ _) fun _ => ?_
      cases format? with
      | some format => exact .bind (.setField i _ _) fun _ => .markNullable x i
      | none => exact .markNullable x i
    | none => exact .ite (.describeObject m x i) (.throw _)

/-- The one type of a property, or the same failure to find one. -/
theorem onlyType (owner className property : String) :
    Lockstep t (ObjectDescriber.onlyType ⟨t, a⟩ owner className property)
      (ObjectDescriber.onlyType ⟨t, a'⟩ owner className property) := by
  refine .bind (.meet _) fun _ => ?_
  dsimp only
  cases t.types owner property with
  | nil => exact .throw _
  | cons x rest =>
    cases rest with
    | nil => exact .pure x
    | cons => exact .throw _

/-- The node of an annotated property is opened and its overrides are applied alike. -/
theorem objectNode {r : Reader} (hr : r.policy?.isSome = true) (m : Model)
    (owner property : String) (schema : NodeId) :
    Lockstep t (ObjectDescriber.propertyNode ⟨t, a⟩ r m owner property schema)
      (ObjectDescriber.propertyNode ⟨t, a'⟩ r m owner property schema) := by
  unfold ObjectDescriber.propertyNode
  dsimp only
  cases Reflection.ofClass t owner property with
  | error e => exact .edit _
  | ok reflection =>
    exact .bind (.edit _) fun i => .bind (.updateProperty hr reflection _ i) fun _ => .pure _

/-- One annotated property of a class. -/
theorem objectProperty {r : Reader} (hr : r.policy?.isSome = true) (m : Model)
    (owner property : String) (schema : NodeId) :
    Lockstep t (ObjectDescriber.describeProperty ⟨t, a⟩ r m owner property schema)
      (ObjectDescriber.describeProperty ⟨t, a'⟩ r m owner property schema) := by
  refine .bind (.objectNode hr m owner property schema) fun i => .bind (.isDecided i) fun _ => ?_
  exact .ite (.pure _) (.bind (.onlyType owner _ property) fun x => .describeType m property x i)

/-- A model described from the annotations of its class. -/
theorem object (m : Model) (schema : NodeId) :
    Lockstep t (ObjectDescriber.describe ⟨t, a⟩ m schema)
      (ObjectDescriber.describe ⟨t, a'⟩ m schema) := by
  refine .bind (.setField schema _ _) fun _ => .bind (.resolve _) fun class? => ?_
  cases class? with
  | none => exact .throw _
  | some owner =>
    refine .desk_bind _ fun desk hpolicy => ?_
    have hr : (Reader.ofDesk desk).policy?.isSome = true := hpolicy
    refine .bind (.updateSchema hr owner schema) fun _ => .bind (.ofExcept _) fun names => ?_
    exact .bind (.forM fun property _ => .objectProperty hr m owner property schema) fun _ =>
      .ensureProperties schema

/-! ### All describers -/

/-- A describer that only registers what a model refers to. -/
theorem outline (o : Outline) (m : Model) (schema : NodeId) :
    Lockstep t (o.describe m schema) (o.describe m schema) :=
  .bind (.setField schema _ _) fun _ => .forM fun _ _ => .bind (.register _ _) fun _ => .pure _

/-- Every describer of models stays in step, whatever the ambient settings are. -/
theorem describer (x : ModelDescriber) (m : Model) (schema : NodeId) :
    Lockstep t ((x.toDescriber ⟨t, a⟩).describe m schema)
      ((x.toDescriber ⟨t, a'⟩).describe m schema) := by
  cases x with
  | metadata d => exact .metadata d m schema
  | object => exact .object m schema
  | outline o => exact .outline o m schema

end Lockstep

end ApiDoc
