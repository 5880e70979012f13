import ApiDoc.Describe.Overrides
import ApiDoc.Proofs.Describe.Results
import ApiDoc.Proofs.Registry.Register

namespace ApiDoc

/-!
# Rules for describers

What describers do is followed once, through all of their steps, for any rules that their steps
keep: which models they register, which groups they remember, and how they change the forest.

* `Rules` — rules of describing;
* `Rules.Does` — a computation that keeps the rules from a site on, with what holds of its result;
* `Rules.Allows` — an edit that keeps the rules;
* `Rules.Lawful` — rules that allow all that describers need for their steps;
* `Does.bind`, `Does.forM`, `Does.edit`, `Does.register`, … — steps that keep the rules.
-/

/-! ### References to models in values -/

/-- The class that a target names. -/
def Target.className : Target → String
  | named name => name
  | itself name => name

namespace Data

mutual

/-- The references to models that are resolved in a value, each with the groups of its own. -/
def references : Data → List (Target × Data)
  | .modelRef target own => [(target, own)]
  | .map es _ => entryReferences es
  | .list xs _ => itemReferences xs
  | _ => []

/-- The references to models in items. -/
def itemReferences : List Data → List (Target × Data)
  | [] => []
  | v :: rest => references v ++ itemReferences rest

/-- The references to models in the values of entries. -/
def entryReferences : List (Data × Data) → List (Target × Data)
  | [] => []
  | (_, v) :: rest => references v ++ entryReferences rest

end

end Data

/-! ### Rules -/

/-- What describers may do. -/
structure Rules where
  /-- The classes of the models that are registered. -/
  names : String → Prop
  /-- The groups through which models are registered, and those that are remembered. -/
  groups : Data → Prop
  /-- The overrides of classes that are applied. -/
  overrides : Override → Prop
  /-- The overrides of properties that are applied. -/
  propertyOverrides : Override → Prop
  /-- The nodes that can be described. -/
  isOpen : Forest → NodeId → Prop
  /-- Those of them that are properties. -/
  isProperty : Forest → NodeId → Prop
  /-- The forests that edits make of a forest. -/
  leads : Forest → Forest → Prop

namespace Rules

variable {α β : Type}

/-- A model of a class and of groups that the rules name. -/
def Admits (R : Rules) (m : Model) : Prop :=
  ∃ name groups, R.names name ∧ R.groups groups ∧ m = .ofClass name groups

/-- All groups that a cache remembers are among those of the rules. -/
def Keeps (R : Rules) (c : Cache) : Prop := ∀ e ∈ c.previousGroups, R.groups e.2

/-- A computation that, from a site on, registers only models that the rules admit, and remembers
    only groups of the rules. If it succeeds the rules allow what it makes of the forest, and `Q`
    holds of its result and the forest. -/
def Does (R : Rules) (act : Describe α) (s : Site) (Q : α → Forest → Prop) : Prop :=
  ∀ d, s.desk? = some d → R.Keeps d.cache →
    ∃ ms cache, (∀ m ∈ ms, R.Admits m) ∧ R.Keeps cache ∧
      match act s with
      | .ok a t => t.desk? = some ⟨d.registry.addAll ms, cache⟩ ∧
          R.leads s.draft.forest t.draft.forest ∧ Q a t.draft.forest
      | .error _ t => t.desk? = some ⟨d.registry.addAll ms, cache⟩

/-- An edit whose result and forest satisfy `Q`, the rules allowing what it makes of the forest. -/
def Allows (R : Rules) (act : Edit α) (d : Draft) (Q : α → Forest → Prop) : Prop :=
  ∀ a d', act d = .ok a d' → R.leads d.forest d'.forest ∧ Q a d'.forest

/-- A reference to a model that the rules cover: its class, and its groups if it has its own. -/
def CoversReference (R : Rules) (p : Target × Data) : Prop :=
  R.names p.1.className ∧ (p.2 ≠ .null → R.groups p.2)

/-- The slots of a schema for the schema of its items, each with the kind of child. -/
def itemSlots : List (String × Kind) :=
  [("items", .items), ("additional_properties", .additionalProperties)]

/-- An override that can be applied to a node: one of a class to any that can be described, one
    of a property to a property. -/
def Applies (R : Rules) (f : Forest) (i : NodeId) (o : Override) : Prop :=
  R.isOpen f i ∧ R.overrides o ∨ R.isProperty f i ∧ R.propertyOverrides o

/-- Rules that allow all that describers need for their steps. -/
structure Lawful (R : Rules) : Prop where
  refl : ∀ f, R.leads f f
  trans : ∀ {f g h}, R.leads f g → R.leads g h → R.leads f h
  isOpen_of_leads : ∀ {f g i}, R.leads f g → R.isOpen f i → R.isOpen g i
  isProperty_of_leads : ∀ {f g i}, R.leads f g → R.isProperty f i → R.isProperty g i
  isOpen_of_isProperty : ∀ {f i}, R.isProperty f i → R.isOpen f i
  /-- No groups at all. -/
  null : R.groups .null
  /-- Groups narrowed down to a property. -/
  nested : ∀ {g property v}, R.groups g → Groups.nested g property = some v → R.groups v
  /-- The names among groups. -/
  normalized : ∀ {g}, R.groups g →
    R.groups (Groups.ofNames (Groups.normalize g Groups.defaultGroup))
  /-- The references in an override. -/
  reference : ∀ {o}, R.overrides o ∨ R.propertyOverrides o →
    ∀ p ∈ Data.entryReferences o.toEntries, R.CoversReference p
  /-- A field set, a mark of open properties, and the list of properties emptied. -/
  field : ∀ {d i name} v, R.isOpen d.forest i →
    name ∈ Kind.schemaFields ∨ (name = "additional_properties" ∧ v = .bool true) ∨
      (name = "properties" ∧ v = .ofList []) →
    R.Allows (Edit.assign? i name v) d fun _ _ => True
  /-- A new child in the place of any other. -/
  renewed : ∀ {d i slot k}, R.isOpen d.forest i → (slot, k) ∈ itemSlots →
    R.Allows (do let c ← Edit.addDetached i k []; Edit.assign? i slot (.node c); return c) d
      fun c f => R.isOpen f c
  /-- The child of a slot, found or made. -/
  child : ∀ {d i slot k}, R.isOpen d.forest i → (slot, k) ∈ itemSlots →
    R.Allows (Edit.child i k) d fun c f => R.isOpen f c
  /-- A property, found or made. -/
  property : ∀ {d i} v, R.isOpen d.forest i →
    R.Allows (Edit.indexedItem i .property v) d fun c f => R.isProperty f c
  /-- A property taken out. -/
  removed : ∀ {d i} v, R.isOpen d.forest i →
    R.Allows (Edit.removeIndexed i .property v) d fun _ _ => True
  /-- An override merged, its references resolved. -/
  merged : ∀ {d i o es} policy, R.Applies d.forest i o →
    es.map Prod.fst = o.toEntries.map Prod.fst →
    R.Allows (Edit.mergeEntries ⟨true, policy⟩ es i) d fun _ _ => True

/-- Rules that allow any edit. -/
theorem Lawful.of_anyEdit {R : Rules} (hopen : ∀ f i, R.isOpen f i)
    (hproperty : ∀ f i, R.isProperty f i) (hleads : ∀ f g, R.leads f g) (hnull : R.groups .null)
    (hnested : ∀ {g property v}, R.groups g → Groups.nested g property = some v → R.groups v)
    (hnormalized : ∀ {g}, R.groups g →
      R.groups (Groups.ofNames (Groups.normalize g Groups.defaultGroup)))
    (hreference : ∀ {o}, R.overrides o ∨ R.propertyOverrides o →
      ∀ p ∈ Data.entryReferences o.toEntries, R.CoversReference p) : R.Lawful where
  refl _ := hleads _ _
  trans _ _ := hleads _ _
  isOpen_of_leads _ _ := hopen _ _
  isProperty_of_leads _ _ := hproperty _ _
  isOpen_of_isProperty _ := hopen _ _
  null := hnull
  nested := hnested
  normalized := hnormalized
  reference := hreference
  field _ _ _ _ _ _ := ⟨hleads _ _, trivial⟩
  renewed _ _ _ _ _ := ⟨hleads _ _, hopen _ _⟩
  child _ _ _ _ _ := ⟨hleads _ _, hopen _ _⟩
  property _ _ _ _ _ := ⟨hleads _ _, hproperty _ _⟩
  removed _ _ _ _ _ := ⟨hleads _ _, trivial⟩
  merged _ _ _ _ _ _ := ⟨hleads _ _, trivial⟩

variable {R : Rules} {s : Site} {Q : α → Forest → Prop} {Q' : β → Forest → Prop}

/-- An override that may be applied may be applied later, too. -/
theorem Lawful.applies_of_leads (hR : R.Lawful) {f g : Forest} {i : NodeId} {o : Override}
    (hfg : R.leads f g) (h : R.Applies f i o) : R.Applies g i o :=
  h.imp (And.imp_left (hR.isOpen_of_leads hfg)) (And.imp_left (hR.isProperty_of_leads hfg))

namespace Does

/-- What a computation leaves at the desk, whether it succeeds or fails. -/
theorem after {act : Describe α} (h : R.Does act s Q) {d : Desk} (hd : s.desk? = some d)
    (hkeeps : R.Keeps d.cache) : ∃ ms cache, (∀ m ∈ ms, R.Admits m) ∧ R.Keeps cache ∧
      (Describe.after act s).desk? = some ⟨d.registry.addAll ms, cache⟩ := by
  obtain ⟨ms, cache, hms, hcache, hact⟩ := h d hd hkeeps
  refine ⟨ms, cache, hms, hcache, ?_⟩
  cases hs : act s with
  | ok a t =>
    rw [hs] at hact
    rw [Describe.after_of_ok hs]
    exact hact.1
  | error e t =>
    rw [hs] at hact
    rw [Describe.after_of_error hs]
    exact hact

/-- What succeeds and leaves desk and forest keeps the rules. -/
theorem of_ok (hR : R.Lawful) {act : Describe α} {a : α} {t : Site} (h : act s = .ok a t)
    (hdesk : t.desk? = s.desk?) (hforest : t.draft.forest = s.draft.forest)
    (hQ : Q a s.draft.forest) : R.Does act s Q := by
  intro d hd hkeeps
  refine ⟨[], d.cache, fun _ h => absurd h List.not_mem_nil, hkeeps, ?_⟩
  rw [h]
  refine ⟨hdesk.trans hd, ?_, ?_⟩
  · rw [hforest]; exact hR.refl _
  · rw [hforest]; exact hQ

/-- What fails and leaves the desk keeps the rules. -/
theorem of_error {act : Describe α} {e : Failure} {t : Site} (h : act s = .error e t)
    (hdesk : t.desk? = s.desk?) : R.Does act s Q := by
  intro d hd hkeeps
  refine ⟨[], d.cache, fun _ h => absurd h List.not_mem_nil, hkeeps, ?_⟩
  rw [h]
  exact hdesk.trans hd

/-- What leaves the site keeps the rules. -/
theorem of_still (hR : R.Lawful) {act : Describe α}
    (h : (∃ a, act s = .ok a s ∧ Q a s.draft.forest) ∨ ∃ e, act s = .error e s) :
    R.Does act s Q := by
  rcases h with ⟨a, h, hQ⟩ | ⟨e, h⟩
  · exact .of_ok hR h rfl rfl hQ
  · exact .of_error h rfl

/-- An answer that fits the forest. -/
protected theorem pure (hR : R.Lawful) {a : α} (h : Q a s.draft.forest) :
    R.Does (pure a) s Q :=
  of_ok hR (a := a) (t := s) rfl rfl rfl h

/-- A failure breaks no rule. -/
protected theorem throw (e : Failure) : R.Does (throw e : Describe α) s Q :=
  of_error (e := e) (t := s) rfl rfl

/-- A computation, and then one that starts from whatever forest the first leads to. -/
theorem bind (hR : R.Lawful) {x : Describe α} {f : α → Describe β} (hx : R.Does x s Q)
    (hf : ∀ a t, R.leads s.draft.forest t.draft.forest → Q a t.draft.forest →
      R.Does (f a) t Q') : R.Does (x >>= f) s Q' := by
  intro d hd hkeeps
  obtain ⟨ms, cache, hms, hcache, hact⟩ := hx d hd hkeeps
  cases hs : x s with
  | error e t =>
    rw [hs] at hact
    refine ⟨ms, cache, hms, hcache, ?_⟩
    rw [Results.bind_of_error hs]
    exact hact
  | ok a t =>
    rw [hs] at hact
    obtain ⟨hdesk, hleads, hQ⟩ := hact
    obtain ⟨ns, cache', hns, hcache', hact'⟩ := hf a t hleads hQ _ hdesk hcache
    refine ⟨ms ++ ns, cache', ?_, hcache', ?_⟩
    · intro m hm
      exact (List.mem_append.1 hm).elim (hms m) (hns m)
    -- What is registered first stands first, also if the second computation fails.
    · rw [Results.bind_of_ok hs, Registry.addAll_append]
      split at hact'
      · exact ⟨hact'.1, hR.trans hleads hact'.2.1, hact'.2.2⟩
      · exact hact'

/-- A choice, with the condition known in each branch. -/
theorem ite {c : Prop} [Decidable c] {x y : Describe α}
    (hx : c → R.Does x s Q) (hy : ¬c → R.Does y s Q) : R.Does (if c then x else y) s Q := by
  split
  · exact hx ‹_›
  · exact hy ‹_›

/-- A loop whose every step keeps the rules, however far the forest has come. -/
theorem forM (hR : R.Lawful) {f : α → Describe Unit} {xs : List α}
    (hf : ∀ x ∈ xs, ∀ t, R.leads s.draft.forest t.draft.forest →
      R.Does (f x) t fun _ _ => True) : R.Does (xs.forM f) s fun _ _ => True := by
  induction xs generalizing s with
  | nil => exact .pure hR trivial
  | cons x xs ih =>
    refine .bind hR (hf x List.mem_cons_self s (hR.refl _)) fun _ t ht _ => ih ?_
    intro y hy u hu
    exact hf y (List.mem_cons_of_mem _ hy) u (hR.trans ht hu)

/-- The result of a pure computation. -/
theorem ofExcept (hR : R.Lawful) {x : Except Failure α}
    (h : ∀ a, x = .ok a → Q a s.draft.forest) : R.Does (Describe.ofExcept x) s Q := by
  cases x with
  | ok a => exact .pure hR (h a rfl)
  | error e => exact .throw e

/-- An edit that the rules allow. -/
theorem edit {act : Edit α} (h : R.Allows act s.draft Q) : R.Does (Describe.edit act) s Q := by
  intro d hd hkeeps
  refine ⟨[], d.cache, fun _ h => absurd h List.not_mem_nil, hkeeps, ?_⟩
  unfold Describe.edit
  cases hact : act s.draft with
  | ok a d' => exact ⟨hd, h a d' hact⟩
  | error e d' => exact hd

/-! ### The registry -/

/-- At a desk its cache remembers groups of the rules. -/
theorem desk (hR : R.Lawful) (missing : Failure) :
    R.Does (Describe.desk missing) s fun d _ => R.Keeps d.cache := by
  intro d hd hkeeps
  exact of_ok hR (Q := fun d _ => R.Keeps d.cache) (Describe.desk_of_some hd missing) rfl rfl
    hkeeps d hd hkeeps

/-- A model that the rules admit is registered. -/
theorem register (hR : R.Lawful) (missing : Failure) {m : Model} (hm : R.Admits m) :
    R.Does (Describe.register missing m) s fun _ _ => True := by
  intro d hd hkeeps
  refine ⟨[m], d.cache, by simpa using hm, hkeeps, ?_⟩
  rw [Describe.register_of_some hd missing m]
  exact ⟨Describe.withRegistry_desk? hd _, hR.refl _, trivial⟩

/-- A cache that remembers groups of the rules. -/
theorem setCache (hR : R.Lawful) {c : Cache} (hc : R.Keeps c) :
    R.Does (Describe.setCache c) s fun _ _ => True := by
  intro d hd hkeeps
  refine ⟨[], c, fun _ h => absurd h List.not_mem_nil, hc, ?_⟩
  refine ⟨?_, hR.refl _, trivial⟩
  show s.desk?.map _ = _
  rw [hd]
  rfl

/-! ### Classes -/

/-- Meeting classes changes no node. -/
theorem meet (hR : R.Lawful) (names : List String) :
    R.Does (Describe.meet names) s fun _ _ => True :=
  of_ok hR (a := ()) rfl rfl rfl trivial

/-- Neither does resolving a name. -/
theorem resolve (hR : R.Lawful) (w : World) (name : String) :
    R.Does (Describe.resolve w name) s fun _ _ => True := by
  refine .bind hR (of_ok hR (Q := fun _ _ => True) rfl rfl rfl trivial) fun _ _ _ _ => ?_
  exact .ofExcept hR fun _ _ => trivial

end Does

/-! ### Edits -/

namespace Allows

/-- An edit that leaves the forest. -/
theorem of_forest_eq (hR : R.Lawful) {act : Edit α} {d : Draft}
    (h : ∀ a d', act d = .ok a d' → d'.forest = d.forest ∧ Q a d.forest) : R.Allows act d Q := by
  intro a d' hact
  obtain ⟨hforest, hQ⟩ := h a d' hact
  rw [hforest]
  exact ⟨hR.refl _, hQ⟩

/-- Taking a fresh mark. -/
theorem fresh (hR : R.Lawful) (d : Draft) : R.Allows Edit.fresh d fun _ _ => True :=
  of_forest_eq hR fun a d' h => by cases h; exact ⟨rfl, trivial⟩

/-- Reading a value. -/
theorem read (hR : R.Lawful) (d : Draft) (i : NodeId) (name : String) :
    R.Allows (Edit.read i name) d fun _ _ => True := by
  refine of_forest_eq hR fun a d' h => ⟨?_, trivial⟩
  obtain ⟨f, d₁, hf, hread⟩ := Results.bind_eq_ok.1 h
  cases hf
  cases hx : d.forest.read i name with
  | ok v => rw [hx] at hread; cases hread; rfl
  | error e => rw [hx] at hread; cases hread

end Allows

end Rules

end ApiDoc
