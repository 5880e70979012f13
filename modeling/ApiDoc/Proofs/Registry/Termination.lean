import ApiDoc.Proofs.Class.Found
import ApiDoc.Proofs.Describe.Describers
import ApiDoc.Proofs.Groups.Closure
import ApiDoc.Proofs.Registry.Rounds
import Mathlib.Data.Finset.Card

namespace ApiDoc

/-!
# The drain ends

However classes, metadata and references lead back to each other, describers register models of
finitely many classes through finitely many groups.

* `Universe` — the classes and groups that describers can come across from a desk on;
* `Universe.identities` — the identities of all models that can ever be registered;
* `Ends` — a drain that ends by itself after so many rounds, normally or with an error;
* `registerSchemas_ends` — every drain does, and registers nothing outside the universe.
-/

open Registry Describe

/-! ### The universe of a drain -/

namespace ModelDescriber

/-- The overrides that a describer has of its own: those of properties given with metadata. -/
def overrides : ModelDescriber → List Override
  | metadata d => d.metadata.classes.flatMap fun c => c.properties.flatMap fun p =>
      p.reflection?.toList.flatMap Reflection.overrides
  | object => []
  | outline _ => []

/-- The classes that a describer names of its own: in the types of its metadata, or as fixed
    references. -/
def names : ModelDescriber → List String
  | metadata d => d.metadata.classes.flatMap fun c => c.properties.flatMap fun p =>
      p.type?.toList.flatMap TypeExpr.names
  | object => []
  | outline o => o.references.flatMap (·.2)

end ModelDescriber

/-- Classes, describers and a desk, from which a drain starts. -/
structure Universe where
  world : World
  describers : List ModelDescriber
  desk : Desk

namespace Universe

variable (u : Universe)

/-- All overrides that can be applied. -/
def overrides : List Override :=
  u.world.classes.overrides ++ u.describers.flatMap ModelDescriber.overrides

/-- All references to models in overrides, each with its groups. -/
def references : List (Target × Data) :=
  u.overrides.flatMap fun o => Data.entryReferences o.toEntries

/-- All classes that models can be registered of. -/
def names : List String :=
  u.world.classes.typeNames ++ u.describers.flatMap ModelDescriber.names
    ++ u.references.map fun p => p.1.className

/-- The groups at the beginning: those of the models at the desk, those that the desk remembers,
    and those of references. -/
def initialGroups : List Data :=
  u.desk.registry.models.map (fun p => p.2.groups) ++ u.desk.registry.alternatives.map (·.groups)
    ++ u.desk.cache.previousGroups.map (·.2) ++ u.references.map (·.2)

/-- All groups through which models can be registered. -/
def groups : List Data := Groups.closure u.initialGroups

/-- The identities of all models that can be registered. -/
def identities : List String :=
  u.desk.registry.keys ++ u.desk.registry.alternatives.map Model.hash
    ++ u.names.flatMap fun name => u.groups.map fun g => (Model.ofClass name g).hash

/-! ### The rules of a drain -/

/-- The rules that name the classes, groups and overrides of the universe, and allow all edits. -/
def rules : Rules where
  names name := name ∈ u.names
  groups g := g ∈ u.groups
  overrides o := o ∈ u.overrides
  propertyOverrides o := o ∈ u.overrides
  isOpen _ _ := True
  isProperty _ _ := True
  leads _ _ := True

theorem mem_groups {g : Data} (h : g ∈ u.initialGroups) : g ∈ u.groups :=
  Groups.mem_closure_of_mem h

theorem lawful : u.rules.Lawful := by
  refine .of_anyEdit (fun _ _ => trivial) (fun _ _ => trivial) (fun _ _ => trivial)
    Groups.null_mem_closure Groups.nested_mem_closure Groups.normalized_mem_closure ?_
  intro o ho p hp
  have hmem : p ∈ u.references := List.mem_flatMap.2 ⟨o, ho.elim id id, hp⟩
  refine ⟨List.mem_append_right _ (List.mem_map.2 ⟨p, hmem, rfl⟩), fun _ => ?_⟩
  exact u.mem_groups (List.mem_append_right _ (List.mem_map.2 ⟨p, hmem, rfl⟩))

theorem covers : u.rules.Covers u.world where
  schema _ _ h := List.mem_append_left _ (ClassTable.schemaOverride?_mem h)
  property _ _ _ h o ho := List.mem_append_left _ (ClassTable.overrides_mem h o ho)
  type _ _ _ ht _ hname :=
    List.mem_append_left _ (List.mem_append_left _ (ClassTable.typeNames_mem ht hname))

theorem coversDescriber {x : ModelDescriber} (hx : x ∈ u.describers) :
    u.rules.CoversDescriber x := by
  have hnames : ∀ name ∈ x.names, name ∈ u.names := fun name hname =>
    List.mem_append_left _ (List.mem_append_right _ (List.mem_flatMap.2 ⟨x, hx, hname⟩))
  have hoverrides : ∀ o ∈ x.overrides, o ∈ u.overrides := fun o ho =>
    List.mem_append_right _ (List.mem_flatMap.2 ⟨x, hx, ho⟩)
  cases x with
  | metadata d =>
    intro className c hc p hp
    have hc : c ∈ d.metadata.classes := List.mem_reverse.1 (List.mem_of_find?_eq_some hc)
    refine ⟨fun t ht name hname => hnames name ?_, fun r hr o ho => hoverrides o ?_⟩
    · refine List.mem_flatMap.2 ⟨c, hc, List.mem_flatMap.2 ⟨p, hp, ?_⟩⟩
      refine List.mem_flatMap.2 ⟨t, ?_, hname⟩
      rw [ht]
      exact List.mem_singleton.2 rfl
    · refine List.mem_flatMap.2 ⟨c, hc, List.mem_flatMap.2 ⟨p, hp, ?_⟩⟩
      refine List.mem_flatMap.2 ⟨r, ?_, ho⟩
      rw [hr]
      exact List.mem_singleton.2 rfl
  | object => trivial
  | outline o =>
    intro className targets htargets target htarget
    exact hnames target (List.mem_flatMap.2 ⟨_, mem_of_lookup htargets, htarget⟩)

/-- A model that the rules admit has an identity of the universe and groups of the universe. -/
theorem mem_of_admits {m : Model} (h : u.rules.Admits m) :
    m.hash ∈ u.identities ∧ m.groups ∈ u.groups := by
  obtain ⟨name, g, hname, hg, rfl⟩ := h
  refine ⟨List.mem_append_right _ ?_, hg⟩
  exact List.mem_flatMap.2 ⟨name, hname, List.mem_map.2 ⟨g, hg, rfl⟩⟩

/-! ### What rounds keep -/

/-- A model of the universe. -/
def Knows (m : Model) : Prop := m.hash ∈ u.identities ∧ m.groups ∈ u.groups

/-- A site whose registry and cache stay inside the universe. -/
structure Holds (s : Site) (r : Registry) : Prop where
  desk : ∃ cache, s.desk? = some ⟨r, cache⟩ ∧ u.rules.Keeps cache
  keys : ∀ key ∈ r.keys, key ∈ u.identities
  models : ∀ p ∈ r.models, p.2.groups ∈ u.groups
  alternatives : ∀ m ∈ r.alternatives, u.Knows m

variable {u} {s t : Site} {r : Registry}

theorem Holds.addAll (h : u.Holds s r) {ms : List Model} (hms : ∀ m ∈ ms, u.Knows m)
    {cache : Cache} (ht : t.desk? = some ⟨r.addAll ms, cache⟩) (hcache : u.rules.Keeps cache) :
    u.Holds t (r.addAll ms) := by
  refine ⟨⟨cache, ht, hcache⟩, ?_, ?_, ?_⟩
  · intro key hkey
    obtain ⟨p, hp, rfl⟩ := List.mem_map.1 hkey
    rcases mem_models_addAll hp with hp | ⟨hp, hhash⟩
    · exact h.keys _ (List.mem_map.2 ⟨p, hp, rfl⟩)
    · rw [hhash]
      exact (hms _ hp).1
  · intro p hp
    rcases mem_models_addAll hp with hp | ⟨hp, -⟩
    · exact h.models p hp
    · exact (hms _ hp).2
  · rw [addAll_alternatives]
    exact h.alternatives

theorem Holds.withRegistry (h : u.Holds s r) {r' : Registry} (hmodels : r'.models = r.models)
    (halternatives : ∀ m ∈ r'.alternatives, m ∈ r.alternatives) :
    u.Holds (withRegistry s r') r' := by
  obtain ⟨cache, hdesk, hkeeps⟩ := h.desk
  refine ⟨⟨cache, withRegistry_desk? hdesk r', hkeeps⟩, ?_, ?_, ?_⟩
  · rw [Registry.keys, hmodels]
    exact h.keys
  · rw [hmodels]
    exact h.models
  · exact fun m hm => h.alternatives m (halternatives m hm)

/-- The describers of the universe as the registry sees them. -/
abbrev toDescribers (u : Universe) : List Describer := u.describers.map (·.toDescriber u.world)

/-- Describing a model of the universe keeps its rules. -/
theorem does_describeModel (document : NodeId) (name : String) {m : Model}
    (hm : m.groups ∈ u.groups) :
    u.rules.Does (describeModel u.toDescribers document name m) s fun _ _ => True := by
  have hschema : u.rules.Allows (Edit.componentSchema document (.str name)) s.draft
      fun _ _ => True := fun _ _ _ => ⟨trivial, trivial⟩
  refine .bind u.lawful (.edit hschema) fun schema t _ _ => ?_
  cases hfind : u.toDescribers.find? fun d => d.supports m with
  | none => exact .throw _
  | some d =>
    obtain ⟨x, hx, rfl⟩ := List.mem_map.1 (List.mem_of_find?_eq_some hfind)
    exact .describer u.lawful u.covers (u.coversDescriber hx) hm trivial

/-- Describing a pending identity registers only models of the universe. -/
theorem Holds.describeKey (h : u.Holds s r) (document : NodeId) (key : String) :
    ∃ ms, u.Holds (after (describeKey u.toDescribers document key) s) (r.addAll ms) := by
  obtain ⟨cache, hdesk, hkeeps⟩ := h.desk
  rw [Describe.describeKey, after_bind_of_ok (desk_of_some hdesk _)]
  split
  · rename_i m name hm _
    have hgroups : m.groups ∈ u.groups := h.models (key, m) (mem_of_lookup hm)
    obtain ⟨ms, cache', hms, hcache', hafter⟩ :=
      (does_describeModel document name hgroups).after hdesk hkeeps
    exact ⟨ms, h.addAll (fun m hm => u.mem_of_admits (hms m hm)) hafter hcache'⟩
  · exact ⟨[], h⟩

theorem Holds.visit (h : u.Holds s r) (document : NodeId) (keys : List String) :
    ∃ ms, u.Holds (after (keys.forM (Describe.describeKey u.toDescribers document)) s)
      (r.addAll ms) := by
  induction keys generalizing s r with
  | nil => exact ⟨[], h⟩
  | cons key keys ih =>
    obtain ⟨ms, hkey⟩ := h.describeKey document key
    cases hs : Describe.describeKey u.toDescribers document key s with
    | error e t =>
      rw [after_of_error hs] at hkey
      have hafter : after ((key :: keys).forM (Describe.describeKey u.toDescribers document)) s
          = t := after_bind_of_error hs
      exact ⟨ms, by rw [hafter]; exact hkey⟩
    | ok a t =>
      rw [after_of_ok hs] at hkey
      obtain ⟨ns, hkeys⟩ := ih hkey
      have hafter : after ((key :: keys).forM (Describe.describeKey u.toDescribers document)) s
          = after (keys.forM (Describe.describeKey u.toDescribers document)) t :=
        after_bind_of_ok hs
      exact ⟨ms ++ ns, by rw [hafter, addAll_append]; exact hkeys⟩

/-! ### The measure -/

/-- How many identities of the universe are not registered. -/
def missing (u : Universe) (r : Registry) : Nat :=
  (u.identities.toFinset.filter fun key => key ∉ r.keys).card

/-- What a drain has before it: the identities that are missing, each of which makes one more
    round, and whether anything is pending, or any fixed name left. -/
def measure (u : Universe) (r : Registry) : Nat :=
  2 * u.missing r + (if r.pending = [] then 0 else 1) + (if r.alternatives = [] then 0 else 1)

/-- If anything becomes pending, fewer identities are missing. -/
theorem measure_addAll (hp : r.pending = []) {ms : List Model}
    (hkeys : ∀ key ∈ (r.addAll ms).keys, key ∈ u.identities) :
    u.measure (r.addAll ms) ≤ 2 * u.missing r + (if r.alternatives = [] then 0 else 1) := by
  have hsub : (u.identities.toFinset.filter fun key => key ∉ (r.addAll ms).keys) ⊆
      u.identities.toFinset.filter fun key => key ∉ r.keys := by
    intro key hkey
    rw [Finset.mem_filter] at hkey ⊢
    exact ⟨hkey.1, fun hold => hkey.2 (mem_keys_addAll hold ms)⟩
  rw [measure, addAll_alternatives]
  by_cases hp' : (r.addAll ms).pending = []
  · have hle : u.missing (r.addAll ms) ≤ u.missing r := Finset.card_le_card hsub
    rw [if_pos hp']
    omega
  · -- Nothing was pending, so whatever is pending now was missing before.
    obtain ⟨key, hkey⟩ := List.exists_mem_of_ne_nil _ hp'
    rcases mem_pending_addAll hkey with hold | ⟨hnew, hmem⟩
    · rw [hp] at hold
      exact absurd hold List.not_mem_nil
    · have hlt : u.missing (r.addAll ms) < u.missing r :=
        Finset.card_lt_card ((Finset.ssubset_iff_of_subset hsub).2
          ⟨key, by simp [hkeys key hmem, hnew], by simp [hmem]⟩)
      rw [if_neg hp']
      omega

/-- One round ends the drain, normally or with an error, or leaves less before it. -/
theorem Holds.round (h : u.Holds s r) (document : NodeId) :
    (∃ t, round u.toDescribers document s = .ok false t ∧ u.Holds t r) ∨
    (∃ e t r', round u.toDescribers document s = .error e t ∧ u.Holds t r') ∨
    ∃ t r', round u.toDescribers document s = .ok true t ∧ u.Holds t r' ∧
      u.measure r' < u.measure r := by
  obtain ⟨cache, hdesk, hkeeps⟩ := h.desk
  by_cases hpending : r.pending = []
  · by_cases halternatives : r.alternatives = []
    · exact .inl ⟨s, round_of_nothing hdesk hpending halternatives, h⟩
    · -- The models with fixed names are registered, and are gone.
      have htaken : u.Holds (Describe.withRegistry s { r with alternatives := [] })
          { r with alternatives := [] } := h.withRegistry rfl (by simp)
      have hend : u.Holds (Describe.withRegistry s
          (({ r with alternatives := [] } : Registry).addAll r.alternatives))
          (({ r with alternatives := [] } : Registry).addAll r.alternatives) :=
        htaken.addAll h.alternatives (withRegistry_desk? hdesk _) hkeeps
      refine .inr (.inr ⟨_, _, round_of_alternatives hdesk hpending halternatives, hend, ?_⟩)
      have hle : u.measure (({ r with alternatives := [] } : Registry).addAll r.alternatives)
          ≤ 2 * u.missing r + 0 :=
        measure_addAll (r := { r with alternatives := [] }) hpending hend.keys
      have hmeasure : u.measure r = 2 * u.missing r + 0 + 1 := by
        rw [measure, if_pos hpending, if_neg halternatives]
      omega
  · -- What is pending is taken, and described.
    have htaken : u.Holds (Describe.withRegistry s { r with pending := [] })
        { r with pending := [] } := h.withRegistry rfl fun m hm => hm
    obtain ⟨ms, hvisit⟩ := htaken.visit document r.pending
    have hless : u.measure (({ r with pending := [] } : Registry).addAll ms) < u.measure r := by
      have hle : u.measure (({ r with pending := [] } : Registry).addAll ms)
          ≤ 2 * u.missing r + (if r.alternatives = [] then 0 else 1) :=
        measure_addAll (r := { r with pending := [] }) rfl hvisit.keys
      have hmeasure : u.measure r
          = 2 * u.missing r + 1 + (if r.alternatives = [] then 0 else 1) := by
        rw [measure, if_neg hpending]
      omega
    have hround : Describe.round u.toDescribers document s = _ := round_of_pending hdesk hpending
    cases hrun : r.pending.forM (Describe.describeKey u.toDescribers document)
        (Describe.withRegistry s { r with pending := [] }) with
    | error e t =>
      rw [after_of_error hrun] at hvisit
      rw [Results.bind_of_error hrun] at hround
      exact .inr (.inl ⟨e, t, _, hround, hvisit⟩)
    | ok a t =>
      rw [after_of_ok hrun] at hvisit
      rw [Results.bind_of_ok hrun] at hround
      exact .inr (.inr ⟨t, _, hround, hvisit, hless⟩)

/-- A site at the desk of the universe. -/
theorem holds_desk (hs : s.desk? = some u.desk) : u.Holds s u.desk.registry := by
  refine ⟨⟨u.desk.cache, hs, ?_⟩, ?_, ?_, ?_⟩
  · intro e he
    exact u.mem_groups (List.mem_append_left _ (List.mem_append_right _
      (List.mem_map.2 ⟨e, he, rfl⟩)))
  · exact fun key hkey => List.mem_append_left _ (List.mem_append_left _ hkey)
  · intro p hp
    exact u.mem_groups (List.mem_append_left _ (List.mem_append_left _
      (List.mem_append_left _ (List.mem_map.2 ⟨p, hp, rfl⟩))))
  · intro m hm
    refine ⟨List.mem_append_left _ (List.mem_append_right _ (List.mem_map.2 ⟨m, hm, rfl⟩)), ?_⟩
    exact u.mem_groups (List.mem_append_left _ (List.mem_append_left _
      (List.mem_append_right _ (List.mem_map.2 ⟨m, hm, rfl⟩))))

/-- However many rounds are made, the registry stays inside the universe. -/
theorem Holds.registerSchemas (h : u.Holds s r) (document : NodeId) (fuel : Nat) :
    ∃ r', u.Holds (after (registerSchemas u.toDescribers document fuel) s) r' := by
  induction fuel generalizing s r with
  | zero => exact ⟨r, h⟩
  | succ fuel ih =>
    rcases h.round document with ⟨t, hround, ht⟩ | ⟨e, t, r', hround, ht⟩ | ⟨t, r', hround, ht, -⟩
    · refine ⟨r, ?_⟩
      rw [Describe.registerSchemas, after_bind_of_ok hround]
      exact ht
    · refine ⟨r', ?_⟩
      rw [Describe.registerSchemas, after_bind_of_error hround]
      exact ht
    · rw [Describe.registerSchemas, after_bind_of_ok hround]
      exact ih ht

end Universe

/-! ### The end of a drain -/

/-- A drain that ends by itself after so many rounds that had something to do: there is nothing
    left to do, or a round fails. -/
inductive Ends (describers : List Describer) (document : NodeId) :
    Nat → Site → EStateM.Result Failure Site Unit → Prop
  | stop {s t : Site} (hround : round describers document s = .ok false t) :
    Ends describers document 0 s (.ok () t)
  | fail {s t : Site} {e : Failure} (hround : round describers document s = .error e t) :
    Ends describers document 0 s (.error e t)
  | next {n : Nat} {s t : Site} {result : EStateM.Result Failure Site Unit}
    (hround : round describers document s = .ok true t)
    (hrest : Ends describers document n t result) : Ends describers document (n + 1) s result

/-- A drain that ends by itself has its result for every number of rounds that is large enough. -/
theorem Ends.registerSchemas_eq {describers : List Describer} {document : NodeId} {n : Nat}
    {s : Site} {result : EStateM.Result Failure Site Unit}
    (h : Ends describers document n s result) {fuel : Nat} (hfuel : n < fuel) :
    registerSchemas describers document fuel s = result := by
  induction h generalizing fuel with
  | stop hround =>
    obtain ⟨fuel, rfl⟩ := Nat.exists_eq_succ_of_ne_zero (by omega : fuel ≠ 0)
    rw [Describe.registerSchemas, Results.bind_of_ok hround]
    rfl
  | fail hround =>
    obtain ⟨fuel, rfl⟩ := Nat.exists_eq_succ_of_ne_zero (by omega : fuel ≠ 0)
    rw [Describe.registerSchemas, Results.bind_of_error hround]
  | next hround _ ih =>
    obtain ⟨fuel, rfl⟩ := Nat.exists_eq_succ_of_ne_zero (by omega : fuel ≠ 0)
    rw [Describe.registerSchemas, Results.bind_of_ok hround]
    exact ih (by omega)

/-- A drain inside a universe ends within as many rounds as its measure says. -/
theorem Universe.Holds.ends {u : Universe} {s : Site} {r : Registry} (h : u.Holds s r)
    (document : NodeId) : ∃ n result, n ≤ u.measure r ∧
      Ends u.toDescribers document n s result := by
  -- By induction on the measure, which every round that has something to do makes smaller.
  induction hn : u.measure r using Nat.strong_induction_on generalizing s r with
  | _ n ih =>
    subst hn
    rcases h.round document with ⟨t, hround, -⟩ | ⟨e, t, r', hround, -⟩ | ⟨t, r', hround, ht, hless⟩
    · exact ⟨0, _, Nat.zero_le _, .stop hround⟩
    · exact ⟨0, _, Nat.zero_le _, .fail hround⟩
    · obtain ⟨n, result, hle, hends⟩ := ih _ hless ht rfl
      exact ⟨n + 1, result, by omega, .next hround hends⟩

/-- The drain ends, from every site. After some number of rounds, which the identities of its
    universe bound, there is nothing left to do or an error has ended it, and more rounds make no
    difference; and however many are made, no identity outside the universe is registered. -/
theorem registerSchemas_ends (w : World) (describers : List ModelDescriber) (document : NodeId)
    (s : Site) :
    ∃ n result, Ends (describers.map (·.toDescriber w)) document n s result ∧
      (∀ fuel, n < fuel →
        registerSchemas (describers.map (·.toDescriber w)) document fuel s = result) ∧
      ∀ d, s.desk? = some d →
        n ≤ 2 * (Universe.mk w describers d).identities.length + 2 ∧
        ∀ fuel, ∃ d', (after (registerSchemas (describers.map (·.toDescriber w)) document fuel)
            s).desk? = some d' ∧
          ∀ key ∈ d'.registry.keys, key ∈ (Universe.mk w describers d).identities := by
  cases hs : s.desk? with
  | none =>
    have hends : Ends (describers.map (·.toDescriber w)) document 0 s (.error .noRegistry s) :=
      .fail (round_of_none hs)
    exact ⟨0, _, hends, fun fuel hfuel => hends.registerSchemas_eq hfuel, fun d hd => nomatch hd⟩
  | some d =>
    have hholds := Universe.holds_desk (u := ⟨w, describers, d⟩) hs
    obtain ⟨n, result, hle, hends⟩ := hholds.ends document
    refine ⟨n, result, hends, fun fuel hfuel => hends.registerSchemas_eq hfuel, ?_⟩
    rintro d' ⟨⟩
    refine ⟨?_, fun fuel => ?_⟩
    · have hmissing : (Universe.mk w describers d).missing d.registry
          ≤ (Universe.mk w describers d).identities.length :=
        (Finset.card_filter_le _ _).trans (List.toFinset_card_le _)
      have hmeasure : (Universe.mk w describers d).measure d.registry
          ≤ 2 * (Universe.mk w describers d).missing d.registry + 2 := by
        rw [Universe.measure]
        split <;> split <;> omega
      exact hle.trans (hmeasure.trans (by omega))
    · obtain ⟨r', hend⟩ := hholds.registerSchemas document fuel
      obtain ⟨cache, hdesk, -⟩ := hend.desk
      exact ⟨_, hdesk, hend.keys⟩

end ApiDoc
