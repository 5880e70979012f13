import ApiDoc.Proofs.Class.Found
import ApiDoc.Proofs.Describe.Documents
import ApiDoc.Proofs.Describe.Schemas
import ApiDoc.Proofs.Document.Components
import ApiDoc.Proofs.Registry.Drain

namespace ApiDoc

/-!
# References lead to schemas

References are handed out before the schemas exist that they lead to. What carries the proof is
what holds of every event at all sites after it: the reference that was answered is made of the
name that the identity has, and the schema that was described stands under that name.

* `Event.Holds` — what holds of an event;
* `Describe.Later`, `Event.Holds.later` — a site at which more has been described, and at which
  what held still holds;
* `Describe.Reaches` — a site that is reached with events, all of which hold there;
* `Visits.reaches`, `Drained.reaches`, `Trace.reaches` — visits, drains and all calls;
* `references_described` — after a generation that succeeds every reference leads to one schema,
  which was described.
-/

open Registry Describe

/-! ### Sites at which more has been described -/

/-- A site with a sound document and a well-kept registry. -/
def Describe.Ready (s : Site) : Prop := s.draft.forest.Sound ∧ HasKeyed s

/-- A site at which more has been described. -/
structure Describe.Later (s t : Site) : Prop where
  forest : s.draft.forest.Extends t.draft.forest
  history : ∀ d, s.desk? = some d →
    ∃ d' answers, t.desk? = some d' ∧ History d.registry answers d'.registry

/-- What holds of an event: the reference is made of the name of the identity, and under the name
    stands the schema that was described. -/
def Event.Holds (s : Site) : Event → Prop
  | registered m reference => ∃ d name, s.desk? = some d ∧
      d.registry.nameOf? m.hash = some name ∧ reference = d.registry.refPrefix ++ name
  | described key schema => ∃ d name, s.desk? = some d ∧
      d.registry.nameOf? key = some name ∧ schema ∈ s.draft.forest.schemasNamed name
  | recalled => True

namespace Describe.Later

variable {s t u : Site}

theorem refl (s : Site) : Later s s := ⟨.refl _, fun d hd => ⟨d, [], hd, .nil _⟩⟩

theorem trans (hst : Later s t) (htu : Later t u) : Later s u := by
  refine ⟨hst.forest.trans htu.forest, fun d hd => ?_⟩
  obtain ⟨d', answers, hd', hh⟩ := hst.history d hd
  obtain ⟨d'', more, hd'', hh'⟩ := htu.history d' hd'
  exact ⟨d'', answers ++ more, hd'', hh.trans hh'⟩

end Describe.Later

/-- What held of an event still holds. -/
theorem Event.Holds.later {e : Event} {s t : Site} (h : e.Holds s) (hs : s.draft.forest.Sound)
    (hst : Later s t) : e.Holds t := by
  cases e with
  | registered m reference =>
    obtain ⟨d, name, hd, hname, href⟩ := h
    obtain ⟨d', answers, hd', hh⟩ := hst.history d hd
    exact ⟨d', name, hd', hh.nameOf?_of_some hname, by rw [hh.refPrefix_eq]; exact href⟩
  | described key schema =>
    obtain ⟨d, name, hd, hname, hschema⟩ := h
    obtain ⟨d', answers, hd', hh⟩ := hst.history d hd
    exact ⟨d', name, hd', hh.nameOf?_of_some hname, hst.forest.schemasNamed hs hschema⟩
  | recalled => trivial

/-- A site that is reached from a ready one with events, all of which hold there. -/
structure Describe.Reaches (s : Site) (es : List Event) (t : Site) : Prop where
  ready : Ready t
  later : Later s t
  holds : ∀ e ∈ es, e.Holds t

/-! ### Steps -/

/-- What registering models makes of a registry, as events. -/
theorem Registry.holds_registrations {r : Registry} (hr : r.AllNamed) (ms : List Model) {s : Site}
    {cache : Cache} (hs : s.desk? = some ⟨r.addAll ms, cache⟩) :
    ∀ e ∈ r.registrations ms, e.Holds s := by
  induction ms generalizing r with
  | nil => exact fun _ he => absurd he List.not_mem_nil
  | cons m ms ih =>
    obtain ⟨answers, hh⟩ := History.addAll (r.add m) ms
    refine List.forall_mem_cons.2 ⟨?_, ih (hr.add m) hs⟩
    obtain ⟨name, hname, href⟩ := (History.register m hh).answer_eq hr _ List.mem_cons_self
    exact ⟨_, name, hs, hname, href⟩

namespace Describe.Reaches

variable {s t u : Site} {d : Desk} {es fs : List Event}

theorem refl (hs : Ready s) : Reaches s [] s :=
  ⟨hs, .refl s, fun _ he => absurd he List.not_mem_nil⟩

theorem append (h : Reaches s es t) (h' : Reaches t fs u) : Reaches s (es ++ fs) u := by
  refine ⟨h'.ready, h.later.trans h'.later, fun e he => ?_⟩
  rcases List.mem_append.1 he with he | he
  · exact (h.holds e he).later h.ready.1 h'.later
  · exact h'.holds e he

/-- Models registered while the document is described further. -/
theorem addAll (hs : Ready s) (hd : s.desk? = some d) {ms : List Model} {cache : Cache}
    (ht : t.desk? = some ⟨d.registry.addAll ms, cache⟩) (hsound : t.draft.forest.Sound)
    (hforest : s.draft.forest.Extends t.draft.forest) :
    Reaches s (d.registry.registrations ms) t := by
  have hkeyed := hs.2.keyed hd
  refine ⟨⟨hsound, _, ht, hkeyed.addAll ms⟩, ⟨hforest, fun d' hd' => ?_⟩,
    holds_registrations hkeyed.allNamed ms ht⟩
  cases hd.symm.trans hd'
  obtain ⟨answers, hh⟩ := History.addAll d.registry ms
  exact ⟨_, answers, ht, hh⟩

/-- Something taken out of the registry. -/
theorem take (hs : Ready s) (hd : s.desk? = some d) {r : Registry}
    (hh : History d.registry [] r) (hr : r.Keyed) : Reaches s [] (withRegistry s r) := by
  have ht := withRegistry_desk? hd r
  refine ⟨⟨hs.1, _, ht, hr⟩, ⟨.refl _, fun d' hd' => ?_⟩, fun _ he => absurd he List.not_mem_nil⟩
  cases hd.symm.trans hd'
  exact ⟨_, [], ht, hh⟩

end Describe.Reaches

/-! ### Visits, drains and calls -/

variable {w : World} {xs : List ModelDescriber}

/-- The component schema of an identity found or made. -/
theorem Describe.Reaches.described {s t : Site} {d : Desk} {key name : String} {schema : NodeId}
    (hs : Ready s) (hd : s.desk? = some d) (hname : d.registry.nameOf? key = some name)
    (h : edit (Edit.componentSchema 0 (.str name)) s = .ok schema t) :
    Reaches s [.described key schema] t ∧ t.desk? = some d ∧
      Rules.sound.isOpen t.draft.forest schema := by
  obtain ⟨hsound, hkeyed⟩ := hs
  obtain ⟨draft, hfound, rfl⟩ := edit_eq_ok h
  obtain ⟨hsound', -, hkind, hnamed, hextends⟩ :=
    Edit.Keeps.componentSchema hsound name schema draft hfound
  refine ⟨⟨⟨hsound', hkeyed⟩, ⟨hextends, fun d' hd' => ⟨d', [], hd', .nil _⟩⟩, ?_⟩, hd, hsound', ?_⟩
  · exact List.forall_mem_singleton.2 ⟨d, name, hd, hname, hnamed⟩
  · refine ⟨(hsound'.isComponentSchema (Forest.mem_schemasNamed.1 hnamed).1).1, ?_⟩
    rw [hkind]
    decide

/-- A model described in its schema. -/
theorem Describe.Reaches.describe
    (hover : ∀ name o, w.classes.schemaOverride? name = some o → o.LeavesKey)
    {x : Describer} (hx : x ∈ xs.map (·.toDescriber w)) {m : Model} {schema : NodeId} {s t : Site}
    {d : Desk} {ms : List Model} {cache : Cache} (hs : Ready s) (hd : s.desk? = some d)
    (hopen : Rules.sound.isOpen s.draft.forest schema) (h : x.describe m schema s = .ok () t)
    (ht : t.desk? = some ⟨d.registry.addAll ms, cache⟩) :
    Reaches s (d.registry.registrations ms) t := by
  obtain ⟨y, -, rfl⟩ := List.mem_map.1 hx
  have hdoes : Rules.sound.Does ((y.toDescriber w).describe m schema) s fun _ _ => True :=
    .describer Rules.sound_lawful (Rules.sound_covers hover) (Rules.sound_coversDescriber y)
      trivial hopen
  -- What the rules say of the forest; what is registered is known from the desk.
  obtain ⟨_, _, -, -, hact⟩ := hdoes d hd fun _ _ => trivial
  rw [h] at hact
  obtain ⟨hsound, hchanges⟩ := hact.2.1 hs.1
  exact .addAll hs hd ht hsound (hchanges.extends hs.1 (by decide) (by decide))

/-- Pending identities described one after the other. -/
theorem Visits.reaches
    (hover : ∀ name o, w.classes.schemaOverride? name = some o → o.LeavesKey)
    {keys : List String} {s t : Site} {es : List Event}
    (h : Visits (xs.map (·.toDescriber w)) 0 keys s es t) (hs : Ready s) : Reaches s es t := by
  induction h with
  | nil s => exact .refl hs
  | cons hdesk _ hname hschema hfind hrun hafter _ ih =>
    obtain ⟨hfound, hdesk₁, hopen⟩ := Reaches.described hs hdesk hname hschema
    have hdescribed := Reaches.describe hover (List.mem_of_find?_eq_some hfind) hfound.ready hdesk₁
      hopen hrun hafter
    exact hfound.append (hdescribed.append (ih hdescribed.ready))

/-- Rounds until nothing is left to do. -/
theorem Drained.reaches
    (hover : ∀ name o, w.classes.schemaOverride? name = some o → o.LeavesKey)
    {s t : Site} {es : List Event}
    (h : Drained (xs.map (·.toDescriber w)) 0 s es t) (hs : Ready s) : Reaches s es t := by
  induction h with
  | done => exact .refl hs
  | pending hdesk _ hvisits _ ih =>
    have htaken := Reaches.take hs hdesk (.takePending (.nil _)) (hs.2.keyed hdesk).take.1
    have hvisited := hvisits.reaches hover htaken.ready
    exact htaken.append (hvisited.append (ih hvisited.ready))
  | @recalled s t d es hdesk _ _ _ ih =>
    have htaken := Reaches.take hs hdesk (.takeAlternatives (.nil _)) (hs.2.keyed hdesk).take.2
    have hrecalled : Reaches s [.recalled] _ :=
      ⟨htaken.ready, htaken.later, List.forall_mem_singleton.2 trivial⟩
    have hadded : Reaches _ _ (withRegistry s
        (({ d.registry with alternatives := [] } : Registry).addAll d.registry.alternatives)) :=
      .addAll htaken.ready (withRegistry_desk? hdesk _) (withRegistry_desk? hdesk _) hs.1 (.refl _)
    exact hrecalled.append (hadded.append (ih hadded.ready))

/-- Calls made one after the other. -/
theorem Trace.reaches
    (hover : ∀ name o, w.classes.schemaOverride? name = some o → o.LeavesKey)
    {calls : List Call} {s t : Site} {es : List Event}
    (h : Trace (xs.map (·.toDescriber w)) 0 calls s es t) (hs : Ready s) : Reaches s es t := by
  induction h with
  | nil s => exact .refl hs
  | @register s t d m calls es hdesk _ ih =>
    have hadded : Reaches s (d.registry.registrations [m])
        (withRegistry s (d.registry.register m).2) :=
      .addAll hs hdesk (withRegistry_desk? hdesk _) hs.1 (.refl _)
    exact hadded.append (ih hadded.ready)
  | registerSchemas hdrained _ ih =>
    have hdone := hdrained.reaches hover hs
    exact hdone.append (ih hdone.ready)

/-- The identities that are described are those of the events. -/
theorem Event.mem_describedKeys {key : String} {es : List Event} :
    key ∈ describedKeys es ↔ ∃ schema, .described key schema ∈ es := by
  rw [describedKeys, List.mem_filterMap]
  constructor
  · rintro ⟨e, he, hkey⟩
    cases e with
    | described key' schema =>
      cases hkey
      exact ⟨schema, he⟩
    | registered _ _ => exact nomatch hkey
    | recalled => exact nomatch hkey
  · rintro ⟨schema, h⟩
    exact ⟨_, h, rfl⟩

/-! ### Generations -/

namespace Generator

/-- The calls of a registry in a generation. -/
def calls (g : Generator) (fuel : Nat) : List Call :=
  (g.models.map fun m => .register m.model) ++ [.registerSchemas fuel]

/-- A document is sound before anything is described. -/
theorem sound_emptyDocument (version : Data) :
    (Forest.add {} (emptyDocument version)).2.Sound := by
  refine ⟨Nat.one_pos, rfl, ?_, ?_⟩
  · intro i hi p hp
    obtain rfl : i = 0 := Nat.lt_one_iff.1 hi
    exact nomatch hp
  · intro i hi
    obtain rfl : i = 0 := Nat.lt_one_iff.1 hi
    refine .of_unset fun slot hslot => ?_
    refine Node.value_putValue_of_ne _ ?_ version
    rintro rfl
    exact Kind.field_notMem_slots .openApi "openapi" (by decide) hslot

end Generator

/-- Models asked for one after the other, and the calls after them. -/
theorem Call.runEach_register {describers : List Describer} {document : NodeId}
    {ms : List ModelRequest} {calls : List Call} {s t u : Site}
    (hms : (ms.forM fun m => do let _ ← Describe.register .noRegistry m.model) s = .ok () t)
    (hcalls : Call.runEach describers document calls t = .ok () u) :
    Call.runEach describers document ((ms.map fun m => .register m.model) ++ calls) s
      = .ok () u := by
  induction ms generalizing s with
  | nil =>
    cases hms
    exact hcalls
  | cons m ms ih =>
    obtain ⟨⟨⟩, s₁, hm, hrest⟩ := Results.bind_eq_ok.1 hms
    obtain ⟨reference, s₂, hregister, hpure⟩ := Results.bind_eq_ok.1 hm
    cases hpure
    refine Results.bind_eq_ok.2 ⟨(), s₁, ?_, ih hrest⟩
    refine Results.bind_eq_ok.2 ⟨[(m.model, reference)], s₁, ?_, rfl⟩
    exact Results.bind_eq_ok.2 ⟨reference, s₁, hregister, rfl⟩

/-- No dangling references. Where no override of a class and no fragment of a document carries the
    key of a component schema, the calls of a generation that succeeds have a trace, and in every
    trace of them every reference that is answered, be it to a describer, to an override or to the
    generator, is the reference prefix before the key of just one component schema, which was
    described for the identity that the reference stands for. -/
theorem references_described {w : World} {g : Generator} {fuel : Nat} {met : List String}
    {nextMark : Nat} {t : Site}
    (hover : ∀ name o, w.classes.schemaOverride? name = some o → o.LeavesKey)
    (hdocument : ∀ x ∈ g.describers, ¬x.CarriesKey)
    (hrun : g.generate w fuel met nextMark = .ok (.ok () t)) :
    ∃ c s, g.config w.ambient = .ok c ∧
      g.describers.forM (·.describe w Generator.document) (g.start c met nextMark) = .ok () s ∧
      (∃ es, Trace (g.modelDescribers.map (·.toDescriber w)) Generator.document (g.calls fuel)
        s es t) ∧
      ∀ es, Trace (g.modelDescribers.map (·.toDescriber w)) Generator.document (g.calls fuel)
        s es t → ∀ m reference, .registered m reference ∈ es →
          ∃ name schema, reference = c.refPrefix ++ name ∧
            t.draft.forest.schemasNamed name = [schema] ∧ .described m.hash schema ∈ es := by
  cases hc : g.config w.ambient with
  | error e =>
    rw [Generator.generate, hc] at hrun
    exact nomatch hrun
  | ok c =>
    rw [Generator.generate, hc] at hrun
    replace hrun : g.run w fuel (g.start c met nextMark) = .ok () t := Except.ok.inj hrun
    obtain ⟨⟨⟩, s, hdescribers, hrun⟩ := Results.bind_eq_ok.1 hrun
    obtain ⟨⟨⟩, s₂, hmodels, hdrain⟩ := Results.bind_eq_ok.1 hrun
    obtain ⟨hdesk, hsound⟩ := DocumentDescriber.forM_spec
      (Generator.sound_emptyDocument (.str c.openapiVersion)) hdocument hdescribers
    have hkeyed : (g.registry c).Keyed := keyed_create _ _ _
    have hcalls : Call.runEach (g.modelDescribers.map (·.toDescriber w)) Generator.document
        (g.calls fuel) s = .ok () t := by
      refine Call.runEach_register hmodels (Results.bind_eq_ok.2 ⟨(), t, ?_, rfl⟩)
      refine Results.bind_eq_ok.2 ⟨[], t, ?_, rfl⟩
      exact Results.bind_eq_ok.2 ⟨(), t, hdrain, rfl⟩
    refine ⟨c, s, rfl, hdescribers,
      exists_trace (allRegister_toDescriber w _) ⟨_, hdesk, hkeyed⟩ hcalls, ?_⟩
    intro es htrace m reference hregistered
    have hreaches := htrace.reaches hover ⟨hsound, _, hdesk, hkeyed⟩
    obtain ⟨d, name, hd, hname, href⟩ := hreaches.holds _ hregistered
    -- All that is registered has been described when the drain returns.
    have hin : InOrder (g.registry c).alternatives [] [] s (g.registry c) :=
      ⟨⟨{}, hdesk⟩, hkeyed, rfl, rfl, .inl rfl⟩
    obtain ⟨_, _, _, _, _, hdone⟩ := Trace.order_registerSchemas htrace hin
    have hmem : m.hash ∈ Event.describedKeys es := by
      rw [hdone, List.mem_eraseDups]
      exact List.mem_filterMap.2 ⟨_, hregistered, rfl⟩
    obtain ⟨schema, hschema⟩ := Event.mem_describedKeys.1 hmem
    -- Both events speak of the name of one identity, at the site where everything ends.
    obtain ⟨d', name', hd', hname', hnamed⟩ := hreaches.holds _ hschema
    cases hd.symm.trans hd'
    cases hname.symm.trans hname'
    refine ⟨name, schema, ?_, hreaches.ready.1.schemasNamed_eq hnamed, hschema⟩
    obtain ⟨d'', answers, hd'', hh⟩ := hreaches.later.history _ hdesk
    cases hd.symm.trans hd''
    rw [href, hh.refPrefix_eq]
    rfl

/-! ### A cycle of classes -/

/-- Two classes that refer to each other, one with an override that refers to a third. -/
def shopWorld : World where
  classes :=
    [{ decl :=
        { module := "shop", name := "Shop", kind := .plain
          fields :=
            [{ name := "shelf", annotation := .object "shop.Shelf" },
             { name := "owner"
               annotation := .annotated (.builtin "str") [.override
                { kind := .property, others := []
                  declared := [("ref", .modelRef (.named "shop.Owner") .null)] }] }]
          schema? := some
            { kind := .schema, declared := [("description", .str "A shop.")], others := [] } }
       order := ["shop.Shop", rootClass], recordFields? := none },
     { decl :=
        { module := "shop", name := "Shelf", kind := .plain
          fields := [{ name := "shop", annotation := .object "shop.Shop" }] }
       order := ["shop.Shelf", rootClass], recordFields? := none },
     { decl := { module := "shop", name := "Owner", kind := .plain }
       order := ["shop.Owner", rootClass], recordFields? := none }]

/-- A generator that is asked for one of the classes, and holds a name for another. A fragment
    brings a schema of its own. -/
def shopGenerator : Generator where
  describers :=
    [.external ⟨.value (.ofEntries [(.str "components", .ofEntries [(.str "schemas", .ofEntries
      [(.str "Shop", .ofEntries [(.str "title", .str "Shop")])])])]), false, none⟩, .defaults {}]
  modelDescribers := [.object]
  models := [.ofTarget (.named "shop.Shop") .null]
  alternatives := [("Person", .ofTarget (.named "shop.Owner") .null)]
  config? := some {}

/-- The references of the cycle, of the override and of the fixed name all lead to a schema. -/
theorem references_described_shop : ∃ t, shopGenerator.generate shopWorld 9 [] 1 = .ok (.ok () t) ∧
    ∃ s es, Trace [ModelDescriber.object.toDescriber shopWorld] 0 (shopGenerator.calls 9) s es t ∧
      ∀ m reference, .registered m reference ∈ es → ∃ name schema,
        reference = "#/components/schemas/" ++ name ∧
        t.draft.forest.schemasNamed name = [schema] ∧ .described m.hash schema ∈ es := by
  obtain ⟨t, hrun⟩ : ∃ t, shopGenerator.run shopWorld 9 (shopGenerator.start {} [] 1) = .ok () t :=
    Results.exists_ok (by decide +kernel)
  have hgenerate : shopGenerator.generate shopWorld 9 [] 1 = .ok (.ok () t) :=
    congrArg Except.ok hrun
  have hover : ∀ o ∈ ClassTable.overrides shopWorld.classes, o.LeavesKey := by decide +kernel
  have hdocument : ∀ x ∈ shopGenerator.describers, ¬x.CarriesKey := by
    refine List.forall_mem_cons.2 ⟨?_, List.forall_mem_singleton.2 id⟩
    rintro ⟨es, ⟨mark, hes⟩, hcarries⟩
    cases hes
    simp [Entries.CarriesKey, Entries.SchemaCarriesKey, Data.CarriesKey, Entries.get?,
      Data.same, Scalar.same] at hcarries
  obtain ⟨c, s, hc, -, ⟨es, htrace⟩, hall⟩ := references_described
    (fun name o ho => hover o (ClassTable.schemaOverride?_mem ho)) hdocument hgenerate
  cases hc
  exact ⟨t, hgenerate, s, es, htrace, hall es htrace⟩

end ApiDoc
