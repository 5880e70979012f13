import ApiDoc.Proofs.Generator.References

namespace ApiDoc

/-!
# Fixed names in documents

A registry keeps models with fixed names until nothing else is left to describe. An identity has one
name, the last of those that are fixed for it:

* `Registry.nameOf?_create` — the name that is fixed for an identity;
* `Describe.Remembers` — sites at which a model with a fixed name is registered or is still to be;
* `Event.Ran` — what a describer has done where a model is described;
* `alternatives_emitted` — the schemas under fixed names.
-/

open Registry Describe

/-! ### Fixed names -/

/-- The name of an identity is the last that is fixed for it. -/
theorem Registry.nameOf?_create (refPrefix : String) (policy? : Option Policy)
    {before after : List (String × Model)} {name : String} {m : Model}
    (hlast : ∀ a ∈ after, a.2.hash ≠ m.hash) :
    (create refPrefix policy? (before ++ (name, m) :: after)).nameOf? m.hash = some name := by
  have hkeeps : ∀ names : List (String × String), names.lookup m.hash = some name →
      (after.foldl (fun acc a => putName a.2.hash a.1 acc) names).lookup m.hash = some name := by
    induction after with
    | nil => exact fun _ h => h
    | cons a after ih =>
      intro names hname
      obtain ⟨ha, hafter⟩ := List.forall_mem_cons.1 hlast
      refine ih hafter _ ?_
      rw [lookup_putName, if_neg ha.symm, hname]
  show (List.foldl _ [] (before ++ (name, m) :: after)).lookup m.hash = some name
  rw [List.foldl_append]
  refine hkeeps _ ?_
  rw [lookup_putName, if_pos rfl]

/-! ### What is left to register -/

/-- A site with a well-kept registry, at which a model is registered, or is one of those with fixed
    names that are still to be. -/
def Describe.Remembers (m : Model) (s : Site) : Prop :=
  ∃ d, s.desk? = some d ∧ d.registry.Keyed ∧ (m ∈ d.registry.alternatives ∨ m.hash ∈ d.registry.keys)

/-- What a describer has done where a model is described: the first that takes the model has
    described it in the schema. -/
def Event.Ran (describers : List Describer) : Event → Prop
  | described key schema => ∃ m x s t, m.hash = key ∧
      (describers.find? fun x => x.supports m) = some x ∧ x.describe m schema s = .ok () t
  | _ => True

theorem Event.ran_registrations {describers : List Describer} (r : Registry) (ms : List Model) :
    ∀ e ∈ r.registrations ms, e.Ran describers := by
  induction ms generalizing r with
  | nil => exact fun _ he => absurd he List.not_mem_nil
  | cons m ms ih => exact List.forall_mem_cons.2 ⟨trivial, ih (r.add m)⟩

variable {describers : List Describer} {document : NodeId} {m : Model} {s t : Site}
  {es : List Event}

theorem Describe.Remembers.addAll {d : Desk} {ms : List Model} {cache : Cache}
    (h : Remembers m s) (hd : s.desk? = some d) (ht : t.desk? = some ⟨d.registry.addAll ms, cache⟩) :
    Remembers m t := by
  obtain ⟨d', hd', hkeyed, hm⟩ := h
  cases hd.symm.trans hd'
  refine ⟨_, ht, hkeyed.addAll ms, ?_⟩
  rw [addAll_alternatives]
  exact hm.imp_right fun hkey => mem_keys_addAll hkey ms

theorem Visits.remembers {keys : List String} (h : Visits describers document keys s es t)
    (hs : Remembers m s) : Remembers m t ∧ ∀ e ∈ es, e.Ran describers := by
  induction h with
  | nil s => exact ⟨hs, fun _ he => absurd he List.not_mem_nil⟩
  | @cons key keys s s₁ s₂ t d m' name schema x ms cache es hdesk hmodel _ _ hfind hrun hafter _ ih =>
    obtain ⟨ht, hran⟩ := ih (hs.addAll hdesk hafter)
    obtain ⟨d', hd', hkeyed, -⟩ := hs
    cases hdesk.symm.trans hd'
    have hhash : m'.hash = key := hkeyed.hash_eq (key, m') (mem_of_lookup hmodel)
    refine ⟨ht, List.forall_mem_cons.2 ⟨⟨m', x, s₁, s₂, hhash, hfind, hrun⟩, fun e he => ?_⟩⟩
    rcases List.mem_append.1 he with he | he
    · exact Event.ran_registrations _ _ e he
    · exact hran e he

theorem Drained.remembers (h : Drained describers document s es t) (hs : Remembers m s) :
    Remembers m t ∧ ∀ e ∈ es, e.Ran describers := by
  induction h with
  | done => exact ⟨hs, fun _ he => absurd he List.not_mem_nil⟩
  | @pending s t u d es fs hdesk _ hvisits _ ih =>
    have htaken : Remembers m (withRegistry s { d.registry with pending := [] }) := by
      obtain ⟨d', hd', hkeyed, hm⟩ := hs
      cases hdesk.symm.trans hd'
      exact ⟨_, withRegistry_desk? hdesk _, hkeyed.take.1, hm⟩
    obtain ⟨ht, hran⟩ := hvisits.remembers htaken
    obtain ⟨hu, hran'⟩ := ih ht
    exact ⟨hu, fun e he => (List.mem_append.1 he).elim (hran e) (hran' e)⟩
  | @recalled s t d es hdesk _ _ _ ih =>
    obtain ⟨d', hd', hkeyed, hm⟩ := hs
    cases hdesk.symm.trans hd'
    -- What is still to be registered is registered now.
    have hkey : m.hash ∈ (({ d.registry with alternatives := [] } : Registry).addAll
        d.registry.alternatives).keys := by
      rcases hm with hm | hkey
      · exact mem_keys_addAll_of_mem hm
      · exact mem_keys_addAll (r := { d.registry with alternatives := [] }) hkey _
    obtain ⟨ht, hran⟩ := ih ⟨_, withRegistry_desk? hdesk _, hkeyed.take.2.addAll _, .inr hkey⟩
    refine ⟨ht, List.forall_mem_cons.2 ⟨trivial, fun e he => ?_⟩⟩
    exact (List.mem_append.1 he).elim (Event.ran_registrations _ _ e) (hran e)

/-- A model with a fixed name is not forgotten during calls. -/
theorem Trace.remembers {calls : List Call} (h : Trace describers document calls s es t)
    (hs : Remembers m s) : Remembers m t ∧ ∀ e ∈ es, e.Ran describers := by
  induction h with
  | nil s => exact ⟨hs, fun _ he => absurd he List.not_mem_nil⟩
  | @register s t d m' calls es hdesk _ ih =>
    have hadded : Remembers m (withRegistry s (d.registry.addAll [m'])) :=
      hs.addAll hdesk (withRegistry_desk? hdesk _)
    obtain ⟨ht, hran⟩ := ih hadded
    exact ⟨ht, List.forall_mem_cons.2 ⟨trivial, hran⟩⟩
  | registerSchemas hdrained _ ih =>
    obtain ⟨ht, hran⟩ := hdrained.remembers hs
    obtain ⟨hu, hran'⟩ := ih ht
    exact ⟨hu, fun e he => (List.mem_append.1 he).elim (hran e) (hran' e)⟩

/-! ### Schemas under fixed names -/

variable {w : World} {xs : List ModelDescriber}

/-- The schemas under fixed names. Where no override of a class carries the key of a component
    schema, calls that end with a call for schemas and do not fail have a trace, and in every trace
    of them each fixed name, if none after it is for the same identity, is the name of just one
    component schema. That schema is described for this identity and for no other, and this once, by
    the first describer that takes the model. -/
theorem alternatives_emitted
    (hover : ∀ name o, w.classes.schemaOverride? name = some o → o.LeavesKey)
    {refPrefix : String} {policy? : Option Policy} {alternatives : List (String × Model)}
    (hnames : (alternatives.map (·.1)).Nodup) {cache : Cache} {calls : List Call} {fuel : Nat}
    (hsound : s.draft.forest.Sound)
    (hdesk : s.desk? = some ⟨create refPrefix policy? alternatives, cache⟩)
    (hrun : Call.runEach (xs.map (·.toDescriber w)) 0 (calls ++ [.registerSchemas fuel]) s
      = .ok () t) :
    (∃ es, Trace (xs.map (·.toDescriber w)) 0 (calls ++ [.registerSchemas fuel]) s es t) ∧
    ∀ es, Trace (xs.map (·.toDescriber w)) 0 (calls ++ [.registerSchemas fuel]) s es t →
      ∀ before name m after, alternatives = before ++ (name, m) :: after →
        (∀ a ∈ after, a.2.hash ≠ m.hash) →
        ∃ schema, t.draft.forest.schemasNamed name = [schema] ∧
          (∀ key, .described key schema ∈ es ↔ key = m.hash) ∧
          (Event.describedKeys es).count m.hash = 1 ∧
          ∃ m' x u v, m'.hash = m.hash ∧
            ((xs.map (·.toDescriber w)).find? fun x => x.supports m') = some x ∧
            x.describe m' schema u = .ok () v := by
  have hkeyed := keyed_create refPrefix policy? alternatives
  refine ⟨exists_trace (allRegister_toDescriber w _) ⟨_, hdesk, hkeyed⟩ hrun, ?_⟩
  rintro es htrace before name m after rfl hlast
  have hreaches := htrace.reaches hover ⟨hsound, _, hdesk, hkeyed⟩
  have hmem : m ∈ (create refPrefix policy? (before ++ (name, m) :: after)).alternatives :=
    List.mem_map.2 ⟨(name, m), List.mem_append_right _ List.mem_cons_self, rfl⟩
  obtain ⟨⟨d, hd, -, hm⟩, hran⟩ := htrace.remembers ⟨_, hdesk, hkeyed, .inl hmem⟩
  -- When the drain returns, the model has been registered, and so it has been described.
  have hin : InOrder _ [] [] s (create refPrefix policy? (before ++ (name, m) :: after)) :=
    ⟨⟨cache, hdesk⟩, hkeyed, rfl, rfl, .inl rfl⟩
  obtain ⟨r, cache', hr, -, hnone, hdone⟩ := htrace.order_registerSchemas hin
  obtain ⟨-, r', ⟨⟨cache'', hr'⟩, hkeyed', hkeys, -, -⟩⟩ := htrace.order hin
  cases hd.symm.trans hr
  cases hd.symm.trans hr'
  have hkey : m.hash ∈ r.keys := hm.resolve_left (hnone ▸ List.not_mem_nil)
  have hkeys' : r.keys = Event.describedKeys es := by rw [hkeys, hdone]; rfl
  have hdescribed : m.hash ∈ Event.describedKeys es := hkeys' ▸ hkey
  obtain ⟨schema, hschema⟩ := Event.mem_describedKeys.1 hdescribed
  -- The name is that of the identity, from the beginning to the end.
  obtain ⟨d, answers, hd', hh⟩ := hreaches.later.history _ hdesk
  cases hd.symm.trans hd'
  have hname : r.nameOf? m.hash = some name := hh.nameOf?_of_some (nameOf?_create _ _ hlast)
  have hnamed : ∀ key, .described key schema ∈ es → ∃ name', r.nameOf? key = some name' ∧
      schema ∈ t.draft.forest.schemasNamed name' := by
    intro key hevent
    obtain ⟨d', name', hd', hname', hnamed⟩ := hreaches.holds _ hevent
    cases hd.symm.trans hd'
    exact ⟨name', hname', hnamed⟩
  obtain ⟨name', hname', hstands⟩ := hnamed _ hschema
  cases hname.symm.trans hname'
  refine ⟨schema, hreaches.ready.1.schemasNamed_eq hstands, fun key => ⟨fun hevent => ?_, ?_⟩,
    ?_, hran _ hschema⟩
  · obtain ⟨other, hother, hstands'⟩ := hnamed key hevent
    have heq : some other = some name :=
      (Forest.mem_schemasNamed.1 hstands').2.symm.trans (Forest.mem_schemasNamed.1 hstands).2
    cases heq
    exact hh.namesApart (namesApart_create _ _ hnames) _ _ _ hother hname
  · rintro rfl
    exact hschema
  · exact List.count_eq_one_of_mem (hkeys' ▸ hkeyed'.nodup) hdescribed

/-! ### A class with two names -/

/-- Two names for one class, and one for another. -/
def shopNames : List (String × Model) :=
  [("Goods", .ofClass "shop.Item" .null), ("Item", .ofClass "shop.Item" .null),
    ("Person", .ofClass "shop.Owner" .null)]

/-- An empty document, and a registry with these names. -/
def shopSite : Site where
  draft := { forest := (Forest.add {} (Generator.emptyDocument (.str "3.0.0"))).2 }
  desk? := some ⟨create "#/components/schemas/" none shopNames, {}⟩

/-- The calls of a site at which one model is registered before all are described. -/
def shopRun : Describe Unit :=
  Call.runEach ([ModelDescriber.outline {}].map (·.toDescriber {})) 0
    ([.register (.ofClass "shop.Owner" .null)] ++ [.registerSchemas 9])

/-- The calls succeed, and leave nothing under the first name of the class with two. -/
theorem exists_shopRun : ∃ t, shopRun shopSite = .ok () t ∧
    (t.draft.forest.schemasNamed "Goods").isEmpty = true :=
  Results.exists_of_endsIn (by decide +kernel)

/-- Both classes have a schema under their last name. -/
theorem alternatives_emitted_shop : ∃ t item person,
    Call.runEach ([ModelDescriber.outline {}].map (·.toDescriber {})) 0
      ([.register (.ofClass "shop.Owner" .null)] ++ [.registerSchemas 9]) shopSite = .ok () t ∧
    t.draft.forest.schemasNamed "Item" = [item] ∧
    t.draft.forest.schemasNamed "Person" = [person] := by
  obtain ⟨t, hrun, -⟩ := exists_shopRun
  obtain ⟨⟨es, htrace⟩, hall⟩ := alternatives_emitted
    (fun name o ho => absurd (ClassTable.schemaOverride?_mem ho) List.not_mem_nil) (by decide)
    (Generator.sound_emptyDocument (.str "3.0.0")) rfl hrun
  have hlast : ∀ a ∈ [("Person", Model.ofClass "shop.Owner" .null)],
      a.2.hash ≠ (Model.ofClass "shop.Item" .null).hash := by
    decide +kernel
  obtain ⟨item, hitem, -⟩ := hall es htrace [_] "Item" _ [_] rfl hlast
  obtain ⟨person, hperson, -⟩ := hall es htrace [_, _] "Person" _ [] rfl nofun
  exact ⟨t, item, person, hrun, hitem, hperson⟩

/-- The first name of the class with two has no schema. -/
theorem alternatives_replaced : ∃ t,
    Call.runEach ([ModelDescriber.outline {}].map (·.toDescriber {})) 0
      ([.register (.ofClass "shop.Owner" .null)] ++ [.registerSchemas 9]) shopSite = .ok () t ∧
    "Goods" ∈ shopNames.map (·.1) ∧ (t.draft.forest.schemasNamed "Goods").isEmpty = true := by
  obtain ⟨t, hrun, hgoods⟩ := exists_shopRun
  exact ⟨t, hrun, by decide, hgoods⟩

end ApiDoc
