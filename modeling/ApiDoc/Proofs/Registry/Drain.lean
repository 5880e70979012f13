import ApiDoc.Proofs.Registry.Trace

namespace ApiDoc

/-!
# Every model is described once, in order

What carries the proof is where the registered identities stand: those that are described, then
those that are taken to be described, then those that are pending, in the order in which they were
registered first.

* `keys_addAll_eq`, `keys_addAll_append` — registering keeps that order;
* `Event.Quiet` — events in which models with fixed names are registered only when everything
  registered so far has been described;
* `Visits.order`, `Drained.order`, `Trace.order` — what one visit, one drain and all calls keep;
* `drain_once` — every identity is described once, in the order of first registration, and nothing
  is pending when a drain returns.
-/

open Registry Describe

/-! ### The order of identities -/

/-- Identities in the order of their first registration. -/
theorem keys_addAll_eq {r : Registry} {hs : List String} (h : r.keys = hs.eraseDups)
    (ms : List Model) : (r.addAll ms).keys = (hs ++ ms.map Model.hash).eraseDups := by
  induction ms generalizing r hs with
  | nil => simpa using h
  | cons m ms ih =>
    have hadd : (r.add m).keys = (hs ++ [m.hash]).eraseDups := by
      rw [keys_add, h, List.eraseDups_append]
      by_cases hm : m.hash ∈ hs <;> simp [hm, List.removeAll, List.eraseDups_cons]
    rw [addAll_cons, ih hadd]
    simp

/-- What is pending stays last among the identities. -/
theorem keys_addAll_append {r : Registry} {before : List String}
    (h : r.keys = before ++ r.pending) (ms : List Model) :
    (r.addAll ms).keys = before ++ (r.addAll ms).pending := by
  induction ms generalizing r with
  | nil => exact h
  | cons m ms ih =>
    refine ih ?_
    rw [keys_add, pending_add]
    split
    · exact h
    · rw [h, List.append_assoc]

/-! ### Quiet events -/

namespace Event

/-- Events after `hs` have been registered and `done` described, in which the models with fixed
    names are registered only when all that is registered has been described. -/
def Quiet (fixed : List Model) : (done hs : List String) → List Event → Prop
  | _, _, [] => True
  | done, hs, .registered m _ :: es => Quiet fixed done (hs ++ [m.hash]) es
  | done, hs, .described key _ :: es => Quiet fixed (done ++ [key]) hs es
  | done, hs, .recalled :: es =>
    (done = hs.eraseDups ∧ ∃ r rest, es = Registry.registrations r fixed ++ rest) ∧
      Quiet fixed done hs es

variable {fixed : List Model} {done hs : List String} {es fs : List Event}

theorem Quiet.append (hes : Quiet fixed done hs es)
    (hfs : Quiet fixed (done ++ describedKeys es) (hs ++ registeredKeys es) fs) :
    Quiet fixed done hs (es ++ fs) := by
  induction es generalizing done hs with
  | nil => simpa using hfs
  | cons e es ih =>
    cases e with
    | registered m reference => exact ih hes (by simpa using hfs)
    | described key schema => exact ih hes (by simpa using hfs)
    | recalled =>
      obtain ⟨⟨hdone, r, rest, hrest⟩, hes⟩ := hes
      exact ⟨⟨hdone, r, rest ++ fs, by rw [hrest]; exact List.append_assoc _ _ _⟩,
        ih hes (by simpa using hfs)⟩

theorem quiet_registrations (r : Registry) (ms : List Model) :
    Quiet fixed done hs (r.registrations ms) := by
  induction ms generalizing r hs with
  | nil => trivial
  | cons m ms ih => exact ih (r.add m)

/-- Where the models with fixed names are registered, everything registered before has been
    described. -/
theorem Quiet.at_recalled (h : Quiet fixed done hs (es ++ .recalled :: fs)) :
    done ++ describedKeys es = (hs ++ registeredKeys es).eraseDups ∧
      ∃ r rest, fs = Registry.registrations r fixed ++ rest := by
  induction es generalizing done hs with
  | nil => simpa using h.1
  | cons e es ih =>
    cases e with
    | registered m reference => simpa using ih h
    | described key schema => simpa using ih h
    | recalled => simpa using ih h.2

end Event

/-! ### What visits, drains and calls keep -/

variable {describers : List Describer} {document : NodeId} {fixed : List Model}

/-- The registry at a site after `hs` have been registered and `done` described or taken: the
    pending identities come after those, and fixed names are all left or all gone. -/
structure InOrder (fixed : List Model) (done hs : List String) (s : Site) (r : Registry) :
    Prop where
  desk : ∃ cache, s.desk? = some ⟨r, cache⟩
  keyed : r.Keyed
  keys_eq : r.keys = hs.eraseDups
  split : r.keys = done ++ r.pending
  fixed_eq : r.alternatives = fixed ∨ r.alternatives = []

theorem InOrder.addAll {done hs : List String} {s t : Site} {r : Registry} {cache : Cache}
    (h : InOrder fixed done hs s r) (ms : List Model)
    (ht : t.desk? = some ⟨r.addAll ms, cache⟩) :
    InOrder fixed done (hs ++ ms.map Model.hash) t (r.addAll ms) :=
  ⟨⟨cache, ht⟩, h.keyed.addAll ms, keys_addAll_eq h.keys_eq ms, keys_addAll_append h.split ms, by
    rw [addAll_alternatives]; exact h.fixed_eq⟩

/-- Visits describe just what they are to visit, and register behind it. -/
theorem Visits.order {keys : List String} {s t : Site} {es : List Event}
    (h : Visits describers document keys s es t) {done hs : List String} {r : Registry}
    (hin : InOrder fixed (done ++ keys) hs s r) :
    Event.describedKeys es = keys ∧ Event.Quiet fixed done hs es ∧
      ∃ r', InOrder fixed (done ++ keys) (hs ++ Event.registeredKeys es) t r' := by
  induction h generalizing done hs r with
  | nil s => exact ⟨rfl, trivial, r, by simpa using hin⟩
  | @cons key keys s s₁ s₂ t d m name schema x ms cache es hdesk _ _ _ _ _ hafter _ ih =>
    obtain ⟨cache', hr⟩ := hin.desk
    obtain rfl : d = ⟨r, cache'⟩ := Option.some.inj (hdesk.symm.trans hr)
    -- What the describer registers becomes pending behind everything that is to be visited.
    have hin₂ : InOrder fixed (done ++ [key] ++ keys) (hs ++ ms.map Model.hash) s₂
        (r.addAll ms) := by
      rw [List.append_assoc]
      exact hin.addAll ms hafter
    obtain ⟨hdescribed, hquiet, r', hend⟩ := ih hin₂
    refine ⟨by simp [hdescribed], ?_, r', ?_⟩
    · exact (Event.quiet_registrations r ms).append (by simpa using hquiet)
    · simpa using hend

/-- A drain describes all that is pending and all that is registered meanwhile. -/
theorem Drained.order {s t : Site} {es : List Event} (h : Drained describers document s es t)
    {done hs : List String} {r : Registry} (hin : InOrder fixed done hs s r) :
    Event.Quiet fixed done hs es ∧ ∃ r', r'.pending = [] ∧ r'.alternatives = [] ∧
      InOrder fixed (done ++ Event.describedKeys es) (hs ++ Event.registeredKeys es) t r' := by
  induction h generalizing done hs r with
  | done hdesk hpending halternatives =>
    obtain ⟨cache, hr⟩ := hin.desk
    cases hdesk.symm.trans hr
    exact ⟨trivial, r, hpending, halternatives, by simpa using hin⟩
  | @pending s t u d es fs hdesk hpending hvisits _ ih =>
    obtain ⟨cache, hr⟩ := hin.desk
    cases hdesk.symm.trans hr
    -- What is pending counts as taken before it is described.
    have htaken : InOrder fixed (done ++ r.pending) hs (withRegistry s { r with pending := [] })
        { r with pending := [] } :=
      ⟨⟨cache, withRegistry_desk? hdesk _⟩, hin.keyed.take.1, hin.keys_eq,
        hin.split.trans (List.append_nil _).symm, hin.fixed_eq⟩
    obtain ⟨hdescribed, hquiet, r', hin'⟩ := hvisits.order htaken
    rw [← hdescribed] at hin'
    obtain ⟨hquiet', r'', hp, ha, hend⟩ := ih hin'
    exact ⟨hquiet.append hquiet', r'', hp, ha, by simpa using hend⟩
  | @recalled s t d es hdesk hpending halternatives _ ih =>
    obtain ⟨cache, hr⟩ := hin.desk
    cases hdesk.symm.trans hr
    have hfixed : r.alternatives = fixed := hin.fixed_eq.resolve_right halternatives
    -- Nothing is pending, so all that is registered has been described.
    have hdone : done = hs.eraseDups := by
      have := hin.split
      rw [hpending, List.append_nil, hin.keys_eq] at this
      exact this.symm
    have hempty : InOrder fixed done hs (withRegistry s { r with alternatives := [] })
        { r with alternatives := [] } :=
      ⟨⟨cache, withRegistry_desk? hdesk _⟩, hin.keyed.take.2, hin.keys_eq, hin.split, .inr rfl⟩
    obtain ⟨hquiet, r', hp, ha, hend⟩ := ih (hempty.addAll _ (withRegistry_desk? hdesk _))
    refine ⟨⟨⟨hdone, _, es, by rw [hfixed]⟩, ?_⟩, r', hp, ha, by simpa using hend⟩
    exact (Event.quiet_registrations _ _).append (by simpa using hquiet)

/-- Calls keep the order of identities. -/
theorem Trace.order {calls : List Call} {s t : Site} {es : List Event}
    (h : Trace describers document calls s es t) {done hs : List String} {r : Registry}
    (hin : InOrder fixed done hs s r) :
    Event.Quiet fixed done hs es ∧ ∃ r',
      InOrder fixed (done ++ Event.describedKeys es) (hs ++ Event.registeredKeys es) t r' := by
  induction h generalizing done hs r with
  | nil s => exact ⟨trivial, r, by simpa using hin⟩
  | @register s t d m calls es hdesk _ ih =>
    obtain ⟨cache, hr⟩ := hin.desk
    cases hdesk.symm.trans hr
    have hadd : InOrder fixed done (hs ++ [m.hash]) (withRegistry s (r.register m).2) (r.add m) :=
      hin.addAll [m] (withRegistry_desk? hdesk _)
    obtain ⟨hquiet, r', hend⟩ := ih hadd
    exact ⟨hquiet, r', by simpa using hend⟩
  | @registerSchemas s t u fuel calls es fs hdrained _ ih =>
    obtain ⟨hquiet, r', _, _, hin'⟩ := hdrained.order hin
    obtain ⟨hquiet', r'', hend⟩ := ih hin'
    exact ⟨hquiet.append hquiet', r'', by simpa using hend⟩

/-- The trace of calls up to one of them, and that of the calls after it. -/
theorem Trace.split {calls more : List Call} {s t : Site} {es : List Event}
    (h : Trace describers document (calls ++ more) s es t) :
    ∃ before after u, es = before ++ after ∧ Trace describers document calls s before u ∧
      Trace describers document more u after t := by
  induction calls generalizing s es with
  | nil => exact ⟨[], es, s, rfl, .nil s, h⟩
  | cons c calls ih =>
    cases h with
    | register hdesk hrest =>
      obtain ⟨before, after, u, rfl, hbefore, hafter⟩ := ih hrest
      exact ⟨_, after, u, rfl, .register hdesk hbefore, hafter⟩
    | registerSchemas hdrained hrest =>
      obtain ⟨before, after, u, rfl, hbefore, hafter⟩ := ih hrest
      exact ⟨_, after, u, (List.append_assoc _ _ _).symm, .registerSchemas hdrained hbefore, hafter⟩

/-- After a last call for schemas nothing is pending, and all that is registered has been
    described. -/
theorem Trace.order_registerSchemas {calls : List Call} {fuel : Nat} {s t : Site}
    {es : List Event} (h : Trace describers document (calls ++ [.registerSchemas fuel]) s es t)
    {r : Registry} (hin : InOrder fixed [] [] s r) :
    ∃ r' cache, t.desk? = some ⟨r', cache⟩ ∧ r'.pending = [] ∧ r'.alternatives = [] ∧
      Event.describedKeys es = (Event.registeredKeys es).eraseDups := by
  obtain ⟨before, after, u, rfl, hbefore, hafter⟩ := h.split
  obtain ⟨_, r₁, hin₁⟩ := hbefore.order hin
  cases hafter with
  | registerSchemas hdrained hrest =>
    cases hrest
    obtain ⟨_, r₂, hp, ha, hend⟩ := hdrained.order hin₁
    obtain ⟨cache, hdesk⟩ := hend.desk
    refine ⟨r₂, cache, hdesk, hp, ha, ?_⟩
    have := hend.split
    rw [hp, List.append_nil, hend.keys_eq] at this
    simpa using this.symm

/-- Every model is described once, in order. Calls that do not fail, on a new registry with any
    fixed names and with describers that register any models, have a trace; and in every trace of
    them

    * no identity is described twice, and identities are described in the order of their first
      registration;
    * the models with fixed names are registered only when all that is registered before has been
      described;
    * whenever a call for schemas returns, nothing is pending, and all that is registered up to
      there has been described. -/
theorem drain_once (hds : AllRegister describers) (refPrefix : String) (policy? : Option Policy)
    (alternatives : List (String × Model)) {s t : Site} {cache : Cache} {calls : List Call}
    (hs : s.desk? = some ⟨create refPrefix policy? alternatives, cache⟩)
    (hrun : Call.runEach describers document calls s = .ok () t) :
    (∃ es, Trace describers document calls s es t) ∧
    ∀ es, Trace describers document calls s es t →
      ((Event.describedKeys es).Nodup ∧
        Event.describedKeys es <+: (Event.registeredKeys es).eraseDups) ∧
      (∀ before after, es = before ++ .recalled :: after →
        Event.describedKeys before = (Event.registeredKeys before).eraseDups ∧
        ∃ r rest, after = Registry.registrations r (alternatives.map (·.2)) ++ rest) ∧
      ∀ first fuel later, calls = first ++ [.registerSchemas fuel] ++ later →
        ∃ before after u r cache', es = before ++ after ∧
          Trace describers document (first ++ [.registerSchemas fuel]) s before u ∧
          Trace describers document later u after t ∧
          u.desk? = some ⟨r, cache'⟩ ∧ r.pending = [] ∧ r.alternatives = [] ∧
          Event.describedKeys before = (Event.registeredKeys before).eraseDups := by
  have hkeyed := keyed_create refPrefix policy? alternatives
  have hin : InOrder (alternatives.map (·.2)) [] [] s (create refPrefix policy? alternatives) :=
    ⟨⟨cache, hs⟩, hkeyed, rfl, rfl, .inl rfl⟩
  refine ⟨exists_trace hds ⟨_, hs, hkeyed⟩ hrun, fun es htrace => ?_⟩
  obtain ⟨hquiet, r, hend⟩ := htrace.order hin
  -- The identities in the order of registration: those described, then those still pending.
  have hsplit : (Event.registeredKeys es).eraseDups = Event.describedKeys es ++ r.pending := by
    have := hend.keys_eq.symm.trans hend.split
    simpa using this
  refine ⟨⟨?_, ⟨r.pending, hsplit.symm⟩⟩, ?_, ?_⟩
  · have hnodup := hend.keyed.nodup
    rw [hend.split] at hnodup
    simpa using (List.nodup_append.1 hnodup).1
  · rintro before after rfl
    simpa using hquiet.at_recalled
  · rintro first fuel later rfl
    obtain ⟨before, after, u, hes, hbefore, hafter⟩ := htrace.split
    obtain ⟨r', cache', hdesk, hp, ha, hdone⟩ := hbefore.order_registerSchemas hin
    exact ⟨before, after, u, r', cache', hes, hbefore, hafter, hdesk, hp, ha, hdone⟩

/-! ### A cycle of classes -/

/-- A describer for two classes that refer to each other. -/
def cycleDescribers : List Describer :=
  [ModelDescriber.outline { references := [("shop.Shop", ["shop.Shelf", "shop.Shop"]),
    ("shop.Shelf", ["shop.Shop"])] }].map (·.toDescriber {})

/-- An empty document, and a registry in which a third class has a fixed name. -/
def cycleSite : Site where
  draft := { forest := ⟨#[{ kind := .openApi }]⟩ }
  desk? := some ⟨create "#/components/schemas/" none [("Item", .ofClass "shop.Thing" .null)], {}⟩

/-- Both classes of the cycle and the class with a fixed name are described, each once. -/
theorem drain_once_cycle : ∃ t es,
    Call.runEach cycleDescribers 0
      [.register (.ofClass "shop.Shop" .null), .registerSchemas 9] cycleSite = .ok () t ∧
    Trace cycleDescribers 0
      [.register (.ofClass "shop.Shop" .null), .registerSchemas 9] cycleSite es t ∧
    (Event.describedKeys es).Nodup ∧
    Event.describedKeys es = (Event.registeredKeys es).eraseDups := by
  obtain ⟨t, hrun⟩ : ∃ t, Call.runEach cycleDescribers 0
      [.register (.ofClass "shop.Shop" .null), .registerSchemas 9] cycleSite = .ok () t :=
    Results.exists_ok (by decide +kernel)
  obtain ⟨⟨es, htrace⟩, hall⟩ := drain_once (allRegister_toDescriber _ _) _ _ _ rfl hrun
  obtain ⟨⟨hnodup, -⟩, -, hdrained⟩ := hall es htrace
  obtain ⟨before, after, u, r, cache, rfl, -, hafter, -, -, -, hdone⟩ :=
    hdrained [.register (.ofClass "shop.Shop" .null)] 9 [] rfl
  cases hafter
  rw [List.append_nil] at htrace hnodup
  exact ⟨t, before, hrun, htrace, hnodup, hdone⟩

end ApiDoc
