import ApiDoc.Proofs.Registry.Calls
import ApiDoc.Proofs.Registry.Rounds

namespace ApiDoc

/-!
# What happens during calls

Calls that do not fail, told as a list of events.

* `Event`, `Event.describedKeys`, `Event.registeredKeys` — what happens, and the identities that are
  described and registered in it;
* `Visits` — pending models described one after the other, each by the first describer that takes
  it, with what each describer registers;
* `Drained` — rounds until nothing is pending and no fixed name is left;
* `Trace` — calls made one after the other;
* `exists_trace` — calls that do not fail have a trace.
-/

open Registry Describe

/-- What happens during calls. -/
inductive Event where
  /-- A model is registered, and its reference answered. -/
  | registered (m : Model) (reference : String)
  /-- The model of an identity is described into a component schema. -/
  | described (key : String) (schema : NodeId)
  /-- The models with fixed names are about to be registered. -/
  | recalled

namespace Event

/-- The identity that is described. -/
@[simp] def describedKey? : Event → Option String
  | described key _ => some key
  | _ => none

/-- The identity that is registered. -/
@[simp] def registeredKey? : Event → Option String
  | registered m _ => some m.hash
  | _ => none

/-- The identities that are described, in order. -/
def describedKeys (es : List Event) : List String := es.filterMap describedKey?

/-- The identities that are registered, in order and with repetitions. -/
def registeredKeys (es : List Event) : List String := es.filterMap registeredKey?

@[simp] theorem describedKeys_nil : describedKeys [] = [] := rfl

@[simp] theorem describedKeys_cons (e : Event) (es : List Event) :
    describedKeys (e :: es) = e.describedKey?.toList ++ describedKeys es := by
  cases e <;> rfl

@[simp] theorem describedKeys_append (es fs : List Event) :
    describedKeys (es ++ fs) = describedKeys es ++ describedKeys fs := List.filterMap_append

@[simp] theorem registeredKeys_nil : registeredKeys [] = [] := rfl

@[simp] theorem registeredKeys_cons (e : Event) (es : List Event) :
    registeredKeys (e :: es) = e.registeredKey?.toList ++ registeredKeys es := by
  cases e <;> rfl

@[simp] theorem registeredKeys_append (es fs : List Event) :
    registeredKeys (es ++ fs) = registeredKeys es ++ registeredKeys fs := List.filterMap_append

end Event

/-- Models registered one after the other, as events. -/
def Registry.registrations : Registry → List Model → List Event
  | _, [] => []
  | r, m :: ms => .registered m (r.register m).1 :: registrations (r.add m) ms

@[simp] theorem Registry.describedKeys_registrations (r : Registry) (ms : List Model) :
    Event.describedKeys (r.registrations ms) = [] := by
  induction ms generalizing r with
  | nil => rfl
  | cons m ms ih => exact ih (r.add m)

@[simp] theorem Registry.registeredKeys_registrations (r : Registry) (ms : List Model) :
    Event.registeredKeys (r.registrations ms) = ms.map Model.hash := by
  induction ms generalizing r with
  | nil => rfl
  | cons m ms ih => exact congrArg (m.hash :: ·) (ih (r.add m))

/-! ### Traces -/

section Relations

variable (describers : List Describer) (document : NodeId)

/-- Pending identities described one after the other: the component schema of the name is found
    or made, and the first describer that takes the model describes it there. What it registers
    are any models that make the registry what it is afterwards. -/
inductive Visits : List String → Site → List Event → Site → Prop
  | nil (s : Site) : Visits [] s [] s
  | cons {key : String} {keys : List String} {s s₁ s₂ t : Site} {d : Desk} {m : Model}
      {name : String} {schema : NodeId} {x : Describer} {ms : List Model} {cache : Cache}
      {es : List Event}
      (hdesk : s.desk? = some d)
      (hmodel : d.registry.models.lookup key = some m)
      (hname : d.registry.nameOf? key = some name)
      (hschema : edit (Edit.componentSchema document (.str name)) s = .ok schema s₁)
      (hfind : (describers.find? fun x => x.supports m) = some x)
      (hrun : x.describe m schema s₁ = .ok () s₂)
      (hafter : s₂.desk? = some ⟨d.registry.addAll ms, cache⟩)
      (hrest : Visits keys s₂ es t) :
      Visits (key :: keys) s (.described key schema :: (d.registry.registrations ms ++ es)) t

/-- Rounds until there is nothing left to do: what is pending is taken and described or, if there
    is nothing, the models with fixed names are registered. -/
inductive Drained : Site → List Event → Site → Prop
  | done {s : Site} {d : Desk} (hdesk : s.desk? = some d) (hpending : d.registry.pending = [])
      (halternatives : d.registry.alternatives = []) : Drained s [] s
  | pending {s t u : Site} {d : Desk} {es fs : List Event} (hdesk : s.desk? = some d)
      (hpending : d.registry.pending ≠ [])
      (hvisits : Visits describers document d.registry.pending
        (withRegistry s { d.registry with pending := [] }) es t)
      (hrest : Drained t fs u) : Drained s (es ++ fs) u
  | recalled {s t : Site} {d : Desk} {es : List Event} (hdesk : s.desk? = some d)
      (hpending : d.registry.pending = []) (halternatives : d.registry.alternatives ≠ [])
      (hrest : Drained (withRegistry s
        (({ d.registry with alternatives := [] } : Registry).addAll d.registry.alternatives))
        es t) :
      Drained s (.recalled ::
        (({ d.registry with alternatives := [] } : Registry).registrations d.registry.alternatives
          ++ es)) t

/-- Calls made one after the other. -/
inductive Trace : List Call → Site → List Event → Site → Prop
  | nil (s : Site) : Trace [] s [] s
  | register {s t : Site} {d : Desk} {m : Model} {calls : List Call} {es : List Event}
      (hdesk : s.desk? = some d)
      (hrest : Trace calls (withRegistry s (d.registry.register m).2) es t) :
      Trace (.register m :: calls) s (.registered m (d.registry.register m).1 :: es) t
  | registerSchemas {s t u : Site} {fuel : Nat} {calls : List Call} {es fs : List Event}
      (hdrained : Drained describers document s es t) (hrest : Trace calls t fs u) :
      Trace (.registerSchemas fuel :: calls) s (es ++ fs) u

end Relations

/-! ### Calls that do not fail -/

/-- Calls made one after the other, up to the first that fails. -/
def Call.runEach (describers : List Describer) (document : NodeId) (calls : List Call) :
    Describe Unit :=
  calls.forM fun c => do let _ ← c.run describers document

variable {describers : List Describer} {document : NodeId}

/-- A site with a well-kept registry. -/
def Describe.HasKeyed (s : Site) : Prop := ∃ d, s.desk? = some d ∧ d.registry.Keyed

theorem Describe.HasKeyed.keyed {s : Site} {d : Desk} (h : HasKeyed s) (hdesk : s.desk? = some d) :
    d.registry.Keyed := by
  obtain ⟨d', hd', hkeyed⟩ := h
  cases hdesk.symm.trans hd'
  exact hkeyed

/-- A registered identity that is described without a failure is visited, before any others. -/
theorem exists_visit (hds : AllRegister describers) {key : String} {s t : Site} {d : Desk}
    (hdesk : s.desk? = some d) (hkeyed : d.registry.Keyed) (hkey : key ∈ d.registry.keys)
    (hrun : describeKey describers document key s = .ok () t) :
    (∃ ms cache, t.desk? = some ⟨d.registry.addAll ms, cache⟩) ∧
    ∃ es, ∀ keys fs u, Visits describers document keys t fs u →
      Visits describers document (key :: keys) s (es ++ fs) u := by
  obtain ⟨m, hm⟩ := exists_model hkey
  obtain ⟨name, hname⟩ := hkeyed.allNamed key hkey
  -- A well-kept registry has a model and a name for it, so that it is described indeed.
  rw [describeKey, Results.bind_of_ok (desk_of_some hdesk _)] at hrun
  simp only [hm, hname] at hrun
  obtain ⟨schema, s₁, hschema, hdescribe⟩ := Results.bind_eq_ok.1 hrun
  cases hx : describers.find? fun x => x.supports m with
  | none =>
    rw [hx] at hdescribe
    exact nomatch hdescribe
  | some x =>
    rw [hx] at hdescribe
    have hdesk₁ : s₁.desk? = some d := by
      have := after_edit_desk? (Edit.componentSchema document (.str name)) s
      rw [after_of_ok hschema] at this
      exact this.trans hdesk
    obtain ⟨ms, cache, hafter⟩ := hds x (List.mem_of_find?_eq_some hx) m schema s₁ d hdesk₁
    rw [after_of_ok hdescribe] at hafter
    exact ⟨⟨ms, cache, hafter⟩, .described key schema :: d.registry.registrations ms,
      fun keys fs u hvisits => .cons hdesk hm hname hschema hx hdescribe hafter hvisits⟩

/-- Registered identities that are described without a failure are visited. -/
theorem exists_visits (hds : AllRegister describers) {keys : List String} {s t : Site} {d : Desk}
    (hdesk : s.desk? = some d) (hkeyed : d.registry.Keyed)
    (hkeys : ∀ key ∈ keys, key ∈ d.registry.keys)
    (hrun : keys.forM (describeKey describers document) s = .ok () t) :
    ∃ es, Visits describers document keys s es t ∧ HasKeyed t := by
  -- By induction on what is left to visit: registered identities stay registered meanwhile.
  induction keys generalizing s d with
  | nil =>
    cases hrun
    exact ⟨[], .nil _, d, hdesk, hkeyed⟩
  | cons key keys ih =>
    obtain ⟨⟨⟩, s₂, hkey, hrest⟩ := Results.bind_eq_ok.1 hrun
    obtain ⟨⟨ms, cache, hafter⟩, es, hvisit⟩ :=
      exists_visit hds hdesk hkeyed (hkeys key List.mem_cons_self) hkey
    obtain ⟨fs, hvisits, hend⟩ := ih hafter (hkeyed.addAll ms)
      (fun k hk => mem_keys_addAll (hkeys k (List.mem_cons_of_mem _ hk)) ms) hrest
    exact ⟨_, hvisit keys fs t hvisits, hend⟩

/-- Taking out of a registry leaves it well-kept. -/
theorem Registry.Keyed.take {r : Registry} (h : r.Keyed) :
    ({ r with pending := [] } : Registry).Keyed ∧
      ({ r with alternatives := [] } : Registry).Keyed :=
  ⟨⟨h.nodup, h.hash_eq, h.allNamed, fun _ hk => absurd hk List.not_mem_nil⟩,
    ⟨h.nodup, h.hash_eq, h.allNamed, h.pending_mem⟩⟩

/-- A drain that does not fail has a trace. -/
theorem exists_drained (hds : AllRegister describers) {fuel : Nat} {s t : Site}
    (hs : HasKeyed s) (hrun : registerSchemas describers document fuel s = .ok () t) :
    ∃ es, Drained describers document s es t ∧ HasKeyed t := by
  induction fuel generalizing s with
  | zero => exact nomatch hrun
  | succ fuel ih =>
    obtain ⟨d, hdesk, hkeyed⟩ := hs
    obtain ⟨more, u, hround, hrest⟩ := Results.bind_eq_ok.1 hrun
    by_cases hpending : d.registry.pending = []
    · by_cases halternatives : d.registry.alternatives = []
      · rw [round_of_nothing hdesk hpending halternatives] at hround
        cases hround
        cases hrest
        exact ⟨[], .done hdesk hpending halternatives, d, hdesk, hkeyed⟩
      · rw [round_of_alternatives hdesk hpending halternatives] at hround
        cases hround
        obtain ⟨es, hdrained, ht⟩ := ih
          ⟨_, withRegistry_desk? hdesk _, hkeyed.take.2.addAll d.registry.alternatives⟩ hrest
        exact ⟨_, .recalled hdesk hpending halternatives hdrained, ht⟩
    · rw [round_of_pending hdesk hpending] at hround
      obtain ⟨⟨⟩, v, hvisits, hpure⟩ := Results.bind_eq_ok.1 hround
      cases hpure
      obtain ⟨es, hvisits, hu⟩ := exists_visits hds
        (withRegistry_desk? hdesk { d.registry with pending := [] }) hkeyed.take.1
        hkeyed.pending_mem hvisits
      obtain ⟨fs, hdrained, ht⟩ := ih hu hrest
      exact ⟨_, .pending hdesk hpending hvisits hdrained, ht⟩

/-- Calls that do not fail have a trace. -/
theorem exists_trace (hds : AllRegister describers) {calls : List Call} {s t : Site}
    (hs : HasKeyed s) (hrun : Call.runEach describers document calls s = .ok () t) :
    ∃ es, Trace describers document calls s es t := by
  induction calls generalizing s with
  | nil =>
    cases hrun
    exact ⟨[], .nil _⟩
  | cons c calls ih =>
    obtain ⟨⟨⟩, u, hcall, hrest⟩ := Results.bind_eq_ok.1 hrun
    obtain ⟨answers, v, hcall, hpure⟩ := Results.bind_eq_ok.1 hcall
    cases hpure
    cases c with
    | register m =>
      obtain ⟨d, hdesk, hkeyed⟩ := hs
      rw [Call.run, Results.bind_of_ok (register_of_some hdesk _ m)] at hcall
      cases hcall
      obtain ⟨es, htrace⟩ := ih ⟨_, withRegistry_desk? hdesk _, hkeyed.add m⟩ hrest
      exact ⟨_, .register hdesk htrace⟩
    | registerSchemas fuel =>
      obtain ⟨⟨⟩, w, hdrain, hpure⟩ := Results.bind_eq_ok.1 hcall
      cases hpure
      obtain ⟨es, hdrained, hu⟩ := exists_drained hds hs hdrain
      obtain ⟨fs, htrace⟩ := ih hu hrest
      exact ⟨_, .registerSchemas hdrained htrace⟩

end ApiDoc
