import ApiDoc.Proofs.Registry.Drain
import Mathlib.Data.List.Lattice
import Mathlib.Data.List.Pairwise

namespace ApiDoc

/-!
# Calls that fail

A drain takes all that is pending before it describes any of it. What stands behind a model that
cannot be described is then neither pending nor described.

* `Batch` — identities that are taken at once: all are described or, where describing one fails,
  those behind it are lost;
* `Taken`, `Drains`, `Ledger` — the batches of one round, of one call for schemas and of a run of
  calls, also of calls that fail;
* `exists_ledger` — every run of calls has one;
* `Accounted` — every identity that is registered is in a batch or pending;
* `runAll_accounts` — what becomes of the identities in a run of calls;
* `registerSchemas_loses` — a model that could be described is lost behind one that cannot.
-/

open Registry Describe

/-- Identities that are taken at once to be described. -/
inductive Batch where
  /-- All of them are described. -/
  | whole (described : List String)
  /-- Some are described, describing the next one fails, and those behind it are lost. -/
  | cut (described : List String) (failed : String) (e : Failure) (lost : List String)

namespace Batch

/-- The identities that are described. -/
@[simp] def described : Batch → List String
  | whole described => described
  | cut described _ _ _ => described

/-- The identities that it is attempted to describe. -/
@[simp] def attempted : Batch → List String
  | whole described => described
  | cut described failed _ _ => described ++ [failed]

/-- The identities that are taken, and not attempted. -/
@[simp] def lost : Batch → List String
  | whole _ => []
  | cut _ _ _ lost => lost

/-- The identities in the order in which they are taken. -/
def keys (b : Batch) : List String := b.attempted ++ b.lost

@[simp] theorem keys_whole (described : List String) : (whole described).keys = described :=
  List.append_nil _

@[simp] theorem keys_cut (described : List String) (failed : String) (e : Failure)
    (lost : List String) : (cut described failed e lost).keys = described ++ failed :: lost := by
  simp [keys]

/-- The failure that cuts a batch. -/
@[simp] def failure? : Batch → Option Failure
  | whole _ => none
  | cut _ _ e _ => some e

/-- A batch in which one more identity is described before all others. -/
@[simp] def cons (key : String) : Batch → Batch
  | whole described => whole (key :: described)
  | cut described failed e lost => cut (key :: described) failed e lost

end Batch

/-! ### Batches, drains and calls -/

section Relations

variable (describers : List Describer) (document : NodeId)

/-- A batch that is taken to be described. -/
inductive Taken : List String → Site → Batch → Site → Prop
  | whole {keys : List String} {s t : Site} {es : List Event}
      (hvisits : Visits describers document keys s es t) : Taken keys s (.whole keys) t
  | cut {described lost : List String} {key : String} {s t u : Site} {es : List Event}
      {e : Failure} (hvisits : Visits describers document described s es t)
      (hfailed : describeKey describers document key t = .error e u) :
      Taken (described ++ key :: lost) s (.cut described key e lost) u

/-- A call for schemas of at most so many rounds: its batches and, where it fails, how. -/
inductive Drains : Nat → Site → List Batch → Option Failure → Site → Prop
  | exhausted (s : Site) : Drains 0 s [] (some .outOfFuel) s
  | done {fuel : Nat} {s : Site} {d : Desk} (hdesk : s.desk? = some d)
      (hpending : d.registry.pending = []) (halternatives : d.registry.alternatives = []) :
      Drains (fuel + 1) s [] none s
  | recalled {fuel : Nat} {s t : Site} {d : Desk} {bs : List Batch} {e? : Option Failure}
      (hdesk : s.desk? = some d) (hpending : d.registry.pending = [])
      (halternatives : d.registry.alternatives ≠ [])
      (hrest : Drains fuel (withRegistry s
        (({ d.registry with alternatives := [] } : Registry).addAll d.registry.alternatives))
        bs e? t) :
      Drains (fuel + 1) s bs e? t
  | taken {fuel : Nat} {s t u : Site} {d : Desk} {b : Batch} {bs : List Batch}
      {e? : Option Failure} (hdesk : s.desk? = some d) (hpending : d.registry.pending ≠ [])
      (htaken : Taken describers document d.registry.pending
        (withRegistry s { d.registry with pending := [] }) b t)
      (hwhole : b.failure? = none) (hrest : Drains fuel t bs e? u) :
      Drains (fuel + 1) s (b :: bs) e? u
  | failed {fuel : Nat} {s t : Site} {d : Desk} {b : Batch} {e : Failure}
      (hdesk : s.desk? = some d) (hpending : d.registry.pending ≠ [])
      (htaken : Taken describers document d.registry.pending
        (withRegistry s { d.registry with pending := [] }) b t)
      (hcut : b.failure? = some e) :
      Drains (fuel + 1) s [b] (some e) t

/-- Calls made one after the other, also after one that fails, with all batches. -/
inductive Ledger : List Call → Site → List Batch → Site → Prop
  | nil (s : Site) : Ledger [] s [] s
  | register {s t : Site} {d : Desk} {m : Model} {calls : List Call} {bs : List Batch}
      (hdesk : s.desk? = some d)
      (hrest : Ledger calls (withRegistry s (d.registry.register m).2) bs t) :
      Ledger (.register m :: calls) s bs t
  | registerSchemas {s t u : Site} {fuel : Nat} {calls : List Call} {bs cs : List Batch}
      {e? : Option Failure} (hdrains : Drains describers document fuel s bs e? t)
      (hrest : Ledger calls t cs u) :
      Ledger (.registerSchemas fuel :: calls) s (bs ++ cs) u

end Relations

variable {describers : List Describer} {document : NodeId}

/-! ### What they do to the registry -/

namespace Describe.OnlyRegisters

variable {α β : Type}

/-- What leaves the desk registers nothing. -/
theorem of_desk_eq {act : Describe α} (h : ∀ s, (after act s).desk? = s.desk?) :
    OnlyRegisters act :=
  fun s d hd => ⟨[], d.cache, (h s).trans hd⟩

protected theorem bind {x : Describe α} {f : α → Describe β} (hx : OnlyRegisters x)
    (hf : ∀ a, OnlyRegisters (f a)) : OnlyRegisters (x >>= f) := by
  intro s d hd
  obtain ⟨ms, cache, hafter⟩ := hx s d hd
  cases hs : x s with
  | error e t =>
    rw [after_of_error hs] at hafter
    exact ⟨ms, cache, by rw [after_bind_of_error hs, hafter]⟩
  | ok a t =>
    rw [after_of_ok hs] at hafter
    obtain ⟨ns, cache', hafter'⟩ := hf a t _ hafter
    exact ⟨ms ++ ns, cache', by rw [after_bind_of_ok hs, hafter', addAll_append]⟩

/-- Describing an identity only registers models, also where it fails. -/
theorem describeKey (h : AllRegister describers) (key : String) :
    OnlyRegisters (describeKey describers document key) := by
  refine .bind (.of_desk_eq fun s => ?_) fun d => ?_
  · cases hs : s.desk? with
    | none => rw [after_of_error (desk_of_none hs _), hs]
    | some d => rw [after_of_ok (desk_of_some hs _), hs]
  split
  · refine .bind (.of_desk_eq (after_edit_desk? _)) fun schema => ?_
    split
    · exact .of_desk_eq fun _ => rfl
    · rename_i x hx
      exact h x (List.mem_of_find?_eq_some hx) _ schema
  · exact .of_desk_eq fun _ => rfl

end Describe.OnlyRegisters

/-- Visits only register models. -/
theorem Visits.registers {keys : List String} {s t : Site} {es : List Event}
    (h : Visits describers document keys s es t) {d : Desk} (hdesk : s.desk? = some d) :
    ∃ ms cache, t.desk? = some ⟨d.registry.addAll ms, cache⟩ := by
  induction h generalizing d with
  | nil s => exact ⟨[], d.cache, hdesk⟩
  | @cons key keys s s₁ s₂ t d' m name schema x ms cache es hdesk' _ _ _ _ _ hafter _ ih =>
    cases hdesk.symm.trans hdesk'
    obtain ⟨ns, cache', ht⟩ := ih hafter
    exact ⟨ms ++ ns, cache', by rw [ht, addAll_append]⟩

/-- A batch only registers models, also where describing one of them fails. -/
theorem Taken.registers (hds : AllRegister describers) {keys : List String} {s t : Site}
    {b : Batch} (h : Taken describers document keys s b t) {d : Desk}
    (hdesk : s.desk? = some d) :
    ∃ ms cache, t.desk? = some ⟨d.registry.addAll ms, cache⟩ := by
  cases h with
  | whole hvisits => exact hvisits.registers hdesk
  | @cut described lost key s t u es e hvisits hfailed =>
    obtain ⟨ms, cache, ht⟩ := hvisits.registers hdesk
    obtain ⟨ns, cache', hu⟩ := OnlyRegisters.describeKey hds key _ _ ht
    rw [after_of_error hfailed] at hu
    exact ⟨ms ++ ns, cache', by rw [hu, addAll_append]⟩

theorem Taken.keys_eq {keys : List String} {s t : Site} {b : Batch}
    (h : Taken describers document keys s b t) : b.keys = keys := by
  cases h <;> simp

theorem Taken.cons {key : String} {keys : List String} {s t u : Site} {es : List Event}
    {b : Batch} (hvisit : ∀ keys fs u, Visits describers document keys t fs u →
      Visits describers document (key :: keys) s (es ++ fs) u)
    (h : Taken describers document keys t b u) :
    Taken describers document (key :: keys) s (b.cons key) u := by
  cases h with
  | whole hvisits => exact .whole (hvisit _ _ _ hvisits)
  | cut hvisits hfailed => exact .cut (hvisit _ _ _ hvisits) hfailed

/-! ### Runs have ledgers -/

/-- Registered identities that are described one after the other are taken in a batch, which is
    cut where describing one of them fails. -/
theorem exists_taken (hds : AllRegister describers) (document : NodeId) {keys : List String}
    {s : Site} {d : Desk} (hdesk : s.desk? = some d) (hkeyed : d.registry.Keyed)
    (hkeys : ∀ key ∈ keys, key ∈ d.registry.keys) :
    ∃ b t, Taken describers document keys s b t ∧
      keys.forM (describeKey describers document) s = match b.failure? with
        | none => .ok () t
        | some e => .error e t := by
  induction keys generalizing s d with
  | nil => exact ⟨.whole [], s, .whole (.nil s), rfl⟩
  | cons key keys ih =>
    cases hkey : describeKey describers document key s with
    | error e t =>
      exact ⟨.cut [] key e keys, t, .cut (.nil s) hkey, Results.bind_of_error hkey⟩
    | ok a t =>
      obtain ⟨⟨ms, cache, hafter⟩, es, hvisit⟩ :=
        exists_visit hds hdesk hkeyed (hkeys key List.mem_cons_self) hkey
      obtain ⟨b, u, htaken, hrest⟩ := ih hafter (hkeyed.addAll ms)
        (fun k hk => mem_keys_addAll (hkeys k (List.mem_cons_of_mem _ hk)) ms)
      refine ⟨b.cons key, u, htaken.cons hvisit, (Results.bind_of_ok hkey).trans (hrest.trans ?_)⟩
      cases b <;> rfl

/-- Every call for schemas has its batches, and fails as they tell. -/
theorem exists_drains (hds : AllRegister describers) (document : NodeId) (fuel : Nat) {s : Site}
    (hs : HasKeyed s) :
    ∃ bs e? t, Drains describers document fuel s bs e? t ∧ HasKeyed t ∧
      Describe.registerSchemas describers document fuel s = match e? with
        | none => .ok () t
        | some e => .error e t := by
  induction fuel generalizing s with
  | zero => exact ⟨[], _, s, .exhausted s, hs, rfl⟩
  | succ fuel ih =>
    obtain ⟨d, hdesk, hkeyed⟩ := hs
    -- Nothing pending: the drain is over, unless models with fixed names are left to recall.
    by_cases hpending : d.registry.pending = []
    · by_cases halternatives : d.registry.alternatives = []
      · refine ⟨[], none, s, .done hdesk hpending halternatives, ⟨d, hdesk, hkeyed⟩, ?_⟩
        exact Results.bind_of_ok (round_of_nothing hdesk hpending halternatives)
      · obtain ⟨bs, e?, t, hdrains, ht, hrest⟩ := ih
          ⟨_, withRegistry_desk? hdesk _, hkeyed.take.2.addAll d.registry.alternatives⟩
        refine ⟨bs, e?, t, .recalled hdesk hpending halternatives hdrains, ht, ?_⟩
        exact (Results.bind_of_ok (round_of_alternatives hdesk hpending halternatives)).trans hrest
    -- The pending batch is taken whole, and described up to the first failure.
    · have hdesk' := withRegistry_desk? hdesk { d.registry with pending := [] }
      obtain ⟨b, t, htaken, hforM⟩ :=
        exists_taken hds document hdesk' hkeyed.take.1 hkeyed.pending_mem
      have ht : HasKeyed t := by
        obtain ⟨ms, cache, ht⟩ := htaken.registers hds hdesk'
        exact ⟨_, ht, hkeyed.take.1.addAll ms⟩
      have hround : round describers document s
          = (do d.registry.pending.forM (describeKey describers document); return true)
            (withRegistry s { d.registry with pending := [] }) := round_of_pending hdesk hpending
      -- A failure ends the drain; without one, the drain goes on with what was registered
      -- meanwhile.
      cases hb : b.failure? with
      | some e =>
        rw [hb] at hforM
        refine ⟨[b], some e, t, .failed hdesk hpending htaken hb, ht, ?_⟩
        exact Results.bind_of_error (hround.trans (Results.bind_of_error hforM))
      | none =>
        rw [hb] at hforM
        obtain ⟨bs, e?, u, hdrains, hu, hrest⟩ := ih ht
        refine ⟨b :: bs, e?, u, .taken hdesk hpending htaken hb hdrains, hu, ?_⟩
        exact (Results.bind_of_ok (hround.trans (Results.bind_of_ok hforM))).trans hrest

/-- Every run of calls has a ledger. -/
theorem exists_ledger (hds : AllRegister describers) (document : NodeId) (calls : List Call)
    {s : Site} (hs : HasKeyed s) :
    ∃ bs, Ledger describers document calls s bs (Call.runAll describers document calls s).2 := by
  induction calls generalizing s with
  | nil => exact ⟨[], .nil s⟩
  | cons c calls ih =>
    cases c with
    | register m =>
      obtain ⟨d, hdesk, hkeyed⟩ := hs
      obtain ⟨bs, hledger⟩ := ih ⟨_, withRegistry_desk? hdesk _, hkeyed.add m⟩
      have hrun : (Call.register m).run describers document s
          = .ok [(m, (d.registry.register m).1)] (withRegistry s (d.registry.register m).2) :=
        Results.bind_of_ok (register_of_some hdesk _ m)
      refine ⟨bs, ?_⟩
      rw [Call.runAll, hrun]
      exact .register hdesk hledger
    | registerSchemas fuel =>
      obtain ⟨bs, e?, t, hdrains, ht, hcall⟩ := exists_drains hds document fuel hs
      obtain ⟨cs, hledger⟩ := ih ht
      refine ⟨bs ++ cs, ?_⟩
      cases e? with
      | none =>
        rw [Call.runAll, Call.run, Results.bind_of_ok hcall]
        exact .registerSchemas hdrains hledger
      | some e =>
        rw [Call.runAll, Call.run, Results.bind_of_error hcall]
        exact .registerSchemas hdrains hledger

/-! ### What becomes of the identities -/

/-- The registry at a site after some identities have been taken: what is registered is taken or
    pending, in this order. -/
structure Accounted (taken : List String) (s : Site) (r : Registry) : Prop where
  desk : ∃ cache, s.desk? = some ⟨r, cache⟩
  keyed : r.Keyed
  split : r.keys = taken ++ r.pending

namespace Accounted

variable {taken : List String} {s t : Site} {r : Registry}

theorem addAll {cache : Cache} (h : Accounted taken s r) (ms : List Model)
    (ht : t.desk? = some ⟨r.addAll ms, cache⟩) : Accounted taken t (r.addAll ms) :=
  ⟨⟨cache, ht⟩, h.keyed.addAll ms, keys_addAll_append h.split ms⟩

end Accounted

/-- A batch accounts for all that was pending, whether it is cut or not. -/
theorem Taken.accounted (hds : AllRegister describers) {taken : List String} {s t : Site}
    {r : Registry} {d : Desk} {b : Batch} (hin : Accounted taken s r) (hdesk : s.desk? = some d)
    (h : Taken describers document d.registry.pending
      (withRegistry s { d.registry with pending := [] }) b t) :
    ∃ r', Accounted (taken ++ b.keys) t r' := by
  obtain ⟨cache, hr⟩ := hin.desk
  cases hdesk.symm.trans hr
  -- What is pending counts as taken before any of it is described.
  have htaken : Accounted (taken ++ r.pending) (withRegistry s { r with pending := [] })
      { r with pending := [] } :=
    ⟨⟨cache, withRegistry_desk? hdesk _⟩, hin.keyed.take.1,
      hin.split.trans (List.append_nil _).symm⟩
  obtain ⟨ms, cache', ht⟩ := h.registers hds (withRegistry_desk? hdesk _)
  rw [h.keys_eq]
  exact ⟨_, htaken.addAll ms ht⟩

/-- The batches of a call for schemas account for what is taken, and where the call returns
    nothing is pending. -/
theorem Drains.accounted (hds : AllRegister describers) {fuel : Nat} {taken : List String}
    {s t : Site} {r : Registry} {bs : List Batch} {e? : Option Failure}
    (h : Drains describers document fuel s bs e? t) (hin : Accounted taken s r) :
    ∃ r', Accounted (taken ++ bs.flatMap Batch.keys) t r' ∧
      (e? = none → r'.pending = [] ∧ r'.alternatives = [] ∧ ∀ b ∈ bs, b.failure? = none) := by
  induction h generalizing taken r with
  | exhausted s => exact ⟨r, by simpa using hin, nofun⟩
  | done hdesk hpending halternatives =>
    obtain ⟨cache, hr⟩ := hin.desk
    cases hdesk.symm.trans hr
    exact ⟨r, by simpa using hin, fun _ => ⟨hpending, halternatives, List.forall_mem_nil _⟩⟩
  | @recalled fuel s t d bs e? hdesk hpending halternatives _ ih =>
    obtain ⟨cache, hr⟩ := hin.desk
    cases hdesk.symm.trans hr
    have hempty : Accounted taken (withRegistry s { r with alternatives := [] })
        { r with alternatives := [] } :=
      ⟨⟨cache, withRegistry_desk? hdesk _⟩, hin.keyed.take.2, hin.split⟩
    exact ih (hempty.addAll _ (withRegistry_desk? hdesk _))
  | @taken fuel s t u d b bs e? hdesk _ htaken hwhole _ ih =>
    obtain ⟨r', hin'⟩ := htaken.accounted hds hin hdesk
    obtain ⟨r'', hend, hnone⟩ := ih hin'
    refine ⟨r'', by simpa using hend, fun he => ?_⟩
    obtain ⟨hp, ha, hbs⟩ := hnone he
    exact ⟨hp, ha, List.forall_mem_cons.2 ⟨hwhole, hbs⟩⟩
  | failed hdesk _ htaken _ =>
    obtain ⟨r', hin'⟩ := htaken.accounted hds hin hdesk
    exact ⟨r', by simpa using hin', nofun⟩

/-- The batches of a run of calls account for what is taken. -/
theorem Ledger.accounted (hds : AllRegister describers) {calls : List Call}
    {taken : List String} {s t : Site} {r : Registry} {bs : List Batch}
    (h : Ledger describers document calls s bs t) (hin : Accounted taken s r) :
    ∃ r', Accounted (taken ++ bs.flatMap Batch.keys) t r' := by
  induction h generalizing taken r with
  | nil s => exact ⟨r, by simpa using hin⟩
  | @register s t d m calls bs hdesk _ ih =>
    obtain ⟨cache, hr⟩ := hin.desk
    cases hdesk.symm.trans hr
    exact ih (hin.addAll [m] (withRegistry_desk? hdesk _))
  | registerSchemas hdrains _ ih =>
    obtain ⟨r', hin', -⟩ := hdrains.accounted hds hin
    obtain ⟨r'', hend⟩ := ih hin'
    exact ⟨r'', by simpa using hend⟩

/-- Where no identity is taken twice, none that is lost in one batch is attempted in another. -/
theorem lost_notMem_attempted {bs : List Batch} (h : (bs.flatMap Batch.keys).Nodup)
    {b c : Batch} (hb : b ∈ bs) (hc : c ∈ bs) {key : String} (hlost : key ∈ b.lost) :
    key ∉ c.attempted := by
  obtain ⟨hall, hapart⟩ := List.nodup_flatMap.1 h
  intro hkey
  by_cases hbc : b = c
  · subst hbc
    exact List.disjoint_of_nodup_append (hall b hb) hkey hlost
  · have : Std.Symm (Function.onFun List.Disjoint Batch.keys) := ⟨fun _ _ h => List.Disjoint.symm h⟩
    have hdisjoint : Function.onFun List.Disjoint Batch.keys b c := hapart.forall hb hc hbc
    exact hdisjoint (List.mem_append_right _ hlost) (List.mem_append_left _ hkey)

/-- What becomes of the identities in a run of calls, also of calls that fail. On a new registry,
    with describers that register any models, the run has a ledger of batches in which

    * every identity that is registered stands in just one batch or is pending, in the order of first
      registration;
    * an identity that is lost, because it stood in its batch behind one whose description failed,
      is never attempted;
    * whenever a further call for schemas returns, its batches are whole and nothing is pending:
      every identity has been attempted but for those that were lost before. -/
theorem runAll_accounts (hds : AllRegister describers) (refPrefix : String)
    (policy? : Option Policy) (alternatives : List (String × Model)) {s : Site} {cache : Cache}
    (hs : s.desk? = some ⟨create refPrefix policy? alternatives, cache⟩) (calls : List Call) :
    ∃ bs r cache', Ledger describers document calls s bs
        (Call.runAll describers document calls s).2 ∧
      (Call.runAll describers document calls s).2.desk? = some ⟨r, cache'⟩ ∧
      r.keys.Nodup ∧ r.keys = bs.flatMap Batch.keys ++ r.pending ∧
      (∀ b ∈ bs, ∀ key ∈ b.lost, ∀ c ∈ bs, key ∉ c.attempted) ∧
      ∀ fuel t, Describe.registerSchemas describers document fuel
          (Call.runAll describers document calls s).2 = .ok () t →
        ∃ more r' cache'', Drains describers document fuel
            (Call.runAll describers document calls s).2 more none t ∧
          (∀ b ∈ more, b.failure? = none) ∧ t.desk? = some ⟨r', cache''⟩ ∧ r'.pending = [] ∧
          r'.keys = (bs ++ more).flatMap Batch.keys ∧
          ∀ b ∈ bs, ∀ key ∈ b.lost, ∀ c ∈ bs ++ more, key ∉ c.attempted := by
  -- At the start nothing has been attempted, and every key is pending.
  have hkeyed := keyed_create refPrefix policy? alternatives
  obtain ⟨bs, hledger⟩ := exists_ledger hds document calls ⟨_, hs, hkeyed⟩
  have hstart : Accounted [] s (create refPrefix policy? alternatives) :=
    ⟨⟨cache, hs⟩, hkeyed, rfl⟩
  obtain ⟨r, hin⟩ := hledger.accounted hds hstart
  rw [List.nil_append] at hin
  obtain ⟨cache', hdesk⟩ := hin.desk
  refine ⟨bs, r, cache', hledger, hdesk, hin.keyed.nodup, hin.split, ?_, ?_⟩
  -- A lost key was in a batch, and no two batches share a key.
  · have hnodup := hin.keyed.nodup
    rw [hin.split] at hnodup
    exact fun b hb key hlost c hc =>
      lost_notMem_attempted (List.nodup_append.1 hnodup).1 hb hc hlost
  -- A drain that ends well starts from here: it adds batches, and nothing is pending after it.
  intro fuel t hrun
  obtain ⟨more, e?, t', hdrains, -, hresult⟩ :=
    exists_drains hds document fuel ⟨_, hdesk, hin.keyed⟩
  cases e? with
  | some e => exact nomatch hrun.symm.trans hresult
  | none =>
    cases hrun.symm.trans hresult
    obtain ⟨r', hin', hnone⟩ := hdrains.accounted hds hin
    obtain ⟨hpending, -, hwhole⟩ := hnone rfl
    obtain ⟨cache'', hdesk'⟩ := hin'.desk
    have hkeys : r'.keys = (bs ++ more).flatMap Batch.keys := by
      rw [hin'.split, hpending, List.append_nil, List.flatMap_append]
    have hnodup := hin'.keyed.nodup
    rw [hkeys] at hnodup
    refine ⟨more, r', cache'', hdrains, hwhole, hdesk', hpending, hkeys, ?_⟩
    exact fun b hb key hlost c hc =>
      lost_notMem_attempted hnodup (List.mem_append_left _ hb) hc hlost

/-! ### A model behind one that no describer takes -/

/-- Describers that take one class only. -/
def pickyDescribers : List Describer :=
  [ModelDescriber.outline { classes? := some ["app.B"] }].map (·.toDescriber {})

/-- Two models registered, of which no describer takes the first, and a call for schemas. -/
def pickyCalls : List Call :=
  [.register (.ofClass "app.A" .null), .register (.ofClass "app.B" .null), .registerSchemas 9]

/-- An empty document and a new registry. -/
def pickySite : Site where
  draft := { forest := ⟨#[{ kind := .openApi }]⟩ }
  desk? := some ⟨create "#/components/schemas/" none [], {}⟩

/-- After the two models, both stand in batches or are pending. -/
theorem runAll_accounts_picky : ∃ bs r cache,
    Ledger pickyDescribers 0 pickyCalls pickySite bs
      (Call.runAll pickyDescribers 0 pickyCalls pickySite).2 ∧
    (Call.runAll pickyDescribers 0 pickyCalls pickySite).2.desk? = some ⟨r, cache⟩ ∧
    r.keys = bs.flatMap Batch.keys ++ r.pending := by
  obtain ⟨bs, r, cache, hledger, hdesk, -, hsplit, -⟩ :=
    @runAll_accounts pickyDescribers 0 (allRegister_toDescriber {} _) "#/components/schemas/" none []
      pickySite {} rfl pickyCalls
  exact ⟨bs, r, cache, hledger, hdesk, hsplit⟩

/-- The model behind is lost: a describer takes it, it is registered and not pending, a further
    call for schemas returns, and beside the document and its components there is one schema only,
    that of the other model. -/
theorem registerSchemas_loses : ∃ t r cache,
    Describe.registerSchemas pickyDescribers 0 9
      (Call.runAll pickyDescribers 0 pickyCalls pickySite).2 = .ok () t ∧
    t.desk? = some ⟨r, cache⟩ ∧ (Model.ofClass "app.B" .null).hash ∈ r.keys ∧ r.pending = [] ∧
    (pickyDescribers.any fun x => x.supports (.ofClass "app.B" .null)) = true ∧
    t.draft.forest.size = 3 ∧
    (t.draft.forest.get 2).value "schema" = .str "A" := by
  have h : Results.endsIn (Describe.registerSchemas pickyDescribers 0 9) (fun t =>
      (t.desk?.any fun d => d.registry.has (Model.ofClass "app.B" .null).hash &&
        d.registry.pending == []) &&
      t.draft.forest.size == 3 &&
      ((t.draft.forest.get 2).value "schema").identical (.str "A"))
      (Call.runAll pickyDescribers 0 pickyCalls pickySite).2 = true := by
    decide +kernel
  obtain ⟨t, ht, h⟩ := Results.exists_of_endsIn h
  simp only [Bool.and_eq_true, Option.any_eq_true, beq_iff_eq] at h
  obtain ⟨⟨⟨d, hdesk, hhas, hpending⟩, hsize⟩, hname⟩ := h
  exact ⟨t, d.registry, d.cache, ht, hdesk, (has_iff _ _).1 hhas, hpending, by decide +kernel,
    hsize, Data.identical_str_iff.1 hname⟩

end ApiDoc
