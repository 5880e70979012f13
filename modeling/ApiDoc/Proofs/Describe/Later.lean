import ApiDoc.Proofs.Describe.Lockstep
import ApiDoc.Proofs.Describe.Yields
import ApiDoc.Proofs.Tree.Marks

namespace ApiDoc

/-!
# Lookups repeated at later sites

What describing finds out it finds out again later, when more models are registered, more is
remembered and more classes are met:

* `Desk.Later`, `Site.Later` — desks and sites at which more has been described;
* `Describe.Advances` — computations that lead to later sites;
* `Describe.Settles`, `Describe.Finds` — computations that leave all of a site but the draft, and
  those of them that only look;
* `Describe.Repeats` — lookups that at every later site find what they found, marks aside;
* `Repeats.bind`, `Repeats.register`, `Repeats.resolveEntries`, … — such lookups.
-/

/-! ### Later sites -/

namespace Registry

/-- The name of an identity that has been registered. -/
theorem nameOf?_addAll {r : Registry} {key : String} (h : key ∈ r.keys) (ms : List Model) :
    (r.addAll ms).nameOf? key = r.nameOf? key := by
  induction ms generalizing r with
  | nil => rfl
  | cons m ms ih =>
    rw [addAll_cons, ih (mem_keys_add h m)]
    by_cases hm : m.hash ∈ r.keys
    · rw [add_of_mem hm]
    · have hne : key ≠ m.hash := fun he => hm (he ▸ h)
      rw [nameOf?_add, if_neg fun hk => hne hk.1]

/-- Adding models does not change how references start. -/
theorem addAll_refPrefix (r : Registry) (ms : List Model) :
    (r.addAll ms).refPrefix = r.refPrefix := by
  induction ms generalizing r with
  | nil => rfl
  | cons m ms ih => rw [addAll_cons, ih, add_refPrefix]

/-- Adding models does not change the policy. -/
theorem addAll_policy? (r : Registry) (ms : List Model) :
    (r.addAll ms).policy? = r.policy? := by
  induction ms generalizing r with
  | nil => rfl
  | cons m ms ih => rw [addAll_cons, ih, add_policy?]

/-- A model registered once more. -/
theorem register_again (r : Registry) (m : Model) (ms : List Model) :
    ((r.register m).2.addAll ms).register m
      = ((r.register m).1, (r.register m).2.addAll ms) := by
  have hmem := mem_keys_add_self r m
  have hagain : ((r.add m).addAll ms).add m = (r.add m).addAll ms :=
    add_of_mem (mem_keys_addAll hmem ms)
  show (Registry.reference (Registry.add _ m) m.hash, Registry.add _ m) = _
  rw [show (r.register m).2 = r.add m from rfl, hagain, reference, addAll_refPrefix,
    nameOf?_addAll hmem]
  rfl

end Registry

/-- A desk at which more has been described. What is remembered around one model, if any, is the
    same. -/
structure Desk.Later (key? : Option String) (d d' : Desk) : Prop where
  registry : ∃ ms, d'.registry = d.registry.addAll ms
  usage : ∀ name known, d.cache.groupUsage.lookup name = some known →
    d'.cache.groupUsage.lookup name = some known
  previous : ∀ key, key? = some key → d'.cache.previous key = d.cache.previous key

/-- A site at which more has been described. -/
structure Site.Later (key? : Option String) (s s' : Site) : Prop where
  desk : ∀ d, s.desk? = some d → ∃ d', s'.desk? = some d' ∧ d.Later key? d'
  met : s.met ⊆ s'.met

namespace Desk.Later

variable {key? : Option String} {d d₁ d₂ : Desk}

/-- A desk is as late as itself. -/
theorem refl (key? : Option String) (d : Desk) : d.Later key? d :=
  ⟨⟨[], rfl⟩, fun _ _ => id, fun _ _ => rfl⟩

/-- What is later than a later desk is later. -/
theorem trans (h : d.Later key? d₁) (h' : d₁.Later key? d₂) : d.Later key? d₂ := by
  obtain ⟨ms, hms⟩ := h.registry
  obtain ⟨ns, hns⟩ := h'.registry
  refine ⟨⟨ms ++ ns, ?_⟩, fun name known hknown => h'.usage name known (h.usage name known hknown),
    fun key hkey => (h'.previous key hkey).trans (h.previous key hkey)⟩
  rw [hns, hms, Registry.addAll_append]

end Desk.Later

namespace Site.Later

variable {key? : Option String} {s s₁ s₂ : Site}

/-- A site is as late as itself. -/
theorem refl (key? : Option String) (s : Site) : s.Later key? s :=
  ⟨fun d hd => ⟨d, hd, .refl key? d⟩, fun _ => id⟩

/-- What is later than a later site is later. -/
theorem trans (h : s.Later key? s₁) (h' : s₁.Later key? s₂) : s.Later key? s₂ := by
  refine ⟨fun d hd => ?_, fun _ hname => h'.met (h.met hname)⟩
  obtain ⟨d₁, hd₁, hlater⟩ := h.desk d hd
  obtain ⟨d₂, hd₂, hlater'⟩ := h'.desk d₁ hd₁
  exact ⟨d₂, hd₂, hlater.trans hlater'⟩

/-- Only the desk and the classes met count. -/
theorem of_eq (hdesk : s₁.desk? = s.desk?) (hmet : s₁.met = s.met) : s.Later key? s₁ :=
  ⟨fun d hd => ⟨d, hdesk.trans hd, .refl key? d⟩, fun _ h => hmet ▸ h⟩

end Site.Later

/-- Classes met on the way make no difference if those met in the end make none. -/
theorem ClassTable.Agree.between {t : ClassTable} {met met₁ met₂ : List String}
    (h : t.Agree met met₂) (hmet : met ⊆ met₁) (hmet' : met₁ ⊆ met₂) : t.Agree met₁ met₂ :=
  fun name => (h name).imp_right fun hiff =>
    ⟨fun hname => hmet' hname, fun hname => hmet (hiff.2 hname)⟩

namespace Describe

variable {α β : Type} {w : World} {key? : Option String} {s s' L : Site} {d : Draft}

/-! ### Later through computations -/

/-- A computation that leads to later sites where it succeeds. -/
def Advances (key? : Option String) (act : Describe α) : Prop :=
  ∀ s, Yields act s fun _ s' => s.Later key? s'

namespace Advances

/-- A computation that touches neither the desk nor the classes met. -/
theorem of_eq {act : Describe α} (h : ∀ s a s', act s = .ok a s' →
    s'.desk? = s.desk? ∧ s'.met = s.met) : Advances key? act :=
  fun s a s' hact => .of_eq (h s a s' hact).1 (h s a s' hact).2

/-- An answer. -/
protected theorem pure (a : α) : Advances key? (pure a : Describe α) :=
  of_eq fun _ _ _ h => by cases h; exact ⟨rfl, rfl⟩

/-- A failure. -/
protected theorem throw (e : Failure) : Advances key? (throw e : Describe α) :=
  of_eq fun _ _ _ h => nomatch h

/-- Two computations, one after the other. -/
theorem bind {x : Describe α} {f : α → Describe β} (hx : Advances key? x)
    (hf : ∀ a, Advances key? (f a)) : Advances key? (x >>= f) :=
  fun s => .bind (hx s) fun a s' h => (hf a s').mono fun _ _ h' => h.trans h'

/-- A choice between two computations. -/
theorem ite {c : Prop} [Decidable c] {x y : Describe α} (hx : c → Advances key? x)
    (hy : ¬c → Advances key? y) : Advances key? (if c then x else y) := by
  split
  · exact hx ‹_›
  · exact hy ‹_›

/-- A loop over a list. -/
theorem forM {f : α → Describe Unit} {xs : List α} (h : ∀ x ∈ xs, Advances key? (f x)) :
    Advances key? (xs.forM f) := by
  induction xs with
  | nil => exact .pure _
  | cons x xs ih =>
    obtain ⟨hx, hxs⟩ := List.forall_mem_cons.1 h
    exact .bind hx fun _ => ih hxs

/-- An edit of the draft leaves the desk as it is. -/
theorem edit (act : Edit α) : Advances key? (Describe.edit act) := by
  refine of_eq fun s a s' h => ?_
  obtain ⟨d, -, rfl⟩ := edit_eq_ok h
  exact ⟨rfl, rfl⟩

/-- A result that does not look at the site. -/
theorem ofExcept (x : Except Failure α) : Advances key? (Describe.ofExcept x) := by
  refine of_eq fun s a s' h => ?_
  obtain ⟨-, rfl⟩ := ofExcept_eq_ok h
  exact ⟨rfl, rfl⟩

/-- Writing a field leaves the desk as it is. -/
theorem setField (i : NodeId) (name : String) (v : Data) : Advances key? (setField i name v) :=
  .edit _

/-- Looking at a field leaves the desk as it is. -/
theorem isSet (i : NodeId) (name : String) : Advances key? (isSet i name) :=
  .bind (.edit _) fun _ => .pure _

/-- Looking for a type leaves the desk as it is. -/
theorem isDecided (i : NodeId) : Advances key? (isDecided i) :=
  .bind (.isSet i _) fun _ => .ite (fun _ => .pure _) fun _ => .isSet i _

/-- Groups remembered around another model. -/
theorem remember {key : String} (hkey : key? ≠ some key) (missing : Failure) (groups : Data) :
    Advances key? (do setCache ((← desk missing).cache.remember key groups)) := by
  intro s a s' h
  obtain ⟨d, s₁, hd, h⟩ := Results.bind_eq_ok.1 h
  cases hdesk : s.desk? with
  | none =>
    rw [desk_of_none hdesk] at hd
    cases hd
  | some e =>
    rw [desk_of_some hdesk] at hd
    cases hd
    cases h
    refine ⟨fun d hd => ?_, fun _ => id⟩
    obtain rfl := Option.some.inj (hdesk.symm.trans hd)
    refine ⟨⟨d.registry, d.cache.remember key groups⟩, ?_, ⟨[], rfl⟩, fun _ _ => id,
      fun other hother => ?_⟩
    · show s.desk?.map _ = _
      rw [hdesk]
      rfl
    · show (Entries.text? (Entries.insert _ _ _) _).getD _ = _
      rw [Entries.text?_insert, if_neg fun he => hkey (hother.trans (congrArg some he))]
      rfl

end Advances

/-! ### Settled sites -/

/-- A computation that succeeds at a site with some draft, leaves all but the draft, and what holds
    of its answer and of the draft that it leaves. -/
def Settles (L : Site) (act : Describe α) (d : Draft) (Q : α → Draft → Prop) : Prop :=
  ∃ a d', act { L with draft := d } = .ok a { L with draft := d' } ∧ Q a d'

namespace Settles

variable {Q : α → Draft → Prop} {Q' : β → Draft → Prop}

/-- An answer that fits the draft settles. -/
protected theorem pure {a : α} (h : Q a d) : Settles L (pure a) d Q := ⟨a, d, rfl, h⟩

/-- What settles, followed by what settles on each of its answers. -/
theorem bind {x : Describe α} {f : α → Describe β} (hx : Settles L x d Q)
    (hf : ∀ a d', Q a d' → Settles L (f a) d' Q') : Settles L (x >>= f) d Q' := by
  obtain ⟨a, d₁, ha, hQ⟩ := hx
  obtain ⟨b, d₂, hb, hQ'⟩ := hf a d₁ hQ
  exact ⟨b, d₂, (Results.bind_of_ok ha).trans hb, hQ'⟩

/-- Less may be said of the answer. -/
theorem mono {P : α → Draft → Prop} {act : Describe α} (h : Settles L act d P)
    (hPQ : ∀ a d', P a d' → Q a d') : Settles L act d Q := by
  obtain ⟨a, d', ha, hP⟩ := h
  exact ⟨a, d', ha, hPQ a d' hP⟩

/-- A result that is known settles on its answer. -/
theorem ofExcept {x : Except Failure α} {a : α} (hx : x = .ok a) (h : Q a d) :
    Settles L (Describe.ofExcept x) d Q := by
  rw [hx]
  exact .pure h

/-- An edit of the draft. -/
theorem edit {act : Edit α} {a : α} {d' : Draft} (hact : act d = .ok a d') (h : Q a d') :
    Settles L (Describe.edit act) d Q := by
  refine ⟨a, d', ?_, h⟩
  unfold Describe.edit
  rw [hact]

end Settles

/-- A computation that only looks, and what its answer has to do with another. -/
def Finds (R : α → α → Prop) (L : Site) (act : Describe α) (a : α) : Prop :=
  ∀ d, Settles L act d fun a' d' => R a a' ∧ d'.forest = d.forest

namespace Finds

variable {R : α → α → Prop} {R' : β → β → Prop}

/-- An answer finds what it stands in the relation to. -/
protected theorem pure {a a' : α} (h : R a a') : Finds R L (pure a') a := fun _ => .pure ⟨h, rfl⟩

/-- A lookup, followed by one that finds the same on every related answer. -/
theorem bind {x : Describe α} {f : α → Describe β} {a : α} {b : β} (hx : Finds R L x a)
    (hf : ∀ a', R a a' → Finds R' L (f a') b) : Finds R' L (x >>= f) b := by
  refine fun d => (hx d).bind fun a' d₁ ⟨ha, hd₁⟩ => (hf a' ha d₁).mono fun b' d₂ ⟨hb, hd₂⟩ => ?_
  exact ⟨hb, hd₂.trans hd₁⟩

/-- What leaves the site. -/
theorem still {act : Describe α} {a : α} (a' : α) (h : ∀ d, act { L with draft := d }
    = .ok a' { L with draft := d }) (ha : R a a') : Finds R L act a :=
  fun d => ⟨a', d, h d, ha, rfl⟩

end Finds

/-! ### Lookups repeated -/

/-- Lookups of two runs: what the first has found the second finds at every later site, if classes
    met in between make no difference. -/
def Repeats (t : ClassTable) (key? : Option String) (R : α → α → Prop) (x y : Describe α) : Prop :=
  ∀ s a s', x s = .ok a s' → s.Later key? s' ∧
    ∀ L, s'.Later key? L → t.Agree s.met L.met → Finds R L y a

namespace Repeats

variable {t : ClassTable} {R : α → α → Prop} {R' : β → β → Prop} {x y : Describe α}

/-- A lookup that can be repeated leaves a later site. -/
theorem advances (h : Repeats t key? R x y) : Advances key? x := fun s a s' hx => (h s a s' hx).1

/-- Answers that stand in the relation. -/
protected theorem pure {a a' : α} (h : R a a') : Repeats t key? R (pure a) (pure a') := by
  rintro s b s' ⟨⟩
  exact ⟨.refl key? s, fun _ _ _ => .pure h⟩

/-- A failure has nothing to repeat. -/
protected theorem throw (e : Failure) (y : Describe α) :
    Repeats t key? R (throw e : Describe α) y := fun _ _ _ h => nomatch h

/-- Lookups repeated one after the other. The relation of the first answers holds of each answer and
    itself. -/
theorem bind {f g : α → Describe β} (hx : Repeats t key? R x y) (hR : ∀ a, R a a)
    (hf : ∀ a a', R a a' → Repeats t key? R' (f a) (g a')) :
    Repeats t key? R' (x >>= f) (y >>= g) := by
  intro s b s₂ h
  obtain ⟨a, s₁, ha, hb⟩ := Results.bind_eq_ok.1 h
  obtain ⟨hlater, hfinds⟩ := hx s a s₁ ha
  have hlater' := (hf a a (hR a) s₁ b s₂ hb).1
  refine ⟨hlater.trans hlater', fun L hL hagree => ?_⟩
  refine (hfinds L (hlater'.trans hL) hagree).bind fun a' ha' => ?_
  exact (hf a a' ha' s₁ b s₂ hb).2 L hL (hagree.between hlater.met (hlater'.trans hL).met)

/-- A choice whose condition is the same both times. -/
theorem ite {c : Prop} [Decidable c] {x' y' : Describe α} (hx : Repeats t key? R x y)
    (hx' : Repeats t key? R x' y') :
    Repeats t key? R (if c then x else x') (if c then y else y') := by
  split
  · exact hx
  · exact hx'

/-- What is told by the classes met. -/
theorem ofMet (hx : ∀ s : Site, ∃ r, ∀ L : Site, t.Agree s.met L.met →
    x L = Describe.ofExcept r L) : Repeats t key? (· = ·) x x := by
  intro s a s' h
  obtain ⟨r, hr⟩ := hx s
  rw [hr s (.refl t s.met)] at h
  obtain ⟨rfl, rfl⟩ := ofExcept_eq_ok h
  refine ⟨.refl key? _, fun L _ hagree => .still a (fun d => ?_) rfl⟩
  rw [hr { L with draft := d } hagree]
  rfl

/-- A result that does not look at the site is the same again. -/
theorem ofExcept (r : Except Failure α) :
    Repeats t key? (· = ·) (Describe.ofExcept r) (Describe.ofExcept r) :=
  ofMet fun _ => ⟨r, fun _ _ => rfl⟩

/-- A fresh mark may be another one the second time. -/
theorem fresh : Repeats t key? (fun _ _ => True) (Describe.edit Edit.fresh)
    (Describe.edit Edit.fresh) := by
  intro s a s' h
  refine ⟨Advances.edit _ s a s' h, fun L _ _ d => ⟨_, _, rfl, trivial, rfl⟩⟩

/-! ### The desk -/

/-- The second time the desk is a later one. -/
theorem desk (missing : Failure) : Repeats t key? (fun d d' => d.Later key? d')
    (Describe.desk missing) (Describe.desk missing) := by
  intro s d s' h
  cases hd : s.desk? with
  | none =>
    rw [desk_of_none hd] at h
    cases h
  | some e =>
    rw [desk_of_some hd] at h
    cases h
    refine ⟨.refl key? _, fun L hL _ => ?_⟩
    obtain ⟨d', hd', hlater⟩ := hL.desk _ hd
    exact .still _ (fun d => desk_of_some (s := { L with draft := d }) hd' missing) hlater

/-- Names met again add nothing. -/
theorem meet (names : List String) : Repeats t key? (· = ·) (Describe.meet names)
    (Describe.meet names) := by
  rintro s ⟨⟩ s' h
  cases h
  refine ⟨⟨fun d hd => ⟨d, hd, .refl key? d⟩, fun _ => List.mem_append_left _⟩, fun L hL _ => ?_⟩
  refine .still () (fun d => ?_) rfl
  -- All names are met already.
  have hnone : names.filter (fun n => !L.met.contains n) = [] := by
    refine List.filter_eq_nil_iff.2 fun n hn => ?_
    simpa using hL.met (ClassTable.mem_meet.2 (.inr hn))
  show EStateM.Result.ok () { L with draft := d, met := L.met ++ names.filter _ } = _
  rw [hnone, List.append_nil]

/-- The model of a target is the same again. -/
theorem modelOf (target : Target) (groups : Data) :
    Repeats t key? (· = ·) (Describe.modelOf target groups) (Describe.modelOf target groups) := by
  cases target with
  | named name => exact .pure rfl
  | itself name => exact .bind (.meet [name]) (fun _ => rfl) fun _ _ _ => .pure rfl

/-- A model registered, and found registered. -/
theorem register (missing : Failure) (m : Model) :
    Repeats t key? (· = ·) (Describe.register missing m) (Describe.register missing m) := by
  intro s a s' h
  cases hd : s.desk? with
  | none =>
    rw [Describe.register, Results.bind_of_error (desk_of_none hd missing)] at h
    cases h
  | some e =>
    rw [register_of_some hd] at h
    cases h
    have hdesk := withRegistry_desk? hd (e.registry.register m).2
    refine ⟨⟨fun d' hd' => ?_, fun _ => id⟩, fun L hL _ => ?_⟩
    -- The registry only grows by the model.
    · obtain rfl := Option.some.inj (hd.symm.trans hd')
      exact ⟨_, hdesk, ⟨[m], rfl⟩, fun _ _ => id, fun _ _ => rfl⟩
    -- However far the registry has grown since, the model is in it and keeps its reference.
    · obtain ⟨d', hd', hlater⟩ := hL.desk _ hdesk
      obtain ⟨ms, hms⟩ := hlater.registry
      have hagain : d'.registry.register m = ((e.registry.register m).1, d'.registry) := by
        rw [hms]
        exact Registry.register_again e.registry m ms
      refine .still (e.registry.register m).1 (fun d => ?_) rfl
      rw [register_of_some (s := { L with draft := d }) hd', hagain]
      show EStateM.Result.ok _ (withRegistry { L with draft := d } d'.registry) = _
      -- Registering it again changes nothing.
      have hsame : L.desk?.map (fun e => { e with registry := d'.registry }) = L.desk? := by
        rw [hd']
        rfl
      rw [withRegistry]
      dsimp only
      rw [hsame]

/-- The reference to a model is the same again. -/
theorem reference (r : Reader) (target : Target) (own groups : Data) :
    Repeats t key? (· = ·) (r.reference target own groups) (r.reference target own groups) := by
  have hregister : ∀ g, Repeats t key? (· = ·)
      (do Describe.register .noRegistry (← Describe.modelOf target g))
      (do Describe.register .noRegistry (← Describe.modelOf target g)) := fun g =>
    .bind (.modelOf target g) (fun _ => rfl) fun m m' hm => hm ▸ .register _ m
  unfold Reader.reference
  cases r.hasRegistry with
  | false => exact .bind (.throw _ _) (fun _ => rfl) fun _ _ _ => hregister _
  | true => exact hregister _

/-! ### Overrides -/

mutual

/-- The value of an override is resolved to the same again, apart from marks. -/
theorem resolveValue (r : Reader) (groups : Data) (under? : Option Data) (v : Data) :
    Repeats t key? (fun v v' => v'.unmarked = v.unmarked) (r.resolve groups under? v)
      (r.resolve groups under? v) := by
  match v with
  | .modelRef target own =>
    unfold Reader.resolve
    refine .bind (.reference r target own groups) (fun _ => rfl) fun ref ref' href => ?_
    subst href
    refine .ite (.pure rfl) (.bind .fresh (fun _ => trivial) fun _ _ _ => .pure ?_)
    rw [Data.unmarked_map, Data.unmarked_map]
  | .map es _ =>
    unfold Reader.resolve
    refine .bind .fresh (fun _ => trivial) fun _ _ _ => ?_
    refine .bind (.resolveEntries r groups es) (fun _ => rfl) fun fs fs' hfs => .pure ?_
    rw [Data.unmarked_map, Data.unmarked_map, hfs]
  | .list xs mark =>
    unfold Reader.resolve
    refine .ite (.pure rfl) (.bind .fresh (fun _ => trivial) fun _ _ _ => ?_)
    refine .bind (.resolveItems r groups xs) (fun _ => rfl) fun ys ys' hys => .pure ?_
    rw [Data.unmarked_list, Data.unmarked_list, hys]
  | .scalar _ | .tuple _ _ | .set _ _ | .unset | .node _ | .bare _ => exact .pure rfl

/-- The overrides of a node with references in place of model references. -/
theorem resolveEntries (r : Reader) (groups : Data) (es : List (Data × Data)) :
    Repeats t key? (fun fs fs' : Entries => fs'.unmarked = fs.unmarked) (r.resolveEntries groups es)
      (r.resolveEntries groups es) := by
  match es with
  | [] => exact .pure rfl
  | (k, v) :: rest =>
    unfold Reader.resolveEntries
    refine .bind (.resolveValue r groups (some k) v) (fun _ => rfl) fun u u' hu => ?_
    refine .bind (.resolveEntries r groups rest) (fun _ => rfl) fun fs fs' hfs => .pure ?_
    rw [Entries.unmarked_cons, Entries.unmarked_cons, hu, hfs]

/-- The same for the items of a list. -/
theorem resolveItems (r : Reader) (groups : Data) (xs : List Data) :
    Repeats t key? (fun ys ys' => ys'.map Data.unmarked = ys.map Data.unmarked)
      (r.resolveItems groups xs) (r.resolveItems groups xs) := by
  match xs with
  | [] => exact .pure rfl
  | v :: rest =>
    unfold Reader.resolveItems
    refine .bind (.resolveValue r groups none v) (fun _ => rfl) fun u u' hu => ?_
    refine .bind (.resolveItems r groups rest) (fun _ => rfl) fun ys ys' hys => .pure ?_
    rw [List.map_cons, List.map_cons, hu, hys]

end

/-! ### Classes -/

/-- A name that has been resolved is resolved to the same class again. -/
theorem resolve (name : String) : Repeats w.classes key? (· = ·) (Describe.resolve w name)
    (Describe.resolve w name) :=
  ofMet fun _ => ⟨_, fun _ hL => congrArg (Describe.ofExcept · _) (hL.resolve_eq name).symm⟩

/-- The same for names whose failures count as no class. -/
theorem resolve? (name : String) : Repeats w.classes key? (· = ·)
    (MetadataDescriber.resolve? w name) (MetadataDescriber.resolve? w name) := by
  refine ofMet fun s => ?_
  unfold MetadataDescriber.resolve?
  cases h : w.classes.resolve s.met name with
  | ok c => exact ⟨.ok c, fun L hL => by rw [← hL.resolve_eq, h]; rfl⟩
  | error e =>
    cases e with
    | emptyModule => exact ⟨.ok none, fun L hL => by rw [← hL.resolve_eq, h]; rfl⟩
    | _ => exact ⟨.error _, fun L hL => by rw [← hL.resolve_eq, h]; rfl⟩

/-- A type is one of moments again. -/
theorem isMoment (name : String) : Repeats w.classes key? (· = ·)
    (MetadataDescriber.isMoment w name) (MetadataDescriber.isMoment w name) := by
  refine .ite (.pure rfl) (.bind (.resolve? name) (fun _ => rfl) fun c c' hc => ?_)
  subst hc
  cases c <;> exact .pure rfl

/-- A type is a class again. -/
theorem isClass (d : MetadataDescriber) (name : String) : Repeats w.classes key? (· = ·)
    (MetadataDescriber.isClass w d name) (MetadataDescriber.isClass w d name) := by
  refine .bind (.resolve? name) (fun _ => rfl) fun c c' hc => ?_
  subst hc
  exact .ite (.pure rfl) (.pure rfl)

/-- The property behind metadata is the same one again. -/
theorem reflection? (p : PropertyMetadata) : Repeats w.classes key? (· = ·)
    (MetadataDescriber.reflection? w p) (MetadataDescriber.reflection? w p) := by
  refine ofMet fun s => ?_
  unfold MetadataDescriber.reflection?
  cases p.reflection? with
  | some r => exact ⟨.ok (some r), fun _ _ => rfl⟩
  | none =>
    cases h : Reflection.ofName w.classes s.met p.className p.name with
    | ok r => exact ⟨.ok (some r), fun L hL => by rw [← Lockstep.ofName_eq hL, h]; rfl⟩
    | error e =>
      cases e with
      | noClass _ => exact ⟨.ok none, fun L hL => by rw [← Lockstep.ofName_eq hL, h]; rfl⟩
      | noProperty _ _ => exact ⟨.ok none, fun L hL => by rw [← Lockstep.ofName_eq hL, h]; rfl⟩
      | _ => exact ⟨.error _, fun L hL => by rw [← Lockstep.ofName_eq hL, h]; rfl⟩

/-- The one type of a property is the same again. -/
theorem onlyType (owner className property : String) : Repeats t key? (· = ·)
    (ObjectDescriber.onlyType w owner className property)
    (ObjectDescriber.onlyType w owner className property) := by
  refine .bind (.meet _) (fun _ => rfl) fun _ _ _ => ?_
  cases w.classes.types owner property with
  | nil => exact .throw _ _
  | cons T rest =>
    cases rest with
    | nil => exact .pure rfl
    | cons _ _ => exact .throw _ _

/-! ### Groups -/

/-- Whether a class declares groups, looked up once. -/
theorem typeUsesGroups? (d : MetadataDescriber) (T : TypeExpr) : Repeats t key? (· = ·)
    (d.typeUsesGroups? T) (d.typeUsesGroups? T) := by
  intro s a s' h
  obtain ⟨e, s₁, he, h⟩ := Results.bind_eq_ok.1 h
  cases hdesk : s.desk? with
  | none =>
    rw [desk_of_none hdesk] at he
    cases he
  | some e' =>
    rw [desk_of_some hdesk] at he
    cases he
    -- At later sites the answer is known.
    have hknown : ∀ {L : Site} {e' : Desk} {answer : Option Bool}, L.desk? = some e' →
        e'.cache.groupUsage.lookup T.name = some answer →
        Finds (· = ·) L (d.typeUsesGroups? T) answer := by
      intro L e' answer he' hlookup
      refine .still answer (fun d₁ => ?_) rfl
      unfold MetadataDescriber.typeUsesGroups?
      rw [Results.bind_of_ok (desk_of_some (s := { L with draft := d₁ }) he' _)]
      dsimp only
      rw [hlookup]
      rfl
    cases hlookup : e.cache.groupUsage.lookup T.name with
    | some known =>
      rw [hlookup] at h
      cases h
      refine ⟨.refl key? _, fun L hL _ => ?_⟩
      obtain ⟨e', he', hlater⟩ := hL.desk _ hdesk
      exact hknown he' (hlater.usage _ _ hlookup)
    | none =>
      rw [hlookup] at h
      cases h
      have happend : ∀ (us : List (String × Option Bool)) name, (us ++
          [(T.name, d.metadata.usesGroups? T.name)]).lookup name = (us.lookup name).or
            (List.lookup name [(T.name, d.metadata.usesGroups? T.name)]) := by
        intro us name
        exact List.lookup_append
      have hput : (Site.desk? { s with desk? := s.desk?.map fun e' => { e' with
          cache := { e.cache with groupUsage := e.cache.groupUsage ++
            [(T.name, d.metadata.usesGroups? T.name)] } } }) = some { e with
          cache := { e.cache with groupUsage := e.cache.groupUsage ++
            [(T.name, d.metadata.usesGroups? T.name)] } } := by
        show s.desk?.map _ = _
        rw [hdesk]
        rfl
      refine ⟨⟨fun e' he' => ?_, fun _ => id⟩, fun L hL _ => ?_⟩
      · obtain rfl := Option.some.inj (hdesk.symm.trans he')
        refine ⟨_, hput, ⟨[], rfl⟩, fun name known hold => ?_, fun _ _ => rfl⟩
        show List.lookup _ (_ ++ _) = _
        rw [happend, hold]
        rfl
      · obtain ⟨e', he', hlater⟩ := hL.desk _ hput
        refine hknown he' (hlater.usage _ _ ?_)
        show List.lookup _ (_ ++ _) = _
        rw [happend, hlookup]
        simp

/-- The groups of a property, with those that are remembered around the model. -/
theorem propertyGroups (d : MetadataDescriber) (m : Model) (p : PropertyMetadata) :
    Repeats t (some m.hash) (· = ·) (d.propertyGroups m p) (d.propertyGroups m p) := by
  unfold MetadataDescriber.propertyGroups
  cases Groups.nested m.groups p.name with
  | some narrowed => exact .pure rfl
  | none =>
    refine .bind (.desk _) (.refl (some m.hash)) fun e e' he => ?_
    rw [he.previous _ rfl]
    refine .ite (.pure rfl) ?_
    cases p.type? with
    | none => exact .pure rfl
    | some T =>
      refine .bind (.typeUsesGroups? d T) (fun _ => rfl) fun a a' ha => ?_
      subst ha
      exact .ite (.pure rfl) (.pure rfl)

end Repeats

end Describe

end ApiDoc
