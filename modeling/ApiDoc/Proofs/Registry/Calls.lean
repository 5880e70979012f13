import ApiDoc.Proofs.Describe.Describers
import ApiDoc.Proofs.Registry.History

namespace ApiDoc

/-!
# Calls of a registry

* `Describe.OnlyRegisters` — a computation that registers models, and does nothing else to a
  registry; all describers of the library are such;
* `Describe.MakesHistory` — a computation that makes a history of its registry;
* `Call`, `Call.runAll` — calls made one after the other, also after one that fails;
* `references_apart` — every run of calls is a history; in a history references are equal just
  where identities are, and a fixed name refers to the identity that holds it.
-/

open Registry

namespace Describe

variable {α β : Type}

/-- A computation that leaves at its desk the registry with some models registered, and any
    cache. -/
def OnlyRegisters (act : Describe α) : Prop :=
  ∀ s d, s.desk? = some d →
    ∃ ms cache, (after act s).desk? = some ⟨d.registry.addAll ms, cache⟩

/-- A computation that makes a history of the registry at its desk. -/
def MakesHistory (act : Describe α) : Prop :=
  ∀ s d, s.desk? = some d →
    ∃ answers r cache, History d.registry answers r ∧ (after act s).desk? = some ⟨r, cache⟩

namespace MakesHistory

/-- What leaves the desk makes no history. -/
theorem of_desk_eq {act : Describe α} (h : ∀ s, (after act s).desk? = s.desk?) :
    MakesHistory act :=
  fun s d hd => ⟨[], d.registry, d.cache, .nil _, (h s).trans hd⟩

/-- What only registers models makes history. -/
theorem of_onlyRegisters {act : Describe α} (h : OnlyRegisters act) : MakesHistory act := by
  intro s d hd
  obtain ⟨ms, cache, hafter⟩ := h s d hd
  obtain ⟨answers, hh⟩ := History.addAll d.registry ms
  exact ⟨answers, _, cache, hh, hafter⟩

/-- An answer. -/
protected theorem pure (a : α) : MakesHistory (pure a) := of_desk_eq fun _ => rfl

/-- A failure. -/
protected theorem throw (e : Failure) : MakesHistory (throw e : Describe α) :=
  of_desk_eq fun _ => rfl

/-- A look at the desk. -/
protected theorem desk (missing : Failure) : MakesHistory (desk missing) := by
  refine of_desk_eq fun s => ?_
  cases hs : s.desk? with
  | none => rw [after_of_error (desk_of_none hs missing), hs]
  | some d => rw [after_of_ok (desk_of_some hs missing), hs]

/-- Two computations, one after the other. -/
protected theorem bind {x : Describe α} {f : α → Describe β} (hx : MakesHistory x)
    (hf : ∀ a, MakesHistory (f a)) : MakesHistory (x >>= f) := by
  intro s d hd
  obtain ⟨answers, r, cache, hh, hafter⟩ := hx s d hd
  cases hs : x s with
  | error e t =>
    rw [after_of_error hs] at hafter
    exact ⟨answers, r, cache, hh, by rw [after_bind_of_error hs, hafter]⟩
  | ok a t =>
    rw [after_of_ok hs] at hafter
    obtain ⟨more, u, cache', hmore, hafter'⟩ := hf a t _ hafter
    exact ⟨answers ++ more, u, cache', hh.trans hmore, by rw [after_bind_of_ok hs, hafter']⟩

/-- A loop over a list. -/
protected theorem forM {f : α → Describe Unit} (hf : ∀ a, MakesHistory (f a)) (xs : List α) :
    MakesHistory (xs.forM f) := by
  induction xs with
  | nil => exact .pure ()
  | cons x xs ih => exact .bind (hf x) fun _ => ih

/-- One model registered. -/
protected theorem register (missing : Failure) (m : Model) :
    MakesHistory (register missing m) := by
  intro s d hd
  refine ⟨[(m, (d.registry.register m).1)], _, d.cache, .register m (.nil _), ?_⟩
  rw [after_of_ok (register_of_some hd missing m)]
  exact withRegistry_desk? hd _

end MakesHistory

/-! ### The drain -/

variable {describers : List Describer} {document : NodeId}

/-- All describers do nothing to a registry but register models. -/
def AllRegister (describers : List Describer) : Prop :=
  ∀ d ∈ describers, ∀ m i, OnlyRegisters (d.describe m i)

/-- The describers of the library do nothing to a registry but register models. -/
theorem allRegister_toDescriber (w : World) (xs : List ModelDescriber) :
    AllRegister (xs.map (·.toDescriber w)) := by
  intro d hd m i s desk hdesk
  obtain ⟨x, -, rfl⟩ := List.mem_map.1 hd
  have hdoes : Rules.free.Does ((x.toDescriber w).describe m i) s fun _ _ => True :=
    .describer Rules.free_lawful (Rules.free_covers w) (Rules.free_coversDescriber x) trivial
      trivial
  obtain ⟨ms, cache, -, -, h⟩ := hdoes.after hdesk fun _ _ => trivial
  exact ⟨ms, cache, h⟩

/-- A model described by a describer that only registers. -/
theorem MakesHistory.describeModel (h : AllRegister describers) (name : String) (m : Model) :
    MakesHistory (describeModel describers document name m) := by
  refine .bind (.of_desk_eq (after_edit_desk? _)) fun schema => ?_
  cases hd : describers.find? fun d => d.supports m with
  | none => exact .throw _
  | some d => exact .of_onlyRegisters (h d (List.mem_of_find?_eq_some hd) m schema)

/-- The model under a key, described. -/
theorem MakesHistory.describeKey (h : AllRegister describers) (key : String) :
    MakesHistory (describeKey describers document key) := by
  refine .bind (.desk _) fun d => ?_
  split
  · exact .describeModel h _ _
  · exact .pure ()

/-- Taking what is pending registers nothing. -/
theorem MakesHistory.takePending : MakesHistory takePending := by
  intro s d hd
  refine ⟨[], { d.registry with pending := [] }, d.cache, .takePending (.nil _), ?_⟩
  rw [Describe.takePending, after_bind_of_ok (desk_of_some hd _),
    after_bind_of_ok (setRegistry_eq _ _)]
  exact withRegistry_desk? hd _

/-- Neither does taking the alternative names. -/
theorem MakesHistory.takeAlternatives : MakesHistory takeAlternatives := by
  intro s d hd
  rw [Describe.takeAlternatives, after_bind_of_ok (desk_of_some hd _),
    after_bind_of_ok (setRegistry_eq _ _)]
  have hreg : MakesHistory (d.registry.alternatives.forM fun m => do
      let _ ← register .noRegistry m) :=
    .forM (fun m => .bind (.register _ m) fun _ => .pure ()) _
  obtain ⟨answers, r, cache, hh, hafter⟩ := hreg _ _ (withRegistry_desk? hd _)
  exact ⟨answers, r, cache, .takeAlternatives hh, hafter⟩

/-- One round over all pending models. -/
theorem MakesHistory.round (h : AllRegister describers) :
    MakesHistory (round describers document) := by
  refine .bind (.desk _) fun d => ?_
  split
  · exact .bind .takePending fun keys =>
      .bind (.forM (fun key => .describeKey h key) keys) fun _ => .pure _
  · split
    · exact .bind .takeAlternatives fun _ => .pure _
    · exact .pure _

/-- All rounds, however many. -/
theorem MakesHistory.registerSchemas (h : AllRegister describers) (fuel : Nat) :
    MakesHistory (registerSchemas describers document fuel) := by
  induction fuel with
  | zero => exact .throw _
  | succ fuel ih =>
    refine .bind (.round h) fun more => ?_
    split
    · exact ih
    · exact .pure ()

end Describe

/-! ### Runs of calls -/

/-- A call of a registry. -/
inductive Call where
  | register (m : Model)
  | registerSchemas (fuel : Nat)

namespace Call

variable (describers : List Describer) (document : NodeId)

/-- A call made: the model with the reference that it answers, if it registers one. -/
def run : Call → Describe (List (Model × String))
  | register m => do return [(m, ← Describe.register .noRegistry m)]
  | registerSchemas fuel => do
    Describe.registerSchemas describers document fuel
    return []

/-- Calls made one after the other, each from the site that the one before leaves, also where
    that one fails. -/
def runAll : List Call → Site → List (Model × String) × Site
  | [], s => ([], s)
  | c :: cs, s => match c.run describers document s with
    | .ok answers t => let (more, u) := runAll cs t; (answers ++ more, u)
    | .error _ t => runAll cs t

variable {describers document}

/-- A call makes a history that holds what it answers. -/
theorem run_history (h : Describe.AllRegister describers) (document : NodeId) (c : Call)
    {s : Site} {d : Desk} (hd : s.desk? = some d) :
    ∃ answers r cache, History d.registry answers r ∧
      (Describe.after (c.run describers document) s).desk? = some ⟨r, cache⟩ ∧
      ∀ own t, c.run describers document s = .ok own t → own.Sublist answers := by
  cases c with
  | register m =>
    have hrun : (register m).run describers document s
        = .ok [(m, (d.registry.register m).1)]
          (Describe.withRegistry s (d.registry.register m).2) := by
      rw [run, Results.bind_of_ok (Describe.register_of_some hd _ m)]
      rfl
    refine ⟨_, _, d.cache, .register m (.nil _), ?_, ?_⟩
    · rw [Describe.after_of_ok hrun]
      exact Describe.withRegistry_desk? hd _
    · intro own t ht
      cases hrun.symm.trans ht
      exact List.Sublist.refl _
  | registerSchemas fuel =>
    have hmake : Describe.MakesHistory ((registerSchemas fuel).run describers document) :=
      .bind (.registerSchemas h fuel) fun _ => .pure _
    obtain ⟨answers, r, cache, hh, hafter⟩ := hmake s d hd
    refine ⟨answers, r, cache, hh, hafter, ?_⟩
    intro own t ht
    obtain ⟨_, _, _, hpure⟩ := Results.bind_eq_ok.1 ht
    cases hpure
    exact List.nil_sublist _

/-- Calls make a history that holds what they answer. -/
theorem runAll_history (h : Describe.AllRegister describers) (document : NodeId)
    (calls : List Call) {s : Site} {d : Desk} (hd : s.desk? = some d) :
    ∃ answers r cache, History d.registry answers r ∧
      (runAll describers document calls s).2.desk? = some ⟨r, cache⟩ ∧
      (runAll describers document calls s).1.Sublist answers := by
  induction calls generalizing s d with
  | nil => exact ⟨[], d.registry, d.cache, .nil _, hd, List.Sublist.refl _⟩
  | cons c cs ih =>
    obtain ⟨answers, r, cache, hh, hafter, hown⟩ := run_history h document c hd
    cases hc : c.run describers document s with
    | ok own t =>
      rw [Describe.after_of_ok hc] at hafter
      obtain ⟨more, u, cache', hmore, hdesk, hsub⟩ := ih hafter
      refine ⟨answers ++ more, u, cache', hh.trans hmore, ?_, ?_⟩
      · rw [runAll, hc]
        exact hdesk
      · rw [runAll, hc]
        exact (hown own t hc).append hsub
    | error e t =>
      -- A call that fails answers nothing, but what it registered before stays.
      rw [Describe.after_of_error hc] at hafter
      obtain ⟨more, u, cache', hmore, hdesk, hsub⟩ := ih hafter
      refine ⟨answers ++ more, u, cache', hh.trans hmore, ?_, ?_⟩
      · rw [runAll, hc]
        exact hdesk
      · rw [runAll, hc]
        exact hsub.trans (List.sublist_append_right _ _)

end Call

/-- References are stable and apart. Whatever calls are made, on a new registry with any fixed
    names, and whatever models the describers register, all registrations are a history of the
    registry; and in every history of it, references are equal just where identities are, and the
    reference made of a fixed name answers none but the identity that holds the name. -/
theorem references_apart (refPrefix : String) (policy? : Option Policy)
    {alternatives : List (String × Model)} (hnames : (alternatives.map (·.1)).Nodup) :
    (∀ describers document calls s cache, Describe.AllRegister describers →
      s.desk? = some ⟨create refPrefix policy? alternatives, cache⟩ →
      ∃ answers r cache', History (create refPrefix policy? alternatives) answers r ∧
        (Call.runAll describers document calls s).2.desk? = some ⟨r, cache'⟩ ∧
        (Call.runAll describers document calls s).1.Sublist answers) ∧
    ∀ answers r, History (create refPrefix policy? alternatives) answers r →
      (∀ x ∈ answers, ∀ y ∈ answers, x.2 = y.2 ↔ x.1.hash = y.1.hash) ∧
      ∀ x ∈ answers, ∀ key name,
        (create refPrefix policy? alternatives).nameOf? key = some name →
        (x.2 = refPrefix ++ name ↔ x.1.hash = key) := by
  have hnamed := (keyed_create refPrefix policy? alternatives).allNamed
  have hapart := namesApart_create refPrefix policy? hnames
  refine ⟨?_, ?_⟩
  · intro describers document calls s cache h hs
    exact Call.runAll_history h document calls hs
  · intro answers r hh
    refine ⟨fun x hx y hy => hh.reference_iff hnamed hapart hx hy, ?_⟩
    intro x hx key name hkey
    exact hh.fixed_iff hnamed hapart hkey hx

/-- Where `Point` is fixed for one class, its reference answers no other class, not even one of
    the same short name. -/
theorem references_apart_point :
    ([("Point", Model.ofClass "shop.Point" .null)].map (·.1)).Nodup ∧
    ∀ answers r, History
        (create "#/components/schemas/" none [("Point", .ofClass "shop.Point" .null)]) answers r →
      ∀ x ∈ answers, (x.2 = "#/components/schemas/" ++ "Point" ↔
        x.1.hash = (Model.ofClass "shop.Point" .null).hash) := by
  refine ⟨by decide, fun answers r h x hx => ?_⟩
  refine ((references_apart _ none (by decide)).2 answers r h).2 x hx _ _ ?_
  simp [create, nameOf?, lookup_putName]

end ApiDoc
