import ApiDoc.Describe.Site

namespace ApiDoc

/-!
# Results of computations

Edits and describers are computations that keep what they have done before a failure:

* `Results.bind_of_ok`, `Results.bind_of_error`, `Results.bind_eq_ok` — one computation after
  another;
* `Results.isOk`, `Results.endsIn`, `Results.failsIn` — whether a computation succeeds or fails, and
  leaves a state with some property;
* `Describe.after` — the site that a computation leaves, whether it succeeds or fails.
-/

namespace Results

variable {σ α β : Type} {x : EStateM Failure σ α} {f : α → EStateM Failure σ β} {s t u : σ}

/-- After success the second computation goes on. -/
theorem bind_of_ok {a : α} (h : x s = .ok a t) : (x >>= f) s = f a t := by
  show EStateM.bind x f s = f a t
  rw [EStateM.bind, h]

/-- After a failure there is no second computation. -/
theorem bind_of_error {e : Failure} (h : x s = .error e t) : (x >>= f) s = .error e t := by
  show EStateM.bind x f s = .error e t
  rw [EStateM.bind, h]

/-- Two computations succeed if both do, one after the other. -/
theorem bind_eq_ok {b : β} :
    (x >>= f) s = .ok b u ↔ ∃ a t, x s = .ok a t ∧ f a t = .ok b u := by
  cases hx : x s with
  | ok a t =>
    rw [bind_of_ok hx]
    exact ⟨fun h => ⟨a, t, rfl, h⟩, fun ⟨a', t', ht, h⟩ => by cases ht; exact h⟩
  | error e t =>
    rw [bind_of_error hx]
    exact ⟨fun h => (nomatch h), fun ⟨_, _, ht, _⟩ => (nomatch ht)⟩

/-- One computation after another, where both do the same. -/
theorem bind_congr {y : EStateM Failure σ α} {g : α → EStateM Failure σ β} (hxy : x s = y s)
    (hfg : ∀ a t, x s = .ok a t → f a t = g a t) : (x >>= f) s = (y >>= g) s := by
  cases hx : x s with
  | ok a t => rw [bind_of_ok hx, bind_of_ok (hxy.symm.trans hx), hfg a t hx]
  | error e t => rw [bind_of_error hx, bind_of_error (hxy.symm.trans hx)]

/-- Whether a result is that of a success. -/
def isOk : EStateM.Result Failure σ α → Bool
  | .ok _ _ => true
  | .error _ _ => false

/-- What is checked to succeed succeeds. -/
theorem exists_ok {x : EStateM Failure σ Unit} (h : isOk (x s) = true) : ∃ t, x s = .ok () t := by
  cases hx : x s with
  | ok a t => exact ⟨t, rfl⟩
  | error e t =>
    rw [hx] at h
    exact nomatch h

/-- Whether a computation succeeds and leaves a state that passes a check. -/
def endsIn (x : EStateM Failure σ α) (check : σ → Bool) (s : σ) : Bool :=
  match x s with
  | .ok _ t => check t
  | .error _ _ => false

/-- A computation checked to end well ends in a state that passes the check. -/
theorem exists_of_endsIn {x : EStateM Failure σ Unit} {check : σ → Bool}
    (h : endsIn x check s = true) : ∃ t, x s = .ok () t ∧ check t = true := by
  unfold endsIn at h
  cases hx : x s with
  | ok a t =>
    rw [hx] at h
    exact ⟨t, rfl, h⟩
  | error e t =>
    rw [hx] at h
    exact nomatch h

/-- Whether a computation fails, and how it fails and what it leaves pass a check. -/
def failsIn (x : EStateM Failure σ α) (check : Failure → σ → Bool) (s : σ) : Bool :=
  match x s with
  | .ok _ _ => false
  | .error e t => check e t

/-- A computation checked to fail fails with what passes the check. -/
theorem exists_of_failsIn {check : Failure → σ → Bool} (h : failsIn x check s = true) :
    ∃ e t, x s = .error e t ∧ check e t = true := by
  unfold failsIn at h
  cases hx : x s with
  | ok a t =>
    rw [hx] at h
    exact nomatch h
  | error e t =>
    rw [hx] at h
    exact ⟨e, t, rfl, h⟩

end Results

namespace Describe

variable {α β : Type}

/-- The site that a computation leaves, whether it succeeds or fails. -/
def after (act : Describe α) (s : Site) : Site :=
  match act s with
  | .ok _ t => t
  | .error _ t => t

/-- A computation that succeeds leaves the site of its result. -/
theorem after_of_ok {act : Describe α} {s t : Site} {a : α} (h : act s = .ok a t) :
    after act s = t := by
  rw [after, h]

/-- A computation that fails leaves the site of its failure. -/
theorem after_of_error {act : Describe α} {s t : Site} {e : Failure} (h : act s = .error e t) :
    after act s = t := by
  rw [after, h]

/-- After a first computation that succeeds the second one counts. -/
theorem after_bind_of_ok {x : Describe α} {f : α → Describe β} {s t : Site} {a : α}
    (h : x s = .ok a t) : after (x >>= f) s = after (f a) t := by
  rw [after, Results.bind_of_ok h, after]

/-- After a first computation that fails there is no second one. -/
theorem after_bind_of_error {x : Describe α} {f : α → Describe β} {s t : Site} {e : Failure}
    (h : x s = .error e t) : after (x >>= f) s = t := by
  rw [after, Results.bind_of_error h]

/-- A result that is a success leaves the site. -/
theorem ofExcept_eq_ok {x : Except Failure α} {s t : Site} {a : α}
    (h : ofExcept x s = .ok a t) : x = .ok a ∧ t = s := by
  cases x with
  | ok b => cases h; exact ⟨rfl, rfl⟩
  | error e => exact nomatch h

/-- An edit that succeeds changes the draft of the site only. -/
theorem edit_eq_ok {act : Edit α} {s t : Site} {a : α}
    (h : edit act s = .ok a t) : ∃ d, act s.draft = .ok a d ∧ t = { s with draft := d } := by
  unfold edit at h
  cases hact : act s.draft with
  | ok b d => rw [hact] at h; cases h; exact ⟨d, rfl, rfl⟩
  | error e d => rw [hact] at h; exact nomatch h

/-- An edit leaves the desk. -/
theorem after_edit_desk? (act : Edit α) (s : Site) : (after (edit act) s).desk? = s.desk? := by
  unfold after edit
  cases act s.draft <;> rfl

/-- At a desk, `desk` answers it. -/
theorem desk_of_some {s : Site} {d : Desk} (h : s.desk? = some d) (missing : Failure) :
    desk missing s = .ok d s := by
  obtain ⟨_, place⟩ := s
  subst h
  rfl

/-- Without a desk the failure is the one given. -/
theorem desk_of_none {s : Site} (h : s.desk? = none) (missing : Failure) :
    desk missing s = .error missing s := by
  obtain ⟨_, place⟩ := s
  subst h
  rfl

/-- The site with another registry at its desk. -/
def withRegistry (s : Site) (r : Registry) : Site :=
  { s with desk? := s.desk?.map fun d => { d with registry := r } }

/-- Setting the registry succeeds. -/
theorem setRegistry_eq (s : Site) (r : Registry) :
    setRegistry r s = .ok () (withRegistry s r) := rfl

/-- The desk has the registry that has been set. -/
theorem withRegistry_desk? {s : Site} {d : Desk} (h : s.desk? = some d) (r : Registry) :
    (withRegistry s r).desk? = some { d with registry := r } := by
  rw [withRegistry, h]
  rfl

/-- At a desk, `register` answers the reference of the model, and the model is registered. -/
theorem register_of_some {s : Site} {d : Desk} (h : s.desk? = some d) (missing : Failure)
    (m : Model) : register missing m s
      = .ok (d.registry.register m).1 (withRegistry s (d.registry.register m).2) := by
  rw [register, Results.bind_of_ok (desk_of_some h missing)]
  rfl

end Describe

end ApiDoc
