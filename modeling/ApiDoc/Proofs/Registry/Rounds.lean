import ApiDoc.Describe.Components
import ApiDoc.Proofs.Describe.Results
import ApiDoc.Proofs.Registry.Register

namespace ApiDoc.Describe

/-!
# Rounds

What one round of the drain is, by what the registry has left to do:

* `round_of_pending` — the pending models are taken and described;
* `round_of_alternatives` — nothing is pending, and the models with fixed names are registered;
* `round_of_nothing` — nothing is left.
-/

variable {describers : List Describer} {document : NodeId} {s : Site} {d : Desk}

/-- Registering models one after the other leaves them registered. -/
theorem forM_register (hdesk : s.desk? = some d) (missing : Failure) (ms : List Model) :
    (ms.forM fun m => do let _ ← register missing m) s
      = .ok () (withRegistry s (d.registry.addAll ms)) := by
  induction ms generalizing s d with
  | nil =>
    obtain ⟨draft, desk?, met, shelf⟩ := s
    cases hdesk
    rfl
  | cons m ms ih =>
    have hm : (do let _ ← register missing m : Describe Unit) s
        = .ok () (withRegistry s (d.registry.add m)) := by
      rw [Results.bind_of_ok (register_of_some hdesk missing m)]
      rfl
    refine (Results.bind_of_ok hm).trans ((ih (withRegistry_desk? hdesk _)).trans ?_)
    obtain ⟨draft, desk?, met, shelf⟩ := s
    cases hdesk
    rfl

theorem round_of_pending (hdesk : s.desk? = some d) (hpending : d.registry.pending ≠ []) :
    round describers document s
      = (do d.registry.pending.forM (describeKey describers document); return true)
        (withRegistry s { d.registry with pending := [] }) := by
  rw [Describe.round, Results.bind_of_ok (desk_of_some hdesk _),
    if_pos (by simpa using hpending)]
  refine Results.bind_of_ok ?_
  rw [takePending, Results.bind_of_ok (desk_of_some hdesk _),
    Results.bind_of_ok (setRegistry_eq _ _)]
  rfl

theorem round_of_alternatives (hdesk : s.desk? = some d) (hpending : d.registry.pending = [])
    (halternatives : d.registry.alternatives ≠ []) :
    round describers document s = .ok true (withRegistry s
      (({ d.registry with alternatives := [] } : Registry).addAll d.registry.alternatives)) := by
  rw [Describe.round, Results.bind_of_ok (desk_of_some hdesk _), if_neg (by simp [hpending]),
    if_pos (by simpa using halternatives)]
  have htake : takeAlternatives s = .ok () (withRegistry s
      (({ d.registry with alternatives := [] } : Registry).addAll d.registry.alternatives)) := by
    rw [takeAlternatives, Results.bind_of_ok (desk_of_some hdesk _),
      Results.bind_of_ok (setRegistry_eq _ _), forM_register (withRegistry_desk? hdesk _)]
    obtain ⟨draft, desk?, met, shelf⟩ := s
    cases hdesk
    rfl
  rw [Results.bind_of_ok htake]
  rfl

theorem round_of_nothing (hdesk : s.desk? = some d) (hpending : d.registry.pending = [])
    (halternatives : d.registry.alternatives = []) :
    round describers document s = .ok false s := by
  rw [Describe.round, Results.bind_of_ok (desk_of_some hdesk _), if_neg (by simp [hpending]),
    if_neg (by simp [halternatives])]
  rfl

/-- Without a registry a round fails. -/
theorem round_of_none (hdesk : s.desk? = none) :
    round describers document s = .error .noRegistry s := by
  rw [Describe.round, Results.bind_of_error (desk_of_none hdesk _)]

end ApiDoc.Describe
