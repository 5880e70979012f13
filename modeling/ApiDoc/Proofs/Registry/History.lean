import ApiDoc.Describe.Components
import ApiDoc.Proofs.Registry.Register

namespace ApiDoc

/-!
# What happens to a registry

* `Registry.History` — registrations with the references that they answer, in any order with the
  pending identities and the models with fixed names being taken out;
* `History.reference_iff` — in a history, references are equal just where identities are;
* `History.answer_eq` — every answer is made of the name that the identity has in the end;
* `History.fixed_iff` — the reference made of a fixed name belongs to the identity that holds it.
-/

namespace Registry

/-- What happens to a registry, with every model that is registered and the reference that is
    answered. -/
inductive History : Registry → List (Model × String) → Registry → Prop
  | nil (r : Registry) : History r [] r
  | register {r t : Registry} {answers : List (Model × String)} (m : Model) :
    History (r.register m).2 answers t → History r ((m, (r.register m).1) :: answers) t
  | takePending {r t : Registry} {answers : List (Model × String)} :
    History { r with pending := [] } answers t → History r answers t
  | takeAlternatives {r t : Registry} {answers : List (Model × String)} :
    History { r with alternatives := [] } answers t → History r answers t

namespace History

variable {r s t : Registry} {answers more : List (Model × String)}

theorem trans (h : History r answers s) (hmore : History s more t) :
    History r (answers ++ more) t := by
  induction h with
  | nil _ => exact hmore
  | register m _ ih => exact .register m (ih hmore)
  | takePending _ ih => exact .takePending (ih hmore)
  | takeAlternatives _ ih => exact .takeAlternatives (ih hmore)

/-- Models registered one after the other are a history. -/
theorem addAll (r : Registry) (ms : List Model) :
    ∃ answers, History r answers (r.addAll ms) := by
  induction ms generalizing r with
  | nil => exact ⟨[], .nil r⟩
  | cons m ms ih =>
    obtain ⟨answers, h⟩ := ih (r.add m)
    exact ⟨_, .register m h⟩

theorem refPrefix_eq (h : History r answers t) : t.refPrefix = r.refPrefix := by
  induction h with
  | nil _ => rfl
  | register m _ ih => exact ih.trans (add_refPrefix _ m)
  | takePending _ ih => exact ih
  | takeAlternatives _ ih => exact ih

/-- An identity keeps the name that it has. -/
theorem nameOf?_of_some (h : History r answers t) {key name : String}
    (hname : r.nameOf? key = some name) : t.nameOf? key = some name := by
  induction h with
  | nil _ => exact hname
  | register m _ ih => exact ih (nameOf?_add_of_some m hname)
  | takePending _ ih => exact ih hname
  | takeAlternatives _ ih => exact ih hname

theorem namesApart (h : History r answers t) (hr : r.NamesApart) : t.NamesApart := by
  induction h with
  | nil _ => exact hr
  | register m _ ih => exact ih (hr.add m)
  | takePending _ ih => exact ih hr
  | takeAlternatives _ ih => exact ih hr

/-- Every answer is the reference prefix before the name that the identity has in the end. -/
theorem answer_eq (h : History r answers t) (hr : r.AllNamed) :
    ∀ x ∈ answers, ∃ name, t.nameOf? x.1.hash = some name ∧ x.2 = t.refPrefix ++ name := by
  induction h with
  | nil _ => exact fun x hx => absurd hx List.not_mem_nil
  | @register r t answers m h ih =>
    intro x hx
    rcases List.mem_cons.1 hx with rfl | hx
    · -- After its registration the identity has a name, and keeps it.
      obtain ⟨name, hname⟩ := hr.add m m.hash (mem_keys_add_self r m)
      refine ⟨name, h.nameOf?_of_some hname, ?_⟩
      rw [h.refPrefix_eq]
      show (r.add m).refPrefix ++ ((r.add m).nameOf? m.hash).getD "" = (r.add m).refPrefix ++ name
      rw [hname]
      rfl
    · exact ih (hr.add m) x hx
  | takePending _ ih => exact ih hr
  | takeAlternatives _ ih => exact ih hr

/-- References in a history are equal just where the identities are. -/
theorem reference_iff (h : History r answers t) (hr : r.AllNamed) (hapart : r.NamesApart)
    {x y : Model × String} (hx : x ∈ answers) (hy : y ∈ answers) :
    x.2 = y.2 ↔ x.1.hash = y.1.hash := by
  obtain ⟨name, hname, hxe⟩ := h.answer_eq hr x hx
  obtain ⟨other, hother, hye⟩ := h.answer_eq hr y hy
  rw [hxe, hye, String.append_right_inj]
  constructor
  · rintro rfl
    exact h.namesApart hapart _ _ _ hname hother
  · intro he
    rw [he, hother] at hname
    exact (Option.some.inj hname).symm

/-- The reference made of a name that is held at the beginning belongs to the identity that
    holds it. -/
theorem fixed_iff (h : History r answers t) (hr : r.AllNamed) (hapart : r.NamesApart)
    {key name : String} (hkey : r.nameOf? key = some name) {x : Model × String}
    (hx : x ∈ answers) : x.2 = r.refPrefix ++ name ↔ x.1.hash = key := by
  obtain ⟨own, hown, hxe⟩ := h.answer_eq hr x hx
  have hkept := h.nameOf?_of_some hkey
  rw [hxe, h.refPrefix_eq, String.append_right_inj]
  constructor
  · rintro rfl
    exact h.namesApart hapart _ _ _ hown hkept
  · intro he
    rw [he, hkept] at hown
    exact (Option.some.inj hown).symm

end History

end Registry

end ApiDoc
