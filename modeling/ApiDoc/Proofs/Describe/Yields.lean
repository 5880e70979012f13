import ApiDoc.Describe.ObjectModel
import ApiDoc.Proofs.Describe.Results
import ApiDoc.Proofs.Growth.Follows

namespace ApiDoc.Describe

/-!
# What describing yields

* `Describe.Yields` — what holds of the answer of a computation and of the site that it leaves,
  where it succeeds;
* `Yields.bind`, `Yields.forM`, `Yields.edit` — the steps of a computation;
* `Describe.Looks` — computations that look things up, register models and read nodes, and leave
  the nodes as they are;
* `Looks.register`, `Looks.resolveEntries`, `Looks.reflection?`, … — such computations.
-/

variable {α β : Type} {w : World} {s : Site}

/-- What holds of the answer of a computation and of the site that it leaves, where it succeeds. -/
def Yields (act : Describe α) (s : Site) (Q : α → Site → Prop) : Prop :=
  ∀ a s', act s = .ok a s' → Q a s'

namespace Yields

variable {P Q : α → Site → Prop} {Q' : β → Site → Prop}

/-- An answer that fits the site. -/
protected theorem pure {a : α} (h : Q a s) : Yields (pure a) s Q := by
  rintro b s' ⟨⟩
  exact h

/-- A failure yields nothing that could be wrong. -/
protected theorem throw (e : Failure) : Yields (throw e : Describe α) s Q := by
  intro a s' h
  cases h

/-- A computation, and then one that starts from whatever it yields. -/
theorem bind {x : Describe α} {f : α → Describe β} (hx : Yields x s P)
    (hf : ∀ a s', P a s' → Yields (f a) s' Q') : Yields (x >>= f) s Q' := by
  intro b s₂ h
  obtain ⟨a, s₁, ha, hb⟩ := Results.bind_eq_ok.1 h
  exact hf a s₁ (hx a s₁ ha) b s₂ hb

/-- Less may be said of what is yielded. -/
theorem mono {x : Describe α} (h : Yields x s P) (hPQ : ∀ a s', P a s' → Q a s') :
    Yields x s Q :=
  fun a s' ha => hPQ a s' (h a s' ha)

/-- A choice, with the condition known in each branch. -/
theorem ite {c : Prop} [Decidable c] {x y : Describe α} (hx : c → Yields x s Q)
    (hy : ¬c → Yields y s Q) : Yields (if c then x else y) s Q := by
  split
  · exact hx ‹_›
  · exact hy ‹_›

/-- An edit of the draft. -/
theorem edit {act : Edit α} (h : ∀ a d, act s.draft = .ok a d → Q a { s with draft := d }) :
    Yields (Describe.edit act) s Q := by
  intro a s' ha
  obtain ⟨d, hd, rfl⟩ := edit_eq_ok ha
  exact h a d hd

/-- A result that does not look at the site. -/
theorem ofExcept {x : Except Failure α} (h : ∀ a, x = .ok a → Q a s) :
    Yields (Describe.ofExcept x) s Q := by
  intro a s' ha
  obtain ⟨hx, rfl⟩ := ofExcept_eq_ok ha
  exact h a hx

/-- A loop, by what holds after each of its steps. -/
theorem forM {f : α → Describe Unit} {I : List α → Site → Prop} {xs : List α} (hstart : I [] s)
    (hstep : ∀ before x after, xs = before ++ x :: after → ∀ s', I before s' →
      Yields (f x) s' fun _ s'' => I (before ++ [x]) s'') :
    Yields (xs.forM f) s fun _ s' => I xs s' := by
  suffices h : ∀ before after s, xs = before ++ after → I before s →
      Yields (after.forM f) s fun _ s' => I xs s' from h [] xs s rfl hstart
  intro before after
  induction after generalizing before with
  | nil =>
    intro s hxs hI
    rw [hxs, List.append_nil]
    exact .pure hI
  | cons x after ih =>
    intro s hxs hI
    refine .bind (hstep before x after hxs s hI) fun _ s' hI' => ?_
    exact ih (before ++ [x]) s' (by rw [hxs, List.append_assoc]; rfl) hI'

end Yields

/-! ### Looking -/

/-- A computation that leaves the nodes as they are. It may register models and give marks. -/
def Looks (act : Describe α) : Prop :=
  ∀ s, Yields act s fun _ s' => s'.draft.forest = s.draft.forest

namespace Looks

/-- An answer. -/
protected theorem pure (a : α) : Looks (pure a : Describe α) := fun _ => .pure rfl

/-- A failure. -/
protected theorem throw (e : Failure) : Looks (throw e : Describe α) := fun _ => .throw e

/-- Two computations that look, one after the other. -/
theorem bind {x : Describe α} {f : α → Describe β} (hx : Looks x) (hf : ∀ a, Looks (f a)) :
    Looks (x >>= f) :=
  fun s => .bind (hx s) fun a s' hs' => (hf a s').mono fun _ _ hs'' => hs''.trans hs'

/-- A choice between two computations that look. -/
theorem ite {c : Prop} [Decidable c] {x y : Describe α} (hx : Looks x) (hy : Looks y) :
    Looks (if c then x else y) := by
  split
  · exact hx
  · exact hy

/-- A result that does not look at the site. -/
theorem ofExcept (x : Except Failure α) : Looks (Describe.ofExcept x) :=
  fun _ => .ofExcept fun _ _ => rfl

/-- A look before something else. -/
theorem before {x : Describe α} {f : α → Describe β} {Q : β → Site → Prop} (hx : Looks x)
    (hf : ∀ a s', x s = .ok a s' → s'.draft.forest = s.draft.forest → Yields (f a) s' Q) :
    Yields (x >>= f) s Q :=
  .bind (P := fun a s' => x s = .ok a s' ∧ s'.draft.forest = s.draft.forest)
    (fun a s' h => ⟨h, hx s a s' h⟩) fun a s' h => hf a s' h.1 h.2

/-- An edit that leaves every draft as it is. -/
theorem peek {act : Edit α} (h : Edit.Peeks act) : Looks (Describe.edit act) := by
  refine fun s => .edit fun a d hd => ?_
  rw [← Edit.after_of_ok hd, h s.draft]

/-- Taking a fresh mark changes no node. -/
theorem fresh : Looks (Describe.edit Edit.fresh) := by
  refine fun s => .edit fun a d hd => ?_
  cases hd
  rfl

/-! ### Fields -/

/-- Whether a field is set. -/
theorem isSet (i : NodeId) (name : String) : Looks (Describe.isSet i name) :=
  .bind (.peek (.read i name)) fun _ => .pure _

/-! ### The desk -/

/-- The desk at which models are registered. -/
theorem desk (missing : Failure) : Looks (Describe.desk missing) := by
  intro s a s' h
  cases hd : s.desk? with
  | some d =>
    rw [desk_of_some hd] at h
    cases h
    rfl
  | none =>
    rw [desk_of_none hd] at h
    cases h

/-- Another registry at the desk changes no node. -/
theorem setRegistry (r : Registry) : Looks (Describe.setRegistry r) := by
  rintro s a s' ⟨⟩
  rfl

/-- What is remembered at the desk changes no node. -/
theorem setCache (c : Cache) : Looks (Describe.setCache c) := by
  rintro s a s' ⟨⟩
  rfl

/-- Registering a model changes no node: its schema is written later. -/
theorem register (missing : Failure) (m : Model) : Looks (Describe.register missing m) :=
  .bind (.desk _) fun _ => .bind (.setRegistry _) fun _ => .pure _

/-- Meeting a class changes no node. -/
theorem meet (names : List String) : Looks (Describe.meet names) := by
  rintro s a s' ⟨⟩
  rfl

/-- The model of a target. -/
theorem modelOf (target : Target) (groups : Data) : Looks (Describe.modelOf target groups) := by
  cases target with
  | named name => exact .pure _
  | itself name => exact .bind (.meet _) fun _ => .pure _

/-- The class that a name stands for. -/
theorem resolve (w : World) (name : String) : Looks (Describe.resolve w name) := by
  intro s
  exact .ofExcept (x := w.classes.resolve s.met name) fun _ _ => rfl

/-! ### Overrides -/

/-- The reference to a model, which is registered. -/
theorem reference (r : Reader) (target : Target) (own groups : Data) :
    Looks (r.reference target own groups) := by
  have hregister : ∀ g, Looks (do Describe.register .noRegistry (← Describe.modelOf target g)) :=
    fun g => .bind (.modelOf _ _) fun _ => .register _ _
  unfold Reader.reference
  cases r.hasRegistry with
  | false => exact .bind (.throw _) fun _ => hregister _
  | true => exact hregister _

mutual

/-- The value of an override, with its references resolved. -/
theorem resolveValue (r : Reader) (groups : Data) (key? : Option Data) (v : Data) :
    Looks (r.resolve groups key? v) := by
  match v with
  | .modelRef target own =>
    unfold Reader.resolve
    refine .bind (.reference r target own groups) fun ref => ?_
    exact .ite (.pure _) (.bind .fresh fun _ => .pure _)
  | .map es _ =>
    unfold Reader.resolve
    exact .bind .fresh fun _ => .bind (.resolveEntries r groups es) fun _ => .pure _
  | .list xs mark =>
    unfold Reader.resolve
    exact .ite (.pure _) (.bind .fresh fun _ => .bind (.resolveItems r groups xs) fun _ => .pure _)
  | .scalar _ | .tuple _ _ | .set _ _ | .unset | .node _ | .bare _ => exact .pure _

/-- The overrides of a node with references in place of model references. -/
theorem resolveEntries (r : Reader) (groups : Data) (es : List (Data × Data)) :
    Looks (r.resolveEntries groups es) := by
  match es with
  | [] => exact .pure _
  | (k, v) :: rest =>
    unfold Reader.resolveEntries
    exact .bind (.resolveValue r groups (some k) v) fun _ =>
      .bind (.resolveEntries r groups rest) fun _ => .pure _

/-- The items of a list in an override. -/
theorem resolveItems (r : Reader) (groups : Data) (xs : List Data) :
    Looks (r.resolveItems groups xs) := by
  match xs with
  | [] => exact .pure _
  | v :: rest =>
    unfold Reader.resolveItems
    exact .bind (.resolveValue r groups none v) fun _ =>
      .bind (.resolveItems r groups rest) fun _ => .pure _

end

/-! ### Metadata -/

/-- The class that a name stands for, if any. -/
theorem resolve? (w : World) (name : String) : Looks (MetadataDescriber.resolve? w name) := by
  intro s a s' h
  unfold MetadataDescriber.resolve? at h
  split at h
  · cases h
    rfl
  · cases h
    rfl
  · cases h

/-- Whether a declared type is one of moments. -/
theorem isMoment (w : World) (name : String) : Looks (MetadataDescriber.isMoment w name) := by
  refine .ite (.pure _) (.bind (.resolve? w name) fun c? => ?_)
  cases c? <;> exact .pure _

/-- Whether a declared type is a class. -/
theorem isClass (w : World) (d : MetadataDescriber) (name : String) :
    Looks (MetadataDescriber.isClass w d name) :=
  .bind (.resolve? w name) fun _ => .ite (.pure _) (.pure _)

/-- Whether a declared type uses groups. -/
theorem typeUsesGroups? (d : MetadataDescriber) (t : TypeExpr) : Looks (d.typeUsesGroups? t) := by
  refine .bind (.desk _) fun desk => ?_
  split
  · exact .pure _
  · exact .bind (.setCache _) fun _ => .pure _

/-- The groups for a property, and those around it. -/
theorem propertyGroups (d : MetadataDescriber) (m : Model) (p : PropertyMetadata) :
    Looks (d.propertyGroups m p) := by
  unfold MetadataDescriber.propertyGroups
  cases Groups.nested m.groups p.name with
  | some narrowed => exact .pure _
  | none =>
    refine .bind (.desk _) fun desk => .ite (.pure _) ?_
    cases p.type? with
    | none => exact .pure _
    | some t => exact .bind (.typeUsesGroups? d t) fun _ => .ite (.pure _) (.pure _)

/-- The property of a class behind metadata. -/
theorem reflection? (w : World) (p : PropertyMetadata) :
    Looks (MetadataDescriber.reflection? w p) := by
  intro s a s' h
  unfold MetadataDescriber.reflection? at h
  split at h
  · cases h
    rfl
  · split at h
    · cases h
      rfl
    · cases h
      rfl
    · cases h
      rfl
    · cases h

/-! ### Annotations -/

/-- The one type of an annotated property. -/
theorem onlyType (w : World) (owner className property : String) :
    Looks (ObjectDescriber.onlyType w owner className property) := by
  refine .bind (.meet _) fun _ => ?_
  split
  · exact .throw _
  · exact .pure _
  · exact .throw _

end Looks

end ApiDoc.Describe
