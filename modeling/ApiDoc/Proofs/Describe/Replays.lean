import ApiDoc.Proofs.Describe.Later
import ApiDoc.Proofs.Describe.Resolved
import ApiDoc.Proofs.Describe.Upright
import ApiDoc.Proofs.Policy.Tolerated

namespace ApiDoc

/-!
# Steps of describing taken again

What a step of describing has made of a tree it makes again of whatever tree it finds at a later
site:

* `Draft.Stands`, `Draft.Restores` — a tree on which a step can be taken, and what becomes of it;
* `Describe.Replays` — steps that do the same at every later site, marks aside;
* `Describe.Plays` — a step taken: what it has made of its tree, and, under a condition, that it can
  be taken again;
* `Plays.congr`, `Plays.bind`, `Plays.before` — a step in other words, one step after the other, a
  lookup before a step;
* `Plays.setField`, `Plays.apply`, `Plays.applyAll` — a field set, overrides applied.
-/

/-! ### Trees that stand -/

/-- A tree that stands at a node of an upright forest. -/
structure Draft.Stands (d : Draft) (T : NodeId → Prop) (i : NodeId) (A : Finset NodeId) (t : Tree) :
    Prop where
  holds : d.forest.Holds t i A
  typed : t.All Tree.Typed
  upright : d.forest.Upright T
  mem : T i

/-- A draft in which a tree stands in the place of another, marks aside. -/
def Draft.Restores (d : Draft) (T : NodeId → Prop) (i : NodeId) (A : Finset NodeId) (u : Tree)
    (d' : Draft) : Prop :=
  ∃ t, t.unmarked = u.unmarked ∧ d.Turned i A t d' ∧ t.All Tree.Typed ∧ d'.forest.Upright T

namespace Draft

variable {d d₁ d₂ d' : Draft} {T : NodeId → Prop} {i : NodeId} {A : Finset NodeId} {t u : Tree}

/-- Only the nodes count. -/
theorem Stands.congr (h : d.Stands T i A t) (hd : d₁.forest = d.forest) : d₁.Stands T i A t := by
  obtain ⟨holds, typed, upright, mem⟩ := h
  exact ⟨hd ▸ holds, typed, hd ▸ upright, mem⟩

theorem Restores.congr (h : d.Restores T i A u d') (hd : d₁.forest = d.forest)
    (hd' : d₂.forest = d'.forest) : d₁.Restores T i A u d₂ := by
  obtain ⟨t, hsame, hturned, htyped, hupright⟩ := h
  exact ⟨t, hsame, hturned.congr hd hd', htyped, hd' ▸ hupright⟩

end Draft

theorem Site.Later.exists_desk {key? : Option String} {s s' : Site} (h : s.Later key? s')
    (hd : ∃ e, s.desk? = some e) : ∃ e, s'.desk? = some e := by
  obtain ⟨e, he⟩ := hd
  obtain ⟨e', he', -⟩ := h.desk e he
  exact ⟨e', he'⟩

namespace Describe

open Forest

variable {w : World} {key? : Option String} {T : NodeId → Prop} {C : Prop} {α : Type}
  {s s₁ s₂ s' L : Site} {d : Draft} {i : NodeId} {A : Finset NodeId} {t : Tree}

/-- What holds of all answers holds of this one. -/
theorem Settles.yields {act : Describe α} {Q : α → Draft → Prop} {R : α → Prop}
    (h : Settles L act d Q) (hR : ∀ s, Yields act s fun a _ => R a) :
    Settles L act d fun a d' => R a ∧ Q a d' := by
  obtain ⟨a, d', hact, hQ⟩ := h
  exact ⟨a, d', hact, hR _ a _ hact, hQ⟩

/-! ### Steps -/

section Steps

variable (w key? T)

/-- A step that, at every site later than one to which it has led, makes the same of the trees of
    which `P` holds. -/
def Replays (P : Tree → Prop) (F : Tree → Tree) (act : NodeId → Describe Unit) (s s' : Site) :
    Prop :=
  ∀ L, s'.Later key? L → w.classes.Agree s.met L.met → ∀ d i A t, d.Stands T i A t → P t →
    Settles L (act i) d fun _ d' => d.Restores T i A (F t) d'

/-- A step that has led from one site to another, and made `F` of a tree. If `C` holds it has led to
    a later site, and it can be taken again. -/
structure Plays (C : Prop) (P : Tree → Prop) (F : Tree → Tree) (act : NodeId → Describe Unit)
    (s s' : Site) (i : NodeId) (A : Finset NodeId) (t : Tree) : Prop where
  turned : s.draft.Turned i A (F t) s'.draft
  typed : (F t).All Tree.Typed
  /-- What a step makes of a tree does not depend on marks. -/
  unmarked : ∀ {u v : Tree}, u.unmarked = v.unmarked → (F u).unmarked = (F v).unmarked
  later : C → s.Later key? s'
  again : C → (∃ e, s.desk? = some e) → s.draft.forest.Upright T → T i →
    s'.draft.forest.Upright T ∧ Replays w key? T P F act s s'

end Steps

namespace Plays

variable {P P' : Tree → Prop} {F F' : Tree → Tree} {act act' : NodeId → Describe Unit}

/-- A step that does nothing. -/
protected theorem pure (hd : s.draft.forest.Holds t i A) (ht : t.All Tree.Typed) :
    Plays w key? T C P id (fun _ => pure ()) s s i A t where
  turned := .refl hd
  typed := ht
  unmarked := id
  later _ := .refl key? s
  again _ _ hupright _ := by
    refine ⟨hupright, fun L _ _ d i A t hd _ => .pure ?_⟩
    exact ⟨t, rfl, .refl hd.holds, hd.typed, hd.upright⟩

theorem mono (h : Plays w key? T C P F act s s' i A t) (hP : ∀ u, P' u → P u) :
    Plays w key? T C P' F act s s' i A t :=
  { h with
    again := fun hC hdesk hupright hT =>
      have ⟨hafter, hagain⟩ := h.again hC hdesk hupright hT
      ⟨hafter, fun L hL hagree d i A t hd ht => hagain L hL hagree d i A t hd (hP t ht)⟩ }

/-- What a step has made of trees, in other words. -/
theorem congr (h : Plays w key? T C P F act s s' i A t) (ht : F' t = F t)
    (hF : ∀ u, P u → F' u = F u)
    (hunmarked : ∀ {u v : Tree}, u.unmarked = v.unmarked → (F' u).unmarked = (F' v).unmarked) :
    Plays w key? T C P F' act s s' i A t where
  turned := ht ▸ h.turned
  typed := ht ▸ h.typed
  unmarked := hunmarked
  later := h.later
  again hC hdesk hupright hT := by
    obtain ⟨hafter, hagain⟩ := h.again hC hdesk hupright hT
    refine ⟨hafter, fun L hL hagree d i A t hd ht => ?_⟩
    rw [hF t ht]
    exact hagain L hL hagree d i A t hd ht

/-- One step after the other. -/
theorem bind (h : Plays w key? T C P F act s s₁ i A t)
    (h' : Plays w key? T C P' F' act' s₁ s₂ i (A ∪ newIds s.draft.forest s₁.draft.forest) (F t))
    (hP : ∀ u v, u.All Tree.Typed → v.All Tree.Typed → P u → v.unmarked = (F u).unmarked → P' v) :
    Plays w key? T C P (F' ∘ F) (fun j => do act j; act' j) s s₂ i A t where
  turned := h.turned.trans h'.turned
  typed := h'.typed
  unmarked hu := h'.unmarked (h.unmarked hu)
  later hC := (h.later hC).trans (h'.later hC)
  again hC hdesk hupright hT := by
    have hlater := h.later hC
    have hlater' := h'.later hC
    obtain ⟨hupright₁, hagain⟩ := h.again hC hdesk hupright hT
    obtain ⟨hupright₂, hagain'⟩ := h'.again hC (hlater.exists_desk hdesk) hupright₁ hT
    refine ⟨hupright₂, fun L hL hagree d i A t hd ht => ?_⟩
    have hL₁ := hlater'.trans hL
    refine (hagain L hL₁ hagree d i A t hd ht).bind fun _ d₁ ⟨t₁, hsame₁, hturned₁, htyped₁, hup₁⟩ => ?_
    have hstands : d₁.Stands T i (A ∪ newIds d.forest d₁.forest) t₁ :=
      ⟨hturned₁.holds, htyped₁, hup₁, hd.mem⟩
    refine (hagain' L hL (hagree.between hlater.met hL₁.met) d₁ i _ t₁ hstands
      (hP t t₁ hd.typed htyped₁ ht hsame₁)).mono fun _ d₂ ⟨t₂, hsame₂, hturned₂, htyped₂, hup₂⟩ => ?_
    exact ⟨t₂, hsame₂.trans (h'.unmarked hsame₁), hturned₁.trans hturned₂, htyped₂, hup₂⟩

/-- A lookup before a step. -/
theorem before {look : Describe α} {f : α → NodeId → Describe Unit} {a : α}
    (hlook : C → Repeats w.classes key? (· = ·) look look) (hlooks : Looks look)
    (hrun : look s = .ok a s₁) (h : Plays w key? T C P F (f a) s₁ s₂ i A t) :
    Plays w key? T C P F (fun j => do f (← look) j) s s₂ i A t := by
  have hforest := hlooks s a s₁ hrun
  refine ⟨h.turned.congr hforest.symm rfl, h.typed, h.unmarked, fun hC => ?_,
    fun hC hdesk hupright hT => ?_⟩
  · exact (hlook hC s a s₁ hrun).1.trans (h.later hC)
  obtain ⟨hlater, hfinds⟩ := hlook hC s a s₁ hrun
  obtain ⟨hafter, hagain⟩ := h.again hC (hlater.exists_desk hdesk) (hforest.symm ▸ hupright) hT
  refine ⟨hafter, fun L hL hagree d i A t hd ht => ?_⟩
  have hL₁ := (h.later hC).trans hL
  refine (hfinds L hL₁ hagree d).bind fun a' d₁ ⟨ha, hd₁⟩ => ?_
  subst ha
  refine (hagain L hL (hagree.between hlater.met hL₁.met) d₁ i A t (hd.congr hd₁) ht).mono
    fun _ d₂ h => ?_
  exact h.congr hd₁.symm rfl

end Plays

/-! ### Fields -/

section Fields

variable {name : String} (hk : t.kind ∈ Kind.schemas) (hname : name ∈ Kind.schemaFields) (v : Data)

include hk hname

theorem upright_assign (hd : d.forest.Holds t i A) (hupright : d.forest.Upright T) (hT : T i)
    {d' : Draft} (h : Edit.assign? i name v d = .ok () d') : d'.forest.Upright T := by
  have hopen : (Rules.upright T).isOpen d.forest i := ⟨hupright, hT, hd.lt_size, hd.kind ▸ hk⟩
  exact (((Rules.upright_lawful T).field v hopen (.inl hname) _ _ h).1 hupright).1

/-- A field of a schema that stands can be set. -/
theorem Settles.setField (hd : d.Stands T i A t) : Settles L (Describe.setField i name v) d
    fun _ d' => d.Turned i A (t.put name v) d' ∧ (t.put name v).All Tree.Typed ∧
      d'.forest.Upright T := by
  have hfield := Kind.schemaFields_subset _ hk hname
  obtain ⟨⟨⟩, d', hok, hturned⟩ := (Edit.Meets.assignField (F := True) hd.holds hfield v).exists_ok
    trivial
  have hassign : Edit.assign? i name v d = .ok () d' := by
    rw [Edit.assign?_field (hd.holds.kind ▸ hfield)]
    exact hok
  exact .edit hassign ⟨hturned, hd.typed.of_slot rfl rfl,
    upright_assign hk hname v hd.holds hd.upright hd.mem hassign⟩

/-- A field of a schema set. -/
theorem Plays.setField (hd : s.draft.forest.Holds t i A) (ht : t.All Tree.Typed) :
    Yields (Describe.setField i name v) s fun _ s' =>
      Plays w key? T C (·.kind ∈ Kind.schemas) (·.put name v)
        (fun j => Describe.setField j name v) s s' i A t := by
  intro _ s' h
  have hturned := Yields.setField hd (Kind.schemaFields_subset _ hk hname) v _ s' h
  obtain ⟨d', hassign, rfl⟩ := edit_eq_ok h
  refine ⟨hturned, ht.of_slot rfl rfl, fun hu => ?_, fun _ => .of_eq rfl rfl, fun _ _ hupright hT =>
    ⟨upright_assign hk hname v hd hupright hT hassign, fun L _ _ d j B u hu huk => ?_⟩⟩
  · rw [Tree.unmarked_put, Tree.unmarked_put, hu]
  · exact (Settles.setField huk hname v hu).mono fun _ _ ⟨hturned, htyped, hup⟩ =>
      ⟨_, rfl, hturned, htyped, hup⟩

end Fields

namespace Plays

/-! ### Overrides -/

variable {r : Reader} {groups : Data} {k : Kind}

/-- A merge leaves a forest upright. -/
theorem upright_merged {d d' : Draft} {o : MergeOptions} {es : Entries}
    (ho : o.overwrite = true) (hd : d.forest.Upright T) (hT : T i) (hi : i < d.forest.size)
    (h : Edit.mergeEntries o es i d = .ok () d') : d'.forest.Upright T := by
  have hallows : (Rules.upright T).Allows (Edit.mergeEntries o es i) d fun _ _ => True :=
    Rules.upright_follows (fun hd => .mergeEntries ho (Licence.covers_any (fun _ _ => trivial) _)
      ⟨.refl _, hd.formed, hT, hi⟩ trivial) (fun _ _ _ _ _ => trivial) hd
  exact ((hallows _ _ h).1 hd).1

/-- An override applied. -/
theorem apply {o : Override} (hk : k.InSchema)
    (ho : o.toEntries.All (Entries.Findable Data.EqualsItself) k)
    (hd : s.draft.forest.Holds t i A) (ht : t.All Tree.Typed) (hkind : t.kind = k) :
    Yields (r.apply w o groups i) s fun _ s' => ∃ es, Entries.Resolves o.toEntries es ∧
      Plays w key? T C (·.kind = k) (Tree.merge true es) (fun j => r.apply w o groups j) s s' i A t := by
  intro _ s' h
  obtain ⟨es, s₁, hes, h₁⟩ := Results.bind_eq_ok.1 h
  obtain ⟨policy, s₂, hlook, h₂⟩ := Results.bind_eq_ok.1 h₁
  obtain ⟨hpolicy, rfl⟩ := ofExcept_eq_ok hlook
  obtain ⟨d', hmerge, rfl⟩ := edit_eq_ok h₂
  have hforest := Looks.resolveEntries r groups o.toEntries s es s₂ hes
  have hresolves := Yields.resolveEntries r groups o.toEntries s es s₂ hes
  have hrepeats : Repeats w.classes key? (fun fs fs' : Entries => fs'.unmarked = fs.unmarked)
      (r.resolveEntries groups o.toEntries) (r.resolveEntries groups o.toEntries) :=
    .resolveEntries r groups o.toEntries
  obtain ⟨hlater, hfinds⟩ := hrepeats s es s₂ hes
  have hfindable := hresolves.findable hk ho
  have hd₁ : s₂.draft.forest.Holds t i A := hforest.symm ▸ hd
  refine ⟨es, hresolves, ?_, Tree.All.typed_merge (hkind ▸ hfindable) ht, fun hu => ?_,
    fun _ => hlater.trans (.of_eq rfl rfl), fun _ _ hupright hT => ?_⟩
  · have hturned := (Edit.Meets.mergeEntries (o := ⟨true, policy⟩) (hkind ▸ hfindable) hd₁ ht).of_ok
      hmerge
    exact hturned.congr hforest.symm rfl
  · rw [Tree.merge_unmarked, Tree.merge_unmarked, hu]
  -- What the merge has tolerated it tolerates again.
  have hupright₁ : s₂.draft.forest.Upright T := hforest.symm ▸ hupright
  have htolerated := Edit.tolerated_of_ok hupright₁.formed hT hd₁.lt_size
    (hd₁.kind.trans hkind ▸ hfindable) hmerge
  rw [hd₁.kind, hkind] at htolerated
  refine ⟨upright_merged rfl hupright₁ hT hd₁.lt_size hmerge, fun L hL hagree d j B u hu huk => ?_⟩
  have hmerged : s₂.Later key? { s₂ with draft := d' } := .of_eq rfl rfl
  have hL₁ := hmerged.trans hL
  refine ((hfinds L hL₁ hagree d).yields
    (Yields.resolveEntries r groups o.toEntries)).bind fun fs d₁ ⟨hfs, hsame, hd₁⟩ => ?_
  have hstands := hu.congr hd₁
  refine (Settles.ofExcept hpolicy ⟨rfl, rfl⟩ : Settles L _ d₁ fun p d' => p = policy ∧ d' = d₁).bind ?_
  rintro p d₃ ⟨rfl, rfl⟩
  have hfs' := hfs.findable hk ho
  have hfst := htolerated.congr hsame.symm
  obtain ⟨d₂, hok, hturned⟩ : ∃ d₂, Edit.mergeEntries ⟨true, p⟩ fs j d₃ = .ok () d₂ ∧
      d₃.Turned j B (Tree.merge true fs u) d₂ :=
    Edit.ok_of_tolerated hstands.holds hstands.typed hstands.upright hstands.mem (huk ▸ hfs')
      (huk ▸ hfst)
  refine .edit hok ⟨_, ?_, hturned.congr hd₁.symm rfl, Tree.All.typed_merge (huk ▸ hfs') hu.typed,
    upright_merged rfl hstands.upright hstands.mem hstands.holds.lt_size hok⟩
  rw [Tree.merge_unmarked, Tree.merge_unmarked, hsame]

/-- Overrides applied one after the other. -/
theorem applyAll {os : List Override} (hk : k.InSchema)
    (hos : ∀ o ∈ os, o.toEntries.All (Entries.Findable Data.EqualsItself) k)
    (hd : s.draft.forest.Holds t i A) (ht : t.All Tree.Typed) (hkind : t.kind = k) :
    Yields (os.forM fun o => r.apply w o groups i) s fun _ s' => ∃ ws,
      List.Forall₂ (fun o es => Entries.Resolves o.toEntries es) os ws ∧
        Plays w key? T C (·.kind = k) (Tree.mergeAll true ws)
          (fun j => os.forM fun o => r.apply w o groups j) s s' i A t := by
  induction os generalizing s A t with
  | nil => exact .pure ⟨[], .nil, .pure hd ht⟩
  | cons o os ih =>
    obtain ⟨ho, hos⟩ := List.forall_mem_cons.1 hos
    have happly : Yields (r.apply w o groups i) s fun _ s₁ => ∃ es, Entries.Resolves o.toEntries es ∧
        Plays w key? T C (·.kind = k) (Tree.merge true es) (fun j => r.apply w o groups j) s s₁ i A t :=
      apply hk ho hd ht hkind
    refine .bind happly fun _ s₁ ⟨es, hes, hfirst⟩ => ?_
    have hkind' : (Tree.merge true es t).kind = k := (Tree.merge_kind ..).trans hkind
    refine (ih hos hfirst.turned.holds hfirst.typed hkind').mono fun _ s₂ ⟨ws, hws, hrest⟩ => ?_
    refine ⟨es :: ws, .cons hes hws, hfirst.bind hrest fun u v _ _ hu hv => ?_⟩
    have hv := congrArg Tree.kind hv
    rw [Tree.kind_unmarked, Tree.kind_unmarked, Tree.merge_kind] at hv
    exact hv.trans hu

end Plays

end Describe

end ApiDoc
