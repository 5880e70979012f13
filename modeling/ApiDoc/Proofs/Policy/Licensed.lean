import ApiDoc.Proofs.Growth.Merge
import ApiDoc.Proofs.Policy.Slots

namespace ApiDoc

/-!
# Merges under a licence, slot by slot

* `Licence.within`, `Steps.widen` — a licence for fewer nodes, and the steps that it allows;
* `Merge.ReadBetween` — what is read from nodes of a source on the way;
* `Merge.Under` — options, and a class of sources that a licence covers;
* `Under.content`, `Under.member`, `Under.item`, `Under.slot`, `Under.plain` — what a merge of such
  a source does follows the licence, at each of its stages.
-/

open Forest Merge

/-! ### Licences for fewer nodes -/

/-- The licence to do the same to other nodes. -/
def Licence.within (S : Licence) (nodes : NodeId → Prop) : Licence := { S with nodes := nodes }

namespace Forest

variable {S S' : Licence} {f g : Forest}

/-- Steps that one licence allows are allowed by a wider one. -/
theorem Steps.widen (hrun : Steps S' f g) (hnodes : ∀ j, S'.nodes j → S.nodes j)
    (hfields : ∀ k name, S'.fields k name → S.fields k name)
    (hover : S'.overwrite = true → S.overwrite = true) : Steps S f g := by
  have hset : ∀ {p : Prop}, S'.overwrite = true ∨ p → S.overwrite = true ∨ p :=
    fun h => h.imp_left hover
  induction hrun with
  | refl => exact .refl _
  | tail _ hlast ih =>
    refine ih.trans (.step ?_)
    cases hlast with
    | alter hi hlt h =>
      refine .alter (hnodes _ hi) hlt ?_
      cases h with
      | field v hname hscalar hmay h => exact .field v hname hscalar (hfields _ _ hmay) (hset h)
      | grow ys hname harray => exact .grow ys hname harray
      | extension v hkey hes h => exact .extension v hkey hes (hset h)
      | flag b hp h => exact .flag b hp (hset h)
      | list hp hlist hunset => exact .list hp hlist hunset
    | attach hi hlt hp hfields' h => exact .attach (hnodes _ hi) hlt hp hfields' h

theorem Steps.of_within {T : NodeId → Prop} (hrun : Steps (S.within T) f g)
    (hT : ∀ j, T j → S.nodes j) : Steps S f g :=
  hrun.widen hT (fun _ _ h => h) fun h => h

end Forest

namespace Merge

/-- The contents of nodes that are read on the way from one forest to another. -/
def ReadBetween (S : Licence) (f g : Forest) (j : NodeId) (es : Entries) : Prop :=
  ∃ h, Steps S f h ∧ Steps S h g ∧ h.content j = .ok es

theorem ReadBetween.later {S : Licence} {f g h : Forest} {j : NodeId} {es : Entries}
    (hread : ReadBetween S f g j es) (hgh : Steps S g h) : ReadBetween S f h j es := by
  obtain ⟨f', hfirst, hrest, hes⟩ := hread
  exact ⟨f', hfirst, hrest.trans hgh, hes⟩

/-- Options that overwrite as a licence does, and a class of sources that it covers. -/
structure Under (S : Licence) (f : Forest) (P : Kind → Entries → Prop) (o : MergeOptions) :
    Prop where
  overwrite : o.overwrite = S.overwrite
  covers : S.Covers f P

end Merge

/-- What is offered is offered to a narrower licence that starts later, too. -/
theorem Data.Offers.within {S : Licence} {T : NodeId → Prop} {f g : Forest} {Q : Entries → Prop}
    {v : Data} (h : v.Offers S f Q) (hT : ∀ j, T j → S.nodes j) (hrun : Steps S f g) :
    v.Offers (S.within T) g Q := by
  cases v with
  | node j => exact fun g' hg' es hes => h g' (hrun.trans (hg'.of_within hT)) es hes
  | _ => exact h

theorem Placement.Offers.within {S : Licence} {T : NodeId → Prop} {f g : Forest}
    {Q : Kind → Entries → Prop} {p : Placement} {v : Data} (h : p.Offers S f Q v)
    (hT : ∀ j, T j → S.nodes j) (hrun : Steps S f g) : p.Offers (S.within T) g Q v := by
  cases p with
  | single k b => exact Data.Offers.within h hT hrun
  | keyed k key => exact fun fs mark hv e he => (h fs mark hv e he).within hT hrun
  | listed k slot => exact fun xs hxs x hx => (h xs hxs x hx).within hT hrun

/-- A child that has just been found or made. -/
theorem Edit.Ready.linked {S : Licence} {f₀ : Forest} {d d₁ : Draft} {i j : NodeId} {σ : String}
    {p : Placement} {key : Data} (h : Edit.Ready S f₀ d i) (hrun : Steps S d.forest d₁.forest)
    (hlinked : d₁.forest.Linked S i σ p key j) :
    Edit.Ready S f₀ d₁ j ∧ (d₁.forest.get j).kind = p.kind :=
  ⟨⟨h.since.trans hrun, hrun.formed h.formed, hlinked.node, hlinked.child.1⟩, hlinked.child.2.1⟩

namespace Merge.Under

variable {S : Licence} {f₀ : Forest} {P : Kind → Entries → Prop} {o : MergeOptions} {d : Draft}
  {i j : NodeId} {k : Kind} {es : Entries} {v : Data}

theorem within (hu : Under S f₀ P o) {T : NodeId → Prop} {g : Forest}
    (hT : ∀ j, T j → S.nodes j) (hrun : Steps S f₀ g) : Under (S.within T) g P o where
  overwrite := hu.overwrite
  covers.fields := hu.covers.fields
  covers.slots k es hP σ p v hp hv := (hu.covers.slots k es hP σ p v hp hv).within hT hrun

variable (hu : Under S f₀ P o) (hready : Edit.Ready S f₀ d i) (n : Nat)

include hu

theorem lands (n : Nat) (es : Entries) : Merge.Lands S f₀ P o (readParts o n) es :=
  Edit.Follows.lands hu.overwrite hu.covers
    (Edit.Follows.lands_readParts hu.overwrite hu.covers n) es

include hready

/-- The entries of a source. -/
theorem content (hP : P (d.forest.get i).kind es) :
    Edit.Follows S (Merge.content o (parts o (readParts o n) es) i) d fun _ _ => True :=
  (hu.lands n es d i hready hP).mono fun _ _ _ _ => trivial

/-- A value as the content of a node. -/
theorem asContent (hv : v.Offers S f₀ (P (d.forest.get i).kind)) :
    Edit.Follows S (Merge.asContent o (readParts o n) v i) d fun _ _ => True :=
  (Edit.Follows.asContent (Edit.Follows.lands_readParts hu.overwrite hu.covers n) hready hv
    fun gs _ _ => hu.lands n gs).mono fun _ _ _ _ => trivial

/-- An entry as the member under its key. -/
theorem member {e : Data × Data} (he : e.2.Offers S f₀ (P k)) :
    Edit.Follows S (intoMember o (readParts o n) i k e) d fun _ _ => True := by
  refine .bind (.indexedItem hready.formed hready.node hready.lt e.1) fun j d' hrun hj => ?_
  obtain ⟨slot, hlinked⟩ := hj
  obtain ⟨hready', hkind⟩ := hready.linked hrun hlinked
  exact hu.asContent hready' n (by rw [hkind]; exact he)

/-- Some entries as members under their keys. -/
theorem members {fs : Entries} (hfs : ∀ e ∈ fs, e.2.Offers S f₀ (P k)) :
    Edit.Follows S (List.forM fs (intoMember o (readParts o n) i k)) d fun _ _ => True :=
  (Edit.Follows.forM (R := fun _ _ => True) (fun _ _ _ _ _ _ => trivial) fun e he _ hrun =>
    hu.member (hready.steps hrun) n (hfs e he)).mono fun _ _ _ _ => trivial

/-- Some items of a list. -/
theorem items {slot : CollectionSlot}
    (hp : (d.forest.get i).kind.placement? slot.name = some (.listed k slot)) (xs : List Data)
    (hxs : ∀ x ∈ xs, x.Offers S f₀ fun gs => P k (gs.rest k slot)) :
    Edit.Follows S (Merge.items o (readParts o n) xs k slot i) d fun _ _ => True :=
  (Edit.Follows.items (v := .ofList xs)
    (Edit.Follows.lands_readParts hu.overwrite hu.covers n) hready hp rfl hxs
    fun gs _ _ => hu.lands n (gs.rest k slot)).mono fun _ _ _ _ => trivial

/-- One item of a list. -/
theorem item {slot : CollectionSlot}
    (hp : (d.forest.get i).kind.placement? slot.name = some (.listed k slot)) {x : Data}
    (hx : x.Offers S f₀ fun gs => P k (gs.rest k slot)) :
    Edit.Follows S (opened o n (fun ps => Merge.listed o k slot ps i) x) d fun _ _ => True := by
  have h := hu.items hready n hp [x] (List.forall_mem_singleton.2 hx)
  rwa [items_eq_opened, List.forM_eq_forM, List.forM_cons, List.forM_nil, bind_pure_unit] at h

/-- The entry for a slot. -/
theorem slot {σ : String} {p : Placement} (hp : (d.forest.get i).kind.placement? σ = some p)
    (hv : ∀ v, es.text? (wireName σ) = some v → p.Offers S f₀ P v) :
    Edit.Follows S (intoSlot o (readParts o n) i es σ p) d fun _ _ => True := by
  have hread := Edit.Follows.lands_readParts hu.overwrite hu.covers n
  rcases Kind.mem_layout_of_placement? hp with ⟨c, -, rfl⟩ | ⟨c, slot, -, rfl, rfl⟩ |
    ⟨c, slot, -, rfl, rfl⟩
  · rw [← intoSingular_eq]
    exact (Edit.Follows.intoSingular hu.overwrite hread (fun gs _ => hu.lands n gs) hready hp
      hv).mono fun _ _ _ _ => trivial
  · rw [← intoIndexed_eq]
    exact (Edit.Follows.intoIndexed hread (fun gs _ => hu.lands n gs) hready hp
      hv).mono fun _ _ _ _ => trivial
  · rw [← intoCollection_eq]
    exact (Edit.Follows.intoCollection hread (fun gs _ => hu.lands n gs) hready hp
      hv).mono fun _ _ _ _ => trivial

/-- The entries for some slots. -/
theorem slots (hk : (d.forest.get i).kind = k) {qs : List (String × Placement)}
    (hqs : ∀ q ∈ qs, q ∈ k.placements) (hP : P k es) :
    Edit.Follows S (qs.forM fun q => intoSlot o (readParts o n) i es q.1 q.2) d
      fun _ _ => True := by
  refine (Edit.Follows.forM (R := fun _ _ => True) (fun _ _ _ _ _ _ => trivial)
    fun q hq d' hrun => ?_).mono fun _ _ _ _ => trivial
  have hp := Kind.placement?_of_mem (hqs q hq)
  have hk' := (hrun.later.kind_eq i hready.lt).trans hk
  exact hu.slot (hready.steps hrun) n (hk' ▸ hp) fun v => hu.covers.slots k es hP q.1 q.2 v hp

/-- Some entries that name no slot. -/
theorem plain (hk : (d.forest.get i).kind = k) (es : Entries) (hP : P k es) {fs : Entries}
    (hfs : ∀ e ∈ fs, e ∈ es) :
    Edit.Follows S (fs.forM fun e => Merge.setPlain o i e.1 e.2) d fun _ _ => True := by
  refine (Edit.Follows.forM (R := fun _ _ => True) (fun _ _ _ _ _ _ => trivial)
    fun e he _ hrun => ?_).mono fun _ _ _ _ => trivial
  have hk' := (hrun.later.kind_eq i hready.lt).trans hk
  refine (Edit.Follows.setPlain hu.overwrite (hready.steps hrun) e.1 e.2
    fun s name hs hname => ?_).mono fun _ _ _ _ => trivial
  rw [hk'] at hname ⊢
  exact hu.covers.fields k es hP e (hfs e he) s name hs hname

end Merge.Under

end ApiDoc
