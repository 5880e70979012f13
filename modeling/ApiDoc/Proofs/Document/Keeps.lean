import ApiDoc.Document.Children
import ApiDoc.Proofs.Describe.Results
import ApiDoc.Proofs.Document.Shape

namespace ApiDoc

/-!
# Edits that keep documents sound

* `Edit.Keeps` — an edit that, where it succeeds, leaves a sound forest in which only nodes of
  some kinds have changed;
* `Edit.Looks` — a computation that only looks at a forest;
* `Keeps.bind`, `Keeps.after_look`, `Keeps.forM` — edits and looks one after the other;
* `Keeps.assign`, `Keeps.assign?` — values set.
-/

open Forest

variable {α β : Type} {K : Kind → Prop} {d : Draft} {Q : α → Forest → Prop}
  {Q' : β → Forest → Prop}

/-- A node that exists and is of one of some kinds. -/
def Forest.Has (K : Kind → Prop) (f : Forest) (i : NodeId) : Prop :=
  i < f.size ∧ K (f.get i).kind

/-- A node of the forest is one of the kind later, too. -/
theorem Forest.Changes.has {L : Kind → Prop} {f g : Forest} (h : Changes K f g) {i : NodeId}
    (hi : f.Has L i) : g.Has L i :=
  ⟨Nat.lt_of_lt_of_le hi.1 h.size_le, by rw [h.kind_eq i hi.1]; exact hi.2⟩

/-- A child is a node of its kind. -/
theorem Forest.IsChild.has {f : Forest} {p j : NodeId} {k : Kind} (h : f.IsChild p k j)
    (hk : K k) : f.Has K j :=
  ⟨h.1, by rw [h.2.1]; exact hk⟩

namespace Edit

/-- An edit that, where it succeeds, leaves everything as it is, with what holds of its result. -/
def Looks (act : Edit α) (d : Draft) (P : α → Prop) : Prop :=
  ∀ a d', act d = .ok a d' → d' = d ∧ P a

namespace Looks

variable {P : α → Prop} {P' : β → Prop}

/-- An answer. -/
protected theorem pure (a : α) : Looks (pure a) d fun b => b = a :=
  fun _ _ h => by cases h; exact ⟨rfl, rfl⟩

/-- A failure. -/
protected theorem throw (e : Failure) : Looks (throw e : Edit α) d P :=
  fun _ _ h => nomatch h

/-- Less may be said of the answer. -/
theorem mono {act : Edit α} {P' : α → Prop} (h : Looks act d P) (hP : ∀ a, P a → P' a) :
    Looks act d P' := by
  intro a d' hact
  obtain ⟨hd, ha⟩ := h a d' hact
  exact ⟨hd, hP a ha⟩

/-- Two looks, one after the other. -/
theorem bind {x : Edit α} {f : α → Edit β} (hx : Looks x d P)
    (hf : ∀ a, P a → Looks (f a) d P') : Looks (x >>= f) d P' := by
  intro b d'' hact
  obtain ⟨a, d', hxa, hfb⟩ := Results.bind_eq_ok.1 hact
  obtain ⟨rfl, hP⟩ := hx a d' hxa
  exact hf a hP b d'' hfb

/-- A result that does not look at the draft. -/
theorem ofExcept (x : Except Failure α) : Looks (Edit.ofExcept x) d fun a => x = .ok a := by
  cases x with
  | ok a => exact (Looks.pure a).mono fun b hb => by rw [hb]
  | error e => exact .throw e

/-- The forest of the draft. -/
theorem forest : Looks Edit.forest d fun f => f = d.forest :=
  fun _ _ h => by cases h; exact ⟨rfl, rfl⟩

/-- A node of the draft. -/
theorem node (i : NodeId) : Looks (Edit.node i) d fun n => n = d.forest.get i :=
  fun _ _ h => by cases h; exact ⟨rfl, rfl⟩

/-- What reads the forest through a pure function. -/
theorem look (g : Forest → Except Failure α) :
    Looks (do Edit.ofExcept (g (← Edit.forest))) d fun a => g d.forest = .ok a :=
  .bind forest fun f hf => by rw [← hf]; exact .ofExcept _

/-- A value of a node. -/
theorem read (i : NodeId) (name : String) :
    Looks (Edit.read i name) d fun v => d.forest.read i name = .ok v :=
  look fun f => f.read i name

/-- The location of a node, as messages have it. -/
theorem location (i : NodeId) :
    Looks (Edit.location i) d fun l => d.forest.location i = .ok l :=
  look fun f => f.location i

/-- The content of a node. -/
theorem content (i : NodeId) : Looks (Edit.content i) d fun es => d.forest.content i = .ok es :=
  look fun f => f.content i

end Looks

/-- An edit that, where it succeeds, leaves a sound forest in which only nodes of some kinds have
    changed, with what holds of its result. -/
def Keeps (K : Kind → Prop) (act : Edit α) (d : Draft) (Q : α → Forest → Prop) : Prop :=
  ∀ a d', act d = .ok a d' → d'.forest.Sound ∧ Changes K d.forest d'.forest ∧ Q a d'.forest

namespace Keeps

/-- Less may be said of the result. -/
theorem mono {act : Edit α} {P : α → Forest → Prop} (h : Keeps K act d P)
    (hPQ : ∀ a f, P a f → Q a f) : Keeps K act d Q := by
  intro a d' hact
  obtain ⟨hs, hc, hP⟩ := h a d' hact
  exact ⟨hs, hc, hPQ a _ hP⟩

/-- What only looks keeps the forest. -/
theorem of_looks (hs : d.forest.Sound) {act : Edit α} {P : α → Prop} (h : Looks act d P)
    (hPQ : ∀ a, P a → Q a d.forest) : Keeps K act d Q := by
  intro a d' hact
  obtain ⟨rfl, hP⟩ := h a d' hact
  exact ⟨hs, .refl K _, hPQ a hP⟩

/-- An answer that fits the forest. -/
protected theorem pure (hs : d.forest.Sound) {a : α} (hQ : Q a d.forest) :
    Keeps K (pure a) d Q :=
  of_looks hs (.pure a) fun _ h => h ▸ hQ

/-- A failure. -/
protected theorem throw (e : Failure) : Keeps K (throw e : Edit α) d Q :=
  fun _ _ h => nomatch h

/-- A look before an edit. -/
theorem after_look {x : Edit α} {f : α → Edit β} {P : α → Prop} (hx : Looks x d P)
    (hf : ∀ a, P a → Keeps K (f a) d Q') : Keeps K (x >>= f) d Q' := by
  intro b d'' hact
  obtain ⟨a, d', hxa, hfb⟩ := Results.bind_eq_ok.1 hact
  obtain ⟨rfl, hP⟩ := hx a d' hxa
  exact hf a hP b d'' hfb

/-- An edit, and then one that starts from whatever sound forest the first leaves. -/
theorem bind {x : Edit α} {f : α → Edit β} (hx : Keeps K x d Q)
    (hf : ∀ a d', d'.forest.Sound → Changes K d.forest d'.forest → Q a d'.forest →
      Keeps K (f a) d' Q') : Keeps K (x >>= f) d Q' := by
  intro b d'' hact
  obtain ⟨a, d', hxa, hfb⟩ := Results.bind_eq_ok.1 hact
  obtain ⟨hs, hc, hQ⟩ := hx a d' hxa
  obtain ⟨hs', hc', hQ'⟩ := hf a d' hs hc hQ b d'' hfb
  exact ⟨hs', hc.trans hc', hQ'⟩

/-- A choice, with the condition known in each branch. -/
theorem ite {c : Prop} [Decidable c] {x y : Edit α} (hx : c → Keeps K x d Q)
    (hy : ¬c → Keeps K y d Q) : Keeps K (if c then x else y) d Q := by
  split
  · exact hx ‹_›
  · exact hy ‹_›

/-- A loop whose every step keeps the forest, however far it has come. -/
theorem forM (hs : d.forest.Sound) {f : α → Edit Unit} {xs : List α}
    (hf : ∀ x ∈ xs, ∀ d', d'.forest.Sound → Changes K d.forest d'.forest →
      Keeps K (f x) d' fun _ _ => True) : Keeps K (xs.forM f) d fun _ _ => True := by
  induction xs generalizing d with
  | nil => exact .pure hs trivial
  | cons x xs ih =>
    refine .bind (hf x List.mem_cons_self d hs (.refl K _)) fun _ d' hs' hc _ => ih hs' ?_
    intro y hy d'' hs'' hc'
    exact hf y (List.mem_cons_of_mem _ hy) d'' hs'' (hc.trans hc')

/-- A warning changes no node. -/
theorem warn (hs : d.forest.Sound) (message : String) :
    Keeps K (warn message) d fun _ _ => True := by
  intro a d' h
  cases h
  exact ⟨hs, .refl K _, trivial⟩

/-! ### Setting values -/

/-- A node replaced by one of its kind and parent that holds what it should. -/
theorem setNode (hs : d.forest.Sound) {i : NodeId} (hi : d.forest.Has K i) {n : Node}
    (hn : d.forest.SlotsOk i n) (hkind : n.kind = (d.forest.get i).kind)
    (hparent : n.parent = (d.forest.get i).parent)
    (hkey : d.forest.IsComponentSchema i → n.value "schema" = (d.forest.get i).value "schema") :
    Keeps K (setNode i n) d fun _ f => f = d.forest.put i n := by
  intro a d' h
  cases h
  obtain ⟨hs', hc⟩ := hs.replace hi.1 hi.2 hn hkind hparent hkey
  exact ⟨hs', hc, rfl⟩

/-- A value set, whose slots hold what they should afterwards. -/
theorem assign (hs : d.forest.Sound) {i : NodeId} (hi : d.forest.Has K i) {name : String}
    {v : Data} (hn : d.forest.SlotsOk i ((d.forest.get i).putValue name v))
    (hkey : d.forest.IsComponentSchema i → name ≠ "schema") :
    Keeps K (assign i name v) d
      fun _ f => f = d.forest.put i ((d.forest.get i).putValue name v) := by
  intro a d' h
  refine setNode hs hi hn rfl rfl (fun hc => ?_) a d' h
  exact Node.value_putValue_of_ne _ (hkey hc).symm v

/-- Names that stand for no value of a node. -/
def reserved : List String := ["parent", "extensions", "kind"]

/-- A value set under an attribute that is not reserved is put there. -/
theorem assign?_eq {n n' : Node} {name : String} {v : Data} (hname : name ∉ reserved)
    (h : n.assign? name v = .ok n') : n' = n.putValue name v ∧ name ∈ n.kind.attributes := by
  simp only [reserved, List.mem_cons, List.not_mem_nil, or_false, not_or] at hname
  unfold Node.assign? at h
  rw [if_neg (by simpa using hname.1), if_neg (by simpa using hname.2.1)] at h
  split at h
  · rename_i hmem
    exact ⟨(Except.ok.inj h).symm, by simpa using hmem⟩
  -- The kind could be given again, but is reserved.
  · split at h
    · rename_i hkind _
      exact absurd rfl hname.2.2
    · exact nomatch h

/-- A value set under a name that the node has to have. -/
theorem assign? (hs : d.forest.Sound) {i : NodeId} (hi : d.forest.Has K i) {name : String}
    {v : Data} (hname : name ∉ reserved)
    (hn : name ∈ (d.forest.get i).kind.attributes →
      d.forest.SlotsOk i ((d.forest.get i).putValue name v))
    (hkey : d.forest.IsComponentSchema i → name ≠ "schema") :
    Keeps K (assign? i name v) d
      fun _ f => f = d.forest.put i ((d.forest.get i).putValue name v) := by
  refine .after_look (.node i) fun n hnode => .after_look (.ofExcept _) fun n' hassign => ?_
  subst hnode
  obtain ⟨rfl, hmem⟩ := assign?_eq hname hassign
  exact assign hs hi (hn hmem) hkey

end Keeps

end Edit

end ApiDoc
