import ApiDoc.Proofs.Describe.Inference
import ApiDoc.Proofs.Describe.Parts

namespace ApiDoc

/-!
# Models written

Both describers write the schema of a model with the properties that it exposes:

* `MetadataDescriber.skipped`, `MetadataDescriber.visible` — the properties that a model exposes;
* `MetadataDescriber.describe_writes`, `ObjectDescriber.describe_writes` — a model described is a
  schema written;
* `MetadataDescriber.Starts`, `ObjectDescriber.Starts` — what a description starts from;
* `MetadataDescriber.Exposed`, `ObjectDescriber.exposedName` — the names under which the properties
  stand;
* `MetadataDescriber.plays_describe`, `ObjectDescriber.plays_describe` — the plan that is followed.
-/

open Describe

variable {w : World} {key? : Option String} {T : NodeId → Prop} {C : Prop} {s s' : Site} {m : Model}
  {i : NodeId} {A : Finset NodeId} {t : Tree} {e : Desk}

namespace Reader

/-- The override of a class applied. -/
theorem updateSchema_eq (r : Reader) (className : String) (i : NodeId) :
    r.updateSchema w className i
      = (w.classes.schemaOverride? className).toList.forM fun o => r.apply w o .null i := by
  unfold updateSchema
  cases w.classes.schemaOverride? className with
  | none => rfl
  | some o => exact (bind_pure_unit (x := r.apply w o .null i)).symm

/-- A desk at which more has been described has the same reader. -/
theorem ofDesk_later {key? : Option String} {e' : Desk} (h : e.Later key? e') :
    ofDesk e' = ofDesk e := by
  obtain ⟨ms, hms⟩ := h.registry
  unfold ofDesk atDesk
  rw [Option.bind_some, Option.bind_some, hms, Registry.addAll_policy?]
  rfl

end Reader

/-! ### Metadata -/

namespace MetadataDescriber

variable {d : MetadataDescriber} {p : PropertyMetadata} {c : ClassMetadata} {class? : Option String}

/-- Whether the groups of a model leave a property out. -/
def skipped (m : Model) (p : PropertyMetadata) : Except Failure Bool :=
  match m.groups with
  | .scalar .null => .ok false
  | g => (Exclusion.ofGroups g Groups.defaultGroup).skips p.groups

/-- The properties that a model exposes, as far as that can be told. -/
def visible (m : Model) (c : ClassMetadata) : List PropertyMetadata :=
  c.properties.filter fun p => (skipped m p).toOption == some false

/-- The overrides of the class that a model is of. -/
def classOverrides (w : World) (class? : Option String) : List Override :=
  (class?.bind w.classes.schemaOverride?).toList

/-- What a description of a model starts from: the desk, the metadata of the class, and the class if
    there is one. It can be told of each property whether it is exposed. -/
structure Starts (w : World) (d : MetadataDescriber) (m : Model) (s : Site) (e : Desk)
    (c : ClassMetadata) (class? : Option String) : Prop where
  metadata : d.metadata.find? (m.className?.getD "") = some c
  desk : s.desk? = some e
  class_eq : w.classes.resolve s.met (m.className?.getD "") = .ok class?
  skipped : ∀ p ∈ c.properties, ∃ b, skipped m p = .ok b

/-- A step that is taken unless the groups of a model leave a property out. -/
def unlessSkipped (m : Model) (p : PropertyMetadata) (act : Describe Unit) : Describe Unit := do
  if !(← Describe.ofExcept (skipped m p)) then act

/-- Where it can be told of each property whether it is exposed, those that are exposed are
    described. -/
theorem forM_unlessSkipped {ps : List PropertyMetadata} (f : PropertyMetadata → Describe Unit)
    (h : ∀ p ∈ ps, ∃ b, skipped m p = .ok b) : (ps.forM fun p => unlessSkipped m p (f p))
      = (ps.filter fun p => (skipped m p).toOption == some false).forM f := by
  induction ps with
  | nil => rfl
  | cons p ps ih =>
    obtain ⟨⟨b, hb⟩, hrest⟩ := List.forall_mem_cons.1 h
    have hfirst : unlessSkipped m p (f p) = if b then pure () else f p := by
      unfold unlessSkipped
      rw [hb]
      cases b <;> rfl
    show (unlessSkipped m p (f p) >>= fun _ => ps.forM _) = _
    rw [ih hrest, hfirst, List.filter_cons, hb]
    cases b <;> rfl

theorem skipped_of_forM {ps : List PropertyMetadata} {f : PropertyMetadata → Describe Unit} :
    Yields (ps.forM fun p => unlessSkipped m p (f p)) s
      fun _ _ => ∀ p ∈ ps, ∃ b, skipped m p = .ok b := by
  induction ps generalizing s with
  | nil => exact .pure fun _ h => absurd h List.not_mem_nil
  | cons p ps ih =>
    refine .bind (P := fun _ _ => ∃ b, skipped m p = .ok b) (.bind (P := fun _ _ =>
      ∃ b, skipped m p = .ok b) (.ofExcept fun b hb => ⟨b, hb⟩) fun _ _ hb _ _ _ => hb)
      fun _ _ hb => ih.mono fun _ _ hbs => List.forall_mem_cons.2 ⟨hb, hbs⟩

/-- A schema with its properties, of which some may be left out. -/
theorem describe_eq (hfind : d.metadata.find? (m.className?.getD "") = some c)
    (hdesk : s.desk? = some e)
    (hclass : w.classes.resolve s.met (m.className?.getD "") = .ok class?) :
    describe w d m i s = (do
      openSchema w (Reader.ofDesk e) (classOverrides w class?) i
      c.properties.forM fun p => unlessSkipped m p (describeProperty w d (Reader.ofDesk e) m p i)
      ensureProperties i : Describe Unit) s := by
  unfold describe openSchema
  rw [hfind]
  simp only [bind_assoc]
  refine (Results.bind_of_ok (desk_of_some hdesk missing)).trans ?_
  refine Results.bind_congr rfl fun _ s₁ hset => ?_
  obtain ⟨draft, -, rfl⟩ := edit_eq_ok hset
  have hresolve : Describe.resolve w (m.className?.getD "") { s with draft := draft }
      = .ok class? { s with draft := draft } := resolve_of_ok hclass
  refine (Results.bind_of_ok hresolve).trans ?_
  unfold unlessSkipped skipped
  -- Without groups nothing is left out.
  generalize m.groups = groups
  cases class? with
  | none =>
    cases groups with
    | scalar x => cases x <;> rfl
    | _ => rfl
  | some name =>
    dsimp only
    rw [Reader.updateSchema_eq]
    cases groups with
    | scalar x => cases x <;> rfl
    | _ => rfl

/-- A model described is a schema written. -/
theorem describe_writes (h : Starts w d m s e c class?) : describe w d m i s
    = writeSchema w (Reader.ofDesk e) (classOverrides w class?) (visible m c)
        (describeProperty w d (Reader.ofDesk e) m) i s := by
  rw [describe_eq h.metadata h.desk h.class_eq,
    forM_unlessSkipped (fun p => describeProperty w d (Reader.ofDesk e) m p i) h.skipped]
  rfl

/-- A description that has been made has started. -/
theorem exists_starts (h : describe w d m i s = .ok () s') :
    ∃ e c class?, Starts w d m s e c class? := by
  -- The run is read twice: for what it starts with, and for the loop over the properties.
  have hrun := h
  unfold describe at h
  cases hfind : d.metadata.find? (m.className?.getD "") with
  | none =>
    rw [hfind] at h
    cases h
  | some c =>
    rw [hfind] at h
    obtain ⟨e, s₁, hdesk, h⟩ := Results.bind_eq_ok.1 h
    obtain ⟨_, s₂, hset, h⟩ := Results.bind_eq_ok.1 h
    obtain ⟨class?, s₃, hresolve, -⟩ := Results.bind_eq_ok.1 h
    obtain ⟨draft, -, rfl⟩ := edit_eq_ok hset
    obtain ⟨hclass, rfl⟩ := ofExcept_eq_ok hresolve
    cases hd : s.desk? with
    | none =>
      rw [desk_of_none hd] at hdesk
      cases hdesk
    | some e' =>
      rw [desk_of_some hd] at hdesk
      cases hdesk
      rw [describe_eq hfind hd hclass] at hrun
      obtain ⟨_, s₁, -, hrun⟩ := Results.bind_eq_ok.1 hrun
      obtain ⟨_, s₂, hloop, -⟩ := Results.bind_eq_ok.1 hrun
      exact ⟨e, c, class?, hfind, hd, hclass, skipped_of_forM _ _ hloop⟩

/-- A description can start once more later. -/
theorem Starts.later (h : Starts w d m s e c class?) (hlater : s.Later key? s')
    (hagree : w.classes.Agree s.met s'.met) :
    ∃ e', Starts w d m s' e' c class? ∧ Reader.ofDesk e' = Reader.ofDesk e := by
  obtain ⟨e', hdesk, hlater⟩ := hlater.desk e h.desk
  exact ⟨e', ⟨h.metadata, hdesk, (hagree.resolve_eq _).symm.trans h.class_eq, h.skipped⟩,
    Reader.ofDesk_later hlater⟩

/-- A property that a model exposes is reached: those before it have been described. -/
def Reaches (w : World) (d : MetadataDescriber) (m : Model) (i : NodeId) (s : Site) (e : Desk)
    (c : ClassMetadata) (class? : Option String) (before : List PropertyMetadata)
    (p : PropertyMetadata) (s₁ : Site) : Prop :=
  ∃ after s₀, visible m c = before ++ p :: after ∧
    openSchema w (Reader.ofDesk e) (classOverrides w class?) i s = .ok () s₀ ∧
    before.forM (fun p => describeProperty w d (Reader.ofDesk e) m p i) s₀ = .ok () s₁

/-- What the properties that a model exposes are when they are reached: what the class has under
    them, and their names in the schema, of which no two are the same. -/
structure Exposed (w : World) (d : MetadataDescriber) (m : Model) (i : NodeId) (s : Site) (e : Desk)
    (c : ClassMetadata) (class? : Option String) (found : PropertyMetadata → Option Reflection)
    (name : PropertyMetadata → String) : Prop where
  reached : ∀ before p s₁, Reaches w d m i s e c class? before p s₁ →
    Exposes w d p s₁ (found p) (name p)
  nodup : ((visible m c).map name).Nodup

variable (key?) in
/-- A model that has been described has followed a plan. -/
theorem plays_describe {found : PropertyMetadata → Option Reflection}
    {name : PropertyMetadata → String}
    (hkey : C → key? = some m.hash ∧ ∀ p ∈ visible m c, NarrowsApart m p)
    (hstarts : Starts w d m s e c class?) (hexposed : Exposed w d m i s e c class? found name)
    (hclass : ∀ o ∈ classOverrides w class?,
      o.toEntries.All (Entries.Findable Data.EqualsItself) t.kind)
    (hgiven : ∀ p ∈ visible m c, ∀ o ∈ Reflection.given (found p), o.toEntries.ForProperty)
    (hd : s.draft.forest.Holds t i A) (ht : t.All Tree.Typed) (hk : t.kind ∈ Kind.schemas)
    (h : describe w d m i s = .ok () s') : ∃ p : Plan,
      p.Suits (classOverrides w class?) (visible m c) name (fun p => Reflection.given (found p))
        (fun p => p.type?.isSome) ∧
      Plays w key? T C (fun u => u.kind = t.kind ∧ ∀ q ∈ p.properties, q.Steady
          (Members.getD (Tree.mergeAll true p.sources u).properties q.name)) (p.run true)
        (writeSchema w (Reader.ofDesk e) (classOverrides w class?) (visible m c)
          (describeProperty w d (Reader.ofDesk e) m)) s s' i A t := by
  rw [describe_writes hstarts] at h
  refine Plays.writeSchema hgiven hexposed.nodup hclass hd ht hk
    (fun s₀ hopen before p after s₁ B u hxs hbefore hu htyped huk => ?_) _ s' h
  have hp : p ∈ visible m c := hxs ▸ List.mem_append_right _ List.mem_cons_self
  refine (plays_describeProperty (fun hC => ⟨(hkey hC).1, (hkey hC).2 p hp⟩)
    (hexposed.reached before p s₁ ⟨after, s₀, hxs, hopen, hbefore⟩) (hgiven p hp) hu htyped huk).mono
    fun _ _ ⟨plan, hname, hoverrides, hsketch, hplays⟩ => ⟨plan, ⟨hname, hoverrides, hsketch⟩, hplays⟩

end MetadataDescriber

/-! ### Annotations -/

namespace ObjectDescriber

variable {owner : String} {names? : Option (List String)}

/-- What a description of a model starts from: the desk, the class, and its properties if it has
    any. -/
structure Starts (w : World) (m : Model) (s : Site) (e : Desk) (owner : String)
    (names? : Option (List String)) : Prop where
  desk : s.desk? = some e
  class_eq : w.classes.resolve s.met (m.className?.getD "") = .ok (some owner)
  listed : w.classes.properties owner (requestedGroups m.groups) = .ok names?

/-- A model described is a schema written. -/
theorem describe_writes (h : Starts w m s e owner names?) : describe w m i s
    = writeSchema w (Reader.ofDesk e) (w.classes.schemaOverride? owner).toList (names?.getD [])
        (describeProperty w (Reader.ofDesk e) m owner) i s := by
  unfold describe writeSchema openSchema
  extract_lets className
  simp only [bind_assoc]
  refine Results.bind_congr rfl fun _ s₁ hset => ?_
  obtain ⟨draft, -, rfl⟩ := edit_eq_ok hset
  have hresolve : Describe.resolve w className { s with draft := draft }
      = .ok (some owner) { s with draft := draft } := resolve_of_ok h.class_eq
  refine (Results.bind_of_ok hresolve).trans ?_
  refine (Results.bind_of_ok (desk_of_some (s := { s with draft := draft }) h.desk missing)).trans ?_
  rw [Reader.updateSchema_eq, h.listed]
  rfl

/-- A description that has been made has started. -/
theorem exists_starts (h : describe w m i s = .ok () s') :
    ∃ e owner names?, Starts w m s e owner names? := by
  unfold describe at h
  extract_lets className at h
  obtain ⟨_, s₁, hset, h⟩ := Results.bind_eq_ok.1 h
  obtain ⟨draft, -, rfl⟩ := edit_eq_ok hset
  obtain ⟨class?, s₂, hresolve, h⟩ := Results.bind_eq_ok.1 h
  obtain ⟨hclass, rfl⟩ := ofExcept_eq_ok hresolve
  cases class? with
  | none => cases h
  | some owner =>
    obtain ⟨e, s₃, hdesk, h⟩ := Results.bind_eq_ok.1 h
    obtain ⟨_, s₄, -, h⟩ := Results.bind_eq_ok.1 h
    obtain ⟨names?, s₅, hlisted, -⟩ := Results.bind_eq_ok.1 h
    obtain ⟨hnames, rfl⟩ := ofExcept_eq_ok hlisted
    cases hd : s.desk? with
    | none =>
      rw [desk_of_none (s := { s with draft := draft }) hd] at hdesk
      cases hdesk
    | some e' => exact ⟨e', owner, names?, hd, hclass, hnames⟩

/-- A description can start once more later. -/
theorem Starts.later (h : Starts w m s e owner names?)
    (hlater : s.Later key? s') (hagree : w.classes.Agree s.met s'.met) :
    ∃ e', Starts w m s' e' owner names? ∧ Reader.ofDesk e' = Reader.ofDesk e := by
  obtain ⟨e', hdesk, hlater⟩ := hlater.desk e h.desk
  exact ⟨e', ⟨hdesk, (hagree.resolve_eq _).symm.trans h.class_eq, h.listed⟩,
    Reader.ofDesk_later hlater⟩

/-- The name under which a property stands in a schema. -/
def exposedName (w : World) (owner property : String) : String :=
  (Reflection.exposed (reflection? w owner property) (.str property)).str?.getD ""

theorem exposed_eq (w : World) (owner property : String) :
    Reflection.exposed (reflection? w owner property) (.str property)
      = .str (exposedName w owner property) := by
  obtain ⟨q, hq⟩ := Reflection.exists_exposed (reflection? w owner property) property
  rw [exposedName, hq]
  rfl

variable (key?) in
/-- A model that has been described has followed a plan. -/
theorem plays_describe (hstarts : Starts w m s e owner names?)
    (hnames : ((names?.getD []).map (exposedName w owner)).Nodup)
    (hclass : ∀ o ∈ (w.classes.schemaOverride? owner).toList,
      o.toEntries.All (Entries.Findable Data.EqualsItself) t.kind)
    (hgiven : ∀ property ∈ names?.getD [], ∀ o ∈ Reflection.given (reflection? w owner property),
      o.toEntries.ForProperty)
    (hd : s.draft.forest.Holds t i A) (ht : t.All Tree.Typed) (hk : t.kind ∈ Kind.schemas)
    (h : describe w m i s = .ok () s') : ∃ p : Plan,
      p.Suits (w.classes.schemaOverride? owner).toList (names?.getD []) (exposedName w owner)
        (fun property => Reflection.given (reflection? w owner property)) (fun _ => true) ∧
      Plays w key? T C (fun u => u.kind = t.kind ∧ ∀ q ∈ p.properties, q.Steady
          (Members.getD (Tree.mergeAll true p.sources u).properties q.name)) (p.run false)
        (writeSchema w (Reader.ofDesk e) (w.classes.schemaOverride? owner).toList (names?.getD [])
          (describeProperty w (Reader.ofDesk e) m owner)) s s' i A t := by
  rw [describe_writes hstarts] at h
  refine Plays.writeSchema hgiven hnames hclass hd ht hk
    (fun s₀ hopen before property after s₁ B u hxs hbefore hu htyped huk => ?_) _ s' h
  have hproperty : property ∈ names?.getD [] := hxs ▸ List.mem_append_right _ List.mem_cons_self
  refine (plays_describeProperty (exposed_eq w owner property) (hgiven property hproperty) hu htyped
    huk).mono fun _ _ ⟨plan, hname, hoverrides, hsketch, hplays⟩ =>
      ⟨plan, ⟨hname, hoverrides, hsketch⟩, hplays⟩

end ObjectDescriber

end ApiDoc
