import ApiDoc.Proofs.Describe.Drawing
import ApiDoc.Proofs.Describe.Writing

namespace ApiDoc

/-!
# Properties of models

Both describers write a property of a model into its schema, after some lookups:

* `Reflection.given`, `Reflection.exposed` — the overrides of a property and its exposed name;
* `MetadataDescriber.lookUp`, `MetadataDescriber.describeProperty_writes`,
  `ObjectDescriber.describeProperty_writes` — a property looked up and written;
* `MetadataDescriber.Exposes` — what a property is at a site;
* `MetadataDescriber.plays_describeProperty`, `ObjectDescriber.plays_describeProperty` — the plan
  that is followed.
-/

namespace Reflection

/-- The overrides of what a class has under a name, if it has anything. -/
def given (x? : Option Reflection) : List Override := (x?.map overrides).getD []

/-- The name under which a property stands in its schema: that of an override, or the one by which it
    is exposed. -/
def exposed (x? : Option Reflection) (name : Data) : Data :=
  (x?.map fun x => Reader.propertyName x name).getD name

/-- A text is exposed under a text. -/
theorem exists_exposed (x? : Option Reflection) (name : String) :
    ∃ q : String, exposed x? (.str name) = .str q := by
  cases x? with
  | none => exact ⟨name, rfl⟩
  | some x =>
    show ∃ q, Reader.propertyName x (.str name) = .str q
    unfold Reader.propertyName
    split
    · exact ⟨_, rfl⟩
    · exact ⟨name, rfl⟩

end Reflection

open Describe

variable {w : World} {key? : Option String} {T : NodeId → Prop} {C : Prop} {s s₁ s' : Site}
  {i : NodeId} {A : Finset NodeId} {t : Tree} {r : Reader} {m : Model} {q : String}

/-! ### Metadata -/

namespace MetadataDescriber

variable {d : MetadataDescriber} {p : PropertyMetadata} {x? : Option Reflection}

/-- What is looked up before a property is written: the groups of its type and those around them,
    its exposed name, and what the class has under its name. -/
def lookUp (w : World) (d : MetadataDescriber) (m : Model) (p : PropertyMetadata) :
    Describe ((Data × Data) × Data × Option Reflection) := do
  let groups ← d.propertyGroups m p
  let name ← Describe.ofExcept (d.exposedName p)
  let x? ← reflection? w p
  return (groups, name, x?)

/-- A property that has been looked up, written into a schema. -/
def writeFound (w : World) (d : MetadataDescriber) (r : Reader) (p : PropertyMetadata)
    (found : (Data × Data) × Data × Option Reflection) : NodeId → Describe Unit :=
  let groups := Groups.ofNames (Groups.normalize found.1.1 Groups.defaultGroup)
  writeProperty w r (Reflection.given found.2.2) groups (Reflection.exposed found.2.2 found.2.1)
    (p.type?.map fun X j => describeItem w d groups found.1.2 j X)

theorem describeProperty_writes (i : NodeId) : describeProperty w d r m p i
    = lookUp w d m p >>= fun found => writeFound w d r p found i := by
  unfold describeProperty lookUp
  simp only [bind_assoc, pure_bind]
  refine bind_congr fun g => bind_congr fun name => ?_
  unfold propertyNode writeFound writeProperty
  simp only [bind_assoc]
  refine bind_congr fun x? => ?_
  cases x? with
  | none =>
    simp only [Reflection.given, Reflection.exposed, Option.map_none, Option.getD_none]
    refine bind_congr fun j => bind_congr fun decided => ?_
    cases p.type? <;> rfl
  | some x =>
    simp only [bind_assoc, pure_bind]
    refine bind_congr fun j => bind_congr fun _ => bind_congr fun decided => ?_
    cases p.type? <;> rfl

/-- What a class has under the name of a property, where the class is found under its own name. -/
theorem reflection?_of_self {owner name : String} {x : Reflection} (hp : p.reflection? = none)
    (hclass : p.className = .str owner) (hname : p.name = .str name)
    (hself : w.classes.resolve [] owner = .ok (some owner))
    (hx : Reflection.ofClass w.classes owner name = .ok x) (s : Site) :
    reflection? w p s = .ok (some x) s := by
  have hof : Reflection.ofName w.classes s.met p.className p.name = .ok x := by
    rw [hclass, hname]
    show (w.classes.resolve s.met owner >>= _) = _
    rw [ClassTable.resolve_self hself]
    exact hx
  unfold reflection?
  rw [hp, hof]

/-- What a property is at a site: what the class has under its name, and the name in its schema. -/
structure Exposes (w : World) (d : MetadataDescriber) (p : PropertyMetadata) (s : Site)
    (x? : Option Reflection) (q : String) : Prop where
  reflection : reflection? w p s = .ok x? s
  name : (d.exposedName p).map (Reflection.exposed x?) = .ok (.str q)

/-- Only the classes met count. -/
theorem Exposes.congr (h : Exposes w d p s x? q) (hmet : w.classes.Agree s.met s₁.met) :
    Exposes w d p s₁ x? q := by
  obtain ⟨hx, hname⟩ := h
  obtain ⟨-, hfinds⟩ : s.Later none s ∧ _ := Repeats.reflection? p s x? s hx
  refine ⟨?_, hname⟩
  unfold reflection? at hx ⊢
  cases hp : p.reflection? with
  | some x =>
    rw [hp] at hx
    cases hx
    rfl
  | none =>
    rw [hp] at hx
    rw [← Lockstep.ofName_eq hmet]
    cases hfound : Reflection.ofName w.classes s.met p.className p.name with
    | ok x =>
      rw [hfound] at hx
      cases hx
      rfl
    | error e =>
      rw [hfound] at hx
      cases e <;> cases hx <;> rfl

/-- The groups around a property are remembered only where groups are narrowed down to it. No class
    is met on the way. -/
theorem propertyGroups_yields (d : MetadataDescriber) (m : Model) (p : PropertyMetadata) (s : Site) :
    Yields (d.propertyGroups m p) s fun g s' => s'.met = s.met ∧
      (g.2.truthy = true → Groups.nested m.groups p.name = some g.1) := by
  unfold propertyGroups
  -- A scope of the model's own decides at once, without a look at what was recorded.
  cases Groups.nested m.groups p.name with
  | some narrowed => exact .pure ⟨rfl, fun _ => rfl⟩
  | none =>
    -- Opening the desk meets no class.
    refine .bind (P := fun _ s' => s'.met = s.met) (fun e s' h => ?_) fun e s₁ h₁ => ?_
    · cases hdesk : s.desk? with
      | none =>
        rw [desk_of_none hdesk] at h
        cases h
      | some e' =>
        rw [desk_of_some hdesk] at h
        cases h
        rfl
    refine .ite (fun _ => .pure ⟨h₁, nofun⟩) fun _ => ?_
    cases p.type? with
    | none => exact .pure ⟨h₁, nofun⟩
    | some X =>
      -- Neither does looking up what was recorded for the type.
      refine .bind (P := fun _ s' => s'.met = s₁.met) (fun a s' h => ?_) fun a s₂ h₂ => ?_
      · obtain ⟨e, s₂, he, h⟩ := Results.bind_eq_ok.1 h
        cases hdesk : s₁.desk? with
        | none =>
          rw [desk_of_none hdesk] at he
          cases he
        | some e' =>
          rw [desk_of_some hdesk] at he
          cases he
          cases hlookup : e.cache.groupUsage.lookup X.name <;> rw [hlookup] at h <;> cases h <;> rfl
      · exact .ite (fun _ => .pure ⟨h₂.trans h₁, nofun⟩) fun _ => .pure ⟨h₂.trans h₁, nofun⟩

/-- No model that is narrowed down from a model has its identity, as far as a property leads. -/
def NarrowsApart (m : Model) (p : PropertyMetadata) : Prop :=
  ∀ X ∈ p.type?, ∀ narrowed, Groups.nested m.groups p.name = some narrowed → ∀ name ∈ X.names,
    (Model.ofClass name (Groups.ofNames (Groups.normalize narrowed Groups.defaultGroup))).hash
      ≠ m.hash

theorem looks_lookUp : Looks (lookUp w d m p) :=
  .bind (.propertyGroups d m p) fun _ => .bind (.ofExcept _) fun _ =>
    .bind (.reflection? w p) fun _ => .pure _

theorem repeats_lookUp : Repeats w.classes (some m.hash) (· = ·) (lookUp w d m p)
    (lookUp w d m p) :=
  .bind (.propertyGroups d m p) (fun _ => rfl) fun _ _ hg => hg ▸
    .bind (.ofExcept _) (fun _ => rfl) fun _ _ hn => hn ▸
      .bind (.reflection? p) (fun _ => rfl) fun _ _ hx => hx ▸ .pure rfl

/-- What is found of a property is what it is. -/
theorem lookUp_yields (m : Model) (h : Exposes w d p s x? q) :
    Yields (lookUp w d m p) s fun found _ => found.2.2 = x? ∧
      Reflection.exposed x? found.2.1 = .str q ∧
        (found.1.2.truthy = true → Groups.nested m.groups p.name = some found.1.1) := by
  refine .bind (propertyGroups_yields d m p s) fun groups s₁ ⟨hmet, hnarrowed⟩ => ?_
  refine .bind (.ofExcept (Q := fun name s' => d.exposedName p = .ok name ∧ s' = s₁)
    fun name hname => ⟨hname, rfl⟩) fun name s₂ ⟨hname, hs₂⟩ => ?_
  subst hs₂
  have hexposes : Exposes w d p s₂ x? q := h.congr (hmet ▸ .refl _ _)
  have hx := hexposes.reflection
  refine .bind (P := fun found _ => found = x?) (fun found s' hfound => ?_) fun found s' hfound => ?_
  · cases hx.symm.trans hfound
    rfl
  · refine .pure ⟨hfound, ?_, hnarrowed⟩
    have hq := h.name
    rw [hname] at hq
    exact Except.ok.inj hq

/-- A property that has been described has followed a plan. -/
theorem plays_describeProperty (hkey : C → key? = some m.hash ∧ NarrowsApart m p)
    (hexposes : Exposes w d p s x? q) (hos : ∀ o ∈ Reflection.given x?, o.toEntries.ForProperty)
    (hd : s.draft.forest.Holds t i A) (ht : t.All Tree.Typed) (hk : t.kind ∈ Kind.schemas) :
    Yields (describeProperty w d r m p i) s fun _ s' => ∃ plan : PropertyPlan, plan.name = q ∧
      List.Forall₂ (fun o es => Entries.Resolves o.toEntries es) (Reflection.given x?)
        plan.overrides ∧ plan.sketch?.isSome = p.type?.isSome ∧
      Plays w key? T C
        (fun u => u.kind ∈ Kind.schemas ∧ plan.Steady (Members.getD u.properties plan.name))
        (plan.into true) (describeProperty w d r m p) s s' i A t := by
  have hall : describeProperty w d r m p
      = fun j => lookUp w d m p >>= fun found => writeFound w d r p found j :=
    funext describeProperty_writes
  -- The description looks up first and writes then; what is looked up is played back as found.
  rw [hall]
  intro _ s' h
  obtain ⟨found, s₁, hlook, hwrite⟩ := Results.bind_eq_ok.1 h
  obtain ⟨hx, hq, hnarrowed⟩ := lookUp_yields m hexposes found s₁ hlook
  obtain ⟨⟨groups, previous⟩, name, x'?⟩ := found
  obtain rfl : x'? = x? := hx
  let groups' := Groups.ofNames (Groups.normalize groups Groups.defaultGroup)
  let content? := p.type?.map fun X j => describeItem w d groups' previous j X
  have hwrites : writeFound w d r p ((groups, previous), name, x'?)
      = writeProperty w r (Reflection.given x'?) groups' (.str q) content? := by
    unfold writeFound
    dsimp only at hq ⊢
    rw [hq]
  -- What is written is the type of the property, under the groups that were found.
  have hcontent : ∀ write ∈ content?, ∀ s j B c, s.draft.forest.Holds c j B → c.IsProperty →
      Yields (write j) s fun _ s' => ∃ k : Sketch, Plays w key? T C
        (fun u => u.kind ∈ Kind.schemas ∧ k.Left) (k.draw true) write s s' j B c := by
    intro write hwrite s j B c hc hproperty
    obtain ⟨X, hX, rfl⟩ := Option.map_eq_some_iff.1 hwrite
    refine plays_describeItem (fun hC hprevious name hname he => ?_) hc hproperty.typed
      hproperty.mem_schemas
    obtain ⟨hkey, hnarrows⟩ := hkey hC
    exact hnarrows X hX groups (hnarrowed hprevious) name hname
      (Option.some.inj (hkey.symm.trans he)).symm
  rw [hwrites] at hwrite
  obtain ⟨plan, rfl, hresolves, hsome, hplays⟩ :=
    Plays.writeProperty hos hcontent (looks_lookUp _ _ _ hlook ▸ hd) ht hk _ s' hwrite
  refine ⟨plan, rfl, hresolves, hsome.trans (Option.isSome_map ..), .before (fun hC => ?_)
    looks_lookUp hlook (hwrites ▸ hplays)⟩
  rw [(hkey hC).1]
  exact repeats_lookUp

end MetadataDescriber

/-! ### Annotations -/

namespace ObjectDescriber

variable {owner property : String}

/-- What a class has under the name of a property, if it has anything. -/
def reflection? (w : World) (owner property : String) : Option Reflection :=
  (Reflection.ofClass w.classes owner property).toOption

/-- The type of a property, inferred and written. -/
def describeInferred (w : World) (m : Model) (owner property : String) (i : NodeId) :
    Describe Unit := do
  describeType w m property (← onlyType w owner (m.className?.getD "") property) i

theorem describeProperty_writes (i : NodeId) : describeProperty w r m owner property i
    = writeProperty w r (Reflection.given (reflection? w owner property))
        ((Groups.nested m.groups (.str property)).getD m.groups)
        (Reflection.exposed (reflection? w owner property) (.str property))
        (some (describeInferred w m owner property)) i := by
  unfold describeProperty propertyNode reflection? writeProperty
  cases Reflection.ofClass w.classes owner property with
  | error e => rfl
  | ok x =>
    simp only [bind_assoc, pure_bind]
    rfl

/-- A property that has been described has followed a plan. -/
theorem plays_describeProperty
    (hq : Reflection.exposed (reflection? w owner property) (.str property) = .str q)
    (hos : ∀ o ∈ Reflection.given (reflection? w owner property), o.toEntries.ForProperty)
    (hd : s.draft.forest.Holds t i A) (ht : t.All Tree.Typed) (hk : t.kind ∈ Kind.schemas) :
    Yields (describeProperty w r m owner property i) s fun _ s' => ∃ plan : PropertyPlan,
      plan.name = q ∧
      List.Forall₂ (fun o es => Entries.Resolves o.toEntries es)
        (Reflection.given (reflection? w owner property)) plan.overrides ∧
      plan.sketch?.isSome = true ∧
      Plays w key? T C
        (fun u => u.kind ∈ Kind.schemas ∧ plan.Steady (Members.getD u.properties plan.name))
        (plan.into false) (describeProperty w r m owner property) s s' i A t := by
  have hall : describeProperty w r m owner property = _ := funext describeProperty_writes
  rw [hall, hq]
  have hcontent : ∀ write ∈ some (describeInferred w m owner property), ∀ s j B c,
      s.draft.forest.Holds c j B → c.IsProperty → Yields (write j) s fun _ s' => ∃ k : Sketch,
        Plays w key? T C (fun u => u.kind ∈ Kind.schemas ∧ k.Left) (k.draw false) write s s' j B c := by
    rintro _ ⟨⟩ s j B c hc hproperty _ s' h
    obtain ⟨X, s₁, hlook, hwrite⟩ := Results.bind_eq_ok.1 h
    have hlooks := Looks.onlyType w owner (m.className?.getD "") property
    obtain ⟨k, hplays⟩ := plays_describeType (hlooks s X s₁ hlook ▸ hc) hproperty.typed
      hproperty.mem_schemas _ s' hwrite
    exact ⟨k, .before (fun _ => .onlyType owner _ property) hlooks hlook hplays⟩
  intro _ s' h
  obtain ⟨plan, rfl, hresolves, hsome, hplays⟩ := Plays.writeProperty hos hcontent hd ht hk _ s' h
  exact ⟨plan, rfl, hresolves, hsome, hplays⟩

end ObjectDescriber

end ApiDoc
