import ApiDoc.Proofs.Describe.Properties

namespace ApiDoc

/-!
# Types written again

A classifier that has written a type has drawn a sketch, and where the sketch has left the type
undecided the classifier draws it again at every later site:

* `Advances.describeItem`, `Advances.describeType` — classifiers lead to later sites;
* `Unknown.describes`, `Varied.describes` — types that are left undecided once more;
* `Plays.describeItem`, `Plays.describeType` — the sketch that is drawn.
-/

namespace Describe

variable {w : World} {key? : Option String}

/-! ### Later sites -/

namespace Advances

section Declared

variable {d : MetadataDescriber} {groups previous : Data}

/-- A declared type that is no collection. -/
theorem describeLeaf {name : String} (i : NodeId) (hkey : previous.truthy = true →
    key? ≠ some (Model.ofClass name groups).hash) :
    Advances key? (MetadataDescriber.describeLeaf w d name groups previous i) := by
  unfold MetadataDescriber.describeLeaf
  refine .ite (fun _ => .bind (.setField _ _ _) fun _ => .setField _ _ _) fun _ => ?_
  split
  · exact .setField _ _ _
  refine .ite (fun _ => .setField _ _ _) fun _ => ?_
  refine .ite (fun _ => .bind (.setField _ _ _) fun _ => .setField _ _ _) fun _ => ?_
  refine .bind (Repeats.isMoment (w := w) name).advances fun isMoment => ?_
  refine .ite (fun _ => .bind (.setField _ _ _) fun _ => .setField _ _ _) fun _ => ?_
  refine .bind (Repeats.isClass (w := w) d name).advances fun isClass => .ite (fun _ => ?_)
    fun _ => .pure _
  refine .bind (Repeats.register (t := w.classes) _ _).advances fun _ => .bind (.setField _ _ _) fun _ => ?_
  exact .ite (fun hprevious => .remember (hkey hprevious) _ _) fun _ => .pure _

mutual

/-- A declared type that is written does not change what is remembered around the models of other
    classes. -/
theorem describeItem (i : NodeId) (X : TypeExpr) (hkey : previous.truthy = true →
    ∀ name ∈ X.names, key? ≠ some (Model.ofClass name groups).hash) :
    Advances key? (MetadataDescriber.describeItem w d groups previous i X) := by
  match X with
  | .mk name params =>
    have hparams : previous.truthy = true → ∀ name ∈ TypeExpr.paramNames params,
        key? ≠ some (Model.ofClass name groups).hash :=
      fun hprevious n hn => hkey hprevious n (List.mem_cons_of_mem _ hn)
    have hrenew : ∀ i slot k, Advances key? (MetadataDescriber.renewChild i slot k) :=
      fun _ _ _ => .edit _
    unfold MetadataDescriber.describeItem
    split
    · exact .describeLeaf i fun hprevious => hkey hprevious name List.mem_cons_self
    · refine .bind (.setField _ _ _) fun _ => .ite (fun _ => .setField _ _ _) fun _ => ?_
      exact .bind (hrenew _ _ _) fun j => .describeParam j 1 params hparams
    · refine .bind (.setField _ _ _) fun _ => ?_
      exact .bind (hrenew _ _ _) fun j => .describeParam j 0 params hparams

/-- The type in a collection, by recursion on the parameters. -/
theorem describeParam (i : NodeId) (n : Nat) (params : List TypeParam) (hkey :
    previous.truthy = true → ∀ name ∈ TypeExpr.paramNames params,
      key? ≠ some (Model.ofClass name groups).hash) :
    Advances key? (MetadataDescriber.describeParam w d groups previous i n params) := by
  match n, params with
  | 0, [] | _ + 1, [] | 0, .literal _ :: _ =>
    unfold MetadataDescriber.describeParam
    exact .pure _
  | 0, .type X :: _ =>
    unfold MetadataDescriber.describeParam
    exact .describeItem i X fun hprevious name hname =>
      hkey hprevious name (List.mem_append_left _ hname)
  | n + 1, .type _ :: rest =>
    unfold MetadataDescriber.describeParam
    exact .describeParam i n rest fun hprevious name hname =>
      hkey hprevious name (List.mem_append_right _ hname)
  | n + 1, .literal _ :: rest =>
    unfold MetadataDescriber.describeParam
    exact .describeParam i n rest hkey

end

end Declared

section Inferred

variable {m : Model}

/-- The mark of null. -/
theorem markNullable (X : TypeInfo) (i : NodeId) :
    Advances key? (ObjectDescriber.markNullable X i) :=
  .ite (fun _ => .setField _ _ _) fun _ => .pure _

/-- The values of an enumeration. -/
theorem describeValues (values : List Data) (i : NodeId) :
    Advances key? (ObjectDescriber.describeValues values i) := by
  unfold ObjectDescriber.describeValues
  cases ObjectDescriber.valueType? values with
  | some type => exact .bind (.setField _ _ _) fun _ => .setField _ _ _
  | none => exact .setField _ _ _

/-- A class as the type of a property. -/
theorem describeObject (X : TypeInfo) (i : NodeId) :
    Advances key? (ObjectDescriber.describeObject w m X i) := by
  refine .bind (Repeats.resolve (w := w) _).advances fun class? => .ite (fun _ => ?_) fun _ => ?_
  · exact .bind (.setField _ _ _) fun _ => .bind (.setField _ _ _) fun _ => .markNullable X i
  · split
    · exact .bind (.describeValues _ i) fun _ => .markNullable X i
    · exact .bind (Repeats.register (t := w.classes) _ _).advances fun _ => .setField _ _ _

/-- A type, by recursion on it. -/
theorem describeType (property : String) (X : TypeInfo) (i : NodeId) :
    Advances key? (ObjectDescriber.describeType w m property X i) := by
  match X with
  | .mk _ _ _ true _ none => exact .throw _
  | .mk _ _ _ true key? (some value) =>
    unfold ObjectDescriber.describeType
    refine .ite (fun _ => ?_) fun _ => ?_ <;>
      exact .bind (.setField _ _ _) fun _ => .bind (.edit _) fun j => describeType property value j
  | .mk builtin nullable className? false key? value? =>
    unfold ObjectDescriber.describeType
    extract_lets X
    split
    · refine .bind (.setField _ _ _) fun _ => ?_
      split
      · exact .bind (.setField _ _ _) fun _ => .markNullable X i
      · exact .markNullable X i
    · exact .ite (fun _ => .describeObject X i) fun _ => .throw _

end Inferred

end Advances

end Describe

/-! ### Declared types -/

open Describe

variable {w : World} {key? : Option String} {T : NodeId → Prop} {C : Prop} {s s' L : Site}
  {d₀ : Draft} {i : NodeId} {A : Finset NodeId} {t : Tree}

namespace MetadataDescriber

variable {d : MetadataDescriber} {groups previous : Data} {X : TypeExpr}

/-- A name that has been found to stand for nothing stands for nothing later. -/
theorem Unknown.describesLeaf {name : String} (h : Unknown w d name s s') (hL : s'.Later key? L)
    (hagree : w.classes.Agree s.met L.met) (i : NodeId) :
    Settles L (describeLeaf w d name groups previous i) d₀ fun _ d' => d'.forest = d₀.forest := by
  obtain ⟨harray, hplain, hinteger, hnumber, s₁, hmoment, hclass⟩ := h
  obtain ⟨hlater, hmoments⟩ : s.Later key? s₁ ∧ _ := Repeats.isMoment name s false s₁ hmoment
  obtain ⟨hlater', hclasses⟩ : s₁.Later key? s' ∧ _ := Repeats.isClass d name s₁ false s' hclass
  have hL₁ := hlater'.trans hL
  unfold describeLeaf
  rw [hplain, harray, hinteger, hnumber]
  refine (hmoments L hL₁ hagree d₀).bind fun b d₁ ⟨hb, hd₁⟩ => ?_
  subst hb
  refine (hclasses L hL (hagree.between hlater.met hL₁.met) d₁).bind fun b d₂ ⟨hb, hd₂⟩ => ?_
  subst hb
  exact .pure (hd₂.trans hd₁)

/-- A type that is not known leaves the node as it is, again. -/
theorem Unknown.describes (h : Unknown w d X.name s s') (hL : s'.Later key? L)
    (hagree : w.classes.Agree s.met L.met) (i : NodeId) :
    Settles L (describeItem w d groups previous i X) d₀ fun _ d' => d'.forest = d₀.forest := by
  match X, h with
  | .mk name params, h =>
    have hnone : itemType? (.mk name params) = none :=
      if_neg (by rw [h.array]; exact Bool.false_ne_true)
    unfold describeItem
    rw [hnone]
    exact h.describesLeaf hL hagree i

/-- A declared type that has been written is a sketch that has been drawn. -/
theorem plays_describeItem (hkey : C → previous.truthy = true → ∀ name ∈ X.names,
      key? ≠ some (Model.ofClass name groups).hash)
    (hd : s.draft.forest.Holds t i A) (ht : t.All Tree.Typed) (hk : t.kind ∈ Kind.schemas) :
    Yields (describeItem w d groups previous i X) s fun _ s' => ∃ k : Sketch,
      Plays w key? T C (fun u => u.kind ∈ Kind.schemas ∧ k.Left) (k.draw true)
        (fun j => describeItem w d groups previous j X) s s' i A t := by
  intro _ s' h
  obtain ⟨k, -, hleft, hturned⟩ := describeItem_draws X s i A t hd hk _ s' h
  refine ⟨k, hturned, k.typed_draw t ht hk, k.draw_unmarked, fun hC => ?_,
    fun _ hdesk hupright hT => ⟨?_, fun L hL hagree d₀ j B u hu hP => ?_⟩⟩
  · exact Advances.describeItem i X (hkey hC) s _ s' h
  · obtain ⟨e, he⟩ := hdesk
    have hdoes : (Rules.upright T).Does (describeItem w d groups previous i X) s fun _ _ => True :=
      .describeItem (Rules.upright_lawful T) d trivial trivial i X (fun _ _ => trivial) s
        ⟨hupright, hT, hd.lt_size, hd.kind ▸ hk⟩
    exact (hdoes.upright he hupright h).1
  · obtain ⟨rfl, hunknown⟩ := hleft hP.2
    refine (hunknown.describes hL hagree j).mono fun _ d' hd' => ⟨u, rfl, ?_, hu.typed, ?_⟩
    · exact .same hu.holds hd'
    · exact hd' ▸ hu.upright

end MetadataDescriber

/-! ### Inferred types -/

namespace ObjectDescriber

variable {m : Model} {property : String} {X : TypeInfo}

/-- The values of an enumeration that has been found are written later as they have been. -/
theorem Varied.describes {k : Sketch} (h : Varied w X s.met k)
    (hagree : w.classes.Agree s.met L.met) (hu : d₀.Stands T i A t) (hk : t.kind ∈ Kind.schemas) :
    Settles L (describeObject w m X i) d₀ fun _ d' => d₀.Restores T i A (k.draw false t) d' := by
  obtain ⟨c, e, hclass, hdate, henum, hmixed, rfl⟩ := h.found
  -- The class is resolved as it was, since the two sites agree on what they have met.
  have hresolve : w.classes.resolve L.met (X.className?.getD "") = .ok (some c) := by
    rw [← hagree.resolve_eq]
    exact hclass
  -- Values of mixed types are drawn without a type.
  have hdrawn : (Sketch.values e.values X.nullable).draw false t
      = (t.put "enum" (.ofList e.values)).putFields (Sketch.nullMark X.nullable) := by
    show t.putFields (Sketch.values e.values X.nullable).fields = _
    rw [Sketch.fields, hmixed]
    rfl
  unfold describeObject
  refine (Settles.ofExcept (Q := fun c? d' => c? = some c ∧ d' = d₀) hresolve ⟨rfl, rfl⟩).bind ?_
  rintro _ _ ⟨rfl, rfl⟩
  dsimp only [Option.map_some, Option.getD_some, Option.bind_some]
  rw [if_neg (by rw [hdate]; exact Bool.false_ne_true), henum, hdrawn]
  unfold describeValues
  dsimp only
  rw [hmixed]
  refine (Settles.setField hk (by decide) _ hu).bind ?_
  rintro _ d₁ ⟨hturned, htyped, hup⟩
  unfold markNullable
  cases X.nullable with
  | false => exact .pure ⟨_, rfl, hturned, htyped, hup⟩
  | true =>
    refine (Settles.setField (t := t.put "enum" _) hk (by decide) (.bool true)
      ⟨hturned.holds, htyped, hup, hu.mem⟩).mono ?_
    rintro _ d₂ ⟨hturned', htyped', hup'⟩
    exact ⟨_, rfl, hturned.trans hturned', htyped', hup'⟩

/-- An inferred type that has been written is a sketch that has been drawn. -/
theorem plays_describeType (hd : s.draft.forest.Holds t i A) (ht : t.All Tree.Typed)
    (hk : t.kind ∈ Kind.schemas) : Yields (describeType w m property X i) s fun _ s' => ∃ k : Sketch,
      Plays w key? T C (fun u => u.kind ∈ Kind.schemas ∧ k.Left) (k.draw false)
        (fun j => describeType w m property X j) s s' i A t := by
  intro _ s' h
  obtain ⟨k, -, hleft, hturned⟩ := describeType_draws X s i A t hd ht hk _ s' h
  have hlater : s.Later key? s' := Advances.describeType property X i s _ s' h
  refine ⟨k, hturned, k.typed_draw t ht hk, k.draw_unmarked, fun _ => hlater,
    fun _ hdesk hupright hT => ⟨?_, fun L hL hagree d₀ j B u hu hP => ?_⟩⟩
  · obtain ⟨e, he⟩ := hdesk
    have hdoes := Rules.Does.describeType (Rules.upright_lawful T) (w := w) (m := m) trivial property X
      (fun _ _ => trivial) i s ⟨hupright, hT, hd.lt_size, hd.kind ▸ hk⟩
    exact (hdoes.upright he hupright h).1
  · obtain ⟨hvaried, hobject⟩ := hleft hP.2
    show Settles L (describeType w m property X j) d₀ _
    rw [hobject j]
    exact hvaried.describes hagree hu hP.1

end ObjectDescriber

end ApiDoc
