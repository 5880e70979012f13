import ApiDoc.Proofs.Growth.Merge
import ApiDoc.Proofs.Tree.Orderly

namespace ApiDoc

/-!
# Keys of members

The key of a child in an indexed slot stands in a field of the child. Sources that leave these
fields alone never rename a child, and never make a second one with a key that is there:

* `Forest.Unambiguous` — members of indexed slots differ in their keys;
* `Steps.field_eq`, `Steps.unambiguous` — what is kept by steps that write no key;
* `Forest.Sole` — the only member with a key;
* `Edit.merge_keeps_keys` — the keys of a tree after a merge, old and new;
* `Edit.merge_renames` — a source that names a key.
-/

open Forest

/-- Two members that differ in a key. -/
def Forest.KeysDiffer (f : Forest) (key : String) (x y : Data) : Prop :=
  ∀ a b, x = .node a → y = .node b →
    ((f.get a).value key).identical ((f.get b).value key) = false

/-- A forest in which the members of indexed slots of some nodes differ in their keys. -/
def Forest.Unambiguous (T : NodeId → Prop) (f : Forest) : Prop :=
  ∀ i, T i → i < f.size → ∀ σ k key, (f.get i).kind.placement? σ = some (.keyed k key) →
    ((f.get i).value σ).nodes.Pairwise (f.KeysDiffer key)

/-- A licence under which no key of a member is written. -/
def Licence.KeepsKeys (S : Licence) : Prop :=
  ∀ k σ c key, Kind.placement? k σ = some (.keyed c key) → ¬S.fields c key

/-- The key of a child is an internal field. -/
theorem Kind.key_mem_internalFields {k c : Kind} {σ key : String}
    (hp : k.placement? σ = some (.keyed c key)) : key ∈ c.internalFields := by
  have hall : ∀ k : Kind, ∀ p ∈ k.layout.indexed, p.2.key ∈ p.1.internalFields := by
    intro k
    cases k <;> decide
  obtain ⟨slot, hslot, -, rfl⟩ := mem_indexed_of_placement? hp
  exact hall k _ hslot

namespace Forest

variable {S : Licence} {f g : Forest} {i j : NodeId} {k : Kind} {σ key name : String}

/-! ### Steps that write no key -/

/-- A field that may not be written keeps its value. -/
theorem Steps.field_eq (hj : j < f.size) (hname : name ∈ (f.get j).kind.fields)
    (hscalar : name ∉ (f.get j).kind.arrayFields) (hmay : ¬S.fields (f.get j).kind name)
    (hrun : Steps S f g) : (g.get j).value name = (f.get j).value name := by
  induction hrun with
  | refl => rfl
  | tail hrun hlast ih =>
    have hlater := Steps.later hrun
    have hkind := hlater.kind_eq j hj
    rw [← ih]
    refine ((hlast.becomes (Nat.lt_of_lt_of_le hj hlater.size_le)).field_eq ?_ ?_).resolve_right ?_
    · rw [hkind]
      exact hname
    · rw [hkind]
      exact hscalar
    · rintro ⟨hmay', -⟩
      rw [hkind] at hmay'
      exact hmay hmay'

/-- A child keeps its key. -/
theorem Step.key_eq (hS : S.KeepsKeys) {c : Kind} (hp : c.placement? σ = some (.keyed k key))
    (hj : f.IsChild i k j) (hstep : Step S f g) :
    (g.get j).value key = (f.get j).value key := by
  obtain ⟨hfield, hscalar⟩ := Kind.keyed_field hp
  refine Steps.field_eq hj.1 ?_ ?_ ?_ (.step hstep)
  · rw [hj.2.1]
    exact hfield
  · rw [hj.2.1]
    exact hscalar
  · rw [hj.2.1]
    exact hS c σ k key hp

/-- Keys stay distinct. -/
theorem Step.unambiguous (hS : S.KeepsKeys) (hf : f.Formed S.nodes)
    (hapart : f.Unambiguous S.nodes) (hstep : Step S f g) : g.Unambiguous S.nodes := by
  intro j hT hj σ k key hp
  -- Members that were there keep their keys.
  have hold : j < f.size → (f.get j).kind.placement? σ = some (.keyed k key) →
      ((f.get j).value σ).nodes.Pairwise (g.KeysDiffer key) ∧
        ∀ x ∈ ((f.get j).value σ).nodes, ∃ c, x = .node c ∧
          (g.get c).value key = (f.get c).value key := by
    intro hj hp
    have hmembers : ∀ x ∈ ((f.get j).value σ).nodes, ∃ c, x = .node c ∧
        (g.get c).value key = (f.get c).value key := by
      intro x hx
      obtain ⟨c, rfl, hc, -⟩ := hf.member hT hj hp rfl hx
      exact ⟨c, rfl, hstep.key_eq hS hp hc⟩
    refine ⟨(hapart j hT hj σ k key hp).imp_of_mem fun {x y} hx hy hxy => ?_, hmembers⟩
    obtain ⟨a, rfl, ha⟩ := hmembers x hx
    obtain ⟨b, rfl, hb⟩ := hmembers y hy
    rintro _ _ ⟨⟩ ⟨⟩
    rw [ha, hb]
    exact hxy a b rfl rfl
  cases hstep.gains hj hp with
  | none h =>
    rw [h]
    exact .nil
  | same hj hp h =>
    rw [h]
    exact (hold hj hp).1
  | more hj hp h hkey =>
    obtain ⟨hkept, hmembers⟩ := hold hj hp
    rw [h]
    refine List.pairwise_append.2 ⟨hkept, List.pairwise_singleton _ _, fun x hx y hy => ?_⟩
    obtain ⟨c, rfl, hc⟩ := hmembers x hx
    cases List.mem_singleton.1 hy
    rintro _ _ ⟨⟩ ⟨⟩
    rw [hc]
    exact hkey k key rfl c hx

/-- They stay distinct in any number of steps. -/
theorem Steps.unambiguous (hS : S.KeepsKeys) (hf : f.Formed S.nodes)
    (hapart : f.Unambiguous S.nodes) (hrun : Steps S f g) : g.Unambiguous S.nodes :=
  (Steps.induct (I := fun f => f.Formed S.nodes ∧ f.Unambiguous S.nodes) (R := fun _ _ => True)
    (fun _ => trivial) (fun _ _ _ _ _ => trivial)
    (fun _ _ h hstep => ⟨⟨hstep.formed h.1, hstep.unambiguous hS h.1 h.2⟩, trivial⟩)
    ⟨hf, hapart⟩ hrun).1.2

/-! ### Members with a key -/

/-- A node that stands in a slot as the only member with a key. -/
def Sole (f : Forest) (i : NodeId) (σ key s : String) (j : NodeId) : Prop :=
  ∃ n : Nat, ((f.get i).value σ).nodes[n]? = some (.node j) ∧ (f.get j).value key = .str s ∧
    ∀ m c : Nat, ((f.get i).value σ).nodes[m]? = some (.node c) →
      (f.get c).value key = .str s → m = n

/-- A member with a key is the only one that has it. -/
theorem Unambiguous.sole {T : NodeId → Prop} (hapart : f.Unambiguous T) (hi : T i)
    (hlt : i < f.size) (hp : (f.get i).kind.placement? σ = some (.keyed k key))
    (hj : .node j ∈ ((f.get i).value σ).nodes) {s : String} (hkey : (f.get j).value key = .str s) :
    f.Sole i σ key s j := by
  obtain ⟨n, hn⟩ := List.getElem?_of_mem hj
  refine ⟨n, hn, hkey, fun m c hm hc => ?_⟩
  -- Two members with the same key would not differ in it.
  have hsame : (Data.str s).identical (.str s) = true := Data.identical_str_iff.2 rfl
  have hdiffer : ∀ {m n a b : Nat}, m < n → ((f.get i).value σ).nodes[m]? = some (.node a) →
      ((f.get i).value σ).nodes[n]? = some (.node b) → (f.get a).value key = .str s →
      (f.get b).value key = .str s → False := by
    intro m n a b hmn hm hn ha hb
    obtain ⟨hm', hm⟩ := List.getElem?_eq_some_iff.1 hm
    obtain ⟨hn', hn⟩ := List.getElem?_eq_some_iff.1 hn
    have hab := List.pairwise_iff_getElem.1 (hapart i hi hlt σ k key hp) m n hm' hn' hmn a b hm hn
    rw [ha, hb, hsame] at hab
    cases hab
  rcases Nat.lt_trichotomy m n with hlt | heq | hgt
  · exact (hdiffer hlt hm hn hc hkey).elim
  · exact heq
  · exact (hdiffer hgt hn hm hkey hc).elim

/-- A child that a node has in one of its slots, for a text the only one with this key if the
    children stand under keys. -/
structure LinkedOnce (S : Licence) (f : Forest) (i : NodeId) (σ : String) (p : Placement) (v : Data)
    (j : NodeId) : Prop extends f.Linked S i σ p v j where
  sole : ∀ k key s, p = .keyed k key → v = .str s → f.Sole i σ key s j

/-- Where keys are distinct a source is linked to one member only. -/
theorem Linked.once (hS : S.KeepsKeys) (hapart : f.Unambiguous S.nodes) {p : Placement} {v : Data}
    (h : f.Linked S i σ p v j) : f.LinkedOnce S i σ p v j := by
  refine ⟨h, ?_⟩
  rintro k key s rfl rfl
  have hkey := h.key k key s rfl rfl (hS _ _ _ _ h.placed)
  exact hapart.sole h.owner h.holder h.placed (h.slot (.inl rfl)) hkey

/-- A licence to change what is in a tree or still to come, but for internal fields. -/
def keyLicence (f : Forest) (i : NodeId) (overwrite : Bool) : Licence :=
  f.licence i (fun k name => name ∉ k.internalFields) overwrite

/-- The licence that leaves keys alone does so. -/
theorem keyLicence_keepsKeys (f : Forest) (i : NodeId) (overwrite : Bool) :
    (f.keyLicence i overwrite).KeepsKeys :=
  fun _ _ _ _ hp hmay => hmay (Kind.key_mem_internalFields hp)

end Forest

/-! ### Merges -/

namespace Edit

variable {o : MergeOptions} {es : Entries} {mark : Nat} {d d' : Draft} {i : NodeId}

/-- A source that names no internal field of the kinds that it reaches leaves all keys as they are,
    and each of its own keys has one member afterwards, at every depth. -/
theorem merge_keeps_keys (hf : d.forest.WellFormed i)
    (hkeys : d.forest.Unambiguous (d.forest.Below i))
    (hes : (d.forest.keyLicence i o.overwrite).Permits d.forest (d.forest.get i).kind es)
    (h : merge o (.map es mark) i d = .ok () d') :
    (∀ j, d.forest.Below i j → ∀ name ∈ (d.forest.get j).kind.internalFields,
      (d'.forest.get j).value name = (d.forest.get j).value name) ∧
    Merge.Absorbed (o.policy = .warn) (d'.forest.LinkedOnce (d.forest.keyLicence i o.overwrite))
      (.content (d.forest.get i).kind) i (.map es mark) := by
  obtain ⟨P, hcovers, hP⟩ := hes
  have hapart : d.forest.Unambiguous (d.forest.Around i) := fun j hj hlt =>
    hkeys j (hj.resolve_right (Nat.not_le_of_lt hlt)) hlt
  have hfollows := Follows.merge (o := o) (.map es mark) rfl hcovers hf.formed (Or.inl .self)
    hf.root hP
  have hrun := hfollows.run h
  have hS := d.forest.keyLicence_keepsKeys i o.overwrite
  refine ⟨fun j hj name hname => ?_, (hfollows.2 _ _ h).imp fun _ _ _ _ _ hl =>
    hl.once hS (hrun.unambiguous hS hf.formed hapart)⟩
  obtain ⟨hfield, hscalar⟩ := Kind.internalFields_spec _ name hname
  exact hrun.field_eq (hf.lt_size hj) hfield hscalar fun hmay => absurd hname hmay

/-- A source without nodes that names no internal field is permitted. -/
theorem permits_of_isPermitted (f : Forest) (i : NodeId) (overwrite : Bool) (depth : Nat) {k : Kind}
    (h : es.isPermitted (fun k name => !k.internalFields.contains name) depth k = true) :
    (f.keyLicence i overwrite).Permits f k es :=
  Licence.permits_of_isPermitted (fun k name hname hmem => by simp [hmem] at hname) h

/-- A schema, as a document. -/
def oneSchema (name : String) (fields : Entries) : Entries :=
  [(.str "components", .ofEntries [(.str "schemas", .ofEntries [(.str name, .ofEntries fields)])])]

/-- A schema that is replaced in part. -/
theorem merge_keeps_keys_schema : ∃ d d',
    merge {} (.map (oneSchema "A" [(.str "type", .str "object")]) 0) 0 twoDocuments = .ok () d ∧
      merge { overwrite := true } (.map (oneSchema "A" [(.str "type", .str "string")]) 0) 0 d
        = .ok () d' ∧
      (∀ j, d.forest.Below 0 j → ∀ name ∈ (d.forest.get j).kind.internalFields,
        (d'.forest.get j).value name = (d.forest.get j).value name) ∧
      Merge.Absorbed (Policy.error = .warn) (d'.forest.LinkedOnce (d.forest.keyLicence 0 true))
        (.content (d.forest.get 0).kind) 0
        (.map (oneSchema "A" [(.str "type", .str "string")]) 0) := by
  have h : Results.endsIn (merge {} (.map (oneSchema "A" [(.str "type", .str "object")]) 0) 0)
      (fun d => Results.endsIn (merge { overwrite := true }
        (.map (oneSchema "A" [(.str "type", .str "string")]) 0) 0) (fun _ => true) d)
      twoDocuments = true := by
    decide +kernel
  obtain ⟨d, hd, h⟩ := Results.exists_of_endsIn h
  obtain ⟨d', hd', -⟩ := Results.exists_of_endsIn h
  -- The document before both merges.
  have hleaf : twoDocuments.forest.WellFormed 0 := .leaf (by decide) fun _ _ => rfl
  have hempty : twoDocuments.forest.Unambiguous (twoDocuments.forest.Around 0) := by
    intro j _ hlt σ k key _
    have hvalues : ∀ j < 2, (twoDocuments.forest.get j).values = [] := by decide
    rw [Node.value, hvalues j hlt]
    exact .nil
  have hpermits : (twoDocuments.forest.keyLicence 0 false).Permits twoDocuments.forest .openApi
      (oneSchema "A" [(.str "type", .str "object")]) :=
    permits_of_isPermitted _ _ _ 4 (by decide +kernel)
  obtain ⟨P, hcovers, hP⟩ := hpermits
  have hrun := (Follows.merge (o := {}) (.map _ 0) rfl hcovers hleaf.formed (Or.inl .self)
    hleaf.root hP).run hd
  have hsize := Nat.lt_of_lt_of_le hleaf.root hrun.later.size_le
  have hf : d.forest.WellFormed 0 := (hrun.formed hleaf.formed).wellFormed (Or.inl .self) hsize
  have hkeys := hrun.unambiguous (twoDocuments.forest.keyLicence_keepsKeys 0 false) hleaf.formed
    hempty
  have hkind : (d.forest.get 0).kind = .openApi := hrun.later.kind_eq 0 hleaf.root
  refine ⟨d, d', hd, hd', merge_keeps_keys hf (fun j hj hlt => ?_) ?_ hd'⟩
  · exact hkeys j ((hrun.formed hleaf.formed).below (Or.inl .self) hsize hj).1 hlt
  · rw [hkind]
    exact permits_of_isPermitted _ _ _ 4 (by decide +kernel)

/-- A source that names a key renames a member, and has none under its own key afterwards. -/
theorem merge_renames : ∃ d d',
    merge {} (.map (oneSchema "A" []) 0) 0 twoDocuments = .ok () d ∧
      merge { overwrite := true } (.map (oneSchema "A" [(.str "schema", .str "B")]) 0) 0 d
        = .ok () d' ∧
      (d.forest.get 3).value "schema" = .str "A" ∧ (d'.forest.get 3).value "schema" = .str "B" ∧
      ((d'.forest.get 2).value "schemas").nodes.mapM Data.node? = some [3] := by
  have h : Results.endsIn (merge {} (.map (oneSchema "A" []) 0) 0) (fun d =>
      ((d.forest.get 3).value "schema").identical (.str "A") &&
        Results.endsIn (merge { overwrite := true }
          (.map (oneSchema "A" [(.str "schema", .str "B")]) 0) 0) (fun d' =>
            ((d'.forest.get 3).value "schema").identical (.str "B") &&
              ((d'.forest.get 2).value "schemas").nodes.mapM Data.node? == some [3]) d)
      twoDocuments = true := by
    decide +kernel
  obtain ⟨d, hd, h⟩ := Results.exists_of_endsIn h
  obtain ⟨hold, h⟩ := Bool.and_eq_true_iff.1 h
  obtain ⟨d', hd', h⟩ := Results.exists_of_endsIn h
  obtain ⟨hnew, h⟩ := Bool.and_eq_true_iff.1 h
  exact ⟨d, d', hd, hd', Data.identical_str_iff.1 hold, Data.identical_str_iff.1 hnew,
    beq_iff_eq.1 h⟩

end Edit

end ApiDoc
