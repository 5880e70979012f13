import ApiDoc.Proofs.Describe.Overrides

namespace ApiDoc.ClassTable

/-!
# What can be found in a table of classes

The overrides and the types that describers come across are written with some class of the table.

* `mem_of_mem_lineage`, `mem_ownHints` — what is inherited belongs to a class of the table;
* `overrides`, `typeNames` — all overrides, and the classes in all inferred types;
* `schemaOverride?_mem`, `overrides_mem`, `typeNames_mem` — nothing else is found.
-/

variable {t : ClassTable}

/-! ### Classes of the table -/

theorem mem_of_find? {name : String} {c : ClassInfo} (h : find? t name = some c) : c ∈ t :=
  List.mem_reverse.1 (List.mem_of_find?_eq_some h)

theorem mem_of_mem_lineage {name : String} {c : ClassInfo} (h : c ∈ lineage t name) : c ∈ t := by
  obtain ⟨n, -, hn⟩ := List.mem_filterMap.1 h
  exact mem_of_find? hn

theorem mem_putHint {h x : String × Annotation} {hs : List (String × Annotation)}
    (hx : x ∈ putHint h hs) : x = h ∨ x ∈ hs := by
  induction hs with
  | nil => exact .inl (List.mem_singleton.1 hx)
  | cons g rest ih =>
    unfold putHint at hx
    split at hx
    · rcases List.mem_cons.1 hx with rfl | hx
      · exact .inl rfl
      · exact .inr (List.mem_cons_of_mem _ hx)
    · rcases List.mem_cons.1 hx with rfl | hx
      · exact .inr List.mem_cons_self
      · exact (ih hx).imp_right (List.mem_cons_of_mem _)

/-- The annotations of a class and its bases are annotations of classes of the table. -/
theorem mem_ownHints {name : String} {x : String × Annotation} (hx : x ∈ hints t name) :
    ∃ c ∈ t, x ∈ ownHints t c := by
  -- Hints that are put later replace those of the same name, and so come from one or the other.
  have hfold : ∀ (xs acc : List (String × Annotation)),
      x ∈ xs.foldl (fun acc h => putHint h acc) acc → x ∈ xs ∨ x ∈ acc := by
    intro xs
    induction xs with
    | nil => exact fun _ h => .inr h
    | cons y ys ih =>
      intro acc h
      rcases ih _ h with h | h
      · exact .inl (List.mem_cons_of_mem _ h)
      · rcases mem_putHint h with rfl | h
        · exact .inl List.mem_cons_self
        · exact .inr h
  rcases hfold _ _ hx with h | h
  · obtain ⟨c, hc, hxc⟩ := List.mem_flatMap.1 h
    exact ⟨c, mem_of_mem_lineage (List.mem_reverse.1 hc), hxc⟩
  · exact absurd h List.not_mem_nil

theorem mem_ownHints_of_lookup {name property : String} {a : Annotation}
    (h : (hints t name).lookup property = some a) : ∃ c ∈ t, (property, a) ∈ ownHints t c :=
  mem_ownHints (mem_of_lookup h)

theorem mem_recordFields {name : String} {f : FieldDecl}
    (h : f ∈ (instanceFields t name).getD []) : ∃ c ∈ t, f ∈ c.recordFields?.getD [] := by
  unfold instanceFields at h
  cases hfound : (lineage t name).findSome? (·.recordFields?) with
  | none =>
    rw [hfound] at h
    exact absurd h List.not_mem_nil
  | some fs =>
    rw [hfound] at h
    obtain ⟨c, hmem, hc⟩ := List.exists_of_findSome?_eq_some hfound
    refine ⟨c, mem_of_mem_lineage hmem, ?_⟩
    rw [hc]
    exact (List.mem_filter.1 h).1

/-! ### Overrides and types -/

/-- The overrides among extras. -/
def overridesOf (es : List Extra) : List Override :=
  es.filterMap fun
    | .override o => some o
    | .other _ => none

/-- The overrides that are written with the classes of a table. -/
def overrides (t : ClassTable) : List Override :=
  t.flatMap fun c => c.decl.schema?.toList
    ++ ((ownHints t c).flatMap fun h => overridesOf h.2.extras)
    ++ (c.recordFields?.getD []).filterMap (·.override?)

/-- The classes in the types inferred from the annotations of a table. -/
def typeNames (t : ClassTable) : List String :=
  t.flatMap fun c => (ownHints t c).flatMap fun h =>
    (h.2.infer false).flatMap TypeInfo.classNames

theorem schemaOverride?_mem {name : String} {o : Override} (h : schemaOverride? t name = some o) :
    o ∈ overrides t := by
  obtain ⟨c, hmem, hc⟩ := List.exists_of_findSome?_eq_some h
  refine List.mem_flatMap.2 ⟨c, mem_of_mem_lineage hmem, ?_⟩
  simp [hc]

/-- The overrides of a property that a class has. -/
theorem overrides_mem {owner name : String} {r : Reflection}
    (h : Reflection.ofClass t owner name = .ok r) : ∀ o ∈ r.overrides, o ∈ overrides t := by
  intro o ho
  obtain ⟨e, he, heo⟩ := List.mem_filterMap.1 ho
  -- The extras of the annotation and of the field keep only what is an override.
  obtain rfl : e = .override o := by
    cases e with
    | override p =>
      dsimp only at heo
      split at heo
      · rw [Option.some.inj heo]
      · exact nomatch heo
    | other v => exact nomatch heo
  -- A reflection that was found has its hint and its record field from the tables of the class.
  obtain ⟨hhint, hrecord⟩ : r.annotation? = (hints t owner).lookup name ∧
      r.recordOverride? = (((instanceFields t owner).getD []).find? (·.name == name)).bind
        (·.override?) := by
    unfold Reflection.ofClass at h
    dsimp only at h
    split at h
    · cases h
      exact ⟨rfl, rfl⟩
    · exact nomatch h
  rcases List.mem_append.1 he with he | he
  · -- An extra of the annotation.
    cases ha : r.annotation? with
    | none =>
      rw [ha] at he
      exact absurd he List.not_mem_nil
    | some a =>
      rw [ha] at he
      obtain ⟨c, hc, hmem⟩ := mem_ownHints_of_lookup (hhint.symm.trans ha)
      refine List.mem_flatMap.2 ⟨c, hc, List.mem_append_left _ (List.mem_append_right _ ?_)⟩
      exact List.mem_flatMap.2 ⟨_, hmem, List.mem_filterMap.2 ⟨_, he, rfl⟩⟩
  · -- The override of a record field.
    obtain ⟨p, hp, hpo⟩ := Option.map_eq_some_iff.1 (Option.mem_toList.1 he)
    cases hpo
    rw [hrecord] at hp
    obtain ⟨f, hf, hfo⟩ := Option.bind_eq_some_iff.1 hp
    obtain ⟨c, hc, hmem⟩ := mem_recordFields (List.mem_of_find?_eq_some hf)
    refine List.mem_flatMap.2 ⟨c, hc, List.mem_append_right _ ?_⟩
    exact List.mem_filterMap.2 ⟨f, hmem, hfo⟩

/-- The classes in a type inferred for a property. -/
theorem typeNames_mem {owner property name : String} {ti : TypeInfo}
    (hti : ti ∈ types t owner property) (hname : name ∈ ti.classNames) : name ∈ typeNames t := by
  unfold types at hti
  cases ha : inferable? t owner property with
  | none =>
    rw [ha] at hti
    exact absurd hti List.not_mem_nil
  | some a =>
    rw [ha] at hti
    have hlookup : (hints t owner).lookup property = some a := by
      unfold inferable? at ha
      split at ha
      · exact nomatch ha
      · exact ha
    obtain ⟨c, hc, hmem⟩ := mem_ownHints_of_lookup hlookup
    refine List.mem_flatMap.2 ⟨c, hc, List.mem_flatMap.2 ⟨_, hmem, ?_⟩⟩
    exact List.mem_flatMap.2 ⟨ti, hti, hname⟩

end ApiDoc.ClassTable
