import ApiDoc.Groups
import ApiDoc.Proofs.Data.Entries

namespace ApiDoc

/-!
# The groups that describing can come to

Describing narrows groups down to a property, reduces them to their names, and drops them.

* `Data.parts` — a value and all values in it, keys of mappings aside;
* `Groups.closure` — no groups, the parts of some groups, and the names of those parts;
* `Groups.nested_mem_closure`, `Groups.normalized_mem_closure` — nothing leads out of it.
-/

/-! ### Parts -/

namespace Data

mutual

/-- The value and all values in it, keys aside. -/
def parts : Data → List Data
  | .list xs mark => .list xs mark :: itemParts xs
  | .tuple xs mark => .tuple xs mark :: itemParts xs
  | .map es mark => .map es mark :: entryParts es
  | v => [v]

/-- The parts of items. -/
def itemParts : List Data → List Data
  | [] => []
  | x :: xs => parts x ++ itemParts xs

/-- The parts of the values of entries. -/
def entryParts : List (Data × Data) → List Data
  | [] => []
  | (_, v) :: rest => parts v ++ entryParts rest

end

/-- A value is part of itself. -/
theorem mem_parts_self (v : Data) : v ∈ v.parts := by
  cases v <;> exact List.mem_cons_self

/-- The parts of an item are parts of the list. -/
theorem mem_itemParts {x v : Data} {xs : List Data} (hx : x ∈ xs) (hv : v ∈ x.parts) :
    v ∈ itemParts xs := by
  induction xs with
  | nil => exact absurd hx List.not_mem_nil
  | cons y ys ih =>
    rcases List.mem_cons.1 hx with rfl | hx
    · exact List.mem_append_left _ hv
    · exact List.mem_append_right _ (ih hx)

/-- The parts of a value are parts of the mapping. -/
theorem mem_entryParts {e : Data × Data} {v : Data} {es : Entries} (he : e ∈ es)
    (hv : v ∈ e.2.parts) : v ∈ entryParts es := by
  induction es with
  | nil => exact absurd he List.not_mem_nil
  | cons f rest ih =>
    obtain ⟨k, w⟩ := f
    rcases List.mem_cons.1 he with rfl | he
    · exact List.mem_append_left _ hv
    · exact List.mem_append_right _ (ih he)

mutual

/-- The parts of a part are parts. -/
theorem parts_trans {v w : Data} : ∀ g : Data, w ∈ g.parts → v ∈ w.parts → v ∈ g.parts
  | .list xs mark, hw, hv => by
    rcases List.mem_cons.1 hw with rfl | hw
    · exact hv
    · exact List.mem_cons_of_mem _ (itemParts_trans xs hw hv)
  | .tuple xs mark, hw, hv => by
    rcases List.mem_cons.1 hw with rfl | hw
    · exact hv
    · exact List.mem_cons_of_mem _ (itemParts_trans xs hw hv)
  | .map es mark, hw, hv => by
    rcases List.mem_cons.1 hw with rfl | hw
    · exact hv
    · exact List.mem_cons_of_mem _ (entryParts_trans es hw hv)
  | .scalar _, hw, hv => by rwa [List.mem_singleton.1 hw] at hv
  | .set _ _, hw, hv => by rwa [List.mem_singleton.1 hw] at hv
  | .unset, hw, hv => by rwa [List.mem_singleton.1 hw] at hv
  | .node _, hw, hv => by rwa [List.mem_singleton.1 hw] at hv
  | .modelRef _ _, hw, hv => by rwa [List.mem_singleton.1 hw] at hv
  | .bare _, hw, hv => by rwa [List.mem_singleton.1 hw] at hv

/-- The parts of parts of items are parts of the items. -/
theorem itemParts_trans {v w : Data} : ∀ xs : List Data, w ∈ itemParts xs → v ∈ w.parts →
    v ∈ itemParts xs
  | [], hw, _ => absurd hw List.not_mem_nil
  | x :: xs, hw, hv => by
    rcases List.mem_append.1 hw with hw | hw
    · exact List.mem_append_left _ (parts_trans x hw hv)
    · exact List.mem_append_right _ (itemParts_trans xs hw hv)

/-- The same for the values of mappings. -/
theorem entryParts_trans {v w : Data} : ∀ es : List (Data × Data), w ∈ entryParts es →
    v ∈ w.parts → v ∈ entryParts es
  | [], hw, _ => absurd hw List.not_mem_nil
  | (_, x) :: rest, hw, hv => by
    rcases List.mem_append.1 hw with hw | hw
    · exact List.mem_append_left _ (parts_trans x hw hv)
    · exact List.mem_append_right _ (entryParts_trans rest hw hv)

end

end Data

namespace Groups

/-! ### Narrowing -/

/-- The entries of a specification are parts of it. -/
theorem entries_subset_parts {g x : Data} (h : x ∈ entries g) : x ∈ g.parts := by
  unfold entries at h
  split at h
  · exact absurd h List.not_mem_nil
  · exact List.mem_cons_of_mem _ (Data.mem_itemParts h (Data.mem_parts_self x))
  · exact List.mem_cons_of_mem _ (Data.mem_itemParts h (Data.mem_parts_self x))
  · rw [List.mem_singleton.1 h]
    exact Data.mem_parts_self _

/-- The specification given for a property is part of the item that gives it. -/
theorem scope?_mem_parts {property x v : Data} (h : scope? property x = some v) :
    v ∈ x.parts := by
  unfold scope? at h
  split at h
  · obtain ⟨hget, -⟩ := Option.filter_eq_some_iff.1 h
    obtain ⟨e, he, rfl⟩ := Entries.mem_of_get? hget
    exact List.mem_cons_of_mem _ (Data.mem_entryParts he (Data.mem_parts_self _))
  · exact nomatch h

/-- What a specification gives for a property is a part of it. -/
theorem nested_mem_parts {g property v : Data} (h : nested g property = some v) :
    v ∈ g.parts := by
  obtain ⟨x, hmem, hx⟩ := List.exists_of_findSome?_eq_some h
  exact Data.parts_trans g (entries_subset_parts hmem) (scope?_mem_parts hx)

/-! ### Names alone -/

/-- The names of a specification as a specification. -/
def normalized (g : Data) : Data := ofNames (normalize g defaultGroup)

/-- The names give nothing for any property. -/
theorem nested_normalized (g property : Data) : nested (normalized g) property = none := by
  have hnames : ∀ x ∈ names g, scope? property x = none := by
    intro x hx
    obtain ⟨-, hname⟩ := List.mem_filter.1 hx
    cases x with
    | scalar s => rfl
    | map es mark => exact nomatch hname
    | _ => rfl
  unfold normalized normalize
  split
  · rfl
  · split
    · rfl
    · exact List.findSome?_eq_none_iff.2 hnames

/-- The names of the names are the names. -/
theorem normalized_normalized (g : Data) : normalized (normalized g) = normalized g := by
  have hnames : names (.ofList (names g)) = names g := List.filter_filter.trans (by simp [names])
  unfold normalized
  cases hg : normalize g defaultGroup with
  | none => rfl
  | some ns =>
    -- The names, which are not just the default, are normalized as they are.
    obtain ⟨rfl, hdefault⟩ : ns = names g ∧ isDefault defaultGroup (names g) = false := by
      unfold normalize at hg
      split at hg
      · exact nomatch hg
      · split at hg
        · exact nomatch hg
        · rename_i hdefault
          exact ⟨(Option.some.inj hg).symm, by simpa using hdefault⟩
    show ofNames (if isDefault defaultGroup (names (.ofList (names g))) then none
      else some (names (.ofList (names g)))) = _
    rw [hnames, hdefault]
    rfl

/-! ### The closure -/

/-- No groups, the parts of some groups, and the names of those parts. -/
def closure (base : List Data) : List Data :=
  .null :: (base.flatMap Data.parts ++ (base.flatMap Data.parts).map normalized)

variable {base : List Data}

/-- No groups at all are in the closure. -/
theorem null_mem_closure : .null ∈ closure base := List.mem_cons_self

/-- The specifications that it starts from are in the closure. -/
theorem mem_closure_of_mem {g : Data} (h : g ∈ base) : g ∈ closure base :=
  List.mem_cons_of_mem _ (List.mem_append_left _
    (List.mem_flatMap.2 ⟨g, h, Data.mem_parts_self g⟩))

/-- The closure holds null, the parts of specifications, and these reduced to their names. -/
theorem mem_closure {g : Data} : g ∈ closure base ↔
    g = .null ∨ (∃ b ∈ base, g ∈ b.parts) ∨ ∃ p, (∃ b ∈ base, p ∈ b.parts) ∧ normalized p = g := by
  simp [closure]

/-- What groups of the closure give for a property is in the closure. -/
theorem nested_mem_closure {g property v : Data} (hg : g ∈ closure base)
    (h : nested g property = some v) : v ∈ closure base := by
  rcases mem_closure.1 hg with rfl | ⟨b, hb, hg⟩ | ⟨p, -, rfl⟩
  · exact nomatch h
  · exact mem_closure.2 (.inr (.inl ⟨b, hb, Data.parts_trans b hg (nested_mem_parts h)⟩))
  -- Among names there is nothing for a property.
  · rw [nested_normalized] at h
    exact nomatch h

/-- The names of groups of the closure are in the closure. -/
theorem normalized_mem_closure {g : Data} (hg : g ∈ closure base) :
    normalized g ∈ closure base := by
  rcases mem_closure.1 hg with rfl | hg | ⟨p, hp, rfl⟩
  · exact null_mem_closure
  · exact mem_closure.2 (.inr (.inr ⟨g, hg, rfl⟩))
  · rw [normalized_normalized]
    exact mem_closure.2 (.inr (.inr ⟨p, hp, rfl⟩))

end Groups

end ApiDoc
