import ApiDoc.Class.Reflection
import ApiDoc.Proofs.Data.Entries

namespace ApiDoc

/-!
# Properties that groups expose

* `Groups.NotMembers` — the failures to read declared groups as a set;
* `Exclusion.skips_eq_error`, `ClassTable.properties_eq_error` — listing the properties of a class
  fails in no other way;
* `Groups.Declares`, `Groups.Asks` — groups that properties declare, and requests for groups by
  their names;
* `Groups.exposes` — whether a request exposes a property;
* `Exclusion.skips_eq`, `ClassTable.properties_eq` — all properties that are exposed are listed, and
  no others.
-/

namespace Results

variable {ε α β : Type} {e : ε}

/-- Two computations fail if the first does, or the second after it. -/
theorem except_bind_eq_error {x : Except ε α} {f : α → Except ε β} :
    (x >>= f) = .error e ↔ x = .error e ∨ ∃ a, x = .ok a ∧ f a = .error e := by
  cases x with
  | error e' =>
    constructor
    · rintro ⟨⟩
      exact .inl rfl
    · rintro (⟨⟨⟩⟩ | ⟨_, ⟨⟩, _⟩)
      rfl
  | ok a =>
    constructor
    · exact fun h => .inr ⟨a, rfl, h⟩
    · rintro (⟨⟨⟩⟩ | ⟨_, ⟨⟩, h⟩)
      exact h

/-- Choosing among values fails where the choice fails for one of them. -/
theorem filterAuxM_eq_error {p : α → Except ε Bool} {xs kept : List α}
    (h : xs.filterAuxM p kept = .error e) : ∃ x ∈ xs, p x = .error e := by
  induction xs generalizing kept with
  | nil => cases h
  | cons x xs ih =>
    unfold List.filterAuxM at h
    rcases except_bind_eq_error.1 h with h | ⟨b, -, h⟩
    · exact ⟨x, List.mem_cons_self, h⟩
    · obtain ⟨y, hy, h⟩ := ih h
      exact ⟨y, List.mem_cons_of_mem _ hy, h⟩

end Results

open Results

namespace Groups

/-- The failures to read declared groups as a set. -/
inductive NotMembers : Failure → Prop
  | unhashable (typeName : String) : NotMembers (.unhashable typeName)
  | notIterable (typeName : String) : NotMembers (.notIterable typeName)

variable {v : Data} {e : Failure}

/-- Reading the items of a value fails in no other way. -/
theorem items_eq_error (h : items v = .error e) : NotMembers e := by
  unfold items at h
  split at h
  all_goals cases h
  exact .notIterable _

/-- Neither does the check that they can be members. -/
theorem forM_hashable_eq_error {xs : List Data} (h : xs.forM hashable = .error e) :
    NotMembers e := by
  induction xs with
  | nil => cases h
  | cons x xs ih =>
    rcases except_bind_eq_error.1 h with h | ⟨-, -, h⟩
    · unfold hashable at h
      split at h
      · cases h
        exact .unhashable _
      · cases h
    · exact ih h

/-- Neither does reading the members of a set. -/
theorem members_eq_error (h : members v = .error e) : NotMembers e := by
  rcases except_bind_eq_error.1 h with h | ⟨xs, -, h⟩
  · exact items_eq_error h
  rcases except_bind_eq_error.1 h with h | ⟨-, -, h⟩
  · exact forM_hashable_eq_error h
  · cases h

end Groups

open Groups

/-- Neither does the question whether a property is skipped. -/
theorem Exclusion.skips_eq_error {x : Exclusion} {declared : Data} {e : Failure}
    (h : x.skips declared = .error e) : NotMembers e := by
  unfold skips at h
  split at h
  · cases h
  · rcases except_bind_eq_error.1 h with h | ⟨ms, -, h⟩
    · exact members_eq_error h
    · cases h

/-- The properties of a class cannot be listed only where their groups cannot be read. -/
theorem ClassTable.properties_eq_error {t : ClassTable} {name : String} {groups : Data}
    {e : Failure} (h : t.properties name groups = .error e) : NotMembers e := by
  unfold properties at h
  split at h
  · cases h
  · cases h
  · rcases except_bind_eq_error.1 h with h | ⟨kept, -, h⟩
    · rcases except_bind_eq_error.1 h with h | ⟨kept, -, h⟩
      · obtain ⟨p, -, h⟩ := filterAuxM_eq_error h
        rcases except_bind_eq_error.1 h with h | ⟨b, -, h⟩
        · exact Exclusion.skips_eq_error h
        · cases h
      · cases h
    · cases h

/-! ### Requests -/

namespace Groups

/-- Groups that a property declares: none, all, or some by their names. -/
inductive Declares : Data → Prop
  | none : Declares .null
  | every : Declares (.bool true)
  | names (xs : List String) (mark : Nat) : Declares (.list (xs.map Data.str) mark)

/-- The groups of a property by their names. One that declares none has the default group. -/
def declaredNames : Data → List String
  | .list (x :: xs) _ => (x :: xs).filterMap Data.str?
  | _ => [defaultGroup]

/-- A request whose names are not all something other than texts. -/
def Asks (request : Data) : Prop :=
  (names request).filterMap Data.str? = [] → names request = []

/-- The groups that are requested by their names, the default group if there are none. -/
def requestedNames (request : Data) : List String :=
  match (names request).filterMap Data.str? with
  | [] => [defaultGroup]
  | ns => ns

/-- Whether a property with the declared groups is exposed: nothing is requested, or one of its
    groups is. -/
def exposes : (request declared : Data) → Bool
  | .scalar .null, _ => true
  | _, .scalar (.bool true) => true
  | request, declared => (requestedNames request).any (declaredNames declared).contains

variable {request declared : Data} {xs : List String}

/-- A text is among texts if it is one of them. -/
theorem among_str (x : String) (xs : List String) :
    (Data.str x).among (xs.map Data.str) = xs.contains x := by
  induction xs with
  | nil => rfl
  | cons y ys ih =>
    have hsame : (Data.str y).same (.str x) = (x == y) := by
      rw [Bool.eq_iff_iff, Data.same_str_iff, beq_iff_eq]
      exact ⟨fun h => (Scalar.str.inj (Data.scalar.inj h)).symm, fun h => by rw [h]⟩
    show ((Data.str y).same (.str x) || (Data.str x).among (ys.map Data.str)) = _
    rw [ih, hsame, List.contains_cons]

/-- A list of texts has these members. -/
theorem members_str (xs : List String) (mark : Nat) :
    members (.list (xs.map Data.str) mark) = .ok (xs.map Data.str) := by
  have hhashable : (xs.map Data.str).forM hashable = .ok () := by
    induction xs with
    | nil => rfl
    | cons x xs ih => exact ih
  show ((xs.map Data.str).forM hashable >>= fun _ => pure (xs.map Data.str)) = _
  rw [hhashable]
  rfl

/-- Only a text is among texts. -/
theorem among_texts (x : Data) (ds : List String) :
    x.among (ds.map Data.str) = x.str?.any ds.contains := by
  have hother : x.str? = none → x.among (ds.map Data.str) = false := by
    intro hx
    refine List.any_eq_false.2 fun y hy => Bool.eq_false_iff.1 ?_
    obtain ⟨d, -, rfl⟩ := List.mem_map.1 hy
    cases x with
    | scalar v =>
      have hsame : (Data.str d).same (.scalar v) = (Scalar.str d).same v := by simp only [Data.same]
      rw [hsame]
      cases v <;> first | rfl | cases hx
    | _ => simp only [Data.same]
  cases hx : x.str? with
  | none => exact hother hx
  | some s =>
    obtain rfl := Data.str?_eq_some.1 hx
    exact among_str s ds

/-- Some value is among texts if some text is. -/
theorem any_among (xs : List Data) (ds : List String) :
    (xs.any fun x => x.among (ds.map Data.str)) = (xs.filterMap Data.str?).any ds.contains := by
  induction xs with
  | nil => rfl
  | cons x xs ih =>
    rw [List.any_cons, ih, among_texts, List.filterMap_cons]
    cases x.str? <;> rfl

end Groups

open Groups

/-- What is requested by names that are texts. -/
theorem Exclusion.ofGroups_requested {request : Data} (h : Asks request) :
    (ofGroups request defaultGroup).requested.filterMap Data.str? = requestedNames request := by
  unfold ofGroups requestedNames
  dsimp only
  unfold Asks at h
  generalize names request = ns at h ⊢
  cases ns with
  | nil => rfl
  | cons x xs =>
    show (x :: xs).filterMap Data.str? = _
    generalize (x :: xs).filterMap Data.str? = texts at h ⊢
    cases texts with
    | nil => exact nomatch h rfl
    | cons t ts => rfl

/-- What a request leaves out: the properties that it does not expose. -/
theorem Exclusion.skips_eq {request declared : Data} (hrequest : request ≠ .null)
    (h : Asks request) (hdeclared : Declares declared) :
    (ofGroups request defaultGroup).skips declared = .ok !exposes request declared := by
  -- The declared names, once they are texts, are compared with the requested ones.
  have hsome : ∀ ds : List String, (do
      let ms ← members (.ofList (ds.map Data.str))
      return !(ofGroups request defaultGroup).requested.any fun r => r.among ms : Except Failure Bool)
      = .ok !(requestedNames request).any ds.contains := by
    intro ds
    rw [members_str, ← ofGroups_requested h, ← any_among]
    rfl
  have hexposes : ∀ d, d ≠ .bool true → exposes request d
      = (requestedNames request).any (declaredNames d).contains := by
    intro d hd
    unfold exposes
    split
    · exact absurd rfl hrequest
    · exact absurd rfl hd
    · rfl
  cases hdeclared with
  | none =>
    rw [hexposes .null nofun]
    exact hsome [defaultGroup]
  | every =>
    unfold exposes
    split
    · exact absurd rfl hrequest
    · rfl
    · contradiction
  | names xs mark =>
    rw [hexposes (.list _ _) nofun]
    -- An empty list declares the default group, as no list at all does.
    cases xs with
    | nil => exact hsome [defaultGroup]
    | cons x xs =>
      have htexts : declaredNames (.list ((x :: xs).map Data.str) mark) = x :: xs := by
        show ((x :: xs).map Data.str).filterMap Data.str? = _
        rw [List.filterMap_map]
        exact List.filterMap_some
      rw [htexts, ← hsome (x :: xs)]
      rfl

/-- A choice that can be made of each value. -/
theorem Results.filterM_eq {ε α : Type} {p : α → Except ε Bool} {q : α → Bool} {xs : List α}
    (h : ∀ x ∈ xs, p x = .ok (q x)) : xs.filterM p = .ok (xs.filter q) := by
  have hkept : ∀ kept : List α, xs.filterAuxM p kept = .ok ((xs.filter q).reverse ++ kept) := by
    induction xs with
    | nil => exact fun _ => rfl
    | cons x xs ih =>
      intro kept
      obtain ⟨hx, hrest⟩ := List.forall_mem_cons.1 h
      show (p x >>= fun b => xs.filterAuxM p (cond b (x :: kept) kept)) = _
      rw [hx, List.filter_cons]
      refine (ih hrest _).trans ?_
      cases q x <;> simp
  show (xs.filterAuxM p [] >>= fun kept => pure kept.reverse) = _
  rw [hkept, List.append_nil]
  exact congrArg Except.ok (List.reverse_reverse _)

/-- The properties of a class that are listed for a request: those that it exposes. -/
theorem ClassTable.properties_eq (t : ClassTable) (name : String) {request : Data}
    (h : Asks request) (hdeclared : ∀ ps ∈ t.declaredGroups? name, ∀ p ∈ ps, Declares p.2) :
    t.properties name request = .ok ((t.declaredGroups? name).map fun ps =>
      (ps.filter fun p => exposes request p.2).map (·.1)) := by
  unfold properties
  cases hps : t.declaredGroups? name with
  | none => rfl
  | some ps =>
    have hall := hdeclared ps hps
    by_cases hrequest : request = .null
    · subst hrequest
      have hsame : (ps.filter fun p => exposes .null p.2) = ps := List.filter_eq_self.2 fun _ _ => rfl
      rw [Option.map_some, hsame]
    · have hkept : ps.filterM (fun p => do return !(← (Exclusion.ofGroups request defaultGroup).skips p.2))
          = .ok (ps.filter fun p => exposes request p.2) := by
        refine Results.filterM_eq fun p hp => ?_
        rw [Exclusion.skips_eq hrequest h (hall p hp)]
        exact congrArg Except.ok (Bool.not_not _)
      split
      · contradiction
      · contradiction
      · rename_i heq _
        cases heq
        exact congrArg (fun kept? => kept? >>= fun kept => pure (some (kept.map (·.1)))) hkept

end ApiDoc
