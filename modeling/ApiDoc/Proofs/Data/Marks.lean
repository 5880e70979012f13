import ApiDoc.Proofs.Data.Entries
import ApiDoc.Proofs.Data.Equality

namespace ApiDoc

/-!
# Values without marks

A mark tells a container from others like it, and a value says the same without:

* `Data.unmarked`, `Entries.unmarked` — values and entries whose containers have no marks. Sets stay
  as they are;
* `Data.same_unmarked`, `Data.alike_unmarked` — equality does not look at marks;
* `Entries.get?_unmarked`, `Entries.insert_unmarked`, … — nor does what is done with entries.
-/

namespace Data

mutual

/-- The value without marks. -/
def unmarked : Data → Data
  | .list xs _ => .list (unmarkedItems xs) 0
  | .tuple xs _ => .tuple (unmarkedItems xs) 0
  | .map es _ => .map (unmarkedEntries es) 0
  | v => v

/-- Items without marks. -/
def unmarkedItems : List Data → List Data
  | [] => []
  | x :: xs => unmarked x :: unmarkedItems xs

/-- Entries without marks. -/
def unmarkedEntries : List (Data × Data) → List (Data × Data)
  | [] => []
  | (k, v) :: rest => (unmarked k, unmarked v) :: unmarkedEntries rest

end

/-- Marks taken away item by item. -/
theorem unmarkedItems_eq (xs : List Data) : unmarkedItems xs = xs.map unmarked := by
  induction xs with
  | nil => rfl
  | cons x xs ih => exact congrArg (x.unmarked :: ·) ih

end Data

/-- Entries without marks. -/
def Entries.unmarked (es : Entries) : Entries :=
  es.map fun e => (e.1.unmarked, e.2.unmarked)

namespace Data

/-- Marks taken away entry by entry. -/
theorem unmarkedEntries_eq (es : Entries) : unmarkedEntries es = es.unmarked := by
  induction es with
  | nil => rfl
  | cons e es ih =>
    obtain ⟨k, v⟩ := e
    exact congrArg ((k.unmarked, v.unmarked) :: ·) ih

variable {v w : Data}

@[simp] theorem unmarked_list (xs : List Data) (mark : Nat) :
    (Data.list xs mark).unmarked = .ofList (xs.map unmarked) :=
  congrArg Data.ofList (unmarkedItems_eq xs)

@[simp] theorem unmarked_tuple (xs : List Data) (mark : Nat) :
    (Data.tuple xs mark).unmarked = .ofTuple (xs.map unmarked) :=
  congrArg Data.ofTuple (unmarkedItems_eq xs)

@[simp] theorem unmarked_map (es : Entries) (mark : Nat) :
    (Data.map es mark).unmarked = .ofEntries es.unmarked :=
  congrArg Data.ofEntries (unmarkedEntries_eq es)

@[simp] theorem unmarked_scalar (s : Scalar) : (Data.scalar s).unmarked = .scalar s := rfl

@[simp] theorem unmarked_unset : Data.unset.unmarked = .unset := rfl

@[simp] theorem unmarked_node (i : NodeId) : (Data.node i).unmarked = .node i := rfl

@[simp] theorem isUnset_unmarked (v : Data) : v.unmarked.isUnset = v.isUnset := by
  cases v <;> rfl

@[simp] theorem str?_unmarked (v : Data) : v.unmarked.str? = v.str? := by
  cases v <;> rfl

/-- A value without marks has the items of the value, without marks. -/
theorem items?_unmarked (v : Data) : v.unmarked.items? = v.items?.map (·.map unmarked) := by
  cases v with
  | list xs _ | tuple xs _ => exact congrArg some (unmarkedItems_eq xs)
  | _ => rfl

/-- What is a mapping without its marks is a mapping. -/
theorem exists_of_unmarked_map {es : Entries} {mark : Nat} (h : v.unmarked = .map es mark) :
    ∃ fs mark', v = .map fs mark' ∧ Entries.unmarked fs = es := by
  cases v with
  | map fs mark' =>
    rw [unmarked_map] at h
    exact ⟨fs, mark', rfl, (Data.map.inj h).1⟩
  | _ => simp [unmarked] at h

/-! ### Equality -/

mutual

/-- Marks of the second value do not count for equality. -/
theorem same_unmarked_right (v w : Data) : v.same w.unmarked = v.same w := by
  match v with
  | .list xs _ => cases w <;> simp [unmarked, same, sameItems_unmarked_right xs]
  | .tuple xs _ => cases w <;> simp [unmarked, same, sameItems_unmarked_right xs]
  | .map es _ =>
    cases w with
    | map fs _ =>
      have hlength : (unmarkedEntries fs).length = fs.length := by
        rw [unmarkedEntries_eq, Entries.unmarked, List.length_map]
      rw [unmarked, same, same, hlength, sameEntries_unmarked_right es fs]
    | _ => simp [unmarked, same]
  | .scalar _ | .set _ _ | .unset | .node _ | .modelRef _ _ | .bare _ =>
    cases w <;> simp [unmarked, same]

/-- The same for lists of items. -/
theorem sameItems_unmarked_right (xs ys : List Data) :
    sameItems xs (unmarkedItems ys) = sameItems xs ys := by
  match xs, ys with
  | [], [] | [], _ :: _ | _ :: _, [] => simp [unmarkedItems, sameItems]
  | x :: xs, y :: ys =>
    rw [unmarkedItems, sameItems, sameItems, same_unmarked_right x y,
      sameItems_unmarked_right xs ys]

/-- The same for the entries of mappings. -/
theorem sameEntries_unmarked_right (es fs : List (Data × Data)) :
    sameEntries es (unmarkedEntries fs) = sameEntries es fs := by
  match es with
  | [] => simp [sameEntries]
  | (k, v) :: rest =>
    rw [sameEntries, sameEntries, sameEntries_unmarked_right rest fs, unmarkedEntries_eq,
      Entries.unmarked, List.any_map]
    congr 2
    funext f
    rw [Function.comp_apply, same_unmarked_right k f.1, same_unmarked_right v f.2]

end

mutual

/-- Marks of the first value do not count for equality. -/
theorem same_unmarked_left (v w : Data) : v.unmarked.same w = v.same w := by
  match v with
  | .list xs _ => cases w <;> simp [unmarked, same, sameItems_unmarked_left xs]
  | .tuple xs _ => cases w <;> simp [unmarked, same, sameItems_unmarked_left xs]
  | .map es _ =>
    cases w with
    | map fs _ =>
      have hlength : (unmarkedEntries es).length = es.length := by
        rw [unmarkedEntries_eq, Entries.unmarked, List.length_map]
      rw [unmarked, same, same, hlength, sameEntries_unmarked_left es fs]
    | _ => simp [unmarked, same]
  | .scalar _ | .set _ _ | .unset | .node _ | .modelRef _ _ | .bare _ => rfl

/-- The same for lists of items. -/
theorem sameItems_unmarked_left (xs ys : List Data) :
    sameItems (unmarkedItems xs) ys = sameItems xs ys := by
  match xs, ys with
  | [], [] | [], _ :: _ | _ :: _, [] => simp [unmarkedItems, sameItems]
  | x :: xs, y :: ys =>
    rw [unmarkedItems, sameItems, sameItems, same_unmarked_left x y, sameItems_unmarked_left xs ys]

/-- The same for the entries of mappings. -/
theorem sameEntries_unmarked_left (es fs : List (Data × Data)) :
    sameEntries (unmarkedEntries es) fs = sameEntries es fs := by
  match es with
  | [] => rfl
  | (k, v) :: rest =>
    rw [unmarkedEntries, sameEntries, sameEntries, sameEntries_unmarked_left rest fs]
    congr 2
    funext f
    rw [same_unmarked_left k f.1, same_unmarked_left v f.2]

end

/-- Equality does not look at marks. -/
theorem same_unmarked (v w : Data) : v.unmarked.same w.unmarked = v.same w := by
  rw [same_unmarked_left, same_unmarked_right]

/-- Marks do not count for the equality of two values. -/
theorem alike_unmarked (v w : Data) : v.unmarked.alike w.unmarked = v.alike w := by
  cases v with
  | scalar s =>
    cases w with
    | scalar t => rfl
    | _ => exact same_unmarked_right _ _
  | _ => exact same_unmarked _ _

/-- Marks do not count where a value is looked for among others. -/
theorem among_unmarked (v : Data) (xs : List Data) :
    v.unmarked.among (xs.map unmarked) = v.among xs := by
  rw [among, among, List.any_map]
  congr 1
  funext x
  exact same_unmarked x v

/-- Values that say the same are equal. -/
theorem same_of_unmarked_eq (h : v.unmarked = w.unmarked) : v.same w = true := by
  rw [← same_unmarked, h]
  exact same_refl _

end Data

/-! ### Entries -/

namespace Entries

variable {es : Entries}

@[simp] theorem unmarked_nil : Entries.unmarked [] = [] := rfl

@[simp] theorem unmarked_cons (e : Data × Data) (es : Entries) :
    Entries.unmarked (e :: es) = (e.1.unmarked, e.2.unmarked) :: es.unmarked := rfl

/-- What is found under a key, without marks. -/
theorem get?_unmarked (es : Entries) (k : Data) :
    es.unmarked.get? k = (es.get? k).map Data.unmarked := by
  induction es with
  | nil => rfl
  | cons e es ih =>
    rw [unmarked_cons, get?, get?, ih, Data.same_unmarked_left]
    split <;> rfl

/-- What is found under a text, without marks. -/
theorem text?_unmarked (es : Entries) (s : String) :
    es.unmarked.text? s = (es.text? s).map Data.unmarked := get?_unmarked es _

/-- Marks do not count for whether there is a key. -/
theorem has_unmarked (es : Entries) (k : Data) : es.unmarked.has k.unmarked = es.has k := by
  rw [has, has, get?_unmarked, Option.isSome_map]
  induction es with
  | nil => rfl
  | cons e es ih =>
    rw [get?, get?, Data.same_unmarked_right]
    split
    · rfl
    · exact ih

/-- An entry put in, and marks taken away. -/
theorem insert_unmarked (es : Entries) (k v : Data) :
    es.unmarked.insert k.unmarked v.unmarked = (es.insert k v).unmarked := by
  induction es with
  | nil => rfl
  | cons e es ih =>
    rw [unmarked_cons, insert, insert, ih, Data.same_unmarked]
    split <;> rfl

/-- Entries put in, and marks taken away. -/
theorem update_unmarked (es fs : Entries) :
    es.unmarked.update fs.unmarked = Entries.unmarked (es.update fs) := by
  induction fs generalizing es with
  | nil => rfl
  | cons f fs ih =>
    show Entries.update (es.unmarked.insert f.1.unmarked f.2.unmarked) (Entries.unmarked fs) = _
    rw [insert_unmarked, ih]
    rfl

/-- The mapping of pairs without marks. -/
theorem ofPairs_unmarked (ps : Entries) : ofPairs ps.unmarked = (ofPairs ps).unmarked :=
  update_unmarked [] ps

/-- A choice of entries by their keys. -/
theorem filter_unmarked {p : Data × Data → Bool} (h : ∀ e, p (e.1.unmarked, e.2.unmarked) = p e) :
    es.unmarked.filter p = Entries.unmarked (es.filter p) := by
  rw [unmarked, unmarked, List.filter_map]
  congr 1
  exact List.filter_congr fun e _ => h e

end Entries

end ApiDoc
