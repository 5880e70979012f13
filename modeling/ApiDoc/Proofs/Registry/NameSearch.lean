import ApiDoc.Proofs.Registry.Register
import Mathlib.Data.List.TakeWhile
import Mathlib.Logic.Relation

namespace ApiDoc

/-!
# The search for a name

`freeName` answers the name by its position in the series. The registry finds it by trying: it
starts with the base itself and counts on while the name is taken. Nothing in the loop says how
often.

* `segments`, `baseName_eq` — the base is the last segment of the class name, if there is one;
* `NameSearch.Turn` — one turn of the loop, made only where the name is taken;
* `NameSearch.reaches_iff` — which states the loop reaches: the names of the series, one after the
  other, up to the first that is free;
* `NameSearch.acc_start` — the loop ends, since the series has a free name;
* `Registry.newName_first` — it ends with the name that the registry gives, for every registry and
  every model.
-/

/-! ### The base -/

/-- Where a class name is split. -/
def isSeparator (c : Char) : Bool := c == '.' || c == '\\'

/-- The segments of a class name between dots and backslashes; some of them can be empty. -/
def segments (className : String) : List String :=
  (className.toList.splitOnP isSeparator).map String.ofList

theorem segments_ne_nil (className : String) : segments className ≠ [] := by
  simp [segments]

/-- The last part of a split list is what stands behind the last separator. -/
theorem getLast_splitOnP {α : Type} (p : α → Bool) (xs : List α) :
    (xs.splitOnP p).getLast (List.splitOnP_ne_nil p xs) =
      (xs.reverse.takeWhile fun x => !p x).reverse := by
  have hsplit := List.takeWhile_append_dropWhile (p := fun x => !p x) (l := xs.reverse)
  have hfree : ∀ x ∈ (xs.reverse.takeWhile fun x => !p x).reverse, p x = false := by
    intro x hx
    simpa using List.mem_takeWhile_imp (List.mem_reverse.1 hx)
  generalize hlast : xs.reverse.takeWhile (fun x => !p x) = last at hsplit hfree
  cases hd : xs.reverse.dropWhile (fun x => !p x) with
  | nil =>
    -- No separator at all: the list is its own last part.
    have hxs : xs = last.reverse := by
      rw [hd, List.append_nil] at hsplit
      rw [hsplit, List.reverse_reverse]
    simp only [hxs, List.splitOnP_eq_singleton hfree, List.getLast_singleton]
  | cons sep rest =>
    have hsep : p sep = true := by
      have := List.head_dropWhile_not (p := fun x => !p x) (l := xs.reverse) (by simp [hd])
      simpa [hd] using this
    have hxs : xs = rest.reverse ++ sep :: last.reverse := by
      rw [hd] at hsplit
      have := congrArg List.reverse hsplit
      simpa using this.symm
    simp only [hxs, List.splitOnP_append_cons _ _ hsep, List.splitOnP_eq_singleton hfree]
    simp

/-- The base of a model's names is the last segment of its class name, and `Model` where that is
    empty. -/
theorem baseName_eq (className : String) :
    baseName className =
      if (segments className).getLast (segments_ne_nil className) = "" then "Model"
      else (segments className).getLast (segments_ne_nil className) := by
  have hlast : (segments className).getLast (segments_ne_nil className) =
      String.ofList (className.toList.reverse.takeWhile fun c => !isSeparator c).reverse := by
    simp only [segments, List.getLast_map, getLast_splitOnP]
  have hsame : (fun c : Char => c != '.' && c != '\\') = fun c => !isSeparator c := by
    funext c
    simp [isSeparator, bne]
  rw [hlast]
  simp only [baseName, hsame]
  cases (className.toList.reverse.takeWhile fun c => !isSeparator c).reverse with
  | nil => rfl
  | cons c cs => simp

/-! ### The loop -/

/-- What the loop keeps: the number that it has counted to, and the name to be tried. -/
structure NameSearch where
  number : Nat
  name : String

namespace NameSearch

variable {taken : List String} {base : String}

/-- The first name to be tried is the base. -/
def start (base : String) : NameSearch := ⟨1, base⟩

/-- One turn: where the name is taken, the next number is put behind the base. -/
inductive Turn (taken : List String) (base : String) : NameSearch → NameSearch → Prop
  | next {s : NameSearch} (h : s.name ∈ taken) :
      Turn taken base s ⟨s.number + 1, base ++ toString (s.number + 1)⟩

/-- The state after a number of turns. -/
def after (base : String) (i : Nat) : NameSearch := ⟨i + 1, candidate base i⟩

/-- A turn goes to the next name of the series, and only from a name that is taken. -/
theorem turn_after_iff {i : Nat} {s : NameSearch} :
    Turn taken base (after base i) s ↔ candidate base i ∈ taken ∧ s = after base (i + 1) := by
  constructor
  · rintro ⟨h⟩
    exact ⟨h, rfl⟩
  · rintro ⟨h, rfl⟩
    exact .next h

/-- The loop tries the names of the series in order, and goes past those that are taken. -/
theorem reaches_iff {s : NameSearch} :
    Relation.ReflTransGen (Turn taken base) (start base) s ↔
      ∃ i, s = after base i ∧ ∀ j < i, candidate base j ∈ taken := by
  constructor
  · intro h
    induction h with
    | refl => exact ⟨0, rfl, fun j hj => absurd hj (Nat.not_lt_zero j)⟩
    | tail _ hturn ih =>
      obtain ⟨i, rfl, hbefore⟩ := ih
      obtain ⟨htaken, rfl⟩ := turn_after_iff.1 hturn
      refine ⟨i + 1, rfl, ?_⟩
      intro j hj
      rcases Nat.lt_succ_iff_lt_or_eq.1 hj with hj | rfl
      · exact hbefore j hj
      · exact htaken
  · rintro ⟨i, rfl, hbefore⟩
    induction i with
    | zero => exact .refl
    | succ i ih =>
      have hi := ih fun j hj => hbefore j (by omega)
      exact hi.tail (turn_after_iff.2 ⟨hbefore i (by omega), rfl⟩)

/-- The loop ends, from wherever in the series it stands before a free name. -/
theorem acc_after {n : Nat} (hfree : candidate base n ∉ taken) :
    ∀ k i, i + k = n → Acc (fun s' s => Turn taken base s s') (after base i) := by
  -- On the distance to the free name, which every turn makes smaller.
  intro k
  induction k with
  | zero =>
    rintro i rfl
    exact ⟨_, fun s hturn => absurd (turn_after_iff.1 hturn).1 hfree⟩
  | succ k ih =>
    intro i hi
    refine ⟨_, fun s hturn => ?_⟩
    obtain ⟨-, rfl⟩ := turn_after_iff.1 hturn
    exact ih (i + 1) (by omega)

/-- Whatever is taken, the loop ends. -/
theorem acc_start (taken : List String) (base : String) :
    Acc (fun s' s => Turn taken base s s') (start base) := by
  obtain ⟨n, -, hfree⟩ := exists_free taken base
  exact acc_after hfree n 0 (Nat.zero_add n)

/-- The loop can only end with the first free name, and it does end there. -/
theorem ends_iff {i : Nat} (hfree : candidate base i ∉ taken)
    (hbefore : ∀ j < i, candidate base j ∈ taken) (s : NameSearch) :
    (Relation.ReflTransGen (Turn taken base) (start base) s ∧ ∀ s', ¬ Turn taken base s s') ↔
      s = after base i := by
  constructor
  · rintro ⟨hreach, hend⟩
    obtain ⟨n, rfl, hn⟩ := reaches_iff.1 hreach
    have hn' : candidate base n ∉ taken := fun h => hend _ (turn_after_iff.2 ⟨h, rfl⟩)
    -- Both are positions of the first free name.
    obtain rfl : n = i := by
      rcases Nat.lt_trichotomy n i with h | h | h
      · exact absurd (hbefore n h) hn'
      · exact h
      · exact absurd (hn i h) hfree
    rfl
  · rintro rfl
    exact ⟨reaches_iff.2 ⟨i, rfl, hbefore⟩, fun s' h => hfree (turn_after_iff.1 h).1⟩

end NameSearch

/-! ### The name of a model -/

namespace Registry

/-- The names that identities have. -/
def takenNames (r : Registry) : List String := r.names.map (·.2)

/-- The base of a model's names. -/
def baseOf (m : Model) : String := baseName (m.className?.getD "")

theorem mem_takenNames {r : Registry} {name : String} :
    name ∈ r.takenNames ↔ ∃ key, (key, name) ∈ r.names := by
  simp [takenNames]

/-- For every registry and every model, the loop ends, and it ends with the name that the model is
    given: the first of the series behind its base that no identity has. There are at most as many
    turns as names. -/
theorem newName_first (r : Registry) (m : Model) :
    (baseOf m = let last := (segments (m.className?.getD "")).getLast (segments_ne_nil _)
      if last = "" then "Model" else last) ∧
    Acc (fun s' s => NameSearch.Turn r.takenNames (baseOf m) s s') (NameSearch.start (baseOf m)) ∧
    ∃ i ≤ r.names.length,
      r.newName m = candidate (baseOf m) i ∧
      (∀ key, (key, candidate (baseOf m) i) ∉ r.names) ∧
      (∀ j < i, ∃ key, (key, candidate (baseOf m) j) ∈ r.names) ∧
      (∀ s, (Relation.ReflTransGen (NameSearch.Turn r.takenNames (baseOf m))
              (NameSearch.start (baseOf m)) s ∧
            ∀ s', ¬ NameSearch.Turn r.takenNames (baseOf m) s s') ↔
          s = ⟨i + 1, r.newName m⟩) ∧
      ∀ key, r.named m key =
        if (r.nameOf? key).isSome then r
        else { r with names := putName key (candidate (baseOf m) i) r.names } := by
  obtain ⟨i, hname, hfree, hbefore⟩ := freeName_spec r.takenNames (baseOf m)
  have hnew : r.newName m = candidate (baseOf m) i := hname
  obtain ⟨n, hn, hn'⟩ := exists_free r.takenNames (baseOf m)
  -- The first free name comes no later than any other.
  have hi : i ≤ n := by
    by_contra hlt
    exact hn' (hbefore n (by omega))
  have hlength : r.takenNames.length = r.names.length := List.length_map _
  refine ⟨baseName_eq _, NameSearch.acc_start _ _, i, by omega, hnew, ?_, ?_, ?_, ?_⟩
  · intro key hkey
    exact hfree (mem_takenNames.2 ⟨key, hkey⟩)
  · intro j hj
    exact mem_takenNames.1 (hbefore j hj)
  · intro s
    rw [hnew]
    exact NameSearch.ends_iff hfree hbefore s
  · intro key
    rw [← hnew]
    rfl

-- A base that ends in a digit itself.
example : freeName ["V1", "V12", "V13"] "V1" = "V14" := by decide +kernel

end Registry

end ApiDoc
