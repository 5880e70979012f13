import ApiDoc.Registry
import Mathlib.Data.List.Nodup
import Mathlib.Data.List.Perm.Subperm
import Mathlib.Tactic.Push

namespace ApiDoc

/-!
# The first free name

A new model is named after its class, with a number behind if that name is taken.

* `candidate_injective` — the names of a series `base`, `base2`, `base3`, … differ, also where the
  base ends in digits itself;
* `exists_free` — one of the first `taken.length + 1` names of a series is free;
* `freeName_spec` — `freeName` is the first name of the series that is not taken.
-/

/-! ### The series -/

theorem candidate_succ (base : String) (i : Nat) :
    candidate base (i + 1) = base ++ toString (i + 2) := rfl

/-- A number is written with one digit at least. -/
theorem toString_ne_empty (n : Nat) : toString n ≠ "" := by
  rw [Nat.toString_eq_repr]
  exact Nat.repr_ne_empty

/-- Different numbers are written differently: the digits can be read back. -/
theorem toString_injective : Function.Injective (toString : Nat → String) := by
  intro m n h
  rw [Nat.toString_eq_repr, Nat.toString_eq_repr, Nat.repr_eq_ofList_toDigits,
    Nat.repr_eq_ofList_toDigits, String.ofList_inj] at h
  rw [← Nat.ofDigitChars_toDigits (b := 10) (n := m) (by decide) (by decide), h,
    Nat.ofDigitChars_toDigits (by decide) (by decide)]

/-- The names of a series differ: what stands behind the base is nothing or a number, and
    different numbers are written differently. -/
theorem candidate_injective (base : String) : Function.Injective (candidate base) := by
  intro i j h
  -- The bare base is no other name of the series, even if it ends in digits.
  have bare (k : Nat) : base ++ toString (k + 2) ≠ base := by
    intro hk
    have hk' : base ++ toString (k + 2) = base ++ "" := by rw [hk, String.append_empty]
    exact toString_ne_empty _ ((String.append_right_inj base).1 hk')
  cases i with
  | zero =>
    cases j with
    | zero => rfl
    | succ j => exact absurd h.symm (bare j)
  | succ i =>
    cases j with
    | zero => exact absurd h (bare i)
    | succ j =>
      rw [candidate_succ, candidate_succ, String.append_right_inj] at h
      have hij := toString_injective h
      omega

/-! ### Freedom -/

/-- There are more names among the first `taken.length + 1` than names that are taken. -/
theorem exists_free (taken : List String) (base : String) :
    ∃ i < taken.length + 1, candidate base i ∉ taken := by
  by_contra hnone
  push Not at hnone
  -- Otherwise all of them, and they differ, would be among names that are fewer.
  have hsub : (List.range (taken.length + 1)).map (candidate base) ⊆ taken := by
    intro name hname
    obtain ⟨i, hi, rfl⟩ := List.mem_map.1 hname
    exact hnone i (List.mem_range.1 hi)
  have hnodup : ((List.range (taken.length + 1)).map (candidate base)).Nodup :=
    List.nodup_range.map (candidate_injective base)
  have hlen := (hnodup.subperm hsub).length_le
  rw [List.length_map, List.length_range] at hlen
  omega

/-- `freeName` is the first name of the series that is not taken. -/
theorem freeName_spec (taken : List String) (base : String) :
    ∃ i, freeName taken base = candidate base i ∧ candidate base i ∉ taken ∧
      ∀ j < i, candidate base j ∈ taken := by
  obtain ⟨n, hn, hfree⟩ := exists_free taken base
  unfold freeName
  cases hf : (List.range (taken.length + 1)).find? fun i => !taken.contains (candidate base i) with
  | none =>
    have := List.find?_eq_none.1 hf n (List.mem_range.2 hn)
    simp [hfree] at this
  | some i =>
    obtain ⟨hi, -, hbefore⟩ := List.find?_range_eq_some.1 hf
    refine ⟨i, rfl, by simpa using hi, ?_⟩
    intro j hj
    simpa using hbefore j hj

/-- The name that `freeName` answers is not taken. -/
theorem freeName_notMem (taken : List String) (base : String) : freeName taken base ∉ taken := by
  obtain ⟨i, hi, hfree, -⟩ := freeName_spec taken base
  rw [hi]
  exact hfree

end ApiDoc
