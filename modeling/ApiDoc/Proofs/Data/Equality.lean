import Mathlib.Data.List.Basic
import Mathlib.Data.List.Nodup
import Mathlib.Data.Int.Basic
import ApiDoc.Document.Merge

namespace ApiDoc

/-!
# Equality of values

Values are equal across types where they count the same. This is no equivalence, as a number
without a value is not equal to itself, but it is close to one:

* `Scalar.Worth`, `Scalar.alike_iff` — scalars are equal where they are worth the same;
* `Data.same_trans`, `Data.alike_trans` — equality is transitive; `Data.same_refl` — a value is
  the same as itself;
* `Data.Regular` — values whose mappings and sets hold nothing twice;
* `Data.same_symm`, `Data.alike_symm` — equality of regular values is symmetric;
* `Merge.unionItems_assoc`, `Merge.unionItems_nil`, `Merge.unionItems_unionItems` — lists that only
  grow: by what another has grown by, from nothing, and by the same items twice.
-/

/-! ### Scalars -/

/-- What a scalar counts for where it is compared. -/
inductive Scalar.Worth where
  /-- A finite number, in units of the least positive one. -/
  | units (n : Int)
  | infinite (x : Binary64)
  | moment (clock offset : Bool) (count : Int)
  | other (s : Scalar)
deriving DecidableEq

namespace Scalar

/-- What a scalar counts for; nothing for a number without a value. -/
def worth? : Scalar → Option Worth
  | .bool b => some (.units ((if b then 1 else 0) * Binary64.unitsPerOne))
  | .int n => some (.units (n * Binary64.unitsPerOne))
  | .float x =>
    if x.isNaN then none else if x.isFinite then some (.units x.units) else some (.infinite x)
  | .moment m _ => some (.moment m.hasClock m.hasOffset m.count)
  | s => some (.other s)

/-- What is no number has no worth. -/
theorem worth?_of_isNaN {x : Binary64} (h : x.isNaN = true) : worth? (.float x) = none := if_pos h

/-- The worth of a finite number is counted in the smallest units. -/
theorem worth?_of_isFinite {x : Binary64} (h : x.isFinite = true) :
    worth? (.float x) = some (.units x.units) := by
  have hnan : x.isNaN = false := by simp [Binary64.isNaN, h]
  simp [worth?, hnan, h]

/-- The worth of an infinite number is the number. -/
theorem worth?_of_infinite {x : Binary64} (hnan : x.isNaN = false) (h : x.isFinite = false) :
    worth? (.float x) = some (.infinite x) := by
  simp [worth?, hnan, h]

/-- A number with a worth is finite, and counted in units, or infinite. -/
theorem worth?_float_ne {x : Binary64} {w : Worth} (h : worth? (.float x) = some w) :
    w = .units x.units ∧ x.isFinite = true ∨ w = .infinite x ∧ x.isFinite = false := by
  cases hnan : x.isNaN with
  | true => exact nomatch (worth?_of_isNaN hnan).symm.trans h
  | false =>
    cases hx : x.isFinite with
    | true => exact .inl ⟨(Option.some.inj ((worth?_of_isFinite hx).symm.trans h)).symm, rfl⟩
    | false => exact .inr ⟨(Option.some.inj ((worth?_of_infinite hnan hx).symm.trans h)).symm, rfl⟩

/-- Numbers are equal if they have one worth. -/
theorem eq_iff {x y : Binary64} :
    x.eq y = true ↔ ∃ w, worth? (.float x) = some w ∧ worth? (.float y) = some w := by
  constructor
  · intro h
    simp only [Binary64.eq, Bool.and_eq_true, Bool.not_eq_true', Bool.or_eq_true, beq_iff_eq] at h
    obtain ⟨⟨hx, hy⟩, rfl | ⟨⟨hfx, hfy⟩, hunits⟩⟩ := h
    · cases hf : x.isFinite with
      | true => exact ⟨_, worth?_of_isFinite hf, worth?_of_isFinite hf⟩
      | false => exact ⟨_, worth?_of_infinite hx hf, worth?_of_infinite hx hf⟩
    · exact ⟨_, worth?_of_isFinite hfx, hunits ▸ worth?_of_isFinite hfy⟩
  · rintro ⟨w, hx, hy⟩
    have hnan : ∀ z, worth? (.float z) = some w → z.isNaN = false := fun z hz => by
      rw [Bool.eq_false_iff]
      exact fun h => nomatch (worth?_of_isNaN h).symm.trans hz
    simp only [Binary64.eq, Bool.and_eq_true, Bool.not_eq_true', Bool.or_eq_true, beq_iff_eq]
    refine ⟨⟨hnan x hx, hnan y hy⟩, ?_⟩
    rcases worth?_float_ne hx with ⟨rfl, hfx⟩ | ⟨rfl, hfx⟩ <;>
      rcases worth?_float_ne hy with ⟨he, hfy⟩ | ⟨he, hfy⟩
    · exact .inr ⟨⟨hfx, hfy⟩, Worth.units.inj he⟩
    · exact nomatch he
    · exact nomatch he
    · exact .inl (Worth.infinite.inj he)

/-- A number is equal to an integer if this is its worth. -/
theorem eqInt_iff {x : Binary64} {n : Int} : x.eqInt n = true ↔
    worth? (.float x) = some (.units (n * Binary64.unitsPerOne)) := by
  simp only [Binary64.eqInt, Bool.and_eq_true, beq_iff_eq]
  constructor
  · rintro ⟨hx, hunits⟩
    rw [worth?_of_isFinite hx, hunits]
  · intro h
    rcases worth?_float_ne h with ⟨he, hx⟩ | ⟨he, -⟩
    · exact ⟨hx, (Worth.units.inj he).symm⟩
    · exact nomatch he

/-- The integer that a scalar stands for says what it is worth. -/
theorem worth?_of_integer {s : Scalar} {n : Int} (h : s.integer? = some n) :
    s.worth? = some (.units (n * Binary64.unitsPerOne)) := by
  cases s <;> simp only [integer?, Option.some.injEq, reduceCtorEq] at h <;> subst h <;> rfl

/-- A number is not worth the same as what is no number. -/
theorem worth?_float_ne_other {x : Binary64} {w : Worth} (hunits : ∀ n, w ≠ .units n)
    (hinfinite : ∀ y, w ≠ .infinite y) : worth? (.float x) ≠ some w := by
  intro h
  rcases worth?_float_ne h with ⟨he, -⟩ | ⟨he, -⟩
  · exact hunits _ he
  · exact hinfinite _ he

/-- Scalars are equal where they are worth the same. -/
theorem alike_iff {s t : Scalar} :
    s.alike t = true ↔ ∃ w, s.worth? = some w ∧ t.worth? = some w := by
  have hone : Binary64.unitsPerOne ≠ 0 := by decide +kernel
  -- Integers and truth values compare as integers.
  have hinteger : ∀ {s t : Scalar} {m n : Int}, s.integer? = some m → t.integer? = some n →
      ((m == n) = true ↔ ∃ w, s.worth? = some w ∧ t.worth? = some w) := by
    intro s t m n hm hn
    rw [worth?_of_integer hm, worth?_of_integer hn, beq_iff_eq]
    constructor
    · rintro rfl
      exact ⟨_, rfl, rfl⟩
    · rintro ⟨w, hm, hn⟩
      exact Int.eq_of_mul_eq_mul_right hone (Worth.units.inj (Option.some.inj (hm.trans hn.symm)))
  -- A number and an integer compare by their worth.
  have hfloat : ∀ (x : Binary64) {t : Scalar} {n : Int}, t.integer? = some n →
      (x.eqInt n = true ↔ ∃ w, worth? (.float x) = some w ∧ t.worth? = some w) := by
    intro x t n hn
    rw [worth?_of_integer hn, eqInt_iff]
    exact ⟨fun h => ⟨_, h, rfl⟩, fun ⟨w, h, hw⟩ => h.trans hw.symm⟩
  -- A number is never equal to what is neither.
  have hother : ∀ (x : Binary64) {w : Worth}, (∀ n, w ≠ .units n) → (∀ y, w ≠ .infinite y) →
      (false = true ↔ ∃ v, worth? (.float x) = some v ∧ some w = some v) := by
    intro x w hunits hinfinite
    refine ⟨fun h => absurd h Bool.false_ne_true, ?_⟩
    rintro ⟨v, hv, he⟩
    exact absurd (hv.trans he.symm) (worth?_float_ne_other hunits hinfinite)
  -- The equality of scalars looks at both in either order, except for numbers.
  have hswap : ∀ {p : Prop} {a b : Option Worth}, (p ↔ ∃ w, a = some w ∧ b = some w) →
      (p ↔ ∃ w, b = some w ∧ a = some w) := by
    intro p a b h
    simpa only [and_comm] using h
  cases s with
  | float x =>
    cases t with
    | float y => exact eq_iff
    | bool b => exact hfloat x rfl
    | int n => exact hfloat x rfl
    | _ => exact hother x (fun _ h => nomatch h) fun _ h => nomatch h
  | moment m mark =>
    cases t with
    | float y => exact hswap (hother y (fun _ h => nomatch h) fun _ h => nomatch h)
    | moment n mark' =>
      simp only [alike, Moment.alike, worth?, Bool.and_eq_true, beq_iff_eq, Option.some.injEq,
        exists_eq_left', Worth.moment.injEq, and_assoc]
      constructor <;> rintro ⟨hc, ho, hn⟩ <;> exact ⟨hc.symm, ho.symm, hn.symm⟩
    | _ => simp [alike, integer?, worth?]
  | bool b =>
    cases t with
    | float y => exact hswap (hfloat y rfl)
    | bool c => exact hinteger rfl rfl
    | int n => exact hinteger rfl rfl
    | _ => simp [alike, integer?, worth?]
  | int m =>
    cases t with
    | float y => exact hswap (hfloat y rfl)
    | bool c => exact hinteger rfl rfl
    | int n => exact hinteger rfl rfl
    | _ => simp [alike, integer?, worth?]
  | str a =>
    cases t with
    | float y => exact hswap (hother y (fun _ h => nomatch h) fun _ h => nomatch h)
    | str b =>
      simp only [alike_str, beq_iff_eq, worth?, Option.some.injEq, exists_eq_left',
        Worth.other.injEq, Scalar.str.injEq]
      exact eq_comm
    | _ => simp [alike, integer?, worth?]
  | bytes a =>
    cases t with
    | float y => exact hswap (hother y (fun _ h => nomatch h) fun _ h => nomatch h)
    | bytes b =>
      simp only [alike, integer?, beq_iff_eq, worth?, Option.some.injEq, exists_eq_left',
        Worth.other.injEq]
      exact eq_comm
    | _ => simp [alike, integer?, worth?]
  | null =>
    cases t with
    | float y => exact hswap (hother y (fun _ h => nomatch h) fun _ h => nomatch h)
    | _ => simp [alike, integer?, worth?]

/-- Scalars equal to one scalar are equal. -/
theorem alike_trans {s t u : Scalar} (hst : s.alike t = true) (htu : t.alike u = true) :
    s.alike u = true := by
  obtain ⟨w, hs, ht⟩ := alike_iff.1 hst
  obtain ⟨w', ht', hu⟩ := alike_iff.1 htu
  obtain rfl := Option.some.inj (ht.symm.trans ht')
  exact alike_iff.2 ⟨w, hs, hu⟩

/-- Equality of scalars does not depend on their order. -/
theorem alike_symm {s t : Scalar} (h : s.alike t = true) : t.alike s = true := by
  obtain ⟨w, hs, ht⟩ := alike_iff.1 h
  exact alike_iff.2 ⟨w, ht, hs⟩

/-- A number without a value is the same as itself, although it is not equal to itself. -/
theorem same_iff {s t : Scalar} :
    s.same t = true ↔ s.alike t = true ∨ ∃ x, s = .float x ∧ t = .float x := by
  cases s with
  | float x =>
    cases t with
    | float y =>
      simp only [same, alike, Bool.or_eq_true, beq_iff_eq]
      constructor
      · rintro (rfl | h)
        · exact .inr ⟨x, rfl, rfl⟩
        · exact .inl h
      rintro (h | ⟨z, hx, hy⟩)
      · exact .inr h
      · exact .inl (Scalar.float.inj (hx.trans hy.symm))
    | _ => simp [same]
  | _ => cases t <;> simp [same]

/-- The same for equality as parts of a container. -/
theorem same_trans {s t u : Scalar} (hst : s.same t = true) (htu : t.same u = true) :
    s.same u = true := by
  rcases same_iff.1 hst with h | ⟨x, rfl, rfl⟩
  · rcases same_iff.1 htu with h' | ⟨x, rfl, rfl⟩
    · exact same_iff.2 (.inl (alike_trans h h'))
    · exact hst
  · exact htu

/-- As part of a container, every scalar is equal to itself. -/
theorem same_refl (s : Scalar) : s.same s = true := by
  refine same_iff.2 ?_
  cases s with
  | float x => exact .inr ⟨x, rfl, rfl⟩
  | _ => exact .inl (alike_iff.2 ⟨_, rfl, rfl⟩)

/-- Equality as parts of a container does not depend on the order. -/
theorem same_symm {s t : Scalar} (h : s.same t = true) : t.same s = true := by
  rcases same_iff.1 h with h | ⟨x, rfl, rfl⟩
  · exact same_iff.2 (.inl (alike_symm h))
  · exact h

end Scalar

/-! ### Values -/

namespace Data

/-- Each entry of a mapping has an equal one among those of an equal mapping. -/
theorem exists_of_sameEntries {es fs : List (Data × Data)} (h : sameEntries es fs = true) :
    ∀ e ∈ es, ∃ f ∈ fs, e.1.same f.1 = true ∧ e.2.same f.2 = true := by
  induction es with
  | nil => exact fun _ he => absurd he List.not_mem_nil
  | cons e es ih =>
    obtain ⟨k, v⟩ := e
    simp only [sameEntries, Bool.and_eq_true, List.any_eq_true] at h
    exact List.forall_mem_cons.2 ⟨h.1, ih h.2⟩

/-- Each member of a set has an equal one among those of an equal set. -/
theorem exists_of_sameMembers {xs ys : List Data} (h : sameMembers xs ys = true) :
    ∀ x ∈ xs, ∃ y ∈ ys, x.same y = true := by
  induction xs with
  | nil => exact fun _ he => absurd he List.not_mem_nil
  | cons x xs ih =>
    simp only [sameMembers, Bool.and_eq_true, List.any_eq_true] at h
    exact List.forall_mem_cons.2 ⟨h.1, ih h.2⟩

mutual

/-- Values equal to one value are equal, by recursion on what they hold. -/
theorem same_trans {u v w : Data} (huv : u.same v = true) (hvw : v.same w = true) :
    u.same w = true := by
  -- Equal data have one constructor, and the parts are equal by the mutual induction.
  cases u with
  | scalar s =>
    cases v <;> simp only [same, Bool.false_eq_true] at huv
    cases w <;> simp only [same, Bool.false_eq_true] at hvw ⊢
    exact Scalar.same_trans huv hvw
  | list xs m =>
    cases v <;> simp only [same, Bool.false_eq_true] at huv
    cases w <;> simp only [same, Bool.false_eq_true] at hvw ⊢
    exact sameItems_trans huv hvw
  | tuple xs m =>
    cases v <;> simp only [same, Bool.false_eq_true] at huv
    cases w <;> simp only [same, Bool.false_eq_true] at hvw ⊢
    exact sameItems_trans huv hvw
  | map es m =>
    cases v <;> simp only [same, Bool.false_eq_true] at huv
    cases w <;> simp only [same, Bool.false_eq_true] at hvw
    rw [Bool.and_eq_true, beq_iff_eq] at huv hvw
    simp only [same, Bool.and_eq_true, beq_iff_eq]
    exact ⟨huv.1.trans hvw.1, sameEntries_trans huv.2 hvw.2⟩
  | set xs m =>
    cases v <;> simp only [same, Bool.false_eq_true] at huv
    cases w <;> simp only [same, Bool.false_eq_true] at hvw
    rw [Bool.and_eq_true, beq_iff_eq] at huv hvw
    simp only [same, Bool.and_eq_true, beq_iff_eq]
    exact ⟨huv.1.trans hvw.1, sameMembers_trans huv.2 hvw.2⟩
  | modelRef t g =>
    cases v <;> simp only [same, Bool.false_eq_true] at huv
    cases w <;> simp only [same, Bool.false_eq_true] at hvw
    rw [Bool.and_eq_true, beq_iff_eq] at huv hvw
    simp only [same, Bool.and_eq_true, beq_iff_eq]
    exact ⟨huv.1.trans hvw.1, same_trans huv.2 hvw.2⟩
  | unset =>
    cases v <;> simp only [same, Bool.false_eq_true] at huv
    exact hvw
  | node i =>
    cases v <;> simp only [same, Bool.false_eq_true, beq_iff_eq] at huv
    exact huv ▸ hvw
  | bare m =>
    cases v <;> simp only [same, Bool.false_eq_true, beq_iff_eq] at huv
    exact huv ▸ hvw

/-- The same for lists of items. -/
theorem sameItems_trans {xs ys zs : List Data} (hxy : sameItems xs ys = true)
    (hyz : sameItems ys zs = true) : sameItems xs zs = true := by
  cases xs with
  | nil =>
    cases ys <;> simp only [sameItems, Bool.false_eq_true] at hxy
    exact hyz
  | cons x xs =>
    cases ys <;> simp only [sameItems, Bool.false_eq_true, Bool.and_eq_true] at hxy
    cases zs <;> simp only [sameItems, Bool.false_eq_true, Bool.and_eq_true] at hyz ⊢
    exact ⟨same_trans hxy.1 hyz.1, sameItems_trans hxy.2 hyz.2⟩

/-- The same for the entries of mappings. -/
theorem sameEntries_trans {es fs gs : List (Data × Data)} (hef : sameEntries es fs = true)
    (hfg : sameEntries fs gs = true) : sameEntries es gs = true := by
  match es with
  | [] => rw [sameEntries]
  | (k, v) :: rest =>
    simp only [sameEntries, Bool.and_eq_true, List.any_eq_true] at hef ⊢
    obtain ⟨⟨f, hf, hk, hv⟩, hrest⟩ := hef
    obtain ⟨g, hg, hk', hv'⟩ := exists_of_sameEntries hfg f hf
    exact ⟨⟨g, hg, same_trans hk hk', same_trans hv hv'⟩, sameEntries_trans hrest hfg⟩

/-- The same for the members of sets. -/
theorem sameMembers_trans {xs ys zs : List Data} (hxy : sameMembers xs ys = true)
    (hyz : sameMembers ys zs = true) : sameMembers xs zs = true := by
  match xs with
  | [] => rw [sameMembers]
  | x :: rest =>
    simp only [sameMembers, Bool.and_eq_true, List.any_eq_true] at hxy ⊢
    obtain ⟨⟨y, hy, hx⟩, hrest⟩ := hxy
    obtain ⟨z, hz, hy'⟩ := exists_of_sameMembers hyz y hy
    exact ⟨⟨z, hz, same_trans hx hy'⟩, sameMembers_trans hrest hyz⟩

end

/-! ### Regular values -/

mutual

/-- A value whose mappings and sets hold nothing twice. -/
def Regular : Data → Prop
  | .list xs _ => RegularItems xs
  | .tuple xs _ => RegularItems xs
  | .map es _ => RegularEntries es ∧ es.Pairwise fun e f => ¬e.1.same f.1 = true
  | .set xs _ => RegularItems xs ∧ xs.Pairwise fun x y => ¬x.same y = true
  | .modelRef _ g => Regular g
  | _ => True

/-- Items all of which are regular. -/
def RegularItems : List Data → Prop
  | [] => True
  | x :: xs => Regular x ∧ RegularItems xs

/-- Entries all of whose keys and values are regular. -/
def RegularEntries : List (Data × Data) → Prop
  | [] => True
  | (k, v) :: rest => Regular k ∧ Regular v ∧ RegularEntries rest

end

/-- Where as many things are related to things, no two to the same, all of these are reached. -/
theorem exists_of_related {α β : Type} {R : α → β → Prop} {as : List α} {bs : List β}
    (hlength : as.length = bs.length) (htotal : ∀ a ∈ as, ∃ b ∈ bs, R a b)
    (hapart : as.Pairwise fun a a' => ∀ b, R a b → ¬R a' b) : ∀ b ∈ bs, ∃ a ∈ as, R a b := by
  induction as generalizing bs with
  | nil =>
    rw [List.eq_nil_of_length_eq_zero hlength.symm]
    exact fun _ h => absurd h List.not_mem_nil
  | cons a as ih =>
    obtain ⟨⟨b, hb, hab⟩, htotal⟩ := List.forall_mem_cons.1 htotal
    obtain ⟨hhead, hapart⟩ := List.pairwise_cons.1 hapart
    obtain ⟨before, after, rfl⟩ := List.append_of_mem hb
    have hlength' : as.length = (before ++ after).length := by simp at hlength ⊢; omega
    have hrest := ih hlength' ?_ hapart
    · intro c hc
      by_cases he : c = b
      · exact ⟨a, List.mem_cons_self, he ▸ hab⟩
      · have hmem : c ∈ before ++ after := by simpa [he] using hc
        obtain ⟨a', ha', hc⟩ := hrest c hmem
        exact ⟨a', List.mem_cons_of_mem _ ha', hc⟩
    -- What the others are related to is not what the first one is.
    · intro a' ha'
      obtain ⟨c, hc, hac⟩ := htotal a' ha'
      have he : c ≠ b := by
        rintro rfl
        exact hhead a' ha' c hab hac
      exact ⟨c, by simpa [he] using hc, hac⟩

/-- Entries that each have an equal one are entries of an equal mapping. -/
theorem sameEntries_of_exists {es fs : List (Data × Data)}
    (h : ∀ e ∈ es, ∃ f ∈ fs, e.1.same f.1 = true ∧ e.2.same f.2 = true) :
    sameEntries es fs = true := by
  induction es with
  | nil => rw [sameEntries]
  | cons e es ih =>
    obtain ⟨he, hes⟩ := List.forall_mem_cons.1 h
    obtain ⟨k, v⟩ := e
    simp only [sameEntries, Bool.and_eq_true, List.any_eq_true]
    exact ⟨he, ih hes⟩

/-- Members that each have an equal one are members of an equal set. -/
theorem sameMembers_of_exists {xs ys : List Data} (h : ∀ x ∈ xs, ∃ y ∈ ys, x.same y = true) :
    sameMembers xs ys = true := by
  induction xs with
  | nil => rw [sameMembers]
  | cons x xs ih =>
    obtain ⟨hx, hxs⟩ := List.forall_mem_cons.1 h
    simp only [sameMembers, Bool.and_eq_true, List.any_eq_true]
    exact ⟨hx, ih hxs⟩

mutual

/-- As part of a container, every value is equal to itself. -/
theorem same_refl (v : Data) : v.same v = true := by
  cases v with
  | scalar s =>
    rw [same]
    exact s.same_refl
  | list xs m =>
    rw [same]
    exact sameItems_refl xs
  | tuple xs m =>
    rw [same]
    exact sameItems_refl xs
  | map es m =>
    simp only [same, beq_self_eq_true, Bool.true_and]
    exact sameEntries_of_exists fun e he => ⟨e, he, refl_of_mem_entries es e he⟩
  | set xs m =>
    simp only [same, beq_self_eq_true, Bool.true_and]
    exact sameMembers_of_exists fun x hx => ⟨x, hx, refl_of_mem xs x hx⟩
  | modelRef t g =>
    simp only [same, beq_self_eq_true, Bool.true_and]
    exact same_refl g
  | unset => rw [same]
  | node i => rw [same, beq_self_eq_true]
  | bare m => rw [same, beq_self_eq_true]

/-- The same for items, one by one. -/
theorem sameItems_refl (xs : List Data) : sameItems xs xs = true := by
  match xs with
  | [] => rw [sameItems]
  | x :: rest =>
    simp only [sameItems, Bool.and_eq_true]
    exact ⟨same_refl x, sameItems_refl rest⟩

/-- The same for the keys and values of a mapping. -/
theorem refl_of_mem_entries (es : List (Data × Data)) :
    ∀ e ∈ es, e.1.same e.1 = true ∧ e.2.same e.2 = true := by
  match es with
  | [] => exact fun _ h => absurd h List.not_mem_nil
  | (k, v) :: rest =>
    exact List.forall_mem_cons.2 ⟨⟨same_refl k, same_refl v⟩, refl_of_mem_entries rest⟩

/-- The same for each of several values. -/
theorem refl_of_mem (xs : List Data) : ∀ x ∈ xs, x.same x = true := by
  match xs with
  | [] => exact fun _ h => absurd h List.not_mem_nil
  | x :: rest => exact List.forall_mem_cons.2 ⟨same_refl x, refl_of_mem rest⟩

end

mutual

/-- Equality with a regular value does not depend on the order. -/
theorem same_symm {v w : Data} (hv : v.Regular) (h : v.same w = true) : w.same v = true := by
  -- Ordered parts are compared place by place; mappings and sets need that no two entries have one
  -- partner.
  cases v with
  | scalar s =>
    cases w <;> simp only [same, Bool.false_eq_true] at h ⊢
    exact Scalar.same_symm h
  | list xs m =>
    cases w <;> simp only [same, Bool.false_eq_true] at h ⊢
    exact sameItems_symm hv h
  | tuple xs m =>
    cases w <;> simp only [same, Bool.false_eq_true] at h ⊢
    exact sameItems_symm hv h
  | map es m =>
    cases w <;> simp only [same, Bool.false_eq_true] at h
    rename_i fs m'
    rw [Bool.and_eq_true, beq_iff_eq] at h
    obtain ⟨hes, hapart⟩ := hv
    have hsymm := symm_of_regularEntries hes
    simp only [same, Bool.and_eq_true, beq_iff_eq]
    refine ⟨h.1.symm, sameEntries_of_exists fun f hf => ?_⟩
    -- No entry of the other mapping is the partner of two entries, since these would be the same.
    have hrelated : es.Pairwise fun e e' => ∀ f : Data × Data,
        e.1.same f.1 = true ∧ e.2.same f.2 = true → ¬(e'.1.same f.1 = true ∧ e'.2.same f.2 = true) :=
      (List.Pairwise.and_mem.1 hapart).imp fun {e e'} ⟨_, he', hne⟩ f hef hef' =>
        hne (same_trans hef.1 ((hsymm e' he').1 _ hef'.1))
    obtain ⟨e, he, hk, hv⟩ := exists_of_related h.1 (exists_of_sameEntries h.2) hrelated f hf
    exact ⟨e, he, (hsymm e he).1 _ hk, (hsymm e he).2 _ hv⟩
  | set xs m =>
    cases w <;> simp only [same, Bool.false_eq_true] at h
    rename_i ys m'
    rw [Bool.and_eq_true, beq_iff_eq] at h
    obtain ⟨hxs, hapart⟩ := hv
    have hsymm := symm_of_regularItems hxs
    simp only [same, Bool.and_eq_true, beq_iff_eq]
    refine ⟨h.1.symm, sameMembers_of_exists fun y hy => ?_⟩
    -- No member of the other set is the partner of two members.
    have hrelated : xs.Pairwise fun x x' => ∀ y, x.same y = true → ¬x'.same y = true :=
      (List.Pairwise.and_mem.1 hapart).imp fun {x x'} ⟨_, hx', hne⟩ y hxy hxy' =>
        hne (same_trans hxy (hsymm x' hx' _ hxy'))
    obtain ⟨x, hx, hxy⟩ := exists_of_related h.1 (exists_of_sameMembers h.2) hrelated y hy
    exact ⟨x, hx, hsymm x hx _ hxy⟩
  | modelRef t g =>
    cases w <;> simp only [same, Bool.false_eq_true] at h
    rw [Bool.and_eq_true, beq_iff_eq] at h
    simp only [same, Bool.and_eq_true, beq_iff_eq]
    exact ⟨h.1.symm, same_symm hv h.2⟩
  | unset => cases w <;> simp only [same, Bool.false_eq_true] at h ⊢
  | node i =>
    cases w <;> simp only [same, Bool.false_eq_true, beq_iff_eq] at h ⊢
    exact h.symm
  | bare m =>
    cases w <;> simp only [same, Bool.false_eq_true, beq_iff_eq] at h ⊢
    exact h.symm

/-- The same for lists of regular items. -/
theorem sameItems_symm {xs ys : List Data} (hxs : RegularItems xs) (h : sameItems xs ys = true) :
    sameItems ys xs = true := by
  cases xs with
  | nil =>
    cases ys <;> simp only [sameItems, Bool.false_eq_true] at h ⊢
  | cons x xs =>
    cases ys <;> simp only [sameItems, Bool.false_eq_true, Bool.and_eq_true] at h ⊢
    exact ⟨same_symm hxs.1 h.1, sameItems_symm hxs.2 h.2⟩

/-- The same for each of several regular values. -/
theorem symm_of_regularItems {xs : List Data} (hxs : RegularItems xs) :
    ∀ x ∈ xs, ∀ w, x.same w = true → w.same x = true := by
  cases xs with
  | nil => exact fun _ h => absurd h List.not_mem_nil
  | cons x xs =>
    exact List.forall_mem_cons.2 ⟨fun w => same_symm hxs.1, symm_of_regularItems hxs.2⟩

/-- The same for the keys and values of a regular mapping. -/
theorem symm_of_regularEntries {es : List (Data × Data)} (hes : RegularEntries es) :
    ∀ e ∈ es, (∀ w, e.1.same w = true → w.same e.1 = true) ∧
      ∀ w, e.2.same w = true → w.same e.2 = true := by
  match es with
  | [] => exact fun _ h => absurd h List.not_mem_nil
  | (k, v) :: rest =>
    exact List.forall_mem_cons.2 ⟨⟨fun w => same_symm hes.1, fun w => same_symm hes.2.1⟩,
      symm_of_regularEntries hes.2.2⟩

end

/-- Equality of values is that of parts but for scalars. -/
theorem alike_eq_same {v : Data} (h : ∀ s, v ≠ .scalar s) (w : Data) : v.alike w = v.same w := by
  cases v with
  | scalar s => exact absurd rfl (h s)
  | _ => rfl

/-- What is equal to a value that is no scalar is no scalar. -/
theorem same_ne_scalar {v w : Data} (h : v.same w = true) (hv : ∀ s, v ≠ .scalar s) :
    ∀ s, w ≠ .scalar s := by
  rintro s rfl
  cases v with
  | scalar t => exact hv t rfl
  | _ => simp only [same, Bool.false_eq_true] at h

/-- Values equal to one value are equal. -/
theorem alike_trans {u v w : Data} (huv : u.alike v = true) (hvw : v.alike w = true) :
    u.alike w = true := by
  by_cases hs : ∃ s, u = .scalar s
  · obtain ⟨s, rfl⟩ := hs
    cases v <;> simp only [alike, same, Bool.false_eq_true] at huv
    cases w <;> simp only [alike, same, Bool.false_eq_true] at hvw ⊢
    exact Scalar.alike_trans huv hvw
  · have hu : ∀ s, u ≠ .scalar s := fun s h => hs ⟨s, h⟩
    rw [alike_eq_same hu] at huv ⊢
    rw [alike_eq_same (same_ne_scalar huv hu)] at hvw
    exact same_trans huv hvw

/-- Equality with a regular value does not depend on the order. -/
theorem alike_symm {v w : Data} (hv : v.Regular) (h : v.alike w = true) : w.alike v = true := by
  by_cases hs : ∃ s, v = .scalar s
  · obtain ⟨s, rfl⟩ := hs
    cases w <;> simp only [alike, same, Bool.false_eq_true] at h ⊢
    exact Scalar.alike_symm h
  · have hne : ∀ s, v ≠ .scalar s := fun s h => hs ⟨s, h⟩
    rw [alike_eq_same hne] at h
    rw [alike_eq_same (same_ne_scalar h hne)]
    exact same_symm hv h

end Data

/-! ### Lists that only grow -/

namespace Merge

/-- An equal item is among those of a list. -/
theorem among_iff {v : Data} {xs : List Data} : v.among xs = true ↔ ∃ x ∈ xs, x.same v = true :=
  List.any_eq_true

/-- Items united in two steps or in one. -/
theorem unionItems_append (xs ys zs : List Data) :
    unionItems xs (ys ++ zs) = unionItems (unionItems xs ys) zs := List.foldl_append ..

/-- One item is put at the end, unless it is there. -/
theorem unionItems_singleton (xs : List Data) (y : Data) :
    unionItems xs [y] = if y.among xs then xs else xs ++ [y] := rfl

/-- What is in a list stays in it when it grows. -/
theorem subset_unionItems (xs ys : List Data) : xs ⊆ unionItems xs ys := by
  induction ys generalizing xs with
  | nil => exact List.Subset.refl xs
  | cons y ys ih =>
    refine List.Subset.trans ?_ (ih _)
    dsimp only
    split
    · exact List.Subset.refl xs
    · exact List.subset_append_left xs _

/-- What is among the items that come to a list is among those of the list then. -/
theorem among_unionItems {v : Data} (xs : List Data) {ys : List Data}
    (h : v.among ys = true) : v.among (unionItems xs ys) = true := by
  obtain ⟨y, hy, hyv⟩ := among_iff.1 h
  obtain ⟨before, after, rfl⟩ := List.append_of_mem hy
  rw [show before ++ y :: after = before ++ [y] ++ after by simp, unionItems_append,
    unionItems_append]
  -- An item is added, or there was an equal one before.
  have hmem : ∃ x ∈ unionItems (unionItems xs before) [y], x.same v = true := by
    rw [unionItems_singleton]
    split
    · rename_i hamong
      obtain ⟨x, hx, hxy⟩ := among_iff.1 hamong
      exact ⟨x, hx, Data.same_trans hxy hyv⟩
    · exact ⟨y, List.mem_append_right _ (List.mem_singleton_self y), hyv⟩
  obtain ⟨x, hx, hxv⟩ := hmem
  exact among_iff.2 ⟨x, subset_unionItems _ after hx, hxv⟩

/-- A list does not grow by what is among its items. -/
theorem unionItems_of_among {xs ys : List Data} (h : ∀ y ∈ ys, y.among xs = true) :
    unionItems xs ys = xs := by
  induction ys with
  | nil => rfl
  | cons y ys ih =>
    obtain ⟨hy, hys⟩ := List.forall_mem_cons.1 h
    show unionItems (if y.among xs then xs else xs ++ [y]) ys = xs
    rw [if_pos hy, ih hys]

/-- A list grows once by the same items. -/
theorem unionItems_unionItems (xs ys : List Data) :
    unionItems (unionItems xs ys) ys = unionItems xs ys :=
  unionItems_of_among fun y hy =>
    among_unionItems xs (among_iff.2 ⟨y, hy, Data.same_refl y⟩)

/-- A list grows by what another has grown by as it does by one after the other. -/
theorem unionItems_assoc (xs ys zs : List Data) :
    unionItems xs (unionItems ys zs) = unionItems (unionItems xs ys) zs := by
  induction zs generalizing ys with
  | nil => rfl
  | cons z zs ih =>
    have hstep : unionItems xs (unionItems ys [z]) = unionItems (unionItems xs ys) [z] := by
      rw [unionItems_singleton, unionItems_singleton]
      split
      · rename_i hz
        rw [if_pos (among_unionItems xs hz)]
      · rw [unionItems_append, unionItems_singleton]
    rw [show z :: zs = [z] ++ zs from rfl, unionItems_append ys, ih, hstep, ← unionItems_append]

/-- A list that grows does not come to hold anything twice. -/
theorem pairwise_unionItems {xs : List Data} (ys : List Data)
    (h : xs.Pairwise fun x y => ¬x.same y = true) :
    (unionItems xs ys).Pairwise fun x y => ¬x.same y = true := by
  induction ys generalizing xs with
  | nil => exact h
  | cons y ys ih =>
    show (unionItems (if y.among xs then xs else xs ++ [y]) ys).Pairwise _
    split
    · exact ih h
    · rename_i hy
      refine ih (List.pairwise_append.2 ⟨h, List.pairwise_singleton _ _, fun x hx z hz hxz => hy ?_⟩)
      rw [List.mem_singleton.1 hz] at hxz
      exact among_iff.2 ⟨x, hx, hxz⟩

/-- A list none of whose items is equal to an earlier one grows from nothing to itself. -/
theorem unionItems_nil {xs : List Data} (h : xs.Pairwise fun x y => ¬x.same y = true) :
    unionItems [] xs = xs := by
  suffices hgen : ∀ acc : List Data, (acc ++ xs).Pairwise (fun x y => ¬x.same y = true) →
      unionItems acc xs = acc ++ xs from hgen [] h
  clear h
  induction xs with
  | nil => exact fun acc _ => (List.append_nil acc).symm
  | cons x xs ih =>
    intro acc hacc
    have hx : ¬x.among acc = true := by
      intro hamong
      obtain ⟨y, hy, hyx⟩ := among_iff.1 hamong
      exact (List.pairwise_append.1 hacc).2.2 y hy x List.mem_cons_self hyx
    show unionItems (if x.among acc then acc else acc ++ [x]) xs = _
    rw [if_neg hx, ih (acc ++ [x]) (by simpa using hacc), List.append_assoc]
    rfl

end Merge

end ApiDoc
