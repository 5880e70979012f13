import Mathlib.Data.List.Basic
import ApiDoc.Model
import ApiDoc.Proofs.Data.Entries

namespace ApiDoc

/-!
# What the identity of a model says of its groups

Models of one identity are described once. The identity holds the last specification that is given
for a property, and describing takes the first one that is a list or a mapping:

* `Groups.canonical_eq` — the canonical form of a specification, by its names and scopes;
* `Groups.mem_requested` — the groups that are requested are those of the canonical form;
* `Groups.Plain` — specifications that give every property one scope at most;
* `Groups.Plain.scope?_canonical` — the scope of a property in the canonical form of such a specification;
* `Model.identity_sound` — models of one identity are described in the same way.
-/

namespace Groups

variable {default : String}

/-! ### The canonical form -/

/-- The entries of all mappings in a specification. -/
def scopeEntries (xs : List Data) : Entries :=
  xs.flatMap fun x => match x with
    | .map es _ => es
    | _ => []

/-- The scopes of a mapping, entry by entry. -/
theorem entryScopes_eq (es : Entries) :
    entryScopes default es = es.map fun e => (e.1.plain, canonical default e.2) := by
  induction es with
  | nil => rfl
  | cons e es ih => rw [entryScopes, ih]; rfl

/-- The scopes of items are those of their mappings. -/
theorem scopesOf_eq (xs : List Data) : scopesOf default xs
    = (scopeEntries xs).map fun e => (e.1.plain, canonical default e.2) := by
  induction xs with
  | nil => rfl
  | cons x xs ih =>
    cases x with
    | map es mark =>
      rw [scopesOf, ih, entryScopes_eq, ← List.map_append]
      rfl
    | _ => exact ih

/-- The canonical form by the names and the scopes. -/
theorem canonical_eq {g : Data} (h : g ≠ .null) : canonical default g
    = assemble default (nameTexts (entries g)) (scopesOf default (entries g)) := by
  cases g with
  | scalar s =>
    cases s with
    | null => exact absurd rfl h
    | _ => rfl
  | map es mark =>
    show assemble default [] (entryScopes default es)
      = assemble default [] (entryScopes default es ++ [])
    rw [List.append_nil]
  | _ => rfl

/-! ### Requested groups -/

/-- A name put in is there, and so are all others. -/
theorem mem_insertName {x y : String} {ys : List String} :
    x ∈ insertName y ys ↔ x = y ∨ x ∈ ys := by
  induction ys with
  | nil => exact List.mem_cons
  | cons z ys ih =>
    unfold insertName
    split
    · exact List.mem_cons
    · split
      · rename_i hyz
        rw [beq_iff_eq] at hyz
        simp [hyz]
      · simp only [List.mem_cons, ih]
        exact or_left_comm

/-- The list of a set of names has the same names. -/
theorem mem_sortedSet {x : String} {xs : List String} : x ∈ sortedSet xs ↔ x ∈ xs := by
  induction xs with
  | nil => rfl
  | cons y ys ih =>
    show x ∈ insertName y (sortedSet ys) ↔ _
    rw [mem_insertName, ih, List.mem_cons]

/-- The groups that a canonical form requests. -/
def Canonical.requested (default : String) : Canonical → List String
  | .unfiltered => [default]
  | .filter names _ => if names.isEmpty then [default] else names

/-- It is empty if there are none. -/
theorem sortedSet_eq_nil {xs : List String} : sortedSet xs = [] ↔ xs = [] := by
  simp only [List.eq_nil_iff_forall_not_mem, mem_sortedSet]

/-- The canonical form requests the names given, or the default where there are none. -/
theorem mem_requested_canonical {g : Data} {s : String} :
    s ∈ (canonical default g).requested default ↔
      if nameTexts (entries g) = [] then s = default else s ∈ nameTexts (entries g) := by
  by_cases hg : g = .null
  · subst hg
    exact List.mem_singleton
  rw [canonical_eq hg]
  unfold assemble
  dsimp only
  split
  · rename_i hdefault
    rw [Bool.and_eq_true, beq_iff_eq] at hdefault
    have hmem : ∀ t, t ∈ nameTexts (entries g) ↔ t ∈ sortedSet (nameTexts (entries g)) :=
      fun t => mem_sortedSet.symm
    rw [hdefault.2] at hmem
    rw [if_neg (List.ne_nil_of_mem ((hmem default).2 (List.mem_singleton_self default))), hmem]
    rfl
  · unfold Canonical.requested
    dsimp only
    simp only [List.isEmpty_iff, sortedSet_eq_nil]
    split
    · exact List.mem_singleton
    · exact mem_sortedSet

/-- The groups that are requested are those of the canonical form. -/
theorem mem_requested {g : Data} (hg : ∀ x ∈ names g, ∃ s : String, x = .str s) {x : Data} :
    x ∈ (Exclusion.ofGroups g default).requested ↔
      ∃ s ∈ (canonical default g).requested default, x = .str s := by
  have hnames : ∀ s : String, s ∈ nameTexts (entries g) ↔ .str s ∈ names g := by
    intro s
    rw [nameTexts, List.mem_map]
    refine ⟨fun ⟨y, hy, hs⟩ => ?_, fun h => ⟨_, h, rfl⟩⟩
    obtain ⟨r, rfl⟩ := hg y hy
    obtain rfl : r = s := hs
    exact hy
  have hempty : nameTexts (entries g) = [] ↔ names g = [] := List.map_eq_nil_iff
  simp only [mem_requested_canonical, hempty, hnames]
  unfold Exclusion.ofGroups
  dsimp only
  split
  · rename_i hnil
    simp [hnil]
  · rename_i hne
    simp only [if_neg hne]
    refine ⟨fun hx => ?_, fun ⟨s, hs, hx⟩ => hx ▸ hs⟩
    obtain ⟨s, rfl⟩ := hg x hx
    exact ⟨s, hx, rfl⟩

/-- Requests for the same groups leave out the same properties. -/
theorem skips_congr {e f : Exclusion} (hdefault : e.default = f.default)
    (h : ∀ x, x ∈ e.requested ↔ x ∈ f.requested) (declared : Data) :
    e.skips declared = f.skips declared := by
  have hany : ∀ ms : List Data, (e.requested.any fun r => r.among ms)
      = f.requested.any fun r => r.among ms := fun ms => by
    rw [Bool.eq_iff_iff, List.any_eq_true, List.any_eq_true]
    simp only [h]
  unfold Exclusion.skips
  simp only [hdefault, hany]

/-! ### Scopes -/

/-- A specification of names that are texts. It gives every property one scope at most, which is a
    list or a mapping. -/
structure Plain (g : Data) : Prop where
  names : ∀ x ∈ names g, ∃ s : String, x = .str s
  once : (scopeEntries (entries g)).Distinct
  scopes : ∀ e ∈ scopeEntries (entries g), isScope e.2 = true

/-- What a specification gives for a property. -/
theorem findSome?_scope? {xs : List Data} (h : ∀ e ∈ scopeEntries xs, isScope e.2 = true)
    (p : String) : xs.findSome? (scope? (.str p)) = (scopeEntries xs).text? p := by
  induction xs with
  | nil => rfl
  | cons x xs ih =>
    obtain ⟨hx, hxs⟩ := List.forall_mem_append.1 h
    rw [List.findSome?_cons, ih hxs, show scopeEntries (x :: xs) = _ ++ scopeEntries xs from rfl,
      Entries.text?_append]
    cases x with
    | map es mark =>
      have hscope : scope? (.str p) (.map es mark) = Entries.text? es p := by
        show (Entries.text? es p).filter isScope = _
        cases hv : Entries.text? es p with
        | none => rfl
        | some v => exact Option.filter_some_pos (hx _ (Entries.mem_of_text? hv))
      rw [hscope]
      cases Entries.text? es p <;> rfl
    | _ => rfl

/-- The canonical form of what is given for a property. -/
def Canonical.scope? : Canonical → String → Option Canonical
  | .unfiltered, _ => none
  | .filter _ scopes, p => scopes.lookup p

/-- What is found behind one more pair. -/
theorem lookup_cons_eq {α : Type} (p k : String) (c : α) (l : List (String × α)) :
    ((k, c) :: l).lookup p = if p = k then some c else l.lookup p := by
  rw [List.lookup_cons]
  by_cases hp : p = k
  · rw [if_pos hp, beq_iff_eq.2 hp]
  · rw [if_neg hp, beq_eq_false_iff_ne.2 hp]

/-- A scope put is found, and so are all others. -/
theorem lookup_putScope (k p : String) (c : Canonical) (scopes : List (String × Canonical)) :
    (putScope k c scopes).lookup p = if p = k then some c else scopes.lookup p := by
  induction scopes with
  | nil => exact lookup_cons_eq p k c []
  | cons e scopes ih =>
    obtain ⟨l, d⟩ := e
    unfold putScope
    split
    · exact lookup_cons_eq p k c _
    · split
      · rename_i hkl
        rw [beq_iff_eq] at hkl
        subst hkl
        simp only [lookup_cons_eq]
        split <;> rfl
      · rename_i hkl
        rw [beq_iff_eq] at hkl
        simp only [lookup_cons_eq, ih]
        by_cases hp : p = l
        · rw [if_pos hp, if_pos hp, if_neg (fun h => hkl (h.symm.trans hp))]
        · rw [if_neg hp, if_neg hp]

/-- A scope that is given once is the one that is found. -/
theorem lookup_foldl_putScope (given acc : List (String × Canonical)) (p : String)
    (h : given.Pairwise fun a b => a.1 ≠ b.1) :
    (given.foldl (fun acc a => putScope a.1 a.2 acc) acc).lookup p
      = (given.lookup p).or (acc.lookup p) := by
  induction given generalizing acc with
  | nil => rfl
  | cons a given ih =>
    obtain ⟨k, c⟩ := a
    obtain ⟨hhead, htail⟩ := List.pairwise_cons.1 h
    rw [List.foldl_cons, ih _ htail, lookup_putScope, lookup_cons_eq]
    by_cases hp : p = k
    · have hnone : given.lookup p = none := List.lookup_eq_none_iff.2 fun b hb => by
        simpa [hp] using hhead b hb
      rw [hnone, if_pos hp, if_pos hp]
      rfl
    · rw [if_neg hp, if_neg hp]

/-- The scope of a property in canonical form. -/
theorem lookup_map_plain {es : Entries} (h : ∀ e ∈ es, ∃ s : String, e.1 = .str s) (p : String) :
    (es.map fun e => (e.1.plain, canonical default e.2)).lookup p
      = (es.text? p).map (canonical default) := by
  induction es with
  | nil => rfl
  | cons e es ih =>
    obtain ⟨⟨s, hs⟩, hrest⟩ := List.forall_mem_cons.1 h
    obtain ⟨key, v⟩ := e
    dsimp only at hs
    subst hs
    rw [List.map_cons, lookup_cons_eq, ih hrest]
    show (if p = s then _ else _) = _
    by_cases hp : p = s
    · rw [if_pos hp, hp, Entries.text?_cons_self]
      rfl
    · rw [if_neg hp, Entries.text?_cons_of_ne (by simpa using Ne.symm hp)]

/-- The canonical form has of what is given for a property the canonical form. -/
theorem Plain.scope?_canonical {g : Data} (h : Plain g) (p : String) :
    (canonical default g).scope? p = (nested g (.str p)).map (canonical default) := by
  rw [nested, findSome?_scope? h.scopes]
  by_cases hg : g = .null
  · subst hg
    rfl
  -- Under distinct keys the scope of a property is the canonical form of its only entry.
  have htext : ((scopeEntries (entries g)).map fun e => (e.1.plain, canonical default e.2)).lookup p
      = ((scopeEntries (entries g)).text? p).map (canonical default) := lookup_map_plain h.once.1 p
  have hapart : (scopesOf default (entries g)).Pairwise fun a b => a.1 ≠ b.1 := by
    rw [scopesOf_eq]
    refine List.pairwise_map.2 ((List.Pairwise.and_mem.1 h.once.2).imp ?_)
    rintro e f ⟨he, hf, hne⟩ heq
    obtain ⟨s, hs⟩ := h.once.1 e he
    obtain ⟨r, hr⟩ := h.once.1 f hf
    rw [hs, hr] at heq
    exact hne (by rw [hs, hr]; exact congrArg _ heq)
  rw [← scopesOf_eq] at htext
  rw [canonical_eq hg, ← htext]
  unfold assemble
  dsimp only
  split
  -- The one specification that filters nothing has no scope at all.
  · rename_i hdefault
    rw [Bool.and_eq_true, List.isEmpty_iff] at hdefault
    rw [hdefault.1]
    rfl
  · exact (lookup_foldl_putScope _ [] p hapart).trans (Option.or_none ..)

/-! ### Canonical forms as values -/

mutual

/-- Canonical forms that are the same as values are the same. -/
theorem Canonical.toData_inj {c d : Canonical} (h : c.toData = d.toData) : c = d := by
  cases c with
  | unfiltered =>
    cases d with
    | unfiltered => rfl
    | filter names scopes => simp [Canonical.toData] at h
  | filter names scopes =>
    cases d with
    | unfiltered => simp [Canonical.toData] at h
    | filter names' scopes' =>
      simp only [Canonical.toData, Data.tuple.injEq, List.cons.injEq, and_true] at h
      have hinj : Function.Injective Data.str := fun s r hsr => by simpa using hsr
      rw [hinj.list_map h.1, scopesData_inj h.2]

/-- Scopes can be told from the values that they are written as. -/
theorem scopesData_inj {xs ys : List (String × Canonical)} (h : scopesData xs = scopesData ys) :
    xs = ys := by
  match xs, ys with
  | [], [] => rfl
  | [], (k, c) :: ys => simp [scopesData] at h
  | (k, c) :: xs, [] => simp [scopesData] at h
  | (k, c) :: xs, (l, d) :: ys =>
    simp only [scopesData, List.cons.injEq, Data.tuple.injEq, Data.scalar.injEq, Scalar.str.injEq,
      and_true] at h
    rw [h.1.1, Canonical.toData_inj h.1.2, scopesData_inj h.2]

end

end Groups

/-! ### Models -/

namespace Model

open Groups

/-- Models of one identity are described in the same way: their groups leave out the same
    properties, and give for each property groups of one canonical form, or none. -/
theorem identity_sound {m₁ m₂ : Model} (h₁ : Plain m₁.groups) (h₂ : Plain m₂.groups)
    (h : m₁.identity = m₂.identity) :
    (∀ declared, (Exclusion.ofGroups m₁.groups defaultGroup).skips declared
        = (Exclusion.ofGroups m₂.groups defaultGroup).skips declared) ∧
      ∀ p : String, (nested m₁.groups (.str p)).map (canonical defaultGroup)
        = (nested m₂.groups (.str p)).map (canonical defaultGroup) := by
  have hcanonical : canonical defaultGroup m₁.groups = canonical defaultGroup m₂.groups := by
    simp only [identity, Data.list.injEq, List.cons.injEq, and_true] at h
    exact Canonical.toData_inj h.2
  constructor
  · refine skips_congr rfl fun x => ?_
    rw [mem_requested h₁.names, mem_requested h₂.names, hcanonical]
  · intro p
    rw [← h₁.scope?_canonical, ← h₂.scope?_canonical, hcanonical]

/-- Names in another order, and a scope in a mapping of its own or not. -/
theorem identity_sound_reordered :
    let g₁ := Data.ofList [.str "a", .str "b", .ofEntries [(.str "p", .ofList [.str "x"])]]
    let g₂ := Data.ofTuple [.ofEntries [(.str "p", .ofTuple [.str "x", .str "x"])], .str "b", .str "a"]
    (ofClass "app.A" g₁).identity = (ofClass "app.A" g₂).identity ∧
      (∀ declared, (Exclusion.ofGroups g₁ defaultGroup).skips declared
        = (Exclusion.ofGroups g₂ defaultGroup).skips declared) ∧
      ∀ p : String, (nested g₁ (.str p)).map (canonical defaultGroup)
        = (nested g₂ (.str p)).map (canonical defaultGroup) := by
  intro g₁ g₂
  have hg₁ : Plain g₁ := ⟨by simp [g₁, names, entries, isName],
    by simp [g₁, scopeEntries, entries, Entries.Distinct], by simp [g₁, scopeEntries, entries, isScope]⟩
  have hg₂ : Plain g₂ := ⟨by simp [g₂, names, entries, isName],
    by simp [g₂, scopeEntries, entries, Entries.Distinct], by simp [g₂, scopeEntries, entries, isScope]⟩
  have hidentity : (ofClass "app.A" g₁).identity = (ofClass "app.A" g₂).identity := by rfl
  exact ⟨hidentity, identity_sound (by exact hg₁) (by exact hg₂) hidentity⟩

/-- Where two mappings give scopes for one property, describing takes the first scope and the
    identity holds the last one. -/
theorem identity_not_sound :
    let g₁ := Data.ofList [.str "a", .ofEntries [(.str "p", .ofList [.str "x"])],
      .ofEntries [(.str "p", .ofList [.str "y"])]]
    let g₂ := Data.ofList [.str "a", .ofEntries [(.str "p", .ofList [.str "y"])]]
    (ofClass "app.A" g₁).hash = (ofClass "app.A" g₂).hash ∧
      (nested g₁ (.str "p")).map (canonical defaultGroup)
        ≠ (nested g₂ (.str "p")).map (canonical defaultGroup) := by
  intro g₁ g₂
  have hidentity : (ofClass "app.A" g₁).identity = (ofClass "app.A" g₂).identity := by rfl
  constructor
  · rw [hash, payload, hidentity]
    rfl
  -- The forms request different groups.
  · exact fun h => absurd (congrArg (Option.map (Canonical.requested defaultGroup)) h)
      (by decide +kernel)

end Model

end ApiDoc
