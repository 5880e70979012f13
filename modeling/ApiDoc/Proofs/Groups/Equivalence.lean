import Mathlib.Data.List.Sort
import ApiDoc.Proofs.Data.Written
import ApiDoc.Proofs.Groups.Identity

namespace ApiDoc

/-!
# Which models have one hash

* `Groups.lastScope?` — the last specification that is given for a property;
* `Groups.Equivalent` — specifications with the same names and, for each property, equivalent last
  scopes, or no filter both;
* `Groups.canonical_eq_iff` — they are the specifications of one canonical form;
* `Groups.Restates.canonical_eq` — rewritings of a specification keep the canonical form;
* `Model.payload_eq_iff` — the text that is digested tells class name and canonical form;
* `Model.hash_eq_iff` — models have one hash if they have one class name and equivalent groups.
-/

namespace Groups

variable {default : String}

/-! ### Sets of names -/

/-- Of two different names one is the smaller. -/
theorem lt_of_not_lt {x y : String} (h : ¬x < y) (hne : x ≠ y) : y < x :=
  Decidable.byContradiction fun hyx => hne (Std.Trichotomous.trichotomous x y h hyx)

/-- Names in order stay so when one is put in. -/
theorem insertName_pairwise (x : String) {ys : List String} (h : ys.Pairwise (· < ·)) :
    (insertName x ys).Pairwise (· < ·) := by
  induction ys with
  | nil => exact List.pairwise_singleton _ _
  | cons y ys ih =>
    obtain ⟨hy, hys⟩ := List.pairwise_cons.1 h
    unfold insertName
    split
    · rename_i hxy
      refine List.pairwise_cons.2 ⟨fun z hz => ?_, h⟩
      rcases List.mem_cons.1 hz with rfl | hz
      · exact hxy
      · exact String.lt_trans hxy (hy z hz)
    · split
      · exact h
      · rename_i hxy hne
        refine List.pairwise_cons.2 ⟨fun z hz => ?_, ih hys⟩
        rcases mem_insertName.1 hz with rfl | hz
        · exact lt_of_not_lt hxy fun heq => hne (beq_iff_eq.2 heq)
        · exact hy z hz

/-- The list of a set of names is in order. -/
theorem sortedSet_pairwise (xs : List String) : (sortedSet xs).Pairwise (· < ·) := by
  induction xs with
  | nil => exact .nil
  | cons x xs ih => exact insertName_pairwise x ih

/-- Names in order are told by which they are. -/
theorem sortedSet_eq_iff {xs ys : List String} :
    sortedSet xs = sortedSet ys ↔ ∀ s, s ∈ xs ↔ s ∈ ys := by
  refine ⟨fun h s => ?_, fun h => ?_⟩
  · rw [← mem_sortedSet, h, mem_sortedSet]
  · refine List.Pairwise.eq_of_mem_iff (sortedSet_pairwise xs) (sortedSet_pairwise ys) fun s => ?_
    rw [mem_sortedSet, mem_sortedSet, h s]

/-! ### Scopes in the order of their keys -/

/-- Scopes in the order of their keys, of those given for one key the last. -/
def collect (given : List (String × Canonical)) : List (String × Canonical) :=
  given.foldl (fun acc p => putScope p.1 p.2 acc) []

/-- The keys of scopes are kept like a set of names. -/
theorem keys_putScope (k : String) (c : Canonical) (scopes : List (String × Canonical)) :
    (putScope k c scopes).map (·.1) = insertName k (scopes.map (·.1)) := by
  induction scopes with
  | nil => rfl
  | cons e scopes ih =>
    obtain ⟨l, d⟩ := e
    rw [putScope, List.map_cons, insertName]
    split
    · rfl
    · split
      · rfl
      · rw [List.map_cons, ih]

/-- The keys of collected scopes are in order. -/
theorem keys_collect_pairwise (given : List (String × Canonical)) :
    ((collect given).map (·.1)).Pairwise (· < ·) := by
  suffices hgen : ∀ acc : List (String × Canonical), (acc.map (·.1)).Pairwise (· < ·) →
      ((given.foldl (fun acc p => putScope p.1 p.2 acc) acc).map (·.1)).Pairwise (· < ·) from
    hgen [] .nil
  induction given with
  | nil => exact fun _ h => h
  | cons e given ih =>
    intro acc h
    refine ih _ ?_
    rw [keys_putScope]
    exact insertName_pairwise _ h

/-- Of the scopes that are given for one key the last is kept. -/
theorem lookup_collect (given : List (String × Canonical)) (p : String) :
    (collect given).lookup p = given.reverse.lookup p := by
  suffices hgen : ∀ acc : List (String × Canonical),
      (given.foldl (fun acc p => putScope p.1 p.2 acc) acc).lookup p
        = (given.reverse.lookup p).or (acc.lookup p) from
    (hgen []).trans (Option.or_none ..)
  induction given with
  | nil => exact fun _ => rfl
  | cons e given ih =>
    intro acc
    rw [List.foldl_cons, ih, lookup_putScope, List.reverse_cons, List.lookup_append,
      Option.or_assoc, lookup_cons_eq]
    by_cases hp : p = e.1
    · rw [if_pos hp, if_pos hp]
      rfl
    · rw [if_neg hp, if_neg hp]
      rfl

/-- Where keys are there once, what is found is what is there. -/
theorem lookup_eq_some_iff_mem {α : Type} {l : List (String × α)} (h : (l.map (·.1)).Nodup)
    {p : String} {c : α} : l.lookup p = some c ↔ (p, c) ∈ l := by
  refine ⟨mem_of_lookup, fun hmem => ?_⟩
  obtain ⟨before, after, rfl⟩ := List.append_of_mem hmem
  refine List.lookup_eq_some_iff.2 ⟨before, after, rfl, fun e he => ?_⟩
  rw [List.map_append, List.nodup_append] at h
  exact bne_iff_ne.2 fun heq => h.2.2 _ (List.mem_map_of_mem he) _ List.mem_cons_self heq.symm

/-- Of the scopes given for each key the last is there. -/
theorem mem_collect {given : List (String × Canonical)} {e : String × Canonical} :
    e ∈ collect given ↔ given.reverse.lookup e.1 = some e.2 := by
  have hkeys : ((collect given).map (·.1)).Nodup := by
    refine List.Pairwise.imp ?_ (keys_collect_pairwise given)
    rintro k _ hlt rfl
    exact String.lt_irrefl k hlt
  rw [← lookup_collect, lookup_eq_some_iff_mem hkeys]

/-- Scopes in the order of their keys are told by what is found for each key. -/
theorem collect_eq_iff {xs ys : List (String × Canonical)} :
    collect xs = collect ys ↔ ∀ p, xs.reverse.lookup p = ys.reverse.lookup p := by
  refine ⟨fun h p => by rw [← lookup_collect, h, lookup_collect], fun h => ?_⟩
  have : Std.Antisymm fun a b : String × Canonical => a.1 < b.1 :=
    ⟨fun a b hab hba => absurd hba (String.lt_asymm hab)⟩
  have : Std.Irrefl fun a b : String × Canonical => a.1 < b.1 := ⟨fun a => String.lt_irrefl a.1⟩
  refine List.Pairwise.eq_of_mem_iff (List.pairwise_map.1 (keys_collect_pairwise xs))
    (List.pairwise_map.1 (keys_collect_pairwise ys)) fun e => ?_
  rw [mem_collect, mem_collect, h]

/-! ### Equal canonical forms -/

/-- Where nothing is found there is nothing. -/
theorem eq_nil_iff_lookup {α : Type} {l : List (String × α)} :
    l = [] ↔ ∀ p, l.reverse.lookup p = none := by
  refine ⟨fun h p => by rw [h]; rfl, fun h => List.eq_nil_iff_forall_not_mem.2 fun e he => ?_⟩
  have hne := List.lookup_eq_none_iff.1 (h e.1) e (List.mem_reverse.2 he)
  simp at hne

/-- There is no filter where nothing is given and the default group is the only name. -/
theorem assemble_eq_unfiltered_iff {names : List String} {given : List (String × Canonical)} :
    assemble default names given = .unfiltered ↔ given = [] ∧ ∀ s, s ∈ names ↔ s = default := by
  have hsingle : sortedSet names = [default] ↔ ∀ s, s ∈ names ↔ s = default := by
    rw [show [default] = sortedSet [default] from rfl, sortedSet_eq_iff]
    simp only [List.mem_singleton]
  unfold assemble
  dsimp only
  rw [← hsingle, ← List.isEmpty_iff, ← beq_iff_eq (a := sortedSet names), ← Bool.and_eq_true]
  split
  · rename_i h
    exact iff_of_true rfl h
  · rename_i h
    exact iff_of_false nofun h

/-- With a scope, or names other than the default alone, a specification is a filter. -/
theorem assemble_of_filtered {names : List String} {given : List (String × Canonical)}
    (h : ¬(given = [] ∧ ∀ s, s ∈ names ↔ s = default)) :
    assemble default names given = .filter (sortedSet names) (collect given) := by
  have hne := mt assemble_eq_unfiltered_iff.1 h
  unfold assemble at hne ⊢
  dsimp only at hne ⊢
  split
  · rename_i hcollapse
    exact absurd (if_pos hcollapse) hne
  · rfl

/-- Canonical forms are told by the names and by the last scope for each property. -/
theorem assemble_eq_iff {names names' : List String} {given given' : List (String × Canonical)} :
    assemble default names given = assemble default names' given' ↔
      (∀ s, s ∈ names ↔ s ∈ names') ∧ ∀ p, given.reverse.lookup p = given'.reverse.lookup p := by
  by_cases h : given = [] ∧ ∀ s, s ∈ names ↔ s = default
  · rw [assemble_eq_unfiltered_iff.2 h, eq_comm, assemble_eq_unfiltered_iff, eq_nil_iff_lookup,
      h.1, and_comm]
    simp only [h.2, List.reverse_nil, List.lookup_nil, eq_comm]
    exact and_congr_left' (forall_congr' fun _ => iff_comm)
  · rw [assemble_of_filtered h]
    by_cases h' : given' = [] ∧ ∀ s, s ∈ names' ↔ s = default
    · rw [assemble_eq_unfiltered_iff.2 h']
      refine iff_of_false nofun fun ⟨hnames, hgiven⟩ => h ⟨?_, fun s => ?_⟩
      · rw [eq_nil_iff_lookup]
        simp [hgiven, h'.1]
      · rw [hnames, h'.2]
    · rw [assemble_of_filtered h', Canonical.filter.injEq, sortedSet_eq_iff, collect_eq_iff]

/-! ### Equivalent specifications -/

/-- The last specification that is given for a property. -/
def lastScope? (g : Data) (p : String) : Option Data :=
  Entries.text? (scopeEntries (entries g)).reverse p

/-- No filter: null, or the default group alone without scopes. -/
def Unfiltered (default : String) (g : Data) : Prop :=
  g = .null ∨ (∀ s : String, .str s ∈ names g ↔ s = default) ∧ scopeEntries (entries g) = []

/-- No filter both, or the same names and, for each property, equivalent last scopes. -/
inductive Equivalent (default : String) : Data → Data → Prop
  | unfiltered {g h : Data} : Unfiltered default g → Unfiltered default h → Equivalent default g h
  | filtered {g h : Data} : g ≠ .null → h ≠ .null →
      (∀ s : String, .str s ∈ names g ↔ .str s ∈ names h) →
      (∀ p, (lastScope? g p).isSome ↔ (lastScope? h p).isSome) →
      (∀ p u v, lastScope? g p = some u → lastScope? h p = some v → Equivalent default u v) →
      Equivalent default g h

/-- A specification whose names and keys are texts, whole ones. -/
inductive Spelled : Data → Prop
  | intro {g : Data} : (∀ x ∈ names g, ∃ s, Text.Whole s ∧ x = .str s) →
      (∀ e ∈ scopeEntries (entries g), ∃ s, Text.Whole s ∧ e.1 = .str s) →
      (∀ e ∈ scopeEntries (entries g), Spelled e.2) → Spelled g

/-- The texts of names are the texts among the items. -/
theorem mem_nameTexts {xs : List Data} (h : ∀ x ∈ xs.filter isName, ∃ s : String, x = .str s)
    {s : String} : s ∈ nameTexts xs ↔ .str s ∈ xs.filter isName := by
  rw [nameTexts, List.mem_map]
  constructor
  · rintro ⟨x, hx, hs⟩
    obtain ⟨r, rfl⟩ := h x hx
    obtain rfl : r = s := hs
    exact hx
  · intro hs
    exact ⟨_, hs, rfl⟩

/-- The scope that the canonical form keeps is that of the last specification. -/
theorem lookup_scopesOf {g : Data} (h : ∀ e ∈ scopeEntries (entries g), ∃ s : String, e.1 = .str s)
    (p : String) : (scopesOf default (entries g)).reverse.lookup p
      = (lastScope? g p).map (canonical default) := by
  rw [scopesOf_eq, ← List.map_reverse]
  exact lookup_map_plain (fun e he => h e (List.mem_reverse.1 he)) p

/-- The names of a spelled specification are texts. -/
theorem Spelled.names {g : Data} (h : Spelled g) : ∀ x ∈ names g, ∃ s : String, x = .str s := by
  cases h with
  | intro hnames _ _ =>
    intro x hx
    obtain ⟨s, -, hs⟩ := hnames x hx
    exact ⟨s, hs⟩

/-- The keys of its scopes are texts. -/
theorem Spelled.keys {g : Data} (h : Spelled g) :
    ∀ e ∈ scopeEntries (entries g), ∃ s : String, e.1 = .str s := by
  cases h with
  | intro _ hkeys _ =>
    intro e he
    obtain ⟨s, -, hs⟩ := hkeys e he
    exact ⟨s, hs⟩

/-- The scopes of a spelled specification are spelled. -/
theorem Spelled.scope {g : Data} (h : Spelled g) {e : Data × Data}
    (he : e ∈ scopeEntries (entries g)) : Spelled e.2 := by
  cases h with
  | intro _ _ hscopes => exact hscopes e he

/-- The last scope of a property is one of those given. -/
theorem mem_of_lastScope? {g v : Data} {p : String} (h : lastScope? g p = some v) :
    (Data.str p, v) ∈ scopeEntries (entries g) :=
  List.mem_reverse.1 (Entries.mem_of_text? h)

/-- The canonical form is no filter where the specification is none. -/
theorem canonical_eq_unfiltered_iff {g : Data} (h : Spelled g) :
    canonical default g = .unfiltered ↔ Unfiltered default g := by
  by_cases hnull : g = .null
  · exact iff_of_true (by rw [hnull]; rfl) (.inl hnull)
  · rw [canonical_eq hnull, assemble_eq_unfiltered_iff, Unfiltered, or_iff_right hnull, and_comm,
      scopesOf_eq, List.map_eq_nil_iff]
    simp only [mem_nameTexts h.names]
    rfl

/-- Forms of filters are told by the names and, for each property, by the form of the last scope. -/
theorem canonical_eq_iff_of_filtered {g h : Data} (hg : Spelled g) (hh : Spelled h)
    (hgnull : g ≠ .null) (hhnull : h ≠ .null) : canonical default g = canonical default h ↔
      (∀ s : String, .str s ∈ Groups.names g ↔ .str s ∈ Groups.names h) ∧
        ∀ p, (lastScope? g p).map (canonical default)
          = (lastScope? h p).map (canonical default) := by
  rw [canonical_eq hgnull, canonical_eq hhnull, assemble_eq_iff]
  simp only [mem_nameTexts hg.names, mem_nameTexts hh.names, lookup_scopesOf hg.keys,
    lookup_scopesOf hh.keys]
  rfl

/-- Specifications have one canonical form if and only if they are equivalent. -/
theorem canonical_eq_iff {g h : Data} (hg : Spelled g) (hh : Spelled h) :
    canonical default g = canonical default h ↔ Equivalent default g h := by
  constructor
  · intro heq
    -- Specifications that are spelled well are compared by induction over the scopes in them.
    induction hg generalizing h with
    | @intro g hnames hkeys hscopes ih =>
      have hg : Spelled g := ⟨hnames, hkeys, hscopes⟩
      by_cases hgnull : g = .null
      · have hunfiltered : canonical default g = .unfiltered := by rw [hgnull]; rfl
        exact .unfiltered (.inl hgnull)
          ((canonical_eq_unfiltered_iff hh).1 (heq.symm.trans hunfiltered))
      by_cases hhnull : h = .null
      · have hunfiltered : canonical default h = .unfiltered := by rw [hhnull]; rfl
        exact .unfiltered ((canonical_eq_unfiltered_iff hg).1 (heq.trans hunfiltered)) (.inl hhnull)
      -- Names are compared as sets, and for each property the last scope that is given for it.
      obtain ⟨hsame, hlast⟩ := (canonical_eq_iff_of_filtered hg hh hgnull hhnull).1 heq
      refine .filtered hgnull hhnull hsame (fun p => ?_) fun p u v hu hv => ?_
      · rw [← Option.isSome_map (f := canonical default), hlast, Option.isSome_map]
      · have hforms := hlast p
        rw [hu, hv] at hforms
        exact ih _ (mem_of_lastScope? hu) (hh.scope (mem_of_lastScope? hv)) (Option.some.inj hforms)
  · intro heq
    induction heq with
    | unfiltered hg' hh' =>
      exact ((canonical_eq_unfiltered_iff hg).2 hg').trans
        ((canonical_eq_unfiltered_iff hh).2 hh').symm
    | @filtered g h hgnull hhnull hsame hsome hscopes ih =>
      refine (canonical_eq_iff_of_filtered hg hh hgnull hhnull).2 ⟨hsame, fun p => ?_⟩
      -- Both scope the property or neither does, and where both do their scopes agree.
      cases hu : lastScope? g p with
      | none =>
        have hv : lastScope? h p = none := by
          rw [← Option.not_isSome_iff_eq_none, ← hsome, hu]
          exact Bool.false_ne_true
        rw [hv]
      | some u =>
        obtain ⟨v, hv⟩ := Option.isSome_iff_exists.1 ((hsome p).1 (by rw [hu]; rfl))
        rw [hv]
        exact congrArg some (ih p u v hu hv (hg.scope (mem_of_lastScope? hu))
          (hh.scope (mem_of_lastScope? hv)))

/-! ### Rewritings -/

/-- Rewritings of a specification at any depth: tuples for lists, a single entry for a list of it,
    names in other places, repetitions, the entries of a mapping in another order, and mappings
    split in two. -/
inductive Restates : Data → Data → Prop
  | refl (g : Data) : Restates g g
  | symm {g h : Data} : Restates g h → Restates h g
  | trans {g h k : Data} : Restates g h → Restates h k → Restates g k
  | tuple (xs : List Data) (m n : Nat) : Restates (.list xs m) (.tuple xs n)
  | single {g : Data} (n : Nat) : entries g = [g] → Restates g (.list [g] n)
  | names {xs ys : List Data} (m n : Nat) : xs.Perm ys →
      xs.filter (!isName ·) = ys.filter (!isName ·) → Restates (.list xs m) (.list ys n)
  | repetition {xs ys : List Data} {x : Data} (m n : Nat) : x ∈ ys →
      Restates (.list (xs ++ x :: ys) m) (.list (xs ++ ys) n)
  | keys {xs ys : List Data} {es fs : Entries} (m n k l : Nat) : es.Perm fs →
      (es.map (·.1.plain)).Nodup →
      Restates (.list (xs ++ .map es k :: ys) m) (.list (xs ++ .map fs l :: ys) n)
  | split (xs ys : List Data) (es fs : Entries) (m n k l j : Nat) :
      Restates (.list (xs ++ .map (es ++ fs) k :: ys) m)
        (.list (xs ++ .map es l :: .map fs j :: ys) n)
  | scope {xs ys : List Data} {es fs : Entries} {key g h : Data} (m n k l : Nat) : Restates g h →
      Restates (.list (xs ++ .map (es ++ (key, g) :: fs) k :: ys) m)
        (.list (xs ++ .map (es ++ (key, h) :: fs) l :: ys) n)

/-- The names of items in two rows. -/
theorem nameTexts_append (xs ys : List Data) :
    nameTexts (xs ++ ys) = nameTexts xs ++ nameTexts ys := by
  rw [nameTexts, List.filter_append, List.map_append]
  rfl

/-- The scopes of items in two rows. -/
theorem scopesOf_append (xs ys : List Data) :
    scopesOf default (xs ++ ys) = scopesOf default xs ++ scopesOf default ys := by
  rw [scopesOf_eq, scopeEntries, List.flatMap_append, List.map_append, scopesOf_eq, scopesOf_eq]
  rfl

/-- Names give no scopes. -/
theorem scopesOf_filter (xs : List Data) :
    scopesOf default (xs.filter (!isName ·)) = scopesOf default xs := by
  induction xs with
  | nil => rfl
  | cons x xs ih =>
    rw [List.filter_cons]
    cases hname : isName x with
    | true =>
      cases x with
      | scalar s => exact ih
      | _ => exact nomatch hname
    | false =>
      cases x with
      | map es mark => exact congrArg (entryScopes default es ++ ·) ih
      | _ => exact ih

/-- With distinct keys the order does not matter for what is found. -/
theorem lookup_reverse_eq_of_perm {α : Type} {l l' : List (String × α)} (h : l.Perm l')
    (hkeys : (l.map (·.1)).Nodup) (p : String) : l.reverse.lookup p = l'.reverse.lookup p := by
  have hreverse : ∀ {l : List (String × α)}, (l.map (·.1)).Nodup → (l.reverse.map (·.1)).Nodup := by
    intro l hl
    rw [List.map_reverse]
    exact List.nodup_reverse.2 hl
  refine Option.ext fun c => ?_
  rw [lookup_eq_some_iff_mem (hreverse hkeys),
    lookup_eq_some_iff_mem (hreverse ((h.map _).nodup_iff.1 hkeys)), List.mem_reverse,
    List.mem_reverse, h.mem_iff]

/-- What an entry gives does not count where the entry is there again later. -/
theorem lookup_scopesOf_repetition (xs : List Data) {ys : List Data} {x : Data} (hx : x ∈ ys)
    (p : String) : (scopesOf default (xs ++ x :: ys)).reverse.lookup p
      = (scopesOf default (xs ++ ys)).reverse.lookup p := by
  rw [scopesOf_append, scopesOf_append, ← List.singleton_append (l := ys), scopesOf_append]
  simp only [List.reverse_append, List.lookup_append]
  cases hlater : (scopesOf default ys).reverse.lookup p with
  | some c => rfl
  | none =>
    have hnone : (scopesOf default [x]).reverse.lookup p = none := by
      refine List.lookup_eq_none_iff.2 fun e he => List.lookup_eq_none_iff.1 hlater e ?_
      rw [List.mem_reverse] at he ⊢
      obtain ⟨before, after, rfl⟩ := List.append_of_mem hx
      rw [scopesOf_append, ← List.singleton_append, scopesOf_append]
      exact List.mem_append_right _ (List.mem_append_left _ he)
    rw [hnone]
    rfl

/-- Rewritings keep the canonical form. -/
theorem Restates.canonical_eq {g h : Data} (hr : Restates g h) :
    canonical default g = canonical default h := by
  -- Two lists with the same names and, looked up from the end, the same scopes have one form.
  have hlist : ∀ {xs ys : List Data} {m n : Nat}, (∀ s, s ∈ nameTexts xs ↔ s ∈ nameTexts ys) →
      (∀ p, (scopesOf default xs).reverse.lookup p = (scopesOf default ys).reverse.lookup p) →
      canonical default (.list xs m) = canonical default (.list ys n) :=
    fun hnames hscopes => assemble_eq_iff.2 ⟨hnames, hscopes⟩
  induction hr with
  | refl => rfl
  | symm _ ih => exact ih.symm
  | trans _ _ ih₁ ih₂ => exact ih₁.trans ih₂
  | tuple => rfl
  | @single g n hentries =>
    have hnull : g ≠ .null := by
      rintro rfl
      exact nomatch hentries
    rw [Groups.canonical_eq hnull, hentries]
    rfl
  | names m n hperm hothers =>
    refine hlist (fun s => ((hperm.filter _).map _).mem_iff) fun p => ?_
    rw [← scopesOf_filter, hothers, scopesOf_filter]
  -- An item that stands in the list already adds no name and hides no scope.
  | @repetition xs ys x m n hx =>
    refine hlist (fun s => ?_) (lookup_scopesOf_repetition xs hx)
    have hname : s ∈ nameTexts [x] → s ∈ nameTexts ys := by
      simp only [nameTexts, List.mem_map, List.mem_filter, List.mem_singleton]
      rintro ⟨_, ⟨rfl, hx'⟩, hs⟩
      exact ⟨_, ⟨hx, hx'⟩, hs⟩
    rw [nameTexts_append, nameTexts_append, ← List.singleton_append, nameTexts_append]
    simp only [List.mem_append]
    tauto
  -- With distinct keys, the order in which a mapping names its properties does not count.
  | @keys xs ys es fs m n k l hperm hkeys =>
    refine hlist (fun s => by rw [nameTexts_append, nameTexts_append]; rfl) fun p => ?_
    have hentries : (entryScopes default es).reverse.lookup p
        = (entryScopes default fs).reverse.lookup p := by
      rw [entryScopes_eq, entryScopes_eq]
      refine lookup_reverse_eq_of_perm (hperm.map _) ?_ p
      rw [List.map_map]
      exact hkeys
    rw [scopesOf_append, scopesOf_append, scopesOf, scopesOf]
    simp only [List.reverse_append, List.lookup_append, hentries]
  | split xs ys es fs m n k l j =>
    refine hlist (fun s => by rw [nameTexts_append, nameTexts_append]; rfl) fun p => ?_
    rw [scopesOf_append, scopesOf_append, scopesOf, scopesOf, scopesOf, entryScopes_eq,
      List.map_append, List.append_assoc, entryScopes_eq, entryScopes_eq]
  -- A scope may be put in another way wherever it stands.
  | @scope xs ys es fs key g h m n k l _ ih =>
    refine hlist (fun s => by rw [nameTexts_append, nameTexts_append]; rfl) fun p => ?_
    rw [scopesOf_append, scopesOf_append, scopesOf, scopesOf, entryScopes_eq, entryScopes_eq,
      List.map_append, List.map_append, List.map_cons, List.map_cons, ih]

/-! ### Canonical forms as JSON text -/

/-- Texts are the same whether tuples count as lists or not. -/
theorem asListsAll_map_str (names : List String) :
    Json.asListsAll (names.map Data.str) = names.map Data.str := by
  induction names with
  | nil => rfl
  | cons name names ih =>
    rw [List.map_cons, Json.asListsAll, ih]
    rfl

mutual

/-- Canonical forms that are the same with lists for tuples are the same. -/
theorem asLists_toData_inj {c d : Canonical}
    (h : Json.asLists c.toData = Json.asLists d.toData) : c = d := by
  cases c with
  | unfiltered =>
    cases d with
    | unfiltered => rfl
    | filter names scopes => simp [Canonical.toData, Json.asLists] at h
  | filter names scopes =>
    cases d with
    | unfiltered => simp [Canonical.toData, Json.asLists] at h
    | filter names' scopes' =>
      simp only [Canonical.toData, Json.asLists, Json.asListsAll, asListsAll_map_str,
        Data.list.injEq, List.cons.injEq, and_true] at h
      have hinj : Function.Injective Data.str := fun s r hsr => by simpa using hsr
      rw [hinj.list_map h.1, asListsAll_scopesData_inj h.2]

/-- Scopes can be told from the values that they are written as. -/
theorem asListsAll_scopesData_inj {xs ys : List (String × Canonical)}
    (h : Json.asListsAll (scopesData xs) = Json.asListsAll (scopesData ys)) : xs = ys := by
  match xs, ys with
  | [], [] => rfl
  | [], (k, c) :: ys => simp [scopesData, Json.asListsAll] at h
  | (k, c) :: xs, [] => simp [scopesData, Json.asListsAll] at h
  | (k, c) :: xs, (l, d) :: ys =>
    simp only [scopesData, Json.asLists, Json.asListsAll, List.cons.injEq, Data.list.injEq,
      Data.scalar.injEq, Scalar.str.injEq, and_true] at h
    rw [h.1.1, asLists_toData_inj h.1.2, asListsAll_scopesData_inj h.2]

end

/-- Scopes are written as values that can be read back, if their parts are. -/
theorem nest_scopesData {scopes : List (String × Canonical)}
    (h : ∀ e ∈ scopes, Text.Whole e.1 ∧ Json.Nest e.2.toData) :
    ∀ x ∈ scopesData scopes, Json.Nest x := by
  induction scopes with
  | nil => exact fun _ hx => absurd hx List.not_mem_nil
  | cons e scopes ih =>
    obtain ⟨k, c⟩ := e
    obtain ⟨⟨hk, hc⟩, hrest⟩ := List.forall_mem_cons.1 h
    rw [scopesData]
    refine List.forall_mem_cons.2 ⟨.tuple ?_, ih hrest⟩
    simp only [List.forall_mem_cons]
    exact ⟨.text hk, hc, nofun⟩

/-- The canonical form of whole names and keys has a JSON text that is read back. -/
theorem nest_assemble {names : List String} {given : List (String × Canonical)}
    (hnames : ∀ s ∈ names, Text.Whole s)
    (hgiven : ∀ e ∈ given, Text.Whole e.1 ∧ Json.Nest e.2.toData) :
    Json.Nest (assemble default names given).toData := by
  by_cases h : given = [] ∧ ∀ s, s ∈ names ↔ s = default
  · rw [assemble_eq_unfiltered_iff.2 h]
    exact .null
  · rw [assemble_of_filtered h, Canonical.toData]
    have hscopes : ∀ e ∈ collect given, Text.Whole e.1 ∧ Json.Nest e.2.toData := fun e he =>
      hgiven e (List.mem_reverse.1 (mem_of_lookup (mem_collect.1 he)))
    refine .tuple ?_
    simp only [List.forall_mem_cons]
    refine ⟨.tuple fun x hx => ?_, .tuple (nest_scopesData hscopes), nofun⟩
    obtain ⟨s, hs, rfl⟩ := List.mem_map.1 hx
    exact .text (hnames s (mem_sortedSet.1 hs))

/-- The canonical form of a spelled specification can be read back from its text. -/
theorem Spelled.nest {g : Data} (h : Spelled g) : Json.Nest (canonical default g).toData := by
  induction h with
  | @intro g hnames hkeys hscopes ih =>
    have h : Spelled g := ⟨hnames, hkeys, hscopes⟩
    by_cases hnull : g = .null
    · rw [hnull]
      exact .null
    rw [Groups.canonical_eq hnull]
    refine nest_assemble (fun s hs => ?_) fun e he => ?_
    · obtain ⟨r, hr, heq⟩ := hnames _ ((mem_nameTexts h.names).1 hs)
      obtain rfl : s = r := by simpa using heq
      exact hr
    · rw [scopesOf_eq] at he
      obtain ⟨f, hf, rfl⟩ := List.mem_map.1 he
      obtain ⟨s, hs, hkey⟩ := hkeys f hf
      refine ⟨?_, ih f hf⟩
      rw [hkey]
      exact hs

end Groups

namespace Model

open Groups

/-- A model whose class name, group names and keys are whole texts. -/
structure Spelled (m : Model) : Prop where
  className : ∀ s, m.className? = some s → Text.Whole s
  groups : Groups.Spelled m.groups

/-- So can the identity of a model. -/
theorem Spelled.nest {m : Model} (h : m.Spelled) : Json.Nest m.identity := by
  refine .list ?_
  simp only [List.forall_mem_cons]
  refine ⟨?_, h.groups.nest, nofun⟩
  cases hclass : m.className? with
  | none => exact .null
  | some s => exact .text (h.className s hclass)

/-- The name of a class can be told from the value that it is written as. -/
theorem nameData_inj {c d : Option String}
    (h : Json.asLists (nameData c) = Json.asLists (nameData d)) : c = d := by
  cases c <;> cases d <;> simp_all [nameData, Json.asLists]

/-- The text of what identifies a model tells class name and canonical groups. -/
theorem payload_eq_iff {m₁ m₂ : Model} (h₁ : m₁.Spelled) (h₂ : m₂.Spelled) :
    m₁.payload = m₂.payload ↔ m₁.className? = m₂.className? ∧
      canonical defaultGroup m₁.groups = canonical defaultGroup m₂.groups := by
  refine ⟨fun h => ?_, fun ⟨hclass, hgroups⟩ => ?_⟩
  · obtain ⟨s₁, hs₁, hread₁⟩ := h₁.nest.read?_json
    obtain ⟨s₂, hs₂, hread₂⟩ := h₂.nest.read?_json
    have htext : s₁ = s₂ := by
      simpa only [payload, hs₁, hs₂] using h
    have hread := Option.some.inj (hread₁.symm.trans (htext ▸ hread₂))
    simp only [identity, Json.asLists, Json.asListsAll, Data.list.injEq, List.cons.injEq,
      and_true] at hread
    exact ⟨nameData_inj hread.1, asLists_toData_inj hread.2⟩
  · rw [payload, payload, identity, identity, hclass, hgroups]

/-- Models have one hash if and only if they have one class name and equivalent groups, collisions
    of digests aside. Rewritings of groups are equivalent. -/
theorem hash_eq_iff {m₁ m₂ : Model} (h₁ : m₁.Spelled) (h₂ : m₂.Spelled)
    (hcollision : Digest.sha1Hex m₁.payload = Digest.sha1Hex m₂.payload → m₁.payload = m₂.payload) :
    (m₁.hash = m₂.hash ↔
      m₁.className? = m₂.className? ∧ Equivalent defaultGroup m₁.groups m₂.groups) ∧
      (Restates m₁.groups m₂.groups → Equivalent defaultGroup m₁.groups m₂.groups) := by
  have hequivalent : canonical defaultGroup m₁.groups = canonical defaultGroup m₂.groups ↔
      Equivalent defaultGroup m₁.groups m₂.groups := canonical_eq_iff h₁.groups h₂.groups
  refine ⟨?_, fun h => hequivalent.1 h.canonical_eq⟩
  rw [← hequivalent, ← payload_eq_iff h₁ h₂]
  exact ⟨hcollision, congrArg Digest.sha1Hex⟩

/-- Names in another order, and tuples for lists. -/
theorem hash_eq_iff_reordered :
    let m₁ := ofClass "app.A" (.ofList [.str "a", .ofEntries [(.str "p", .ofList [.str "x"])]])
    let m₂ := ofClass "app.A" (.ofTuple [.ofEntries [(.str "p", .ofTuple [.str "x"])], .str "a"])
    m₁.Spelled ∧ m₂.Spelled ∧
      (m₁.hash = m₂.hash ↔
        m₁.className? = m₂.className? ∧ Equivalent defaultGroup m₁.groups m₂.groups) ∧
      (Restates m₁.groups m₂.groups → Equivalent defaultGroup m₁.groups m₂.groups) := by
  intro m₁ m₂
  have hwhole : Text.Whole "app.A" ∧ Text.Whole "a" ∧ Text.Whole "p" ∧ Text.Whole "x" := by
    decide +kernel
  have hx : ∀ g : Data, entries g = [.str "x"] → Groups.Spelled g := fun g hg =>
    .intro (by simp [names, hg, isName, hwhole]) (by simp [hg, scopeEntries])
      (by simp [hg, scopeEntries])
  have hclass : ∀ s, some "app.A" = some s → Text.Whole s :=
    fun s hs => Option.some.inj hs ▸ hwhole.1
  have h₁ : m₁.Spelled := by
    refine ⟨hclass, .intro ?_ ?_ ?_⟩
    · simp [m₁, ofClass, names, entries, isName, hwhole]
    · simp [m₁, ofClass, scopeEntries, entries, hwhole]
    · simpa [m₁, ofClass, scopeEntries, entries] using hx _ rfl
  have h₂ : m₂.Spelled := by
    refine ⟨hclass, .intro ?_ ?_ ?_⟩
    · simp [m₂, ofClass, names, entries, isName, hwhole]
    · simp [m₂, ofClass, scopeEntries, entries, hwhole]
    · simpa [m₂, ofClass, scopeEntries, entries] using hx _ rfl
  exact ⟨h₁, h₂, hash_eq_iff h₁ h₂ fun _ => rfl⟩

/-- Null and no names at all are told apart, with the same names and without scopes. The order of
    mappings with one key counts. The halves of a pair side by side are taken for the pair. -/
theorem hash_not_canonical :
    ((∀ s : String, .str s ∈ names .null ↔ .str s ∈ names (.ofList [])) ∧
      (∀ p, lastScope? .null p = none ∧ lastScope? (.ofList []) p = none) ∧
      (ofClass "app.A" .null).hash ≠ (ofClass "app.A" (.ofList [])).hash) ∧
    (let e := Data.ofEntries [(.str "p", .ofList [.str "x"])]
      let f := Data.ofEntries [(.str "p", .ofList [.str "y"])]
      (ofClass "app.A" (.ofList [e, f])).hash ≠ (ofClass "app.A" (.ofList [f, e])).hash) ∧
    let halves := String.ofList [Char.ofNat 0x10d83d, Char.ofNat 0x10de00]
    let pair := String.singleton (Char.ofNat 0x1f600)
    .str halves ∈ names (.ofList [.str halves]) ∧ .str halves ∉ names (.ofList [.str pair]) ∧
      (ofClass "app.A" (.ofList [.str halves])).hash
        = (ofClass "app.A" (.ofList [.str pair])).hash := by
  refine ⟨⟨fun s => Iff.rfl, fun p => ⟨rfl, rfl⟩, by decide +kernel⟩, by decide +kernel, ?_⟩
  intro halves pair
  have hne : halves ≠ pair := by decide +kernel
  exact ⟨List.mem_singleton_self _, by simpa [names, entries, isName] using hne, by decide +kernel⟩

end Model

end ApiDoc
