import ApiDoc.Proofs.Data.Entries
import ApiDoc.Proofs.Registry.FreeName

namespace ApiDoc.Registry

/-!
# Registering models

What a registration does to a registry, said once for everything that registers models:

* `keys` — the identities that are registered, in the order of their first registration;
* `keys_add`, `pending_add` — a new identity comes last among both, a known one changes nothing;
* `nameOf?_add` — a new identity without a name gets one that nobody has, all others keep theirs;
* `Keyed` — models stand under their own identities, each of which has a name;
* `NamesApart` — different identities have different names;
* `addAll` — several models registered one after the other.
-/

/-- The identities that are registered, in the order of their first registration. -/
def keys (r : Registry) : List String := r.models.map (·.1)

/-- A model is known if its key is among the keys. -/
theorem has_iff (r : Registry) (key : String) : r.has key = true ↔ key ∈ r.keys := by
  simp only [has, keys, List.any_eq_true, beq_iff_eq, List.mem_map]

/-! ### Names -/

/-- Setting the name of an identity leaves the names of all others. -/
theorem lookup_putName (key name k : String) (names : List (String × String)) :
    (putName key name names).lookup k = if k = key then some name else names.lookup k := by
  induction names with
  | nil =>
    by_cases h : k = key
    · simp [putName, h]
    · simp [putName, List.lookup_cons, beq_false_of_ne h, h]
  | cons p rest ih =>
    obtain ⟨l, n⟩ := p
    by_cases hl : l = key
    · subst hl
      by_cases h : k = l
      · simp [putName, h]
      · simp [putName, List.lookup_cons, beq_false_of_ne h, h]
    · rw [putName, if_neg (by simpa using hl)]
      by_cases h : k = l
      · subst h
        simp [hl]
      · rw [List.lookup_cons, List.lookup_cons, beq_false_of_ne h]
        exact ih

/-- A name that an identity has is one of those that are taken. -/
theorem nameOf?_mem {r : Registry} {key name : String} (h : r.nameOf? key = some name) :
    name ∈ r.names.map (·.2) :=
  List.mem_map.2 ⟨_, mem_of_lookup h, rfl⟩

/-- Different identities have different names. -/
def NamesApart (r : Registry) : Prop :=
  ∀ k l name, r.nameOf? k = some name → r.nameOf? l = some name → k = l

/-! ### One registration -/

/-- The name that a model gets where it has none. -/
def newName (r : Registry) (m : Model) : String :=
  freeName (r.names.map (·.2)) (baseName (m.className?.getD ""))

/-- A new name is none that a model has. -/
theorem newName_ne {r : Registry} {m : Model} {key name : String}
    (h : r.nameOf? key = some name) : r.newName m ≠ name := by
  rintro rfl
  exact freeName_notMem _ _ (nameOf?_mem h)

/-- Naming a model that has a name changes no name. -/
theorem nameOf?_named_of_some {r : Registry} {m : Model} {key name : String}
    (h : r.nameOf? key = some name) (k : String) :
    (r.named m key).nameOf? k = r.nameOf? k := by
  simp [named, h]

/-- Naming a model that has no name gives it a new one. -/
theorem nameOf?_named_of_none {r : Registry} {m : Model} {key : String}
    (h : r.nameOf? key = none) (k : String) :
    (r.named m key).nameOf? k = if k = key then some (r.newName m) else r.nameOf? k := by
  simp only [named, h, Option.isSome_none, Bool.false_eq_true, if_false]
  exact lookup_putName _ _ _ _

@[simp] theorem named_models (r : Registry) (m : Model) (key : String) :
    (r.named m key).models = r.models := by
  unfold named; split <;> rfl

@[simp] theorem named_pending (r : Registry) (m : Model) (key : String) :
    (r.named m key).pending = r.pending := by
  unfold named; split <;> rfl

@[simp] theorem named_alternatives (r : Registry) (m : Model) (key : String) :
    (r.named m key).alternatives = r.alternatives := by
  unfold named; split <;> rfl

@[simp] theorem named_refPrefix (r : Registry) (m : Model) (key : String) :
    (r.named m key).refPrefix = r.refPrefix := by
  unfold named; split <;> rfl

@[simp] theorem named_policy? (r : Registry) (m : Model) (key : String) :
    (r.named m key).policy? = r.policy? := by
  unfold named; split <;> rfl

/-- The registry with a model that comes last and is pending, before it has a name. -/
def queue (r : Registry) (m : Model) : Registry :=
  { r with models := r.models ++ [(m.hash, m)], pending := r.pending ++ [m.hash] }

@[simp] theorem queue_keys (r : Registry) (m : Model) : (r.queue m).keys = r.keys ++ [m.hash] := by
  simp [queue, keys]

/-- A model that is registered already changes nothing. -/
theorem add_of_mem {r : Registry} {m : Model} (h : m.hash ∈ r.keys) : r.add m = r :=
  if_pos ((r.has_iff _).2 h)

/-- A new model comes last, is pending, and gets a name. -/
theorem add_of_notMem {r : Registry} {m : Model} (h : m.hash ∉ r.keys) :
    r.add m = (r.queue m).named m m.hash :=
  if_neg fun hc => h ((r.has_iff _).1 hc)

/-- Adding a model adds its key, unless it is there. -/
theorem keys_add (r : Registry) (m : Model) :
    (r.add m).keys = if m.hash ∈ r.keys then r.keys else r.keys ++ [m.hash] := by
  by_cases h : m.hash ∈ r.keys
  · rw [add_of_mem h, if_pos h]
  · rw [add_of_notMem h, if_neg h, ← queue_keys]
    simp [keys]

/-- A model is pending when it is added for the first time. -/
theorem pending_add (r : Registry) (m : Model) :
    (r.add m).pending = if m.hash ∈ r.keys then r.pending else r.pending ++ [m.hash] := by
  by_cases h : m.hash ∈ r.keys
  · rw [add_of_mem h, if_pos h]
  · rw [add_of_notMem h, if_neg h, named_pending]
    rfl

@[simp] theorem add_alternatives (r : Registry) (m : Model) :
    (r.add m).alternatives = r.alternatives := by
  by_cases h : m.hash ∈ r.keys
  · rw [add_of_mem h]
  · rw [add_of_notMem h, named_alternatives]
    rfl

@[simp] theorem add_refPrefix (r : Registry) (m : Model) : (r.add m).refPrefix = r.refPrefix := by
  by_cases h : m.hash ∈ r.keys
  · rw [add_of_mem h]
  · rw [add_of_notMem h, named_refPrefix]
    rfl

@[simp] theorem add_policy? (r : Registry) (m : Model) : (r.add m).policy? = r.policy? := by
  by_cases h : m.hash ∈ r.keys
  · rw [add_of_mem h]
  · rw [add_of_notMem h, named_policy?]
    rfl

/-- What is registered stays registered. -/
theorem mem_keys_add {r : Registry} {key : String} (h : key ∈ r.keys) (m : Model) :
    key ∈ (r.add m).keys := by
  rw [keys_add]
  split
  · exact h
  · exact List.mem_append_left _ h

/-- The models after one is added: those before, and this one. -/
theorem mem_models_add {r : Registry} {m : Model} {p : String × Model}
    (h : p ∈ (r.add m).models) : p ∈ r.models ∨ p = (m.hash, m) := by
  by_cases hm : m.hash ∈ r.keys
  · rw [add_of_mem hm] at h
    exact .inl h
  · rw [add_of_notMem hm, named_models] at h
    exact (List.mem_append.1 h).imp_right List.mem_singleton.1

/-- A model that has been added is known. -/
theorem mem_keys_add_self (r : Registry) (m : Model) : m.hash ∈ (r.add m).keys := by
  rw [keys_add]
  split <;> simp_all

/-- The names after a registration: a new identity without a name gets a new one, and all other
    identities keep what they have. -/
theorem nameOf?_add (r : Registry) (m : Model) (k : String) :
    (r.add m).nameOf? k = if k = m.hash ∧ m.hash ∉ r.keys ∧ r.nameOf? k = none
      then some (r.newName m) else r.nameOf? k := by
  by_cases hm : m.hash ∈ r.keys
  · rw [add_of_mem hm, if_neg (fun h => h.2.1 hm)]
  rw [add_of_notMem hm]
  -- A new identity can have a name already, if the name is a fixed one.
  cases hn : (r.queue m).nameOf? m.hash with
  | some name =>
    rw [nameOf?_named_of_some hn, if_neg]
    · rfl
    · rintro ⟨rfl, -, h⟩
      exact absurd (h.symm.trans hn) (by simp)
  | none =>
    rw [nameOf?_named_of_none hn]
    by_cases hk : k = m.hash
    · subst hk
      rw [if_pos rfl, if_pos ⟨rfl, hm, hn⟩]
      rfl
    · rw [if_neg hk, if_neg (fun h => hk h.1)]
      rfl

/-- An identity keeps the name that it has. -/
theorem nameOf?_add_of_some {r : Registry} {key name : String} (m : Model)
    (h : r.nameOf? key = some name) : (r.add m).nameOf? key = some name := by
  rw [nameOf?_add, if_neg (fun hc => absurd (hc.2.2.symm.trans h) (by simp))]
  exact h

/-- Names that differ stay different: a new name is one that nobody has. -/
theorem NamesApart.add {r : Registry} (h : r.NamesApart) (m : Model) : (r.add m).NamesApart := by
  intro k l name hk hl
  rw [nameOf?_add] at hk hl
  split at hk <;> split at hl
  · rename_i hk' hl'
    rw [hk'.1, hl'.1]
  -- The new name on one side only: nobody had it before.
  · rw [← Option.some.inj hk] at hl
    exact absurd rfl (newName_ne hl)
  · rw [← Option.some.inj hl] at hk
    exact absurd rfl (newName_ne hk)
  · exact h k l name hk hl

/-! ### Well-kept registries -/

/-- Every identity that is registered has a name. -/
def AllNamed (r : Registry) : Prop := ∀ key ∈ r.keys, ∃ name, r.nameOf? key = some name

/-- Adding a model leaves none without a name. -/
theorem AllNamed.add {r : Registry} (h : r.AllNamed) (m : Model) : (r.add m).AllNamed := by
  intro key hkey
  rw [keys_add] at hkey
  by_cases hold : key ∈ r.keys
  · obtain ⟨name, hname⟩ := h key hold
    exact ⟨name, nameOf?_add_of_some m hname⟩
  · have hm : m.hash ∉ r.keys := fun hm => hold (by rwa [if_pos hm] at hkey)
    obtain rfl : key = m.hash := by
      rw [if_neg hm] at hkey
      simpa [hold] using hkey
    cases hn : r.nameOf? m.hash with
    | some name => exact ⟨name, nameOf?_add_of_some m hn⟩
    | none => exact ⟨_, by rw [nameOf?_add, if_pos ⟨rfl, hm, hn⟩]⟩

/-- Every model stands under its own identity, once, and every identity has a name; what is
    pending is registered. -/
structure Keyed (r : Registry) : Prop where
  nodup : r.keys.Nodup
  hash_eq : ∀ p ∈ r.models, p.2.hash = p.1
  allNamed : r.AllNamed
  pending_mem : ∀ key ∈ r.pending, key ∈ r.keys

/-- Adding a model leaves every model under its own key. -/
theorem Keyed.add {r : Registry} (h : r.Keyed) (m : Model) : (r.add m).Keyed := by
  by_cases hm : m.hash ∈ r.keys
  · rw [add_of_mem hm]; exact h
  refine ⟨?_, ?_, h.allNamed.add m, ?_⟩
  · rw [keys_add, if_neg hm]
    exact List.nodup_append.2 ⟨h.nodup, List.nodup_singleton _, fun a ha b hb hab =>
      hm (by rw [List.mem_singleton] at hb; rw [← hb, ← hab]; exact ha)⟩
  · intro p hp
    rw [add_of_notMem hm, named_models] at hp
    rcases List.mem_append.1 hp with hp | hp
    · exact h.hash_eq p hp
    · rw [List.mem_singleton] at hp; subst hp; rfl
  · intro key hkey
    rw [pending_add, if_neg hm, List.mem_append] at hkey
    rw [keys_add, if_neg hm, List.mem_append]
    exact hkey.imp_left (h.pending_mem key)

/-- A model stands under every registered identity. -/
theorem exists_model {r : Registry} {key : String} (h : key ∈ r.keys) :
    ∃ m, r.models.lookup key = some m := by
  cases hm : r.models.lookup key with
  | some m => exact ⟨m, rfl⟩
  | none =>
    obtain ⟨p, hp, rfl⟩ := List.mem_map.1 h
    have := List.lookup_eq_none_iff.1 hm p hp
    simp at this

/-! ### New registries -/

/-- In a new registry every model stands under its own key. -/
theorem keyed_create (refPrefix : String) (policy? : Option Policy)
    (alternatives : List (String × Model)) : (create refPrefix policy? alternatives).Keyed :=
  ⟨List.nodup_nil, fun _ h => absurd h List.not_mem_nil, fun _ h => absurd h List.not_mem_nil,
    fun _ h => absurd h List.not_mem_nil⟩

/-- Fixed names that differ belong to different identities, although a model that has several of
    them keeps only the last. -/
theorem namesApart_create (refPrefix : String) (policy? : Option Policy)
    {alternatives : List (String × Model)} (h : (alternatives.map (·.1)).Nodup) :
    (create refPrefix policy? alternatives).NamesApart := by
  -- The names given so far differ, and none of them is given again.
  suffices hfold : ∀ (rest : List (String × Model)) (names : List (String × String)),
      (rest.map (·.1)).Nodup →
      (∀ k l name, names.lookup k = some name → names.lookup l = some name → k = l) →
      (∀ k name, names.lookup k = some name → name ∉ rest.map (·.1)) →
      ∀ k l name, (rest.foldl (fun acc a => putName a.2.hash a.1 acc) names).lookup k = some name →
        (rest.foldl (fun acc a => putName a.2.hash a.1 acc) names).lookup l = some name → k = l from
    hfold alternatives [] h (by simp) (by simp)
  intro rest
  induction rest with
  | nil => exact fun names _ hapart _ => hapart
  | cons a rest ih =>
    intro names hnodup hapart hfresh
    rw [List.map_cons, List.nodup_cons] at hnodup
    refine ih (putName a.2.hash a.1 names) hnodup.2 ?_ ?_
    · intro k l name hk hl
      rw [lookup_putName] at hk hl
      split at hk <;> split at hl
      · rename_i hk' hl'; rw [hk', hl']
      · rw [← Option.some.inj hk] at hl
        exact absurd (List.mem_cons_self ..) (hfresh l _ hl)
      · rw [← Option.some.inj hl] at hk
        exact absurd (List.mem_cons_self ..) (hfresh k _ hk)
      · exact hapart k l name hk hl
    · intro k name hk
      rw [lookup_putName] at hk
      split at hk
      · rw [← Option.some.inj hk]; exact hnodup.1
      · exact fun hmem => hfresh k name hk (List.mem_cons_of_mem _ hmem)

/-! ### Several registrations -/

/-- Models registered one after the other. -/
def addAll (r : Registry) (ms : List Model) : Registry := ms.foldl add r

@[simp] theorem addAll_nil (r : Registry) : r.addAll [] = r := rfl

@[simp] theorem addAll_cons (r : Registry) (m : Model) (ms : List Model) :
    r.addAll (m :: ms) = (r.add m).addAll ms := rfl

/-- Models added in two steps or in one. -/
theorem addAll_append (r : Registry) (ms ns : List Model) :
    r.addAll (ms ++ ns) = (r.addAll ms).addAll ns := List.foldl_append

@[simp] theorem addAll_alternatives (r : Registry) (ms : List Model) :
    (r.addAll ms).alternatives = r.alternatives := by
  induction ms generalizing r with
  | nil => rfl
  | cons m ms ih => rw [addAll_cons, ih, add_alternatives]

/-- Adding models leaves every model under its own key. -/
theorem Keyed.addAll {r : Registry} (h : r.Keyed) (ms : List Model) : (r.addAll ms).Keyed := by
  induction ms generalizing r with
  | nil => exact h
  | cons m ms ih => exact ih (h.add m)

/-- A known model stays known. -/
theorem mem_keys_addAll {r : Registry} {key : String} (h : key ∈ r.keys) (ms : List Model) :
    key ∈ (r.addAll ms).keys := by
  induction ms generalizing r with
  | nil => exact h
  | cons m ms ih => exact ih (mem_keys_add h m)

/-- Each of the models that have been added is known. -/
theorem mem_keys_addAll_of_mem {r : Registry} {m : Model} {ms : List Model} (h : m ∈ ms) :
    m.hash ∈ (r.addAll ms).keys := by
  induction ms generalizing r with
  | nil => cases h
  | cons n ms ih =>
    rcases List.mem_cons.1 h with rfl | h
    · exact mem_keys_addAll (mem_keys_add_self r m) ms
    · exact ih h

/-- The models after several are added: those before, and these. -/
theorem mem_models_addAll {r : Registry} {ms : List Model} {p : String × Model}
    (h : p ∈ (r.addAll ms).models) : p ∈ r.models ∨ (p.2 ∈ ms ∧ p.1 = p.2.hash) := by
  induction ms generalizing r with
  | nil => exact .inl h
  | cons m ms ih =>
    rcases ih h with h | ⟨hmem, hkey⟩
    · rcases mem_models_add h with h | rfl
      · exact .inl h
      · exact .inr ⟨List.mem_cons_self, rfl⟩
    · exact .inr ⟨List.mem_cons_of_mem _ hmem, hkey⟩

/-- What becomes pending is an identity that was not registered before. -/
theorem mem_pending_addAll {r : Registry} {ms : List Model} {key : String}
    (h : key ∈ (r.addAll ms).pending) :
    key ∈ r.pending ∨ (key ∉ r.keys ∧ key ∈ (r.addAll ms).keys) := by
  induction ms generalizing r with
  | nil => exact .inl h
  | cons m ms ih =>
    rcases ih h with h | ⟨hnew, hkey⟩
    · rw [pending_add] at h
      split at h
      · exact .inl h
      -- It is the identity of `m` that has become pending.
      · rename_i hm
        rcases List.mem_append.1 h with h | h
        · exact .inl h
        · rw [List.mem_singleton.1 h]
          exact .inr ⟨hm, mem_keys_addAll (mem_keys_add_self r m) ms⟩
    · exact .inr ⟨fun hold => hnew (mem_keys_add hold m), hkey⟩

end ApiDoc.Registry
