import ApiDoc.Proofs.Describe.Later
import ApiDoc.Proofs.Describe.Rules

namespace ApiDoc

/-!
# Model references in overrides

Before an override is merged, what refers to a model gives way to a reference that the registry
gives out:

* `Data.modelRefs` — what refers to models in a value, `Data.reached` and `Data.leftOut` — what of
  that is replaced and what stays;
* `Data.withReferences` — the value with references for what is replaced;
* `Describe.Registers` — computations that always succeed and leave models registered;
* `Reader.resolveEntries_replaces` — an override with its references to models replaced.
-/

/-! ### What refers to models -/

/-- What refers to a model: what it names, and groups of its own. -/
structure ModelMention where
  target : Target
  own : Data

namespace ModelMention

/-- The model that is meant: the class as seen through groups of its own, or through those given. -/
def model (groups : Data) (p : ModelMention) : Model :=
  .ofClass p.target.className (match p.own with
    | .scalar .null => groups
    | g => g)

/-- The reference that a registry gives out for the model that is meant. -/
def reference (registry : Registry) (groups : Data) (p : ModelMention) : String :=
  (registry.register (p.model groups)).1

end ModelMention

namespace Data

/-- Whether a list under a key holds values that are no schemas. -/
def listsValues (key? : Option Data) : Bool := (key?.map (·.same (.str "enum"))).getD false

/-- Whether what stands under a key is the text of a reference. -/
def isReferenceKey (key? : Option Data) : Bool := (key?.map (·.same (.str "$ref"))).getD false

mutual

/-- What refers to models anywhere in a value, in order. -/
def modelRefs : Data → List ModelMention
  | .modelRef target own => [⟨target, own⟩]
  | .map es _ => modelRefsOfEntries es
  | .list xs _ => modelRefsOfItems xs
  | .tuple xs _ => modelRefsOfItems xs
  | .set xs _ => modelRefsOfItems xs
  | _ => []

/-- What refers to models in items. -/
def modelRefsOfItems : List Data → List ModelMention
  | [] => []
  | x :: xs => modelRefs x ++ modelRefsOfItems xs

/-- What refers to models in entries, keys among them. -/
def modelRefsOfEntries : List (Data × Data) → List ModelMention
  | [] => []
  | (k, v) :: rest => modelRefs k ++ modelRefs v ++ modelRefsOfEntries rest

end

mutual

/-- What is replaced in a value under a key: what stands in mappings and lists at any depth. Lists of
    an enumeration stay as they are. -/
def reached (key? : Option Data) : Data → List ModelMention
  | .modelRef target own => [⟨target, own⟩]
  | .map es _ => reachedInEntries es
  | .list xs _ => if listsValues key? then [] else reachedInItems xs
  | _ => []

/-- What is replaced in items. -/
def reachedInItems : List Data → List ModelMention
  | [] => []
  | x :: xs => reached none x ++ reachedInItems xs

/-- What is replaced in entries. -/
def reachedInEntries : List (Data × Data) → List ModelMention
  | [] => []
  | (k, v) :: rest => reached (some k) v ++ reachedInEntries rest

end

mutual

/-- What stays in a value under a key: keys, and what stands in tuples, sets and enumerations. -/
def leftOut (key? : Option Data) : Data → List ModelMention
  | .map es _ => leftOutOfEntries es
  | .list xs _ => if listsValues key? then modelRefsOfItems xs else leftOutOfItems xs
  | .tuple xs _ => modelRefsOfItems xs
  | .set xs _ => modelRefsOfItems xs
  | _ => []

/-- What stays in items. -/
def leftOutOfItems : List Data → List ModelMention
  | [] => []
  | x :: xs => leftOut none x ++ leftOutOfItems xs

/-- What stays in entries. -/
def leftOutOfEntries : List (Data × Data) → List ModelMention
  | [] => []
  | (k, v) :: rest => modelRefs k ++ leftOut (some k) v ++ leftOutOfEntries rest

end

mutual

/-- A value under a key with references for what is replaced: the text alone under the key of
    references, elsewhere a mapping that holds nothing else. -/
def withReferences (reference : ModelMention → String) (key? : Option Data) : Data → Data
  | .modelRef target own =>
    if isReferenceKey key? then .str (reference ⟨target, own⟩)
    else .ofEntries [(.str "$ref", .str (reference ⟨target, own⟩))]
  | .map es mark => .map (entriesWithReferences reference es) mark
  | .list xs mark =>
    if listsValues key? then .list xs mark else .list (itemsWithReferences reference xs) mark
  | v => v

/-- Items with references for what is replaced. -/
def itemsWithReferences (reference : ModelMention → String) : List Data → List Data
  | [] => []
  | x :: xs => withReferences reference none x :: itemsWithReferences reference xs

/-- Entries with references for what is replaced. -/
def entriesWithReferences (reference : ModelMention → String) : List (Data × Data) → Entries
  | [] => []
  | (k, v) :: rest =>
    (k, withReferences reference (some k) v) :: entriesWithReferences reference rest

end

/-! ### What is left -/

mutual

/-- What refers to models once references stand for what is replaced. -/
theorem modelRefs_withReferences (reference : ModelMention → String) (key? : Option Data)
    (v : Data) : (v.withReferences reference key?).modelRefs = v.leftOut key? := by
  match v with
  | .modelRef target own =>
    rw [withReferences]
    split <;> rfl
  | .map es mark =>
    rw [withReferences, modelRefs, leftOut, modelRefsOfEntries_withReferences reference es]
  | .list xs mark =>
    rw [withReferences, leftOut]
    split
    · rfl
    · rw [modelRefs, modelRefsOfItems_withReferences reference xs]
  | .tuple _ _ | .set _ _ | .scalar _ | .unset | .node _ | .bare _ => rfl

/-- The same for the items of a list. -/
theorem modelRefsOfItems_withReferences (reference : ModelMention → String) (xs : List Data) :
    modelRefsOfItems (itemsWithReferences reference xs) = leftOutOfItems xs := by
  match xs with
  | [] => rfl
  | x :: xs =>
    rw [itemsWithReferences, modelRefsOfItems, leftOutOfItems,
      modelRefs_withReferences reference none x, modelRefsOfItems_withReferences reference xs]

/-- The same for the entries of a mapping. -/
theorem modelRefsOfEntries_withReferences (reference : ModelMention → String)
    (es : List (Data × Data)) :
    modelRefsOfEntries (entriesWithReferences reference es) = leftOutOfEntries es := by
  match es with
  | [] => rfl
  | (k, v) :: rest =>
    rw [entriesWithReferences, modelRefsOfEntries, leftOutOfEntries,
      modelRefs_withReferences reference (some k) v,
      modelRefsOfEntries_withReferences reference rest]

end

mutual

/-- Marks refer to nothing. -/
theorem modelRefs_unmarked (v : Data) : v.unmarked.modelRefs = v.modelRefs := by
  match v with
  | .map es mark => rw [unmarked, modelRefs, modelRefs, modelRefsOfEntries_unmarked es]
  | .list xs mark => rw [unmarked, modelRefs, modelRefs, modelRefsOfItems_unmarked xs]
  | .tuple xs mark => rw [unmarked, modelRefs, modelRefs, modelRefsOfItems_unmarked xs]
  | .modelRef _ _ | .set _ _ | .scalar _ | .unset | .node _ | .bare _ => rfl

/-- The same for the items of a list. -/
theorem modelRefsOfItems_unmarked (xs : List Data) :
    modelRefsOfItems (unmarkedItems xs) = modelRefsOfItems xs := by
  match xs with
  | [] => rfl
  | x :: xs =>
    rw [unmarkedItems, modelRefsOfItems, modelRefsOfItems, modelRefs_unmarked x,
      modelRefsOfItems_unmarked xs]

/-- The same for the entries of a mapping. -/
theorem modelRefsOfEntries_unmarked (es : List (Data × Data)) :
    modelRefsOfEntries (unmarkedEntries es) = modelRefsOfEntries es := by
  match es with
  | [] => rfl
  | (k, v) :: rest =>
    rw [unmarkedEntries, modelRefsOfEntries, modelRefsOfEntries, modelRefs_unmarked k,
      modelRefs_unmarked v, modelRefsOfEntries_unmarked rest]

end

end Data

/-! ### Models registered on the way -/

namespace Describe

variable {α β : Type} {ms ns : List Model} {P : Registry → α → Prop} {Q : Registry → β → Prop}
  {x : Describe α}

/-- A computation that succeeds at every desk. It registers models, leaves the trees as they are, and
    its answer is right for the registry as it is then and ever after. -/
def Registers (ms : List Model) (x : Describe α) (P : Registry → α → Prop) : Prop :=
  ∀ s d, s.desk? = some d → ∃ a s', x s = .ok a s' ∧ s'.draft.forest = s.draft.forest ∧
    s'.desk? = some { d with registry := d.registry.addAll ms } ∧
    ∀ later, P ((d.registry.addAll ms).addAll later) a

namespace Registers

/-- An answer registers nothing. -/
protected theorem pure {a : α} (h : ∀ r, P r a) : Registers [] (pure a) P :=
  fun s _ hd => ⟨a, s, rfl, rfl, hd, fun _ => h _⟩

/-- Models registered first, and models registered then. -/
theorem bind {f : α → Describe β} (hx : Registers ms x P)
    (hf : ∀ a, Registers ns (f a) fun r b => P r a → Q r b) :
    Registers (ms ++ ns) (x >>= f) Q := by
  intro s d hd
  obtain ⟨a, s₁, hxs, hforest₁, hd₁, hP⟩ := hx s d hd
  obtain ⟨b, s₂, hfs, hforest₂, hd₂, hQ⟩ := hf a s₁ _ hd₁
  refine ⟨b, s₂, (Results.bind_of_ok hxs).trans hfs, hforest₂.trans hforest₁, ?_, fun later => ?_⟩
  · rw [hd₂, Registry.addAll_append]
  -- The first answer is right at the end too: what is registered second is later for it.
  · have ha := hP (ns ++ later)
    rw [Registry.addAll_append] at ha ⊢
    exact hQ later ha

/-- An answer put into another form. -/
theorem map {f : α → β} (hx : Registers ms x P) (hf : ∀ r a, P r a → Q r (f a)) :
    Registers ms (x >>= fun a => pure (f a)) Q := by
  have h := hx.bind (Q := Q) fun a => .pure fun r => hf r a
  rwa [List.append_nil] at h

/-- Taking a fresh mark registers nothing. -/
theorem fresh : Registers [] (Describe.edit Edit.fresh) fun _ _ => True :=
  fun _ _ hd => ⟨_, _, rfl, rfl, hd, fun _ => trivial⟩

/-- One model, and the reference to it. -/
theorem register (missing : Failure) (m : Model) :
    Registers [m] (Describe.register missing m) fun r ref => ref = (r.register m).1 := by
  intro s d hd
  refine ⟨_, _, register_of_some hd missing m, rfl, withRegistry_desk? hd _, fun later => ?_⟩
  exact (congrArg Prod.fst (Registry.register_again d.registry m later)).symm

variable {r : Reader}

/-- What refers to a model gives way to the reference of that model. -/
theorem reference (hr : r.hasRegistry = true) (groups : Data) (target : Target) (own : Data) :
    Registers [ModelMention.model groups ⟨target, own⟩] (r.reference target own groups)
      fun registry ref => ref = ModelMention.reference registry groups ⟨target, own⟩ := by
  have hnamed : ∀ g, Registers [.ofClass target.className g]
      (do Describe.register .noRegistry (← Describe.modelOf target g))
      fun registry ref => ref = (registry.register (.ofClass target.className g)).1 := by
    intro g
    cases target with
    | named name => exact .register _ _
    | itself name => exact fun s d hd => register _ (.ofClass name g) _ d hd
  unfold Reader.reference
  rw [hr]
  exact hnamed _

mutual

/-- What is in a value gives way in the order of the value. Marks are left out of the comparison,
    for mappings and lists are made anew. -/
theorem resolveValue (hr : r.hasRegistry = true) (groups : Data) (key? : Option Data) (v : Data) :
    Registers ((v.reached key?).map (·.model groups)) (r.resolve groups key? v) fun registry u =>
      u.unmarked = (v.withReferences (·.reference registry groups) key?).unmarked := by
  -- One case for each kind of value: references are replaced, mappings and lists are entered.
  match v with
  | .modelRef target own =>
    unfold Reader.resolve
    refine bind (.reference hr groups target own) fun ref => ?_
    -- A reference stands alone under the key of references, in a mapping of its own elsewhere.
    split
    next hkey =>
      exact .pure fun _ href => by
        rw [Data.withReferences, if_pos (show Data.isReferenceKey key? = true from hkey), href]
    next hkey =>
      exact .map .fresh fun _ _ _ href => by
        rw [Data.withReferences, if_neg (show ¬Data.isReferenceKey key? = true from hkey), href,
          Data.unmarked_map, Data.unmarked_map]
  | .map es mark =>
    unfold Reader.resolve
    refine bind .fresh fun _ => .map (.resolveEntries hr groups es) ?_
    intro registry fs hfs _
    rw [Data.withReferences, Data.unmarked_map, Data.unmarked_map, hfs]
  | .list xs mark =>
    unfold Reader.resolve
    -- A list of values is data of the schema and left alone.
    split
    next hkey =>
      rw [Data.reached, if_pos (show Data.listsValues key? = true from hkey)]
      exact .pure fun _ => by
        rw [Data.withReferences, if_pos (show Data.listsValues key? = true from hkey)]
    next hkey =>
      rw [Data.reached, if_neg (show ¬Data.listsValues key? = true from hkey)]
      refine bind .fresh fun _ => .map (.resolveItems hr groups xs) ?_
      intro registry ys hys _
      rw [Data.withReferences, if_neg (show ¬Data.listsValues key? = true from hkey),
        Data.unmarked_list, Data.unmarked_list, hys]
  | .scalar _ | .tuple _ _ | .set _ _ | .unset | .node _ | .bare _ =>
    exact .pure fun _ => rfl

/-- The models that the entries of a mapping mention, by recursion. -/
theorem resolveEntries (hr : r.hasRegistry = true) (groups : Data) (es : List (Data × Data)) :
    Registers ((Data.reachedInEntries es).map (·.model groups)) (r.resolveEntries groups es)
      fun registry fs => Entries.unmarked fs =
        (Data.entriesWithReferences (·.reference registry groups) es).unmarked := by
  match es with
  | [] => exact .pure fun _ => rfl
  | (k, v) :: rest =>
    unfold Reader.resolveEntries
    rw [Data.reachedInEntries, List.map_append]
    refine bind (.resolveValue hr groups (some k) v) fun u => ?_
    refine .map (.resolveEntries hr groups rest) fun registry fs hfs hu => ?_
    rw [Data.entriesWithReferences, Entries.unmarked_cons, Entries.unmarked_cons, hu, hfs]

/-- The models that the items of a list mention, by recursion. -/
theorem resolveItems (hr : r.hasRegistry = true) (groups : Data) (xs : List Data) :
    Registers ((Data.reachedInItems xs).map (·.model groups)) (r.resolveItems groups xs)
      fun registry ys => ys.map Data.unmarked =
        (Data.itemsWithReferences (·.reference registry groups) xs).map Data.unmarked := by
  match xs with
  | [] => exact .pure fun _ => rfl
  | v :: rest =>
    unfold Reader.resolveItems
    rw [Data.reachedInItems, List.map_append]
    refine bind (.resolveValue hr groups none v) fun u => ?_
    refine .map (.resolveItems hr groups rest) fun registry ys hys hu => ?_
    rw [Data.itemsWithReferences, List.map_cons, List.map_cons, hu, hys]

end

end Registers

end Describe

/-! ### Overrides -/

namespace Reader

variable {r : Reader} {s : Site} {d : Desk}

/-- An override with references for what refers to models. The models are registered in order, and
    for each there stands the reference that the registry gives out for it, then as before. The rest
    says what it has said, and what still refers to models stands in tuples, sets, keys and
    enumerations. -/
theorem resolveEntries_replaces (hr : r.hasRegistry = true) (hd : s.desk? = some d) (groups : Data)
    (es : Entries) : ∃ fs s' registry, r.resolveEntries groups es s = .ok fs s' ∧
      s'.draft.forest = s.draft.forest ∧ s'.desk? = some { d with registry := registry } ∧
      registry = d.registry.addAll ((Data.reachedInEntries es).map (·.model groups)) ∧
      (∀ p ∈ Data.reachedInEntries es, (registry.register (p.model groups)).2 = registry) ∧
      Entries.unmarked fs = (Data.entriesWithReferences (·.reference registry groups) es).unmarked ∧
      Data.modelRefsOfEntries fs = Data.leftOutOfEntries es := by
  obtain ⟨fs, s', hrun, hforest, hd', hfs⟩ := Describe.Registers.resolveEntries hr groups es s d hd
  refine ⟨fs, s', _, hrun, hforest, hd', rfl, fun p hp => ?_, hfs [], ?_⟩
  · exact Registry.add_of_mem (Registry.mem_keys_addAll_of_mem (List.mem_map_of_mem hp))
  · rw [← Data.modelRefsOfEntries_unmarked, Data.unmarkedEntries_eq, hfs [],
      ← Data.unmarkedEntries_eq, Data.modelRefsOfEntries_unmarked,
      Data.modelRefsOfEntries_withReferences]

/-- The items of a property refer to a class. -/
theorem resolveEntries_replaces_items : ∃ fs s',
    (Reader.mk true none).resolveEntries .null
      [(.str "items", .modelRef (.named "app.B") .null)]
      { desk? := some ⟨.create "#/components/schemas/" none [], {}⟩ } = .ok fs s' ∧
    Entries.unmarked fs
      = [(.str "items", .ofEntries [(.str "$ref", .str "#/components/schemas/B")])] ∧
    Data.modelRefsOfEntries fs = [] := by
  obtain ⟨fs, s', registry, hrun, -, -, rfl, -, hfs, hleft⟩ := resolveEntries_replaces
    (r := ⟨true, none⟩) (s := { desk? := some ⟨.create "#/components/schemas/" none [], {}⟩ })
    rfl rfl .null [(.str "items", .modelRef (.named "app.B") .null)]
  refine ⟨fs, s', hrun, hfs.trans ?_, hleft⟩
  have href : ModelMention.reference ((Registry.create "#/components/schemas/" none []).addAll
      [ModelMention.model .null ⟨.named "app.B", .null⟩]) .null ⟨.named "app.B", .null⟩
      = "#/components/schemas/B" := by
    decide +kernel
  rw [Data.entriesWithReferences, Data.withReferences, if_neg (by decide +kernel)]
  exact congrArg (fun ref => Entries.unmarked [(.str "items", .ofEntries [(.str "$ref", .str ref)])])
    href

/-- What refers to a model in a tuple stays there. -/
theorem resolveEntries_leaves_tuple : ∃ fs s',
    (Reader.mk true none).resolveEntries .null
      [(.str "allOf", .tuple [.modelRef (.named "app.B") .null] 0)]
      { desk? := some ⟨.create "#/components/schemas/" none [], {}⟩ } = .ok fs s' ∧
    Data.modelRefsOfEntries fs ≠ [] :=
  ⟨_, _, rfl, nofun⟩

end Reader

end ApiDoc
