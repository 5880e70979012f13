import ApiDoc.Proofs.Document.Merge

namespace ApiDoc

/-!
# Documents as trees

What a node of a document and all below it amount to, apart from the numbers under which nodes
are kept:

* `Placement`, `Kind.placement?` — what a slot is for: one child, children under keys, or
  children that are told apart by some fields;
* `Tree`, `Slot` — a node with what its fields show and what stands in its slots;
* `Tree.induct`, `Tree.All` — induction over trees, and what holds of every tree below one;
* `Tree.shown` — the content that a document shows for a tree;
* `Tree.text?_shown` — what stands under a name in this content.

A tree keeps of its fields what the document shows, and the fields by which its parent tells it
from others.
-/

/-! ### Placements -/

/-- What a slot is for. -/
inductive Placement where
  | single (kind : Kind) (boolean : Bool)
  | keyed (kind : Kind) (key : String)
  | listed (kind : Kind) (slot : CollectionSlot)
deriving DecidableEq

namespace Placement

/-- The kind of the children. -/
def kind : Placement → Kind
  | single k _ => k
  | keyed k _ => k
  | listed k _ => k

/-- The fields by which the children are told apart. -/
def keys : Placement → List String
  | single _ _ => []
  | keyed _ key => [key]
  | listed _ slot => slot.identifying

/-- Whether the slot holds one child. -/
def isSingle : Placement → Bool
  | single _ _ => true
  | _ => false

end Placement

namespace Kind

/-- What a slot of a kind of node is for. -/
def placement? (k : Kind) (name : String) : Option Placement :=
  match k.layout.singular.find? (·.2 == name), k.layout.indexed.find? (·.2.name == name),
      k.layout.collections.find? (·.2.name == name) with
  | some (c, _), _, _ => some (.single c (k.layout.booleanSlots.contains name))
  | none, some (c, slot), _ => some (.keyed c slot.key)
  | none, none, some (c, slot) => some (.listed c slot)
  | none, none, none => none

/-- The fields that the document shows. -/
def shownFields (k : Kind) : List String :=
  k.fields.filter fun name => !k.internalFields.contains name

/-- The names under which the document shows something, in their order. -/
def shownNames (k : Kind) : List String := k.shownFields ++ k.slots

/-! What the tables of kinds and slots are like. -/

/-- Slots of the table for single children hold one child each. -/
theorem placement?_singular (k : Kind) : ∀ p ∈ k.layout.singular,
    k.placement? p.2 = some (.single p.1 (k.layout.booleanSlots.contains p.2)) := by
  cases k <;> decide

/-- Slots of the table for keyed children hold children under keys. -/
theorem placement?_indexed (k : Kind) : ∀ p ∈ k.layout.indexed,
    k.placement? p.2.name = some (.keyed p.1 p.2.key) := by
  cases k <;> decide

/-- Slots of the table for collections hold children that are told apart by fields. -/
theorem placement?_collections (k : Kind) : ∀ p ∈ k.layout.collections,
    k.placement? p.2.name = some (.listed p.1 p.2) := by
  cases k <;> decide

/-- A field is no slot. -/
theorem placement?_fields (k : Kind) : ∀ name ∈ k.fields, k.placement? name = none := by
  cases k <;> decide

/-- Every slot is for something. -/
theorem exists_placement? {k : Kind} {σ : String} (h : σ ∈ k.slots) :
    ∃ p, k.placement? σ = some p := by
  suffices hall : ∀ τ ∈ k.slots, (k.placement? τ).isSome from Option.isSome_iff_exists.1 (hall σ h)
  clear h
  cases k <;> decide

/-- No kind shows two things under one name. -/
theorem shownNames_nodup (k : Kind) : k.shownNames.Nodup := by
  cases k <;> decide

/-- The name that has a spelling in documents. -/
def nameOfWire (key : String) : String :=
  if key == "$ref" then "ref"
  else if key == "in" then "in_"
  else .ofList (key.toList.flatMap fun c => if c.isUpper then ['_', c.toLower] else [c])

/-- All names of fields and slots: schemas share theirs but for a key, and so do operations. -/
def vocabulary : List String :=
  "property" :: [schema, get, openApi, info, contact, license, server, pathItem, parameter,
    requestBody, mediaType, response, header, components, tag, externalDocumentation].flatMap
      attributes

/-- The names of all kinds are in the vocabulary. -/
theorem mem_vocabulary (k : Kind) : ∀ name ∈ k.attributes, name ∈ vocabulary := by
  have hschema : ∀ name, name = "property" ∨ name ∈ schema.attributes → name ∈ vocabulary := by
    rintro name (rfl | hname)
    · exact List.mem_cons_self
    · exact List.mem_cons_of_mem _ (List.mem_flatMap.2 ⟨schema, by decide, hname⟩)
  have hkind : ∀ c ∈ [schema, get, openApi, info, contact, license, server, pathItem, parameter,
      requestBody, mediaType, response, header, components, tag, externalDocumentation],
      ∀ name ∈ c.attributes, name ∈ vocabulary := fun c hc name hname =>
    List.mem_cons_of_mem _ (List.mem_flatMap.2 ⟨c, hc, hname⟩)
  intro name hname
  cases k
  case put | post | patch | delete | options | head => exact hkind get (by decide) name hname
  case property =>
    rcases List.mem_cons.1 hname with rfl | hname
    · exact hschema _ (.inl rfl)
    · exact hschema _ (.inr (List.mem_cons_of_mem _ hname))
  case items | additionalProperties => exact hschema _ (.inr (List.mem_cons_of_mem _ hname))
  all_goals exact hkind _ (by decide) name hname

/-- A name is read back from its spelling, and this does not start like an extension. -/
theorem nameOfWire_wireName : ∀ name ∈ vocabulary,
    nameOfWire (wireName name) = name ∧ (wireName name).toList.head? ≠ some 'x' := by
  decide +kernel

/-- Names of fields and slots differ in their spelling. -/
theorem eq_of_wireName_eq {k : Kind} {name other : String} (hname : name ∈ k.attributes)
    (hother : other ∈ k.attributes) (h : wireName name = wireName other) : name = other := by
  rw [← (nameOfWire_wireName name (k.mem_vocabulary name hname)).1, h,
    (nameOfWire_wireName other (k.mem_vocabulary other hother)).1]

/-- No name of a field or a slot is written like that of an extension. -/
theorem startsWith_wireName {k : Kind} {name : String} (hname : name ∈ k.attributes) :
    (wireName name).startsWith "x-" = false := by
  rw [String.startsWith_string_eq_false_iff]
  rintro ⟨rest, hrest⟩
  refine (nameOfWire_wireName name (k.mem_vocabulary name hname)).2 ?_
  rw [← hrest]
  rfl

/-- Members of a collection are told apart by some fields, all of which are shown and hold scalars.
    -/
theorem identifying_shown (k : Kind) : ∀ p ∈ k.layout.collections,
    p.2.identifying ≠ [] ∧ p.2.identifying.Nodup ∧ ∀ name ∈ p.2.identifying, name ∈ p.1.shownFields ∧
      name ∉ p.1.arrayFields := by
  cases k <;> decide

/-- The field that holds the key of a child is not shown in the child. -/
theorem key_notMem_shown (k : Kind) : ∀ p ∈ k.layout.indexed, p.2.key ∉ p.1.shownFields := by
  cases k <;> decide

/-- Internal fields are fields, and hold scalars. -/
theorem internalFields_spec (k : Kind) :
    ∀ name ∈ k.internalFields, name ∈ k.fields ∧ name ∉ k.arrayFields := by
  cases k <;> decide

/-- Fields that hold lists are shown. -/
theorem arrayFields_shown (k : Kind) : ∀ name ∈ k.arrayFields, name ∈ k.shownFields := by
  cases k <;> decide

variable {k : Kind} {name : String} {p : Placement}

/-- A slot with a place in the layout. -/
theorem mem_layout_of_placement? (h : k.placement? name = some p) :
    (∃ c, (c, name) ∈ k.layout.singular ∧ p = .single c (k.layout.booleanSlots.contains name)) ∨
    (∃ c slot, (c, slot) ∈ k.layout.indexed ∧ slot.name = name ∧ p = .keyed c slot.key) ∨
    ∃ c slot, (c, slot) ∈ k.layout.collections ∧ slot.name = name ∧ p = .listed c slot := by
  unfold placement? at h
  split at h
  · rename_i c found hsingular
    obtain rfl : found = name := by simpa using List.find?_some hsingular
    exact .inl ⟨c, List.mem_of_find?_eq_some hsingular, (Option.some.inj h).symm⟩
  · rename_i c slot _ hindexed
    exact .inr (.inl ⟨c, slot, List.mem_of_find?_eq_some hindexed,
      by simpa using List.find?_some hindexed, (Option.some.inj h).symm⟩)
  · rename_i c slot _ _ hcollections
    exact .inr (.inr ⟨c, slot, List.mem_of_find?_eq_some hcollections,
      by simpa using List.find?_some hcollections, (Option.some.inj h).symm⟩)
  · exact nomatch h

/-- A slot for one child stands in the table for single children. -/
theorem mem_singular_of_placement? {c : Kind} {b : Bool}
    (h : k.placement? name = some (.single c b)) : (c, name) ∈ k.layout.singular := by
  rcases mem_layout_of_placement? h with ⟨_, hslot, he⟩ | ⟨_, _, _, _, he⟩ | ⟨_, _, _, _, he⟩
  · cases he
    exact hslot
  · cases he
  · cases he

/-- A slot for children under keys stands in the table for keyed children. -/
theorem mem_indexed_of_placement? {c : Kind} {key : String}
    (h : k.placement? name = some (.keyed c key)) :
    ∃ slot : IndexedSlot, (c, slot) ∈ k.layout.indexed ∧ slot.name = name ∧ slot.key = key := by
  rcases mem_layout_of_placement? h with ⟨_, _, he⟩ | ⟨_, slot, hslot, hname, he⟩ | ⟨_, _, _, _, he⟩
  · cases he
  · cases he
    exact ⟨slot, hslot, hname, rfl⟩
  · cases he

/-- A slot for children told apart by fields stands in the table for collections. -/
theorem mem_collections_of_placement? {c : Kind} {slot : CollectionSlot}
    (h : k.placement? name = some (.listed c slot)) :
    (c, slot) ∈ k.layout.collections ∧ slot.name = name := by
  rcases mem_layout_of_placement? h with ⟨_, _, he⟩ | ⟨_, _, _, _, he⟩ | ⟨_, _, hslot, hname, he⟩
  · cases he
  · cases he
  · cases he
    exact ⟨hslot, hname⟩

/-- What is for children is a slot. -/
theorem mem_slots_of_placement? (h : k.placement? name = some p) : name ∈ k.slots := by
  rcases mem_layout_of_placement? h with ⟨c, hmem, -⟩ | ⟨c, slot, hmem, rfl, -⟩ |
    ⟨c, slot, hmem, rfl, -⟩
  · exact k.singular_mem_slots _ hmem
  · exact k.lists_mem_slots _ (Layout.mem_lists_of_indexed hmem)
  · exact k.lists_mem_slots _ (Layout.mem_lists_of_collections hmem)

/-- The fields by which a slot tells its children apart are fields of theirs. -/
theorem keys_subset_fields (hp : k.placement? name = some p) :
    ∀ key ∈ p.keys, key ∈ p.kind.fields := by
  rcases mem_layout_of_placement? hp with ⟨c, -, rfl⟩ | ⟨c, slot, hslot, -, rfl⟩ |
    ⟨c, slot, hslot, -, rfl⟩
  · exact fun _ h => absurd h List.not_mem_nil
  · intro key hkey
    rw [List.mem_singleton.1 hkey]
    exact k.index_mem_fields _ hslot
  · intro key hkey
    exact (List.mem_filter.1 ((k.identifying_shown _ hslot).2.2 key hkey).1).1

/-- What is shown is a field or a slot. -/
theorem mem_attributes_of_shown (h : name ∈ k.shownNames) : name ∈ k.attributes := by
  rcases List.mem_append.1 h with hfield | hslot
  · exact List.mem_append_left _ (List.mem_filter.1 hfield).1
  · exact List.mem_append_right _ hslot

end Kind

/-! ### Trees -/

/-- What stands in a slot. -/
inductive Slot (α : Type) where
  | empty
  | flag (b : Bool)
  | child (a : α)
  | members (as : List α)

/-- What stands in a slot for children. -/
def Slot.trees {α : Type} : Slot α → List α
  | .child a => [a]
  | .members as => as
  | _ => []

/-- A node of a document with all below it. The keys are the fields by which its parent tells it
    from others. -/
structure Tree where
  kind : Kind
  keys : List String
  extensions : Entries
  field : String → Data
  slot : String → Slot Tree

namespace Tree

/-- Induction over trees. -/
theorem induct {motive : Tree → Prop}
    (h : ∀ t : Tree, (∀ σ, ∀ c ∈ (t.slot σ).trees, motive c) → motive t) (t : Tree) : motive t := by
  refine @Tree.rec motive (fun s => ∀ c ∈ s.trees, motive c) (fun l => ∀ c ∈ l, motive c)
    ?_ ?_ ?_ ?_ ?_ ?_ ?_ t
  · exact fun _ _ _ _ _ ih => h _ ih
  · simp [Slot.trees]
  · simp [Slot.trees]
  · simp [Slot.trees]
  · exact fun _ ih => ih
  · simp
  · intro c l hc hl
    simpa using ⟨hc, hl⟩

/-- What holds of a tree and of every tree below it. -/
inductive All (P : Tree → Prop) : Tree → Prop
  | mk {t : Tree} (own : P t) (below : ∀ σ, ∀ c ∈ (t.slot σ).trees, All P c) : All P t

namespace All

variable {P Q : Tree → Prop} {t : Tree}

/-- What holds everywhere holds at the root. -/
theorem root (h : All P t) : P t := by
  cases h with
  | mk own _ => exact own

/-- What holds everywhere holds everywhere below a child. -/
theorem child (h : All P t) {σ : String} {c : Tree} (hc : c ∈ (t.slot σ).trees) : All P c := by
  cases h with
  | mk _ below => exact below σ c hc

/-- What holds everywhere may be weakened. -/
theorem mono (h : All P t) (hPQ : ∀ t, P t → Q t) : All Q t := by
  induction h with
  | mk own _ ih => exact .mk (hPQ _ own) ih

end All

/-- A tree with nothing in it. -/
def fresh (k : Kind) (keys : List String) : Tree where
  kind := k
  keys := keys
  extensions := []
  field _ := .unset
  slot _ := .empty

/-- The tree with a field set. -/
def setField (t : Tree) (name : String) (v : Data) : Tree :=
  { t with field := fun other => if other = name then v else t.field other }

/-- The tree with something put into a slot. -/
def setSlot (t : Tree) (σ : String) (s : Slot Tree) : Tree :=
  { t with slot := fun τ => if τ = σ then s else t.slot τ }

@[simp] theorem setSlot_slot_self (t : Tree) (σ : String) (s : Slot Tree) :
    (t.setSlot σ s).slot σ = s := if_pos rfl

/-- Putting back what stands in a slot changes nothing. -/
theorem setSlot_self (t : Tree) (σ : String) : t.setSlot σ (t.slot σ) = t := by
  obtain ⟨k, keys, extensions, field, slot⟩ := t
  simp only [setSlot, mk.injEq, true_and]
  funext τ
  split
  · rename_i he
    rw [he]
  · rfl

@[simp] theorem setSlot_setSlot (t : Tree) (σ : String) (s s' : Slot Tree) :
    (t.setSlot σ s).setSlot σ s' = t.setSlot σ s' := by
  simp only [setSlot]
  congr 1
  funext τ
  split <;> rfl

/-! ### Content -/

/-- The value of a field as the document shows it. -/
def shownField (v : Data) : Option Data :=
  if v.isUnset then none else some (Forest.shownValue v)

end Tree

/-- The contents of children as one value: under their keys or in a list. -/
def Placement.gather (p : Placement) (contents : Entries) : Data :=
  match p with
  | .keyed _ _ => .ofEntries (Entries.ofPairs contents)
  | _ => .ofList (contents.map (·.2))

/-- What stands in the place of a key for a child. -/
def Placement.keyOf (p : Placement) (field : String → Data) : Data :=
  match p with
  | .keyed _ key => field key
  | _ => .null

namespace Tree

mutual

/-- The content that a document shows for a tree. -/
def shown : Tree → Entries
  | ⟨k, _, extensions, field, slot⟩ =>
    let own := k.shownNames.filterMap fun name =>
      (match k.placement? name with
        | none => shownField (field name)
        | some p => shownSlot p (slot name)).map fun v => (Data.str (wireName name), v)
    Entries.update own extensions
termination_by structural t => t

/-- What a document shows for a slot. -/
def shownSlot (p : Placement) : Slot Tree → Option Data
  | .empty => none
  | .flag b => some (.bool b)
  | .child t => some (.ofEntries t.shown)
  | .members ts => some (p.gather (contents p ts))
termination_by structural s => s

/-- The contents of children, each with its key. -/
def contents (p : Placement) : List Tree → Entries
  | [] => []
  | t :: ts => (p.keyOf t.field, .ofEntries t.shown) :: contents p ts
termination_by structural ts => ts

end

/-- What a document shows under a name. -/
def shownAt (t : Tree) (name : String) : Option Data :=
  match t.kind.placement? name with
  | none => shownField (t.field name)
  | some p => shownSlot p (t.slot name)

/-- Under the name of a slot stands what the slot shows. -/
theorem shownAt_slot {t : Tree} {σ : String} {p : Placement}
    (hp : t.kind.placement? σ = some p) : t.shownAt σ = shownSlot p (t.slot σ) := by
  rw [shownAt, hp]

/-- Under the name of a field stands what the field shows. -/
theorem shownAt_field {t : Tree} {name : String} (hname : name ∈ t.kind.fields) :
    t.shownAt name = shownField (t.field name) := by
  rw [shownAt, t.kind.placement?_fields name hname]

/-- The content without the extensions. -/
def own (t : Tree) : Entries :=
  t.kind.shownNames.filterMap fun name =>
    (t.shownAt name).map fun v => (Data.str (wireName name), v)

/-- The content is what fields and slots show, and then the extensions. -/
theorem shown_eq (t : Tree) : t.shown = t.own.update t.extensions := by
  cases t
  rw [shown]
  rfl

/-- The contents of children, each under its key. -/
theorem contents_eq (p : Placement) (ts : List Tree) :
    contents p ts = ts.map fun t => (p.keyOf t.field, .ofEntries t.shown) := by
  induction ts with
  | nil => rw [contents]; rfl
  | cons t ts ih => rw [contents, ih]; rfl

/-- A single child shows its content. -/
theorem shownSlot_child (p : Placement) (t : Tree) :
    shownSlot p (.child t) = some (.ofEntries t.shown) := by rw [shownSlot]

/-- Children show their contents, gathered as the slot has it. -/
theorem shownSlot_members (p : Placement) (ts : List Tree) : shownSlot p (.members ts)
    = some (p.gather (ts.map fun t => (p.keyOf t.field, .ofEntries t.shown))) := by
  rw [shownSlot, contents_eq]

@[simp] theorem shownSlot_empty (p : Placement) : shownSlot p .empty = none := by rw [shownSlot]

@[simp] theorem shownSlot_flag (p : Placement) (b : Bool) :
    shownSlot p (.flag b) = some (.bool b) := by rw [shownSlot]

/-! ### Reading the content -/

end Tree

/-- Entries that stand for extensions. -/
def Entries.AreExtensions (es : Entries) : Prop :=
  es.Distinct ∧ ∀ e ∈ es, ∀ s, e.1 = .str s → s.startsWith "x-" = true

namespace Tree

variable {t : Tree}

/-- What a tree shows of its own stands under the spelling of a field or slot. -/
theorem mem_own {e : Data × Data} (h : e ∈ t.own) :
    ∃ name ∈ t.kind.shownNames, e.1 = .str (wireName name) ∧ t.shownAt name = some e.2 := by
  obtain ⟨name, hname, he⟩ := List.mem_filterMap.1 h
  obtain ⟨v, hv, rfl⟩ := Option.map_eq_some_iff.1 he
  exact ⟨name, hname, rfl, hv⟩

/-- No name stands twice in what a tree shows of its own. -/
theorem own_distinct (t : Tree) : t.own.Distinct := by
  refine ⟨fun e he => ?_, ?_⟩
  · obtain ⟨name, -, hkey, -⟩ := mem_own he
    exact ⟨_, hkey⟩
  · refine List.Pairwise.filterMap _ ?_
      (List.Pairwise.and_mem.1 (List.nodup_iff_pairwise_ne.1 t.kind.shownNames_nodup))
    rintro name other ⟨hname, hother, hne⟩ e he f hf
    obtain ⟨_, -, rfl⟩ := Option.map_eq_some_iff.1 he
    obtain ⟨_, -, rfl⟩ := Option.map_eq_some_iff.1 hf
    simp only [ne_eq, Data.scalar.injEq, Scalar.str.injEq]
    exact fun hwire => hne (Kind.eq_of_wireName_eq (Kind.mem_attributes_of_shown hname)
      (Kind.mem_attributes_of_shown hother) hwire)

/-- Extensions do not take the place of what a document shows for the names of a node. -/
theorem own_ne_extension {es : Entries} (hes : es.AreExtensions) :
    ∀ e ∈ t.own, ∀ f ∈ es, e.1 ≠ f.1 := by
  intro e he f hf hkey
  obtain ⟨name, hname, hwire, -⟩ := mem_own he
  have hx := hes.2 f hf _ (hkey ▸ hwire)
  rw [Kind.startsWith_wireName (Kind.mem_attributes_of_shown hname)] at hx
  exact nomatch hx

/-- Extensions have names of their own and come last. -/
theorem shown_eq_append (h : t.extensions.AreExtensions) : t.shown = t.own ++ t.extensions := by
  rw [shown_eq]
  exact Entries.update_eq_append h.1 (own_ne_extension h)

/-- No name stands twice in the content. -/
theorem shown_distinct (h : t.extensions.AreExtensions) : t.shown.Distinct := by
  rw [shown_eq_append h]
  exact t.own_distinct.append h.1 (own_ne_extension h)

/-- What stands under a name in the content. -/
theorem text?_shown (h : t.extensions.AreExtensions) {name : String}
    (hname : name ∈ t.kind.attributes) : t.shown.text? (wireName name)
      = if name ∈ t.kind.shownNames then t.shownAt name else none := by
  have hown : t.own.text? (wireName name)
      = if name ∈ t.kind.shownNames then t.shownAt name else none :=
    Entries.text?_names fun other hother hwire =>
      Kind.eq_of_wireName_eq (Kind.mem_attributes_of_shown hother) hname hwire
  have hextensions : t.extensions.text? (wireName name) = none := by
    refine Entries.text?_eq_none_iff.2 fun e he hkey => ?_
    have hx := h.2 e he _ hkey
    rw [Kind.startsWith_wireName hname] at hx
    exact nomatch hx
  rw [shown_eq_append h, Entries.text?_append, hown, hextensions, Option.or_none]

/-- Under the spelling of a slot the content has what the slot shows. -/
theorem text?_shown_slot (h : t.extensions.AreExtensions) {σ : String} {p : Placement}
    (hp : t.kind.placement? σ = some p) :
    t.shown.text? (wireName σ) = shownSlot p (t.slot σ) := by
  have hσ := Kind.mem_slots_of_placement? hp
  have hshown : σ ∈ t.kind.shownNames := List.mem_append_right _ hσ
  rw [text?_shown h (List.mem_append_right _ hσ), if_pos hshown, shownAt_slot hp]

/-- Under the spelling of a field the content has what the field shows, if it is not internal. -/
theorem text?_shown_field (h : t.extensions.AreExtensions) {name : String}
    (hname : name ∈ t.kind.fields) : t.shown.text? (wireName name)
      = if name ∈ t.kind.shownFields then shownField (t.field name) else none := by
  have hmem : name ∈ t.kind.shownNames ↔ name ∈ t.kind.shownFields := by
    simp [Kind.shownNames, t.kind.field_notMem_slots name hname]
  rw [text?_shown h (List.mem_append_left _ hname), shownAt_field hname]
  simp only [hmem]

end Tree

end ApiDoc
