import ApiDoc.Proofs.Policy.Slots

namespace ApiDoc

/-!
# Merges that take notes

A merge folds mappings into nodes: its source into its target, and what the source holds for
children into these, which it finds or makes on the way. Which mapping goes into which node shows
only while the merge runs, since nodes in a source are read when their turn comes. A merge that
takes notes does the same, and answers with the mappings and their nodes:

* `Merge.Notes` — mappings with the nodes into which they have gone;
* `Merge.Noted` — an entry of a source, of which notes are taken in each role that a slot can give
  it;
* `Merge.noteContent`, `Merge.noted`, `Edit.mergeNoting` — the merge of entries, of a mapping, and
  of a source;
* `Edit.discard_mergeNoting` — without its notes the merge is the one that takes none.
-/

open Functor (discard)

/-! ### Answers that are not wanted -/

namespace Edit

variable {α β : Type}

/-- The answer is left out at the end. -/
theorem discard_eq (act : Edit α) : discard act = act >>= fun _ => pure () := by
  rw [discard, map_const, Function.comp_apply, map_eq_pure_bind]

/-- Leaving out the last answer is enough. -/
theorem discard_bind (x : Edit α) (f : α → Edit β) :
    discard (x >>= f) = x >>= fun a => discard (f a) := by
  simp only [discard_eq, bind_assoc]

/-- What comes after an edit whose answer makes no difference. -/
theorem discard_bind_const (x : Edit α) {f : α → Edit β} {g : Edit Unit}
    (h : ∀ a, discard (f a) = g) : discard (x >>= f) = discard x >>= fun _ => g := by
  rw [discard_bind, funext h, discard_eq, bind_assoc]
  rfl

/-- An edit without an answer of its own, to which one has been given. -/
theorem discard_answer (x : Edit Unit) (a : α) : discard (x >>= fun _ => pure a) = x := by
  rw [discard_eq, bind_assoc]
  exact bind_pure x

/-- An edit succeeds with its answer or without. -/
theorem discard_eq_ok {act : Edit α} {d d' : Draft} :
    discard act d = .ok () d' ↔ ∃ a, act d = .ok a d' := by
  rw [discard_eq]
  constructor
  · intro h
    obtain ⟨a, d₁, ha, h⟩ := Results.bind_eq_ok.1 h
    cases h
    exact ⟨a, ha⟩
  · rintro ⟨a, ha⟩
    exact Results.bind_of_ok ha

end Edit

open Edit (discard_eq discard_bind discard_bind_const discard_answer)

/-! ### Notes -/

namespace Merge

/-- Mappings with the nodes into which they have gone, in the order in which the fields of these
    nodes have been written. -/
abbrev Notes := List (NodeId × Entries)

/-- The notes of a loop, those of one turn after the other. -/
def noteAll {α : Type} (f : α → Edit Notes) : List α → Edit Notes
  | [] => return []
  | x :: xs => do
    let notes ← f x
    return notes ++ (← noteAll f xs)

/-- An entry of a source, of which notes are taken in each role. -/
structure Noted where
  key : Data
  value : Data
  asNode : NodeId → Edit Notes
  asKeyed : Kind → NodeId → Edit Notes
  asListed : Kind → CollectionSlot → NodeId → Edit Notes

/-- The entry as it stands in the source. -/
def Noted.entry (p : Noted) : Data × Data := (p.key, p.value)

/-- The entry of which no notes are taken. -/
def Noted.part (p : Noted) : Part where
  key := p.key
  value := p.value
  asNode i := discard (p.asNode i)
  asKeyed k i := discard (p.asKeyed k i)
  asListed k slot i := discard (p.asListed k slot i)

/-- The entry for a slot: there is none, or it is refused, or its value is taken. -/
def noteSlot (o : MergeOptions) (i : NodeId) (ps : List Noted) (σ : String) (p : Placement) :
    Edit Notes :=
  match ps.find? fun q => q.key.same (.str (wireName σ)) with
  | none => return []
  | some q => match p.refuses q.value with
    | some why => do
      reject o i (wireName σ) why
      return []
    | none => match p, q.value with
      | .single _ _, .scalar (.bool b) => do
        setScalar o i σ (.bool b)
        return []
      | .single k _, _ => do q.asNode (← Edit.child i k)
      | .keyed k _, _ => q.asKeyed k i
      | .listed k slot, _ => q.asListed k slot i

/-- Entries merged as the content of a node. Its own fields come last. -/
def noteContent (o : MergeOptions) (ps : List Noted) (i : NodeId) : Edit Notes := do
  let k := (← Edit.node i).kind
  let below ← noteAll (fun q => noteSlot o i ps q.1 q.2) k.placements
  (ps.filter fun p => !isSlotKey k.layout p.key).forM fun p => setPlain o i p.key p.value
  return below ++ [(i, ps.map Noted.entry)]

/-- Entries merged as members of a node under their keys. -/
def noteKeyed (k : Kind) (ps : List Noted) (i : NodeId) : Edit Notes :=
  noteAll (fun p => do p.asNode (← Edit.indexedItem i k p.key)) ps

/-- Entries merged as one member of a collection of a node. -/
def noteListed (o : MergeOptions) (k : Kind) (slot : CollectionSlot) (ps : List Noted)
    (i : NodeId) : Edit Notes := do
  let identity := ps.filterMap fun p =>
    (identifies? k slot p.key).map fun name => (Data.str name, p.value)
  let rest := ps.filter fun p => (identifies? k slot p.key).isNone
  noteContent o rest (← Edit.collectionItem i k identity)

/-! ### Sources -/

/-- What makes entries of the content of a node in a source. -/
abbrev NotingReader := Entries → Except Failure (List Noted)

/-- The content of a node in a source, as it is when it is merged. -/
def notedOf (read : NotingReader) (source : NodeId) : Edit (List Noted) := do
  Edit.ofExcept (read (← Edit.content source))

mutual

/-- The entries of a mapping. -/
def noted (o : MergeOptions) (read : NotingReader) : List (Data × Data) → List Noted
  | [] => []
  | (key, v) :: rest =>
    { key := key
      value := v
      asNode := noteNode o read v
      asKeyed := noteMembers o read v
      asListed := noteItems o read v } :: noted o read rest

/-- A value as the content of a node. -/
def noteNode (o : MergeOptions) (read : NotingReader) : Data → NodeId → Edit Notes
  | .map es _ => noteContent o (noted o read es)
  | .node source => fun i => do noteContent o (← notedOf read source) i
  | v => fun _ => throw (.notContent v.typeName)

/-- A value as members of a node under keys. -/
def noteMembers (o : MergeOptions) (read : NotingReader) : Data → Kind → NodeId → Edit Notes
  | .map es _ => fun k => noteKeyed k (noted o read es)
  | _ => fun _ _ => return []

/-- A value as members of a collection of a node. -/
def noteItems (o : MergeOptions) (read : NotingReader) :
    Data → Kind → CollectionSlot → NodeId → Edit Notes
  | .list xs _ => noteList o read xs
  | .tuple xs _ => noteList o read xs
  | _ => fun _ _ _ => return []

/-- Items as members of a collection of a node, one after the other. -/
def noteList (o : MergeOptions) (read : NotingReader) :
    List Data → Kind → CollectionSlot → NodeId → Edit Notes
  | [] => fun _ _ _ => return []
  | .map es _ :: rest => fun k slot i => do
    let notes ← noteListed o k slot (noted o read es) i
    return notes ++ (← noteList o read rest k slot i)
  | .node source :: rest => fun k slot i => do
    let notes ← noteListed o k slot (← notedOf read source) i
    return notes ++ (← noteList o read rest k slot i)
  | v :: _ => fun _ _ _ => throw (.notContent v.typeName)

end

/-- The entries of a mapping, whose nodes may hold nodes in turn, to so many levels. -/
def readNoted (o : MergeOptions) : (fuel : Nat) → NotingReader
  | 0 => fun _ => .error .outOfFuel
  | fuel + 1 => fun es => .ok (noted o (readNoted o fuel) es)

end Merge

namespace Edit

/-- A mapping or a node merged into a node, with notes of all that goes into nodes. -/
def mergeNoting (o : MergeOptions) (source : Data) (i : NodeId) : Edit Merge.Notes := do
  let es ← sourceEntries source i
  let ps ← ofExcept (Merge.readNoted o (← forest).fuel es)
  Merge.noteContent o ps i

end Edit

/-! ### Entries with notes and without -/

namespace Merge

variable {o : MergeOptions}

/-- The entries of a mapping are those that it holds. -/
theorem map_entry_noted (o : MergeOptions) (read : NotingReader) (es : List (Data × Data)) :
    (noted o read es).map Noted.entry = es := by
  induction es with
  | nil => rfl
  | cons e rest ih =>
    unfold noted
    rw [List.map_cons, ih]
    rfl

/-- The entries that are read with notes are those of the source. -/
theorem map_entry_of_readNoted {fuel : Nat} {es : Entries} {ps : List Noted}
    (h : readNoted o fuel es = .ok ps) : ps.map Noted.entry = es := by
  cases fuel with
  | zero => cases h
  | succ fuel =>
    cases h
    exact map_entry_noted o _ es

end Merge

/-! ### Merges without their notes -/

namespace Merge

variable {o : MergeOptions} {i : NodeId} {k : Kind}

/-- A loop without its notes is a loop of edits without theirs. -/
theorem discard_noteAll {α : Type} {f : α → Edit Notes} {g : α → Edit Unit} {xs : List α}
    (h : ∀ x ∈ xs, discard (f x) = g x) : discard (noteAll f xs) = xs.forM g := by
  induction xs with
  | nil => rfl
  | cons x xs ih =>
    obtain ⟨hx, hxs⟩ := List.forall_mem_cons.1 h
    have hrest : ∀ notes : Notes, discard (do return notes ++ (← noteAll f xs)) = xs.forM g := by
      intro notes
      rw [discard_bind, ← ih hxs, discard_eq]
      rfl
    exact (discard_bind_const (f x) hrest).trans (by rw [hx]; rfl)

/-- The entry under a key, of which notes are taken or not. -/
theorem find?_map_part (ps : List Noted) (key : String) :
    find? (ps.map Noted.part) key = (ps.find? fun q => q.key.same (.str key)).map Noted.part :=
  List.find?_map ..

/-- Without notes, a slot for one child is filled as a merge does it. -/
theorem discard_noteSlot_single (ps : List Noted) (layout : Layout) (σ : String) :
    discard (noteSlot o i ps σ (.single k (layout.booleanSlots.contains σ)))
      = intoSingular o i (ps.map Noted.part) layout k σ := by
  unfold noteSlot intoSingular
  rw [find?_map_part]
  cases ps.find? fun q => q.key.same (.str (wireName σ)) with
  | none => rfl
  | some q =>
    obtain ⟨key, v, asNode, asKeyed, asListed⟩ := q
    cases v with
    | scalar x =>
      cases x with
      | bool b =>
        -- Only here the slot decides what becomes of the value, and not the value alone.
        by_cases hboolean : layout.booleanSlots.contains σ = true
        · simp only [Placement.refuses, Option.map_some, Noted.part, if_pos hboolean]
          exact discard_answer ..
        · simp only [Placement.refuses, Option.map_some, Noted.part, if_neg hboolean]
          exact discard_answer ..
      | _ => exact discard_answer ..
    | map => exact discard_bind ..
    | node => exact discard_bind ..
    | _ => exact discard_answer ..

/-- The same for a slot for children under keys. -/
theorem discard_noteSlot_keyed (ps : List Noted) (slot : IndexedSlot) :
    discard (noteSlot o i ps slot.name (.keyed k slot.key))
      = intoIndexed o i (ps.map Noted.part) k slot := by
  unfold noteSlot intoIndexed
  rw [find?_map_part]
  cases ps.find? fun q => q.key.same (.str (wireName slot.name)) with
  | none => rfl
  | some q =>
    obtain ⟨key, v, asNode, asKeyed, asListed⟩ := q
    cases v with
    | map => rfl
    | _ => exact discard_answer ..

/-- The same for a slot for a collection. -/
theorem discard_noteSlot_listed (ps : List Noted) (slot : CollectionSlot) :
    discard (noteSlot o i ps slot.name (.listed k slot))
      = intoCollection o i (ps.map Noted.part) k slot := by
  unfold noteSlot intoCollection
  rw [find?_map_part]
  cases ps.find? fun q => q.key.same (.str (wireName slot.name)) with
  | none => rfl
  | some q =>
    obtain ⟨key, v, asNode, asKeyed, asListed⟩ := q
    cases v with
    | list => rfl
    | tuple => rfl
    | _ => exact discard_answer ..

/-- All slots in the order of their tables. -/
theorem discard_noteSlots (ps : List Noted) (k : Kind) :
    discard (noteAll (fun q => noteSlot o i ps q.1 q.2) k.placements) = (do
      k.layout.singular.forM fun q => intoSingular o i (ps.map Noted.part) k.layout q.1 q.2
      k.layout.indexed.forM fun q => intoIndexed o i (ps.map Noted.part) q.1 q.2
      k.layout.collections.forM fun q => intoCollection o i (ps.map Noted.part) q.1 q.2) := by
  rw [discard_noteAll fun _ _ => rfl, Kind.placements]
  simp only [List.forM_eq_forM, List.forM_append, List.forM_map, bind_assoc,
    discard_noteSlot_single, discard_noteSlot_keyed, discard_noteSlot_listed]

/-- Without its notes the merge of entries is the merge of their parts. -/
theorem discard_noteContent (ps : List Noted) :
    discard (noteContent o ps i) = content o (ps.map Noted.part) i := by
  unfold noteContent content
  rw [discard_bind]
  refine congrArg (Edit.node i >>= ·) (funext fun n => ?_)
  have hplain : ∀ below : Notes, discard (do
      (ps.filter fun p => !isSlotKey n.kind.layout p.key).forM fun p => setPlain o i p.key p.value
      return below ++ [(i, ps.map Noted.entry)])
      = ((ps.map Noted.part).filter fun p => !isSlotKey n.kind.layout p.key).forM
        fun p => setPlain o i p.key p.value := by
    intro below
    have hmap : ∀ qs : List Noted, (qs.map Noted.part).forM (fun p => setPlain o i p.key p.value)
        = qs.forM fun p => setPlain o i p.key p.value := fun _ => List.forM_map ..
    rw [discard_answer, List.filter_map, hmap]
    rfl
  rw [discard_bind_const _ hplain, discard_noteSlots]
  simp only [bind_assoc]

/-- A mapping of children under keys, without notes. -/
theorem discard_noteKeyed (ps : List Noted) :
    discard (noteKeyed k ps i) = keyed k (ps.map Noted.part) i := by
  have hmap : keyed k (ps.map Noted.part) i
      = ps.forM fun p => (do discard (p.asNode (← Edit.indexedItem i k p.key))) := List.forM_map ..
  rw [hmap]
  exact discard_noteAll fun _ _ => discard_bind ..

/-- An item of a collection, without notes. -/
theorem discard_noteListed (slot : CollectionSlot) (ps : List Noted) :
    discard (noteListed o k slot ps i) = listed o k slot (ps.map Noted.part) i := by
  unfold noteListed listed
  rw [List.filterMap_map, List.filter_map, discard_bind]
  exact congrArg (_ >>= ·) (funext fun _ => discard_noteContent _)

/-! ### Sources without notes -/

variable {read : NotingReader} {read' : Reader}

/-- Readers that read the same, with notes and without. -/
def NotingReader.Reads (read : NotingReader) (read' : Reader) : Prop :=
  ∀ es, List.map Noted.part <$> read es = read' es

/-- What is done with the content of a node in a source. -/
theorem NotingReader.Reads.discard_notedOf (hread : read.Reads read') (source : NodeId)
    {f : List Noted → Edit Notes} {g : List Part → Edit Unit}
    (h : ∀ ps, discard (f ps) = g (ps.map Noted.part)) :
    discard (do f (← notedOf read source)) = (do g (← partsOf read' source)) := by
  unfold notedOf partsOf
  rw [discard_bind, bind_assoc, bind_assoc]
  refine congrArg (Edit.content source >>= ·) (funext fun es => ?_)
  rw [← hread es]
  cases read es with
  | error e => rfl
  | ok ps => exact h ps

mutual

/-- Without notes, the entries of a source do what they do in a merge. -/
theorem map_part_noted (hread : read.Reads read') (es : List (Data × Data)) :
    (noted o read es).map Noted.part = parts o read' es := by
  cases es with
  | nil => rfl
  | cons e rest =>
    obtain ⟨key, v⟩ := e
    unfold noted parts
    rw [List.map_cons, map_part_noted hread rest, Noted.part]
    simp only [discard_noteNode hread v, discard_noteMembers hread v, discard_noteItems hread v]

/-- A whole source without notes is what is merged, by recursion on the source. -/
theorem discard_noteNode (hread : read.Reads read') (v : Data) (i : NodeId) :
    discard (noteNode o read v i) = asContent o read' v i := by
  cases v with
  | map es =>
    unfold noteNode asContent
    rw [discard_noteContent, map_part_noted hread es]
  | node source =>
    unfold noteNode asContent
    exact hread.discard_notedOf source fun ps => discard_noteContent ps
  | _ => rfl

/-- The same for children under keys. -/
theorem discard_noteMembers (hread : read.Reads read') (v : Data) (k : Kind) (i : NodeId) :
    discard (noteMembers o read v k i) = asMembers o read' v k i := by
  cases v with
  | map es =>
    unfold noteMembers asMembers
    rw [discard_noteKeyed, map_part_noted hread es]
  | _ => rfl

/-- The same for the items of a collection. -/
theorem discard_noteItems (hread : read.Reads read') (v : Data) (k : Kind) (slot : CollectionSlot)
    (i : NodeId) : discard (noteItems o read v k slot i) = asItems o read' v k slot i := by
  cases v with
  | list xs => exact discard_noteList hread xs k slot i
  | tuple xs => exact discard_noteList hread xs k slot i
  | _ => rfl

/-- The same for the items of a list, one by one. -/
theorem discard_noteList (hread : read.Reads read') (xs : List Data) (k : Kind)
    (slot : CollectionSlot) (i : NodeId) :
    discard (noteList o read xs k slot i) = items o read' xs k slot i := by
  cases xs with
  | nil => rfl
  | cons x rest =>
    have hrest : ∀ notes : Notes, discard (do return notes ++ (← noteList o read rest k slot i))
        = items o read' rest k slot i := by
      intro notes
      rw [discard_bind, ← discard_noteList hread rest k slot i, discard_eq]
      rfl
    cases x with
    | map es =>
      unfold noteList items
      rw [discard_bind_const _ hrest, discard_noteListed, map_part_noted hread es]
    | node source =>
      unfold noteList items
      refine hread.discard_notedOf source fun ps => ?_
      rw [discard_bind_const _ hrest, discard_noteListed]
    | _ => rfl

end

/-- Without notes a source is read as before, to any depth. -/
theorem reads_readNoted (o : MergeOptions) (fuel : Nat) :
    (readNoted o fuel).Reads (readParts o fuel) := by
  induction fuel with
  | zero => exact fun _ => rfl
  | succ fuel ih => exact fun es => congrArg Except.ok (map_part_noted ih es)

end Merge

/-- Without its notes a merge is the one that takes none. -/
theorem Edit.discard_mergeNoting (o : MergeOptions) (source : Data) (i : NodeId) :
    discard (Edit.mergeNoting o source i) = Edit.merge o source i := by
  unfold Edit.mergeNoting Edit.merge Edit.mergeEntries
  rw [discard_bind]
  refine congrArg (Edit.sourceEntries source i >>= ·) (funext fun es => ?_)
  rw [discard_bind]
  refine congrArg (Edit.forest >>= ·) (funext fun f => ?_)
  rw [← Merge.reads_readNoted o f.fuel es]
  cases Merge.readNoted o f.fuel es with
  | error e => rfl
  | ok ps => exact Merge.discard_noteContent ps

end ApiDoc
