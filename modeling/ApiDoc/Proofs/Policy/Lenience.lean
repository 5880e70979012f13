import ApiDoc.Proofs.Policy.Slots
import ApiDoc.Proofs.Policy.Warnings

namespace ApiDoc

/-!
# Strict and lenient merges

A merge is strict if a refused key is a failure. Whatever the other options do about refused keys,
a strict merge that succeeds has refused none, and so they do the same and nothing is warned of:

* `Edit.Entails` — an edit that does what another one does wherever that one succeeds;
* `Entails.bind`, `Entails.forM` — such edits one after the other;
* `Merge.Reader.Entails` — readers whose parts do so;
* `entails_parts` — all parts of a source, by recursion on the source;
* `Entails.merge` — a strict merge and one under the other policy.
-/

namespace Edit

variable {α β : Type}

/-- Wherever the first edit succeeds it gives no warning and the second one does the same. -/
def Entails (x y : Edit α) : Prop :=
  ∀ d a d', x d = .ok a d' → d'.warnings = d.warnings ∧ y d = .ok a d'

namespace Entails

/-- A silent edit entails itself. -/
theorem of_silent {x : Edit α} (hx : Silent x) : Entails x x :=
  fun _ _ _ h => ⟨hx.warnings_eq h, h⟩

/-- An answer. -/
protected theorem pure (a : α) : Entails (pure a) (pure a) := .of_silent (.pure a)

/-- A failure entails anything. -/
theorem throw {e : Failure} {y : Edit α} : Entails (throw e) y := fun _ _ _ h => nomatch h

/-- Two pairs of edits, one after the other. -/
theorem bind {x y : Edit α} {f g : α → Edit β} (hxy : Entails x y)
    (hfg : ∀ a, Entails (f a) (g a)) : Entails (x >>= f) (y >>= g) := by
  intro d b d'' h
  obtain ⟨a, d', ha, hb⟩ := Results.bind_eq_ok.1 h
  obtain ⟨hfirst, ha⟩ := hxy d a d' ha
  obtain ⟨hsecond, hb⟩ := hfg a d' b d'' hb
  rw [Results.bind_of_ok ha]
  exact ⟨hsecond.trans hfirst, hb⟩

/-- A choice whose condition is the same for both. -/
theorem ite {c : Prop} [Decidable c] {x y x' y' : Edit α} (hx : Entails x x') (hy : Entails y y') :
    Entails (if c then x else y) (if c then x' else y') := by
  split
  · exact hx
  · exact hy

/-- A loop over the same list. -/
theorem forM {f g : α → Edit Unit} {xs : List α} (h : ∀ x ∈ xs, Entails (f x) (g x)) :
    Entails (xs.forM f) (xs.forM g) := by
  induction xs with
  | nil => exact .pure ()
  | cons x xs ih =>
    obtain ⟨hx, hxs⟩ := List.forall_mem_cons.1 h
    exact .bind hx fun _ => ih hxs

end Entails

end Edit

namespace Merge

variable {s l : MergeOptions} {read read' : Reader}

/-- A value whose parts do under some options what they do under others, where these succeed. -/
structure ValueEntails (s l : MergeOptions) (read read' : Reader) (v : Data) : Prop where
  asContent : ∀ i, Edit.Entails (asContent s read v i) (asContent l read' v i)
  asMembers : ∀ k i, Edit.Entails (asMembers s read v k i) (asMembers l read' v k i)
  asItems : ∀ k slot i, Edit.Entails (asItems s read v k slot i) (asItems l read' v k slot i)

/-- Readers of which the second one makes parts that do what those of the first one do. -/
def Reader.Entails (s l : MergeOptions) (read read' : Reader) : Prop :=
  ∀ es ps, read es = .ok ps → ∃ r r', ps = parts s r es ∧ read' es = .ok (parts l r' es) ∧
    ∀ e ∈ es, ValueEntails s l r r' e.2

end Merge

namespace Edit.Entails

open Merge

variable {s l : MergeOptions} {read read' : Merge.Reader} {es : Entries} {i : NodeId} {k : Kind}

/-! ### One entry -/

/-- Under the strict policy no key is refused with success. -/
theorem reject (hs : s.policy = .error) (key : String) (why : Rejection) (y : Edit Unit) :
    Entails (Merge.reject s i key why) y := by
  intro d a d' h
  obtain ⟨n, d₁, -, h⟩ := Results.bind_eq_ok.1 h
  obtain ⟨location, d₂, -, h⟩ := Results.bind_eq_ok.1 h
  rw [hs] at h
  cases h

/-- A scalar is set alike where both overwrite or both do not. -/
theorem setScalar (ho : s.overwrite = l.overwrite) (name : String) (v : Data) :
    Entails (Merge.setScalar s i name v) (Merge.setScalar l i name v) := by
  have hsame : Merge.setScalar s i name v = Merge.setScalar l i name v := by
    unfold Merge.setScalar
    rw [ho]
  rw [hsame]
  exact .of_silent (.setScalar l i name v)

/-- So is an extension. -/
theorem setExtension (ho : s.overwrite = l.overwrite) (key : String) (v : Data) :
    Entails (Merge.setExtension s i key v) (Merge.setExtension l i key v) := by
  have hsame : Merge.setExtension s i key v = Merge.setExtension l i key v := by
    unfold Merge.setExtension
    rw [ho]
  rw [hsame]
  exact .of_silent (.setExtension l i key v)

/-- So is any entry that belongs to no slot, if the strict edit takes its key. -/
theorem setPlain (ho : s.overwrite = l.overwrite) (hs : s.policy = .error) (key v : Data) :
    Entails (Merge.setPlain s i key v) (Merge.setPlain l i key v) := by
  refine .bind (.of_silent .forest) fun f => .bind (.of_silent (.ofExcept _)) fun text => ?_
  refine .ite (setExtension ho text v) (.bind (.of_silent (.node i)) fun n => ?_)
  extract_lets kind
  split
  · exact reject hs _ _ _
  · exact .ite (.of_silent (.growList i _ v)) (setScalar ho _ v)

/-- A value that goes into a slot. -/
theorem take (ho : s.overwrite = l.overwrite) {v : Data} (h : ValueEntails s l read read' v)
    (σ : String) (p : Placement) :
    Entails (Merge.take s read i σ p v) (Merge.take l read' i σ p v) := by
  cases p with
  | keyed c key => exact h.asMembers c i
  | listed c slot => exact h.asItems c slot i
  | single c b =>
    have hchild : Entails (do Merge.asContent s read v (← Edit.child i c))
        (do Merge.asContent l read' v (← Edit.child i c)) :=
      .bind (.of_silent (.child i c [])) h.asContent
    cases v with
    | scalar x =>
      cases x with
      | bool b => exact setScalar ho σ _
      | _ => exact hchild
    | _ => exact hchild

/-- The entry of a source that goes into a slot, if there is one. -/
theorem intoSlot (ho : s.overwrite = l.overwrite) (hs : s.policy = .error)
    (h : ∀ e ∈ es, ValueEntails s l read read' e.2) (σ : String) (p : Placement) :
    Entails (Merge.intoSlot s read i es σ p) (Merge.intoSlot l read' i es σ p) := by
  cases hv : es.text? (wireName σ) with
  | none =>
    rw [intoSlot_of_none hv, intoSlot_of_none hv]
    exact .pure ()
  | some v =>
    cases hwhy : p.refuses v with
    | some why =>
      rw [intoSlot_of_refused hv hwhy]
      exact reject hs _ _ _
    | none =>
      rw [intoSlot_of_taken hv hwhy, intoSlot_of_taken hv hwhy]
      exact take ho (h _ (Entries.mem_of_text? hv)) σ p

/-! ### All entries -/

/-- All entries of a source for a node. -/
theorem content (ho : s.overwrite = l.overwrite) (hs : s.policy = .error)
    (h : ∀ e ∈ es, ValueEntails s l read read' e.2) :
    Entails (Merge.content s (parts s read es) i) (Merge.content l (parts l read' es) i) := by
  rw [content_parts, content_parts]
  refine .bind (.of_silent (.node i)) fun n => ?_
  refine .bind (.forM fun q _ => ?_) fun _ => .forM fun e _ => ?_
  · exact intoSlot ho hs h q.1 q.2
  · exact setPlain ho hs e.1 e.2

/-- All entries of a mapping of children under keys. -/
theorem keyed (h : ∀ e ∈ es, ValueEntails s l read read' e.2) :
    Entails (Merge.keyed k (parts s read es) i) (Merge.keyed k (parts l read' es) i) := by
  rw [keyed_parts, keyed_parts]
  exact .forM fun e he => .bind (.of_silent (.indexedItem i k e.1)) (h e he).asContent

/-- All entries of an item for a collection. -/
theorem listed (ho : s.overwrite = l.overwrite) (hs : s.policy = .error)
    (h : ∀ e ∈ es, ValueEntails s l read read' e.2) (slot : CollectionSlot) :
    Entails (Merge.listed s k slot (parts s read es) i)
      (Merge.listed l k slot (parts l read' es) i) := by
  rw [listed_parts, listed_parts]
  refine .bind (.of_silent (.collectionItem i k _)) fun j => ?_
  exact content ho hs fun e he => h e (List.mem_filter.1 he).1

/-- What is read from a node in a source. -/
theorem partsOf {α : Type} (hread : Merge.Reader.Entails s l read read') (source : NodeId)
    {f g : List Part → Edit α} (hfg : ∀ es r r', (∀ e ∈ es, ValueEntails s l r r' e.2) →
      Entails (f (parts s r es)) (g (parts l r' es))) :
    Entails (do f (← Merge.partsOf read source)) (do g (← Merge.partsOf read' source)) := by
  unfold Merge.partsOf
  rw [bind_assoc, bind_assoc]
  refine .bind (.of_silent (.content source)) fun es d a d' h => ?_
  obtain ⟨ps, d₁, hps, h⟩ := Results.bind_eq_ok.1 h
  cases hes : read es with
  | error e =>
    rw [hes] at hps
    cases hps
  | ok qs =>
    rw [hes] at hps
    cases hps
    obtain ⟨r, r', rfl, hread', hvalues⟩ := hread es _ hes
    rw [hread']
    exact hfg es r r' hvalues d a d' h

end Edit.Entails

/-! ### All sources -/

namespace Merge

variable {s l : MergeOptions} {read read' : Reader}

mutual

/-- A value as the content of a node, by recursion on the value. -/
theorem entails_asContent (ho : s.overwrite = l.overwrite) (hs : s.policy = .error)
    (hread : Reader.Entails s l read read') (v : Data) (i : NodeId) :
    Edit.Entails (asContent s read v i) (asContent l read' v i) := by
  match v with
  | .map es _ =>
    unfold asContent
    exact .content ho hs (entails_parts ho hs hread es)
  | .node source =>
    unfold asContent
    exact .partsOf hread source fun es r r' h => .content ho hs h
  | .scalar _ => exact .throw
  | .list _ _ => exact .throw
  | .tuple _ _ => exact .throw
  | .set _ _ => exact .throw
  | .unset => exact .throw
  | .modelRef _ _ => exact .throw
  | .bare _ => exact .throw

/-- A value as children under keys. -/
theorem entails_asMembers (ho : s.overwrite = l.overwrite) (hs : s.policy = .error)
    (hread : Reader.Entails s l read read') (v : Data) (k : Kind) (i : NodeId) :
    Edit.Entails (asMembers s read v k i) (asMembers l read' v k i) := by
  match v with
  | .map es _ =>
    unfold asMembers
    exact .keyed (entails_parts ho hs hread es)
  | .scalar _ => exact .pure ()
  | .list _ _ => exact .pure ()
  | .tuple _ _ => exact .pure ()
  | .set _ _ => exact .pure ()
  | .unset => exact .pure ()
  | .node _ => exact .pure ()
  | .modelRef _ _ => exact .pure ()
  | .bare _ => exact .pure ()

/-- A value as the items of a collection. -/
theorem entails_asItems (ho : s.overwrite = l.overwrite) (hs : s.policy = .error)
    (hread : Reader.Entails s l read read') (v : Data) (k : Kind) (slot : CollectionSlot)
    (i : NodeId) : Edit.Entails (asItems s read v k slot i) (asItems l read' v k slot i) := by
  match v with
  | .list xs _ =>
    unfold asItems
    exact entails_items ho hs hread xs k slot i
  | .tuple xs _ =>
    unfold asItems
    exact entails_items ho hs hread xs k slot i
  | .map _ _ => exact .pure ()
  | .scalar _ => exact .pure ()
  | .set _ _ => exact .pure ()
  | .unset => exact .pure ()
  | .node _ => exact .pure ()
  | .modelRef _ _ => exact .pure ()
  | .bare _ => exact .pure ()

/-- The items of a list, one by one. -/
theorem entails_items (ho : s.overwrite = l.overwrite) (hs : s.policy = .error)
    (hread : Reader.Entails s l read read') (xs : List Data) (k : Kind) (slot : CollectionSlot)
    (i : NodeId) : Edit.Entails (items s read xs k slot i) (items l read' xs k slot i) := by
  match xs with
  | [] => exact .pure ()
  | .map es _ :: rest =>
    unfold items
    refine .bind (.listed ho hs (entails_parts ho hs hread es) slot) fun _ => ?_
    exact entails_items ho hs hread rest k slot i
  | .node source :: rest =>
    unfold items
    refine .partsOf hread source fun es r r' h => ?_
    exact .bind (.listed ho hs h slot) fun _ => entails_items ho hs hread rest k slot i
  | .scalar _ :: _ => exact .throw
  | .list _ _ :: _ => exact .throw
  | .tuple _ _ :: _ => exact .throw
  | .set _ _ :: _ => exact .throw
  | .unset :: _ => exact .throw
  | .modelRef _ _ :: _ => exact .throw
  | .bare _ :: _ => exact .throw

/-- All values of a source. -/
theorem entails_parts (ho : s.overwrite = l.overwrite) (hs : s.policy = .error)
    (hread : Reader.Entails s l read read') (es : List (Data × Data)) :
    ∀ e ∈ es, ValueEntails s l read read' e.2 := by
  match es with
  | [] => exact fun _ h => absurd h List.not_mem_nil
  | (key, v) :: rest =>
    refine List.forall_mem_cons.2 ⟨⟨?_, ?_, ?_⟩, entails_parts ho hs hread rest⟩
    · exact fun i => entails_asContent ho hs hread v i
    · exact fun k i => entails_asMembers ho hs hread v k i
    · exact fun k slot i => entails_asItems ho hs hread v k slot i

end

/-- All sources whose nodes are read to some levels. -/
theorem entails_readParts (ho : s.overwrite = l.overwrite) (hs : s.policy = .error) (fuel : Nat) :
    Reader.Entails s l (readParts s fuel) (readParts l fuel) := by
  induction fuel with
  | zero => exact fun _ _ h => nomatch h
  | succ fuel ih =>
    intro es ps h
    cases h
    exact ⟨_, _, rfl, rfl, entails_parts ho hs ih es⟩

end Merge

namespace Edit.Entails

variable {s l : MergeOptions}

/-- A strict merge that succeeds gives no warning, and a merge under the other policy does the
    same. -/
theorem merge (ho : s.overwrite = l.overwrite) (hs : s.policy = .error) (source : Data)
    (i : NodeId) : Entails (Edit.merge s source i) (Edit.merge l source i) := by
  refine .bind (.of_silent (.sourceEntries source i)) fun es => ?_
  refine .bind (.of_silent .forest) fun f d a d' h => ?_
  obtain ⟨ps, d₁, hps, h⟩ := Results.bind_eq_ok.1 h
  cases hes : Merge.readParts s f.fuel es with
  | error e =>
    rw [hes] at hps
    cases hps
  | ok qs =>
    rw [hes] at hps
    cases hps
    obtain ⟨r, r', rfl, hread', hvalues⟩ :=
      Merge.entails_readParts ho hs f.fuel es _ hes
    rw [hread']
    exact content ho hs hvalues d a d' h

end Edit.Entails

end ApiDoc
