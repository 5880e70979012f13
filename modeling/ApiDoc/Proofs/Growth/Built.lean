import ApiDoc.Generator
import ApiDoc.Proofs.Growth.Standing

namespace ApiDoc

/-!
# Documents that are built

* `Edit.TreeCall` — a call of a helper, with `TreeCall.run` and what it may be given;
* `Edit.Built` — the drafts that calls leave, be they successful or not;
* `Forest.Represents` — a forest that represents documents;
* `TreeCall.consistent` — what one call keeps;
* `Built.represents` — what holds after any calls;
* `Edit.child_without_parent` — a child that is told to have no parent.
-/

open Forest

/-- A licence to change all but internal fields. -/
def Licence.sparing (overwrite : Bool) : Licence where
  nodes _ := True
  fields k name := name ∉ k.internalFields
  overwrite := overwrite

theorem Licence.sparing_keepsKeys (overwrite : Bool) : (sparing overwrite).KeepsKeys :=
  fun _ _ _ _ hp hmay => hmay (Kind.key_mem_internalFields hp)

/-- A forest that represents documents: what slots hold is of the kind that they are for, and has
    the holder for its parent; a node stands at one place only; members of indexed slots differ in
    their keys, and are shown with an entry each where keys are texts. -/
structure Forest.Represents (f : Forest) : Prop where
  slots : ∀ i < f.size, ∀ σ p, (f.get i).kind.placement? σ = some p →
    f.Fills (fun _ => True) i p ((f.get i).value σ)
  once : ∀ (a b j : NodeId) (σ τ : String) (m n : Nat), a < f.size → b < f.size →
    σ ∈ (f.get a).kind.slots → τ ∈ (f.get b).kind.slots →
    ((f.get a).value σ).nodes[m]? = some (.node j) →
    ((f.get b).value τ).nodes[n]? = some (.node j) → a = b ∧ σ = τ ∧ m = n
  keys : ∀ i < f.size, ∀ σ k key, (f.get i).kind.placement? σ = some (.keyed k key) →
    ((f.get i).value σ).nodes.Pairwise (f.KeysDiffer key)
  shown : ∀ i < f.size, f.TextKeys i → ∃ es : Entries, f.content i = .ok es ∧
    ∀ σ k key, (f.get i).kind.placement? σ = some (.keyed k key) →
      ∀ xs mark, (f.get i).value σ = .list xs mark →
        ∃ fs : Entries, es.text? (wireName σ) = some (.ofEntries fs) ∧ f.Lists key xs fs

namespace Edit

/-- A call of a helper that builds documents. -/
inductive TreeCall where
  | newDocument (version : Data)
  | child (p : NodeId) (k : Kind) (fields : Entries)
  | collectionItem (p : NodeId) (k : Kind) (fields : Entries)
  | indexedItem (p : NodeId) (k : Kind) (key : Data)
  | removeIndexed (p : NodeId) (k : Kind) (key : Data)
  | operation (p : NodeId) (method : Data)
  | componentSchema (p : NodeId) (name : Data)
  | merge (o : MergeOptions) (source : Data) (p : NodeId)

namespace TreeCall

def run : TreeCall → Edit Unit
  | newDocument version => do let _ ← addNode (Generator.emptyDocument version)
  | child p k fields => do let _ ← Edit.child p k fields
  | collectionItem p k fields => do let _ ← Edit.collectionItem p k fields
  | indexedItem p k key => do let _ ← Edit.indexedItem p k key
  | removeIndexed p k key => do let _ ← Edit.removeIndexed p k key
  | operation p method => do let _ ← Edit.operation p method
  | componentSchema p name => do let _ ← Edit.componentSchema p name
  | merge o source p => Edit.merge o source p

/-- What a call may be given: nodes that exist, fields that do not set the kind, the parent or the
    extensions of a node, and sources that name no internal field of the kinds that they reach. -/
def Allowed (f : Forest) : TreeCall → Prop
  | newDocument _ => True
  | child p _ fields => p < f.size ∧ fields.Unreserved
  | collectionItem p _ fields => p < f.size ∧ fields.Unreserved
  | indexedItem p _ _ => p < f.size
  | removeIndexed p _ _ => p < f.size
  | operation p _ => p < f.size
  | componentSchema p _ => p < f.size
  | merge o source p => p < f.size ∧ ∃ P, (Licence.sparing o.overwrite).Covers f P ∧
      source.Offers (Licence.sparing o.overwrite) f (P (f.get p).kind)

end TreeCall

/-- The drafts that calls leave. -/
inductive Built : Draft → Prop
  | start : Built {}
  | call {d : Draft} (hd : Built d) (c : TreeCall) (hc : c.Allowed d.forest) : Built (after c.run d)

/-! ### Calls -/

variable {d : Draft} {p : NodeId} {k : Kind} {v : Data}

/-- What holds of a forest holds still after a look, and then after the edit that follows. -/
theorem after_look {α β : Type} {R : Forest → Prop} {P : α → Prop} {x : Edit α} {f : α → Edit β}
    (hx : Peeks x) (hP : Looks x d P) (hR : R d.forest)
    (hf : ∀ a, P a → R (after (f a) d).forest) : R (after (x >>= f) d).forest := by
  cases h : x d with
  | ok a d' =>
    obtain ⟨rfl, ha⟩ := hP a d' h
    rw [after_bind_of_ok h]
    exact hf a ha
  | error e d' =>
    rw [after_bind_of_error h, ← after_of_error h, hx d]
    exact hR

/-- What an edit leaves does not depend on what becomes of its result. -/
theorem after_discard {α : Type} (x : Edit α) (d : Draft) : after (do let _ ← x) d = after x d := by
  cases h : x d with
  | ok a d' =>
    rw [after_bind_of_ok h, after_of_ok h]
    rfl
  | error e d' => rw [after_bind_of_error h, after_of_error h]

theorem consistent_removeIndexed (hf : d.forest.Consistent) (hp : p < d.forest.size) :
    (after (Edit.removeIndexed p k v) d).forest.Consistent := by
  refine after_look (.slotFor _ _ _ _) (.slotFor .indexed (·.indexed)) hf fun slot hslot => ?_
  have hplaced : (d.forest.get p).kind.placement? slot.name = some (.keyed k slot.key) :=
    Kind.placement?_indexed _ _ hslot
  refine after_look (.node p) (.node p) hf fun n hn => ?_
  subst hn
  split
  · rename_i items mark hvalue
    refine after_look (.searchIndexed _ _ _) (.searchIndexed _ _ _) hf fun i? _ => ?_
    cases i? with
    | none => exact hf
    | some i => exact hf.remove hp hplaced hvalue (List.eraseIdx_sublist _ _)
  · exact hf

theorem Follows.operation {S : Licence} (hf : d.forest.Formed S.nodes) (hi : S.nodes p)
    (hp : p < d.forest.size) (method : Data) :
    Follows S (Edit.operation p method) d fun _ _ => True := by
  unfold Edit.operation
  split
  · split
    · refine .after_look (.read p "path") (Looks.read p "path") fun path _ => ?_
      refine (Follows.child hf hi hp fun e he name hname => ?_).mono fun _ _ _ _ => trivial
      rw [List.mem_singleton.1 he] at hname
      cases hname
      decide
    · exact .throw _
  · exact .throw _
  · exact .after_look (.node _) (.node _) fun _ _ => .throw _
  · exact .throw _

theorem Follows.componentSchema {S : Licence} (hf : d.forest.Formed S.nodes) (hi : S.nodes p)
    (hp : p < d.forest.size) (name : Data) :
    Follows S (Edit.componentSchema p name) d fun _ _ => True := by
  refine .bind (Follows.child hf hi hp fun _ h => absurd h List.not_mem_nil) fun j d' hrun h => ?_
  obtain ⟨σ, b, hlinked⟩ := h
  exact (Follows.indexedItem (hrun.formed hf) hlinked.node hlinked.child.1 name).mono
    fun _ _ _ _ => trivial

namespace TreeCall

/-- One call keeps a forest consistent. -/
theorem consistent (hf : d.forest.Consistent) (c : TreeCall) (hc : c.Allowed d.forest) :
    (after c.run d).forest.Consistent := by
  -- A call that follows the licence only adds nodes and fills slots that were free.
  have hsteps : ∀ {α : Type} {x : Edit α} {Q : α → Forest → Prop},
      Follows (.sparing false) x d Q → (after (do let _ ← x) d).forest.Consistent := by
    intro α x Q h
    rw [after_discard]
    exact h.1.consistent (Licence.sparing_keepsKeys _) rfl hf
  cases c with
  | newDocument version =>
    -- The version is a field, so no slot of the new document is touched.
    have hversion : "openapi" ∉ Kind.openApi.slots := by decide
    refine hf.add ((Node.Tidy.fresh _ _).putValue _ _) fun σ hσ => Node.value_putValue_of_ne _ ?_ _
    rintro rfl
    exact hversion hσ
  | child p k fields => exact hsteps (.child hf.formed trivial hc.1 hc.2)
  | collectionItem p k fields =>
    exact hsteps (.collectionItem hf.formed trivial hc.1 hc.2)
  | indexedItem p k key =>
    exact hsteps (.indexedItem hf.formed trivial hc key)
  -- Taking a member out is the one call that takes something from a slot.
  | removeIndexed p k key =>
    show (after (do let _ ← Edit.removeIndexed p k key) d).forest.Consistent
    rw [after_discard]
    exact consistent_removeIndexed hf hc
  | operation p method =>
    exact hsteps (.operation hf.formed trivial hc method)
  | componentSchema p name =>
    exact hsteps (.componentSchema hf.formed trivial hc name)
  | merge o source p =>
    obtain ⟨hp, P, hcovers, hoffers⟩ := hc
    exact (Follows.merge source rfl hcovers hf.formed trivial hp hoffers).1.consistent
      (Licence.sparing_keepsKeys _) rfl hf

end TreeCall

/-- Any calls leave a consistent forest. -/
theorem Built.consistent (h : Built d) : d.forest.Consistent := by
  induction h with
  | start =>
    have hnone : ∀ i, ¬i < Forest.size {} := fun i => Nat.not_lt_zero i
    exact ⟨⟨fun _ _ => trivial, fun i _ hi => absurd hi (hnone i)⟩,
      fun i _ hi => absurd hi (hnone i), fun i hi => absurd hi (hnone i),
      fun i hi => absurd hi (hnone i)⟩
  | call _ c hc ih => exact c.consistent ih hc

/-- Any calls leave a forest that represents documents. -/
theorem Built.represents (h : Built d) : d.forest.Represents where
  slots i hi σ p hp := h.consistent.formed.slots i trivial hi σ p hp
  once _ _ _ _ _ _ _ ha hb hσ hτ hm hn := h.consistent.place_unique ha hb hσ hτ hm hn
  keys i hi σ k key hp := h.consistent.unambiguous i trivial hi σ k key hp
  shown _ hi htext := h.consistent.content_lists hi htext

/-- The draft after some calls. -/
def draftAfter (calls : List TreeCall) : Draft := calls.foldl (fun d c => after c.run d) {}

theorem Built.append {calls : List TreeCall} (h : Built (draftAfter calls)) (c : TreeCall)
    (hc : c.Allowed (draftAfter calls).forest) : Built (draftAfter (calls ++ [c])) := by
  have hafter : draftAfter (calls ++ [c]) = after c.run (draftAfter calls) := List.foldl_append
  rw [hafter]
  exact h.call c hc

/-- Whether a call is allowed, for the calls that need no more than a node that exists. -/
def TreeCall.isReady (f : Forest) : TreeCall → Bool
  | newDocument _ => true
  | indexedItem p _ _ => p < f.size
  | removeIndexed p _ _ => p < f.size
  | operation p _ => p < f.size
  | componentSchema p _ => p < f.size
  | child _ _ _ => false
  | collectionItem _ _ _ => false
  | merge _ _ _ => false

/-- The check of a call is sound. -/
theorem TreeCall.allowed_of_isReady {f : Forest} {c : TreeCall} (h : c.isReady f = true) :
    c.Allowed f := by
  cases c with
  | newDocument => exact trivial
  | indexedItem p | removeIndexed p | operation p | componentSchema p =>
    exact (of_decide_eq_true h : p < f.size)
  | child | collectionItem | merge => cases h

/-- Whether each call is ready in the draft that those before it leave. -/
def allReady : List TreeCall → Draft → Bool
  | [], _ => true
  | c :: calls, d => c.isReady d.forest && allReady calls (after c.run d)

/-- Calls that are checked to be ready leave drafts that are built. -/
theorem Built.of_allReady {calls : List TreeCall} (h : Built d) (hcalls : allReady calls d = true) :
    Built (calls.foldl (fun d c => after c.run d) d) := by
  induction calls generalizing d with
  | nil => exact h
  | cons c calls ih =>
    obtain ⟨hready, hcalls⟩ := Bool.and_eq_true_iff.1 hcalls
    exact ih (h.call c (TreeCall.allowed_of_isReady hready)) hcalls

/-- A document with an operation and a schema, from which a path is taken out. -/
theorem represents_operation : ∃ d, Built d ∧
    ((d.forest.get 0).value "paths").nodes.mapM Data.node? = some [1] ∧
    ((d.forest.get 1).value "get").nodes.mapM Data.node? = some [3] ∧ d.forest.Represents := by
  let source := oneSchema "A" [(.str "type", .str "object")]
  have hoperation : Built (draftAfter [.newDocument (.str "3.0.0"), .indexedItem 0 .pathItem (.str "/a"),
      .indexedItem 0 .pathItem (.str "/b"), .operation 1 (.str "GET")]) :=
    Built.start.of_allReady (by decide +kernel)
  have hmerge := hoperation.append (.merge {} (.map source 0) 0) <| by
    have hallowed : ∀ f : Forest, (f.get 0).kind = .openApi ∧ 0 < f.size →
        TreeCall.Allowed f (.merge {} (.map source 0) 0) := by
      intro f ⟨hkind, hsize⟩
      have hsource : source.isPermitted (fun k name => !k.internalFields.contains name) 4
        .openApi = true := by decide +kernel
      obtain ⟨P, hcovers, hP⟩ := Licence.permits_of_isPermitted (S := .sparing false) (f := f)
        (fun k name hname hmem => by simp [hmem] at hname) hsource
      exact ⟨hsize, P, hcovers, hkind ▸ hP⟩
    exact hallowed _ (by decide +kernel)
  have hbuilt := hmerge.append (.removeIndexed 0 .pathItem (.str "/b"))
    (show 0 < (draftAfter _).forest.size by decide +kernel)
  refine ⟨_, hbuilt, and_assoc.1 ⟨?_, hbuilt.represents⟩⟩
  decide +kernel

/-- A child that is told to have no parent. -/
theorem child_without_parent : ∃ d,
    (TreeCall.child 0 .info [(.str "parent", .null)]).run
      (draftAfter [.newDocument (.str "3.0.0")]) = .ok () d ∧
    (d.forest.get 0).value "info" = .node 1 ∧ (d.forest.get 1).parent.node? = none ∧
    ¬d.forest.Represents := by
  have h : Results.endsIn (TreeCall.child 0 .info [(.str "parent", .null)]).run
      (fun d => d.forest.size == 2 && (d.forest.get 0).kind == .openApi &&
        ((d.forest.get 0).value "info").node? == some 1 && (d.forest.get 1).parent.node? == none)
      (draftAfter [.newDocument (.str "3.0.0")]) = true := by
    decide +kernel
  obtain ⟨d, hd, h⟩ := Results.exists_of_endsIn h
  simp only [Bool.and_eq_true, beq_iff_eq, Data.node?_eq_some] at h
  obtain ⟨⟨⟨hsize, hkind⟩, hinfo⟩, hparent⟩ := h
  refine ⟨d, hd, hinfo, hparent, fun hd => ?_⟩
  have hplaced : (d.forest.get 0).kind.placement? "info" = some (.single .info false) := by
    rw [hkind]
    decide
  have hfills := hd.slots 0 (by rw [hsize]; decide) "info" _ hplaced
  rw [hinfo] at hfills
  obtain ⟨hchild, -⟩ := hfills.isChild List.mem_cons_self
  rw [hchild.2.2] at hparent
  cases hparent

end Edit

end ApiDoc
