import ApiDoc.Proofs.Growth.Follows

namespace ApiDoc

/-!
# Edits and warnings

Most edits neither look at the warnings given so far nor give any, so that they do the same on
drafts that differ in their warnings only:

* `Draft.withWarnings` — a draft with other warnings;
* `Edit.Silent` — an edit that has nothing to do with warnings;
* `Silent.bind`, `Silent.ite` — silent edits one after the other;
* `Silent.child`, `Silent.indexedItem`, `Silent.collectionItem` — the children that are found or
  made;
* `Silent.setScalar`, `Silent.growList`, `Silent.setExtension` — single values merged.
-/

/-- A draft with other warnings. -/
def Draft.withWarnings (d : Draft) (ws : List String) : Draft := { d with warnings := ws }

namespace Draft

variable (d : Draft) (ws vs : List String)

@[simp] theorem withWarnings_warnings : (d.withWarnings ws).warnings = ws := rfl

@[simp] theorem withWarnings_self : d.withWarnings d.warnings = d := rfl

end Draft

namespace Edit

variable {α β : Type}

/-- A result whose draft has other warnings. -/
def withWarnings (ws : List String) :
    EStateM.Result Failure Draft α → EStateM.Result Failure Draft α
  | .ok a d => .ok a (d.withWarnings ws)
  | .error e d => .error e (d.withWarnings ws)

/-- An edit that neither looks at warnings nor gives any. -/
def Silent (act : Edit α) : Prop :=
  ∀ d ws, act (d.withWarnings ws) = withWarnings ws (act d)

namespace Silent

/-- A silent edit that succeeds does so with any warnings around it. -/
theorem of_ok {act : Edit α} (h : Silent act) {d d' : Draft} {a : α} (hact : act d = .ok a d')
    (ws : List String) : act (d.withWarnings ws) = .ok a (d'.withWarnings ws) := by
  rw [h d ws, hact]
  rfl

/-- A silent edit leaves the warnings as they are. -/
theorem warnings_eq {act : Edit α} (h : Silent act) {d d' : Draft} {a : α}
    (hact : act d = .ok a d') : d'.warnings = d.warnings := by
  have hself : EStateM.Result.ok a d' = .ok a (d'.withWarnings d.warnings) :=
    hact.symm.trans (h.of_ok hact d.warnings)
  injection hself with _ hd
  rw [hd, Draft.withWarnings_warnings]

/-- An answer. -/
protected theorem pure (a : α) : Silent (pure a) := fun _ _ => rfl

/-- A failure. -/
protected theorem throw (e : Failure) : Silent (throw e : Edit α) := fun _ _ => rfl

/-- Two silent edits, one after the other. -/
theorem bind {x : Edit α} {f : α → Edit β} (hx : Silent x) (hf : ∀ a, Silent (f a)) :
    Silent (x >>= f) := by
  intro d ws
  cases h : x d with
  | ok a d' =>
    rw [Results.bind_of_ok h, Results.bind_of_ok (hx.of_ok h ws)]
    exact hf a d' ws
  | error e d' =>
    have herror : x (d.withWarnings ws) = .error e (d'.withWarnings ws) := by
      rw [hx d ws, h]
      rfl
    rw [Results.bind_of_error h, Results.bind_of_error herror]
    rfl

/-- A choice between two silent edits. -/
theorem ite {c : Prop} [Decidable c] {x y : Edit α} (hx : Silent x) (hy : Silent y) :
    Silent (if c then x else y) := by
  split
  · exact hx
  · exact hy

/-! ### Reading and writing -/

/-- A result that does not look at the draft. -/
theorem ofExcept (x : Except Failure α) : Silent (Edit.ofExcept x) := by
  cases x with
  | ok a => exact .pure a
  | error e => exact .throw e

/-- Looking at the forest. -/
theorem forest : Silent Edit.forest := fun _ _ => rfl

/-- Looking at a node. -/
theorem node (i : NodeId) : Silent (Edit.node i) := fun _ _ => rfl

/-- Putting a node in the place of another. -/
theorem setNode (i : NodeId) (n : Node) : Silent (setNode i n) := fun _ _ => rfl

/-- Adding a node. -/
theorem addNode (n : Node) : Silent (addNode n) := fun _ _ => rfl

/-- What reads the forest through a pure function. -/
theorem look (g : Forest → Except Failure α) : Silent (do Edit.ofExcept (g (← Edit.forest))) :=
  .bind forest fun _ => .ofExcept _

/-- Reading a value of a node. -/
theorem read (i : NodeId) (name : String) : Silent (read i name) := look fun f => f.read i name

/-- The location of a node, as messages have it. -/
theorem location (i : NodeId) : Silent (location i) := look fun f => f.location i

/-- The content of a node. -/
theorem content (i : NodeId) : Silent (content i) := look fun f => f.content i

/-- Writing a field or a slot. -/
theorem assign (i : NodeId) (name : String) (v : Data) : Silent (assign i name v) :=
  .bind (node i) fun _ => setNode i _

/-- Writing a field or a slot, or failing where there is none. -/
theorem assign? (i : NodeId) (name : String) (v : Data) : Silent (assign? i name v) :=
  .bind (node i) fun _ => .bind (.ofExcept _) fun _ => setNode i _

/-! ### Children -/

/-- Looking for the slot of a kind of children. -/
theorem slotFor {α : Type} (role : SlotRole) (table : Layout → List (Kind × α)) (p : NodeId)
    (k : Kind) : Silent (slotFor role table p k) := by
  refine .bind (node p) fun n => ?_
  extract_lets holder
  split
  · exact .pure _
  · exact .bind (location p) fun _ => .throw _

/-- A new node with a parent that does not hold it yet. -/
theorem addDetached (p : NodeId) (k : Kind) (fields : Entries) :
    Silent (addDetached p k fields) :=
  .bind (.ofExcept _) fun _ => addNode _

/-- The child of a slot for one, found or made. -/
theorem child (p : NodeId) (k : Kind) (fields : Entries) : Silent (child p k fields) := by
  refine .bind (slotFor _ _ p k) fun slot => .bind (node p) fun n => ?_
  split
  · exact .pure _
  · exact .bind (addDetached p k fields) fun j => .bind (assign p slot _) fun _ => .pure j

/-- The list under a name, put there if need be. -/
theorem ensureList (p : NodeId) (name : String) : Silent (ensureList p name) := by
  refine .bind (read p name) fun v => ?_
  split
  · exact .pure _
  · exact .bind (assign? p name _) fun _ => .pure _

/-- A new member at the end of a list. -/
theorem appendItem (p : NodeId) (name : String) (k : Kind) (fields : Entries) :
    Silent (appendItem p name k fields) := by
  refine .bind (ensureList p name) fun l => ?_
  obtain ⟨items, mark⟩ := l
  exact .bind (addDetached p k fields) fun j => .bind (assign? p name _) fun _ => .pure _

/-- The items under a name. -/
theorem membersOf (p : NodeId) (name : String) : Silent (membersOf p name) :=
  .bind (read p name) fun _ => .ofExcept _

/-- The member under a key, found or made. -/
theorem indexedItem (p : NodeId) (k : Kind) (v : Data) : Silent (indexedItem p k v) := by
  refine .bind (slotFor _ _ p k) fun slot => .bind (membersOf p _) fun items => ?_
  refine .bind (look fun f => position? (hasKey f slot.key v) 0 items) fun i? => ?_
  split
  · exact .pure _
  · exact .bind (appendItem p _ k _) fun _ => .pure _

/-- The member with given values, found or made. -/
theorem collectionItem (p : NodeId) (k : Kind) (fields : Entries) :
    Silent (collectionItem p k fields) := by
  refine .bind (slotFor _ _ p k) fun slot => ?_
  extract_lets answer
  have hanswer : ∀ found, Silent (answer found) := by
    intro found
    cases found with
    | some j => exact .pure j
    | none => exact .bind (appendItem p _ k _) fun _ => .pure _
  refine .ite (hanswer none) ?_
  refine .bind (membersOf p _) fun items => ?_
  exact .bind (look fun f => position? (fun v => hasValues f v fields) 0 items) fun i? => hanswer _

/-! ### Single values -/

/-- A scalar taken over or left. -/
theorem setScalar (o : MergeOptions) (i : NodeId) (name : String) (v : Data) :
    Silent (Merge.setScalar o i name v) :=
  .bind (node i) fun _ => .ite (assign i name v) (.pure ())

/-- A list made longer. -/
theorem growList (i : NodeId) (name : String) (v : Data) : Silent (Merge.growList i name v) :=
  .bind (node i) fun _ => assign i name _

/-- An extension taken over or left. -/
theorem setExtension (o : MergeOptions) (i : NodeId) (key : String) (v : Data) :
    Silent (Merge.setExtension o i key v) := by
  refine .bind (node i) fun n => ?_
  have hput : ∀ skip : Bool, Silent (do
      if !skip then
        let extensions ← Edit.ofExcept (Merge.putExtension key v n.extensions)
        Edit.setNode i { n with extensions := extensions }) := fun skip =>
    .ite (.bind (.ofExcept _) fun _ => setNode i _) (.pure ())
  exact .ite (hput false) (.bind (.ofExcept _) fun skip => hput skip)

/-! ### Sources -/

/-- The entries of a source, be it a mapping or a node. -/
theorem sourceEntries (source : Data) (i : NodeId) : Silent (sourceEntries source i) := by
  cases source with
  | map es mark => exact .pure es
  | node j => exact content j
  | _ => exact .bind (node i) fun _ => .throw _

end Silent

end Edit

end ApiDoc
