import ApiDoc.Proofs.Growth.Sources
import ApiDoc.Proofs.Tree.Refinement

namespace ApiDoc

/-!
# Merges follow a licence

A merge only takes steps that its licence allows, whatever the source holds, and also where it
fails. Where it succeeds the source has been taken in as a whole:

* `Linked.steps` — children stay where they are found;
* `Merge.Absorbed` — a source taken in: a child for all content that it holds, at every depth;
* `Follows.setPlain`, `Follows.intoSingular`, `Follows.intoIndexed`, `Follows.intoCollection` — one
  key of a source;
* `Follows.merge` — a whole source, by induction on its size and on how often it is read from
  nodes.
-/

open Forest Merge

/-! ### Children stay -/

/-- The key of a child is a field of it, and no list. -/
theorem Kind.keyed_field {k c : Kind} {σ key : String}
    (hp : k.placement? σ = some (.keyed c key)) : key ∈ c.fields ∧ key ∉ c.arrayFields := by
  have hall : ∀ k : Kind, ∀ p ∈ k.layout.indexed,
      p.2.key ∈ p.1.fields ∧ p.2.key ∉ p.1.arrayFields := by
    intro k
    cases k <;> decide
  obtain ⟨slot, hslot, -, rfl⟩ := Kind.mem_indexed_of_placement? hp
  exact hall k _ hslot

namespace Forest.Linked

variable {S : Licence} {f g : Forest} {i j : NodeId} {σ : String} {p : Placement} {v : Data}

/-- A link between a source and a child outlives a step. -/
theorem step (h : f.Linked S i σ p v j) (hstep : Step S f g) : g.Linked S i σ p v j := by
  obtain ⟨hlt, hp⟩ := hstep.later.placed h.holder h.placed
  refine ⟨hlt, h.owner, hp, hstep.later.isChild h.child, h.node, fun hkeep => ?_, ?_⟩
  · exact (hstep.becomes h.holder).nodes_subset h.placed hkeep (h.slot hkeep)
  · rintro k key s rfl rfl hnot
    obtain ⟨hfield, hscalar⟩ := Kind.keyed_field h.placed
    have hkind : (f.get j).kind = k := h.child.2.1
    rw [← hkind] at hfield hscalar hnot
    rcases (hstep.becomes h.child.1).field_eq hfield hscalar with heq | ⟨hmay, -⟩
    · rw [heq]
      exact h.key k key s rfl rfl (hkind ▸ hnot)
    · exact absurd hmay hnot

/-- It outlives any number of steps. -/
theorem steps (h : f.Linked S i σ p v j) (hrun : Steps S f g) : g.Linked S i σ p v j := by
  induction hrun with
  | refl => exact h
  | tail _ hlast ih => exact ih.step hlast

/-- No other slot holds children of the kind. -/
theorem slot_eq {τ : String} {q : Placement} (h : f.Linked S i σ p v j)
    (hq : (f.get i).kind.placement? τ = some q) (hkind : p.kind = q.kind) : σ = τ ∧ p = q := by
  obtain rfl := Kind.slot_unique h.placed hq hkind
  exact ⟨rfl, Option.some.inj (h.placed.symm.trans hq)⟩

end Forest.Linked

/-! ### Sources taken in -/

/-- What a slot takes, whatever is inside. -/
def Placement.Takes (p : Placement) (v : Data) : Prop :=
  match p with
  | .single _ b => (∃ es mark, v = .map es mark) ∨ (∃ j, v = .node j) ∨ b = true ∧ ∃ c, v = .bool c
  | .keyed _ _ => ∃ es mark, v = .map es mark
  | .listed _ _ => ∃ xs, v.items? = some xs

namespace Merge

/-- What a value of a source is merged into: a node, a slot of a node, or a member of a list. -/
inductive Role where
  | content (kind : Kind)
  | slot (name : String) (placement : Placement)
  | item (kind : Kind) (slot : CollectionSlot)

/-- A value of a source that has been taken in at a node, where children are linked in some way.
    Of nodes in the source nothing is said. Under a condition keys that a node does not take have
    been left out, and values that a slot does not take. -/
inductive Absorbed (skips : Prop) (linked : NodeId → String → Placement → Data → NodeId → Prop) :
    Role → NodeId → Data → Prop
  | node {k : Kind} {i j : NodeId} : Absorbed skips linked (.content k) i (.node j)
  | map {k : Kind} {i : NodeId} {es : Entries} (mark : Nat)
      (plain : ∀ e ∈ es, isSlotKey k.layout e.1 = false → ∃ s, e.1 = .str s ∧
        (s.startsWith "x-" = true ∨ (∃ name, k.fieldOfWire? s = some name) ∨ skips))
      (slots : ∀ σ p v, k.placement? σ = some p → es.text? (wireName σ) = some v →
        Absorbed skips linked (.slot σ p) i v) : Absorbed skips linked (.content k) i (.map es mark)
  | refused {σ : String} {p : Placement} {i : NodeId} {v : Data} (h : skips) (hv : ¬p.Takes v) :
      Absorbed skips linked (.slot σ p) i v
  | flag {σ : String} {k : Kind} {i : NodeId} (b : Bool) :
      Absorbed skips linked (.slot σ (.single k true)) i (.bool b)
  | single {σ : String} {k : Kind} {b : Bool} {i j : NodeId} {v : Data}
      (hlinked : linked i σ (.single k b) .unset j)
      (h : Absorbed skips linked (.content k) j v) :
      Absorbed skips linked (.slot σ (.single k b)) i v
  | keyed {σ : String} {k : Kind} {key : String} {i : NodeId} {fs : Entries} (mark : Nat)
      (member : Data × Data → NodeId)
      (hlinked : ∀ e ∈ fs, linked i σ (.keyed k key) e.1 (member e))
      (h : ∀ e ∈ fs, Absorbed skips linked (.content k) (member e) e.2) :
      Absorbed skips linked (.slot σ (.keyed k key)) i (.map fs mark)
  | listed {σ : String} {k : Kind} {slot : CollectionSlot} {i : NodeId} {v : Data}
      {xs : List Data} (hv : v.items? = some xs) (member : Data → NodeId)
      (hlinked : ∀ x ∈ xs, linked i σ (.listed k slot) x (member x))
      (h : ∀ x ∈ xs, Absorbed skips linked (.item k slot) (member x) x) :
      Absorbed skips linked (.slot σ (.listed k slot)) i v
  | itemNode {k : Kind} {slot : CollectionSlot} {i j : NodeId} :
      Absorbed skips linked (.item k slot) i (.node j)
  | itemMap {k : Kind} {slot : CollectionSlot} {i : NodeId} {gs : Entries} (mark : Nat)
      (h : Absorbed skips linked (.content k) i (.ofEntries (gs.rest k slot))) :
      Absorbed skips linked (.item k slot) i (.map gs mark)

namespace Absorbed

variable {skips skips' : Prop} {linked linked' : NodeId → String → Placement → Data → NodeId → Prop}
  {r : Role} {i : NodeId} {v : Data}

/-- Children that are linked in one way may be linked in another, too. -/
theorem imp (h : Absorbed skips linked r i v)
    (hlinked : ∀ i σ p v j, linked i σ p v j → linked' i σ p v j) :
    Absorbed skips linked' r i v := by
  induction h with
  | node => exact .node
  | map mark plain _ ih => exact .map mark plain ih
  | refused h hv => exact .refused h hv
  | flag b => exact .flag b
  | single hl _ ih => exact .single (hlinked _ _ _ _ _ hl) ih
  | keyed mark member hl _ ih =>
    exact .keyed mark member (fun e he => hlinked _ _ _ _ _ (hl e he)) ih
  | listed hv member hl _ ih =>
    exact .listed hv member (fun x hx => hlinked _ _ _ _ _ (hl x hx)) ih
  | itemNode => exact .itemNode
  | itemMap mark _ ih => exact .itemMap mark ih

/-- What has been absorbed stays so after more steps. -/
theorem steps {S : Licence} {f g : Forest} (h : Absorbed skips (f.Linked S) r i v)
    (hrun : Steps S f g) : Absorbed skips (g.Linked S) r i v :=
  h.imp fun _ _ _ _ _ hl => hl.steps hrun

end Absorbed

/-- All that a source holds for the children in a slot has been taken in. -/
def Took (skips : Prop) (linked : NodeId → String → Placement → Data → NodeId → Prop)
    (es : Entries) (i : NodeId) (σ : String) (p : Placement) : Prop :=
  ∀ v, es.text? (wireName σ) = some v → Absorbed skips linked (.slot σ p) i v

namespace Took

variable {skips : Prop} {linked : NodeId → String → Placement → Data → NodeId → Prop} {es : Entries}
  {i : NodeId} {σ : String} {p : Placement} {v : Data}

/-- A slot takes nothing where nothing is given. -/
theorem of_eq_none (h : es.text? (wireName σ) = none) : Took skips linked es i σ p := by
  intro v hv
  rw [h] at hv
  cases hv

/-- A slot that has absorbed the value given has taken it. -/
theorem of_eq_some (hv : es.text? (wireName σ) = some v)
    (h : Absorbed skips linked (.slot σ p) i v) : Took skips linked es i σ p := by
  intro w hw
  rw [hv] at hw
  cases hw
  exact h

/-- What a slot has taken stays taken after more steps. -/
theorem steps {S : Licence} {f g : Forest} (h : Took skips (f.Linked S) es i σ p)
    (hrun : Steps S f g) : Took skips (g.Linked S) es i σ p :=
  fun v hv => (h v hv).steps hrun

end Took

end Merge

/-! ### Values of a source -/

namespace Edit

/-- A draft in which something may be merged into a node. -/
structure Ready (S : Licence) (f : Forest) (d : Draft) (i : NodeId) : Prop where
  since : Steps S f d.forest
  formed : d.forest.Formed S.nodes
  node : S.nodes i
  lt : i < d.forest.size

/-- What is ready stays so after steps that are allowed. -/
theorem Ready.steps {S : Licence} {f : Forest} {d d' : Draft} {i : NodeId}
    (h : Ready S f d i) (hrun : Steps S d.forest d'.forest) : Ready S f d' i :=
  ⟨h.since.trans hrun, hrun.formed h.formed, h.node, Nat.lt_of_lt_of_le h.lt hrun.later.size_le⟩

namespace Follows

variable {S : Licence} {f₀ : Forest} {d : Draft} {i j : NodeId} {o : MergeOptions}

/-! ### Single values -/

/-- A key is refused with success under the policy of warnings only. -/
theorem reject (key : String) (why : Rejection) :
    Follows S (Merge.reject o i key why) d fun _ _ => o.policy = .warn := by
  refine .after_look (.node i) (.node i) fun n _ => ?_
  refine .after_look (.location i) (.location i) fun location _ => ?_
  split
  · exact .throw _
  · rename_i hpolicy
    exact (warn _).mono fun _ _ _ _ => hpolicy

/-- A value that fills or replaces. -/
theorem setScalar (ho : o.overwrite = S.overwrite) (hready : Ready S f₀ d i) {name : String}
    {v : Data} (h : (S.overwrite = true ∨ (d.forest.get i).value name = .unset) →
      (d.forest.get i).Alters S ((d.forest.get i).putValue name v)) :
    Follows S (Merge.setScalar o i name v) d fun _ _ => True := by
  refine .after_look (.node i) (.node i) fun n hn => ?_
  subst hn
  refine .ite (fun hset => ?_) fun _ => .pure trivial
  have hset' : S.overwrite = true ∨ (d.forest.get i).value name = .unset := by
    rcases Bool.or_eq_true_iff.1 hset with hover | hunset
    · exact .inl (ho ▸ hover)
    · exact .inr (Data.isUnset_iff.1 (by simpa [Node.isSet] using hunset))
  exact .after_look (.node i) (.node i) fun n hn =>
    hn ▸ (setNode hready.node hready.lt (h hset')).mono fun _ _ _ _ => trivial

/-- A value taken into a list that only grows. -/
theorem growList (hready : Ready S f₀ d i) {name : String} (v : Data)
    (hname : name ∈ (d.forest.get i).kind.fields)
    (harray : name ∈ (d.forest.get i).kind.arrayFields) :
    Follows S (Merge.growList i name v) d fun _ _ => True := by
  refine .after_look (.node i) (.node i) fun n hn => ?_
  subst hn
  refine .after_look (.node i) (.node i) fun n hn => ?_
  subst hn
  exact (setNode hready.node hready.lt (.grow _ hname harray)).mono fun _ _ _ _ => trivial

/-- Setting an extension is a step that is allowed. -/
theorem setExtension (ho : o.overwrite = S.overwrite) (hready : Ready S f₀ d i) {key : String}
    (hkey : key.startsWith "x-" = true) (v : Data) :
    Follows S (Merge.setExtension o i key v) d fun _ _ => True := by
  refine .after_look (.node i) (.node i) fun n hn => ?_
  subst hn
  have hput : ∀ skip : Bool, (skip = false → S.overwrite = true ∨
      Merge.hasExtension key (d.forest.get i).extensions = .ok false) → Follows S (do
        if !skip then
          let extensions ← Edit.ofExcept (Merge.putExtension key v (d.forest.get i).extensions)
          Edit.setNode i { d.forest.get i with extensions := extensions }) d fun _ _ => True := by
    intro skip hskip
    refine .ite (fun hnot => ?_) fun _ => .pure trivial
    have hset := hskip (by simpa using hnot)
    refine .after_look (.ofExcept _) (.ofExcept _) fun extensions hextensions => ?_
    -- Only a mapping can take a value under a key.
    cases hes : (d.forest.get i).extensions with
    | map es mark =>
      rw [hes] at hextensions hset
      cases hextensions
      refine (setNode hready.node hready.lt (.extension v hkey hes ?_)).mono fun _ _ _ _ => trivial
      exact hset.imp_right fun h => Except.ok.inj h
    | _ =>
      rw [hes] at hextensions
      cases hextensions
  refine .ite (fun hover => hput false fun _ => .inl (ho ▸ hover)) fun _ => ?_
  refine .after_look (.ofExcept _) (.ofExcept _) fun skip hskip => hput skip ?_
  rintro rfl
  exact .inr hskip

/-- The value under a key that names no slot. -/
theorem setPlain (ho : o.overwrite = S.overwrite) (hready : Ready S f₀ d i) (key v : Data)
    (hmay : ∀ s name, key = .str s → (d.forest.get i).kind.fieldOfWire? s = some name →
      S.fields (d.forest.get i).kind name) :
    Follows S (Merge.setPlain o i key v) d fun _ _ => ∃ s, key = .str s ∧
      (s.startsWith "x-" = true ∨
        (∃ name, (d.forest.get i).kind.fieldOfWire? s = some name) ∨ o.policy = .warn) := by
  refine .after_look .forest .forest fun f _ => ?_
  refine .after_look (.ofExcept _) (.ofExcept _) fun text htext => ?_
  have hkey := Merge.keyText_eq htext
  refine .ite (fun hextension => ?_) fun _ => ?_
  · exact (setExtension ho hready hextension v).mono fun _ _ _ _ => ⟨text, hkey, .inl hextension⟩
  refine .after_look (.node i) (.node i) fun n hn => ?_
  subst hn
  extract_lets kind
  split
  · exact (reject _ _).mono fun _ _ _ hskips => ⟨text, hkey, .inr (.inr hskips)⟩
  · rename_i name hname
    obtain ⟨hfield, -⟩ := Kind.mem_fields_of_wire hname
    refine mono (P := fun _ _ => True) (.ite (fun harray => ?_) fun hscalar => ?_)
      fun _ _ _ _ => ⟨text, hkey, .inr (.inl ⟨name, hname⟩)⟩
    · exact growList hready v hfield (List.contains_iff_mem.1 harray)
    · exact setScalar ho hready (.field v hfield (fun h => hscalar (List.contains_iff_mem.2 h))
        (hmay text name hkey hname))

end Follows

end Edit

/-! ### Parts of a source -/

/-- A source that is taken in wherever it may be merged. -/
def Merge.Lands (S : Licence) (f : Forest) (P : Kind → Entries → Prop) (o : MergeOptions)
    (read : Merge.Reader) (es : Entries) : Prop :=
  ∀ d i, Edit.Ready S f d i → P (d.forest.get i).kind es →
    Edit.Follows S (Merge.content o (parts o read es) i) d fun _ g => ∀ mark,
      Absorbed (o.policy = .warn) (g.Linked S) (.content (d.forest.get i).kind) i (.map es mark)

/-- A reader all of whose sources are taken in wherever they may be merged. -/
def Merge.Reader.Lands (S : Licence) (f : Forest) (P : Kind → Entries → Prop) (o : MergeOptions)
    (read : Merge.Reader) : Prop :=
  ∀ es ps, read es = .ok ps →
    ∃ read', ps = parts o read' es ∧ ∀ gs, Merge.Lands S f P o read' gs

/-- The identity of an item has fields of its kind. -/
theorem Merge.areFields_identity (k : Kind) (slot : CollectionSlot) (es : Entries) :
    (es.identity k slot).AreFields k := by
  intro e he
  obtain ⟨f, -, hf⟩ := List.mem_filterMap.1 he
  obtain ⟨name, hname, rfl⟩ := Option.map_eq_some_iff.1 hf
  refine ⟨name, ?_, rfl⟩
  unfold identifies? at hname
  split at hname
  · exact (Kind.mem_fields_of_wire (Option.filter_eq_some_iff.1 hname).1).1
  · cases hname

namespace Edit.Follows

variable {S : Licence} {f₀ : Forest} {P : Kind → Entries → Prop} {d : Draft} {i j : NodeId}
  {o : MergeOptions} {read : Merge.Reader} {es : Entries} {k : Kind}

/-- What is read from a node. -/
theorem partsOf {β : Type} {P : Entries → Prop} {Q : β → Forest → Prop}
    {f : List Part → Edit β} (source : NodeId) (hes : ∀ es, d.forest.content source = .ok es → P es)
    (hf : ∀ es ps, P es → read es = .ok ps → Follows S (f ps) d Q) :
    Follows S (do f (← Merge.partsOf read source)) d Q := by
  refine after_look (P := fun ps => ∃ es, P es ∧ read es = .ok ps) ?_ ?_ ?_
  · exact .bind (.content source) fun _ => .ofExcept _
  · exact .bind (.content source) fun es hcontent =>
      (Looks.ofExcept _).mono fun ps hps => ⟨es, hes es hcontent, hps⟩
  · rintro ps ⟨es, hP, hps⟩
    exact hf es ps hP hps

/-- A value taken in as the content of a node. -/
theorem asContent (hread : read.Lands S f₀ P o) (hready : Ready S f₀ d i) {v : Data}
    (hoffers : v.Offers S f₀ (P (d.forest.get i).kind))
    (hmap : ∀ gs mark, v = .map gs mark → Merge.Lands S f₀ P o read gs) :
    Follows S (Merge.asContent o read v i) d fun _ g =>
      Absorbed (o.policy = .warn) (g.Linked S) (.content (d.forest.get i).kind) i v := by
  cases v with
  | map gs mark =>
    unfold Merge.asContent
    exact (hmap gs mark rfl d i hready hoffers).mono fun _ _ _ h => h mark
  | node source =>
    unfold Merge.asContent
    refine partsOf source (hoffers d.forest hready.since) fun gs ps hP hps => ?_
    obtain ⟨read', rfl, hlands⟩ := hread gs ps hps
    exact (hlands gs d i hready hP).mono fun _ _ _ _ => .node
  | _ => exact .throw _

/-- A value taken in as the content of a child that has just been found or made. -/
theorem intoChild (hread : read.Lands S f₀ P o) (hready : Ready S f₀ d i) {σ : String}
    {p : Placement} {key : Data} (hlinked : d.forest.Linked S i σ p key j) {v : Data}
    (hoffers : v.Offers S f₀ (P p.kind))
    (hmap : ∀ gs mark, v = .map gs mark → Merge.Lands S f₀ P o read gs) :
    Follows S (Merge.asContent o read v j) d fun _ g => g.Linked S i σ p key j ∧
      Absorbed (o.policy = .warn) (g.Linked S) (.content p.kind) j v := by
  have hkind := hlinked.child.2.1
  have hready' : Ready S f₀ d j := ⟨hready.since, hready.formed, hlinked.node, hlinked.child.1⟩
  refine (asContent hread hready' (by rw [hkind]; exact hoffers) hmap).mono fun _ g hrun h => ?_
  rw [hkind] at h
  exact ⟨hlinked.steps hrun, h⟩

/-- A value that a slot does not take. -/
theorem refuse {σ : String} {p : Placement} {v : Data} (hv : ¬p.Takes v) (key : String)
    (why : Rejection) : Follows S (Merge.reject o i key why) d fun _ g =>
      Absorbed (o.policy = .warn) (g.Linked S) (.slot σ p) i v :=
  (reject key why).mono fun _ _ _ hskips => .refused hskips hv

/-! ### Single children -/

/-- A value taken in as the content of the only child in a slot. -/
theorem intoOnly (hread : read.Lands S f₀ P o) (hready : Ready S f₀ d i) {σ : String} {b : Bool}
    (hp : (d.forest.get i).kind.placement? σ = some (.single k b)) {v : Data}
    (hoffers : v.Offers S f₀ (P k))
    (hmap : ∀ gs mark, v = .map gs mark → Merge.Lands S f₀ P o read gs) :
    Follows S (do Merge.asContent o read v (← Edit.child i k)) d fun _ g =>
      Absorbed (o.policy = .warn) (g.Linked S) (.slot σ (.single k b)) i v := by
  refine .bind (child hready.formed hready.node hready.lt
    fun _ h => absurd h List.not_mem_nil) fun j d' hrun hj => ?_
  obtain ⟨τ, c, hlinked⟩ := hj
  obtain ⟨rfl, hplace⟩ := hlinked.slot_eq (hrun.later.placed hready.lt hp).2 rfl
  cases hplace
  exact (intoChild hread (hready.steps hrun) hlinked hoffers hmap).mono
    fun _ _ _ h => .single h.1 h.2

/-- A truth value in the place of a child. -/
theorem intoFlag (ho : o.overwrite = S.overwrite) (hready : Ready S f₀ d i) {σ : String} {b : Bool}
    (hp : (d.forest.get i).kind.placement? σ = some (.single k b)) (c : Bool) (why : Rejection) :
    Follows S (if b then Merge.setScalar o i σ (.bool c) else Merge.reject o i (wireName σ) why) d
      fun _ g => Absorbed (o.policy = .warn) (g.Linked S) (.slot σ (.single k b)) i (.bool c) := by
  cases b with
  | true =>
    exact (setScalar ho hready fun hset => .flag c hp hset).mono fun _ _ _ _ => .flag c
  | false =>
    refine refuse ?_ _ _
    rintro (⟨_, _, ⟨⟩⟩ | ⟨_, ⟨⟩⟩ | ⟨⟨⟩, -⟩)

/-- A value into the slot for a single child. -/
theorem intoSingular (ho : o.overwrite = S.overwrite) (hread : read.Lands S f₀ P o)
    (hless : ∀ gs : Entries, sizeOf gs < sizeOf es → Merge.Lands S f₀ P o read gs)
    (hready : Ready S f₀ d i) {layout : Layout} {σ : String}
    (hp : (d.forest.get i).kind.placement? σ
      = some (.single k (layout.booleanSlots.contains σ)))
    (hoffers : ∀ v, es.text? (wireName σ) = some v → v.Offers S f₀ (P k)) :
    Follows S (Merge.intoSingular o i (parts o read es) layout k σ) d fun _ g =>
      Took (o.policy = .warn) (g.Linked S) es i σ
        (.single k (layout.booleanSlots.contains σ)) := by
  unfold Merge.intoSingular
  cases hfind : find? (parts o read es) (wireName σ) with
  | none => exact .pure (.of_eq_none (find?_parts_eq_none hfind))
  | some part =>
    obtain ⟨⟨key, v⟩, hv, rfl⟩ := find?_parts hfind
    refine mono ?_ fun _ _ _ h => .of_eq_some hv h
    cases v with
    | map gs mark =>
      refine intoOnly hread hready hp (hoffers _ hv) ?_
      rintro _ _ ⟨⟩
      refine hless gs (Nat.lt_trans ?_ (Entries.sizeOf_text?_lt hv))
      rw [Data.map.sizeOf_spec]
      omega
    | node source =>
      refine intoOnly hread hready hp (hoffers _ hv) ?_
      rintro _ _ ⟨⟩
    | scalar s =>
      cases s with
      | bool c => exact intoFlag ho hready hp c _
      | _ => exact refuse (by rintro (⟨_, _, ⟨⟩⟩ | ⟨_, ⟨⟩⟩ | ⟨_, _, ⟨⟩⟩)) _ _
    | _ => exact refuse (by rintro (⟨_, _, ⟨⟩⟩ | ⟨_, ⟨⟩⟩ | ⟨_, _, ⟨⟩⟩)) _ _

/-! ### Children under keys -/

/-- A value taken in as the content of the child under a key. -/
theorem intoMember (hread : read.Lands S f₀ P o) (hready : Ready S f₀ d i) {slot : IndexedSlot}
    (hp : (d.forest.get i).kind.placement? slot.name = some (.keyed k slot.key)) (key : Data)
    {v : Data} (hoffers : v.Offers S f₀ (P k))
    (hmap : ∀ gs mark, v = .map gs mark → Merge.Lands S f₀ P o read gs) :
    Follows S (do Merge.asContent o read v (← Edit.indexedItem i k key)) d fun _ g =>
      ∃ j, g.Linked S i slot.name (.keyed k slot.key) key j ∧
        Absorbed (o.policy = .warn) (g.Linked S) (.content k) j v := by
  refine .bind (indexedItem hready.formed hready.node hready.lt key) fun j d' hrun hj => ?_
  obtain ⟨slot', hlinked⟩ := hj
  obtain ⟨hname, hplace⟩ := hlinked.slot_eq (hrun.later.placed hready.lt hp).2 rfl
  rw [hname, hplace] at hlinked
  exact (intoChild hread (hready.steps hrun) hlinked hoffers hmap).mono fun _ _ _ h => ⟨j, h⟩

/-- A mapping taken in as children under its keys. -/
theorem members (hread : read.Lands S f₀ P o) (hready : Ready S f₀ d i) {slot : IndexedSlot}
    (hp : (d.forest.get i).kind.placement? slot.name = some (.keyed k slot.key)) {fs : Entries}
    (mark : Nat) (hoffers : ∀ e ∈ fs, e.2.Offers S f₀ (P k))
    (hmap : ∀ e ∈ fs, ∀ gs mark, e.2 = .map gs mark → Merge.Lands S f₀ P o read gs) :
    Follows S (Merge.keyed k (parts o read fs) i) d fun _ g =>
      Absorbed (o.policy = .warn) (g.Linked S) (.slot slot.name (.keyed k slot.key)) i
        (.map fs mark) := by
  rw [keyed_parts]
  refine mono (forM (R := fun e g => ∃ j, g.Linked S i slot.name (.keyed k slot.key) e.1 j ∧
    Absorbed (o.policy = .warn) (g.Linked S) (.content k) j e.2) ?_ ?_) ?_
  · rintro e g h _ hrun ⟨j, hlinked, habsorbed⟩
    exact ⟨j, hlinked.steps hrun, habsorbed.steps hrun⟩
  · exact fun e he d' hrun => intoMember hread (hready.steps hrun)
      (hrun.later.placed hready.lt hp).2 e.1 (hoffers e he) (hmap e he)
  · intro _ g _ hall
    choose! member hmember using hall
    exact .keyed mark member (fun e he => (hmember e he).1) fun e he => (hmember e he).2

/-- A value into the slot for children under keys. -/
theorem intoIndexed (hread : read.Lands S f₀ P o)
    (hless : ∀ gs : Entries, sizeOf gs < sizeOf es → Merge.Lands S f₀ P o read gs)
    (hready : Ready S f₀ d i) {slot : IndexedSlot}
    (hp : (d.forest.get i).kind.placement? slot.name = some (.keyed k slot.key))
    (hoffers : ∀ v, es.text? (wireName slot.name) = some v →
      (Placement.keyed k slot.key).Offers S f₀ P v) :
    Follows S (Merge.intoIndexed o i (parts o read es) k slot) d fun _ g =>
      Took (o.policy = .warn) (g.Linked S) es i slot.name (.keyed k slot.key) := by
  unfold Merge.intoIndexed
  cases hfind : find? (parts o read es) (wireName slot.name) with
  | none => exact .pure (.of_eq_none (find?_parts_eq_none hfind))
  | some part =>
    obtain ⟨⟨key, v⟩, hv, rfl⟩ := find?_parts hfind
    refine mono ?_ fun _ _ _ h => .of_eq_some hv h
    cases v with
    | map fs mark =>
      refine members hread hready hp mark (hoffers _ hv fs mark rfl) fun e he gs mark' hgs => ?_
      have hitem := Placement.mem_items_of_keyed k slot.key mark he hgs
      exact hless gs (Nat.lt_trans (Placement.sizeOf_items_lt hitem) (Entries.sizeOf_text?_lt hv))
    | _ => exact refuse (by rintro ⟨_, _, ⟨⟩⟩) _ _

/-! ### Children in lists -/

/-- The content of an item that has been found or made. -/
theorem listed (hready : Ready S f₀ d i) {slot : CollectionSlot}
    (hp : (d.forest.get i).kind.placement? slot.name = some (.listed k slot))
    (hlands : Merge.Lands S f₀ P o read (es.rest k slot)) (hP : P k (es.rest k slot)) :
    Follows S (Merge.listed o k slot (parts o read es) i) d fun _ g => ∃ j,
      (∀ v, g.Linked S i slot.name (.listed k slot) v j) ∧
        Absorbed (o.policy = .warn) (g.Linked S) (.content k) j (.ofEntries (es.rest k slot)) := by
  rw [listed_parts]
  refine .bind (collectionItem hready.formed hready.node hready.lt
    (areFields_identity k slot es).unreserved) fun j d' hrun hj => ?_
  obtain ⟨slot', hlinked⟩ := hj
  obtain ⟨-, hplace⟩ := (hlinked .unset).slot_eq (hrun.later.placed hready.lt hp).2 rfl
  cases hplace
  have hchild := (hlinked .unset).child
  have hkind : (d'.forest.get j).kind = k := hchild.2.1
  have hready' : Ready S f₀ d' j :=
    ⟨hready.since.trans hrun, hrun.formed hready.formed, (hlinked .unset).node, hchild.1⟩
  refine (hlands d' j hready' (by rw [hkind]; exact hP)).mono fun _ g hrun' h => ?_
  rw [hkind] at h
  exact ⟨j, fun v => (hlinked v).steps hrun', h 0⟩

/-- A list taken in as children that some fields tell apart. -/
theorem items (hread : read.Lands S f₀ P o) (hready : Ready S f₀ d i) {slot : CollectionSlot}
    (hp : (d.forest.get i).kind.placement? slot.name = some (.listed k slot)) {v : Data}
    {xs : List Data} (hxs : v.items? = some xs)
    (hoffers : ∀ x ∈ xs, x.Offers S f₀ fun gs => P k (gs.rest k slot))
    (hmap : ∀ (gs : Entries) mark, .map gs mark ∈ xs → Merge.Lands S f₀ P o read (gs.rest k slot)) :
    Follows S (Merge.items o read xs k slot i) d fun _ g =>
      Absorbed (o.policy = .warn) (g.Linked S) (.slot slot.name (.listed k slot)) i v := by
  rw [items_eq_forM]
  refine mono (forM (R := fun x g => ∃ j, g.Linked S i slot.name (.listed k slot) x j ∧
    Absorbed (o.policy = .warn) (g.Linked S) (.item k slot) j x) ?_ ?_) ?_
  -- What was taken up before stays where it is in all the steps that follow.
  · rintro e g h _ hrun ⟨j, hlinked, habsorbed⟩
    exact ⟨j, hlinked.steps hrun, habsorbed.steps hrun⟩
  · intro x hx d' hrun
    have hready' := hready.steps hrun
    have hp' := (hrun.later.placed hready.lt hp).2
    have hx' := hoffers x hx
    -- A mapping is taken up by its entries, a node by what it shows when it is read.
    cases x with
    | map gs mark =>
      refine (listed hready' hp' (hmap gs mark hx) hx').mono fun _ g _ h => ?_
      obtain ⟨j, hlinked, habsorbed⟩ := h
      exact ⟨j, hlinked _, .itemMap mark habsorbed⟩
    | node source =>
      refine partsOf source (hx' d'.forest hready'.since) fun gs ps hP hps => ?_
      obtain ⟨read', rfl, hlands⟩ := hread gs ps hps
      refine (listed hready' hp' (hlands _) hP).mono fun _ g _ h => ?_
      obtain ⟨j, hlinked, -⟩ := h
      exact ⟨j, hlinked _, .itemNode⟩
    | _ => exact .throw _
  · intro _ g _ hall
    choose! member hmember using hall
    exact .listed hxs member (fun x hx => (hmember x hx).1) fun x hx => (hmember x hx).2

/-- A value into the slot for a collection. -/
theorem intoCollection (hread : read.Lands S f₀ P o)
    (hless : ∀ gs : Entries, sizeOf gs < sizeOf es → Merge.Lands S f₀ P o read gs)
    (hready : Ready S f₀ d i) {slot : CollectionSlot}
    (hp : (d.forest.get i).kind.placement? slot.name = some (.listed k slot))
    (hoffers : ∀ v, es.text? (wireName slot.name) = some v →
      (Placement.listed k slot).Offers S f₀ P v) :
    Follows S (Merge.intoCollection o i (parts o read es) k slot) d fun _ g =>
      Took (o.policy = .warn) (g.Linked S) es i slot.name (.listed k slot) := by
  have hitems : ∀ v xs, es.text? (wireName slot.name) = some v → v.items? = some xs →
      Follows S (Merge.items o read xs k slot i) d fun _ g =>
        Absorbed (o.policy = .warn) (g.Linked S) (.slot slot.name (.listed k slot)) i v := by
    intro v xs hv hxs
    refine items hread hready hp hxs (hoffers v hv xs hxs) fun gs mark hgs => ?_
    have hitem := Placement.mem_items_of_listed k slot hxs hgs
    exact hless _ (Nat.lt_trans (Placement.sizeOf_items_lt hitem) (Entries.sizeOf_text?_lt hv))
  unfold Merge.intoCollection
  cases hfind : find? (parts o read es) (wireName slot.name) with
  | none => exact .pure (.of_eq_none (find?_parts_eq_none hfind))
  | some part =>
    obtain ⟨⟨key, v⟩, hv, rfl⟩ := find?_parts hfind
    refine mono ?_ fun _ _ _ h => .of_eq_some hv h
    cases v with
    | list xs mark => exact hitems _ xs hv rfl
    | tuple xs mark => exact hitems _ xs hv rfl
    | _ => exact refuse (by rintro ⟨_, ⟨⟩⟩) _ _

/-! ### All keys -/

/-- The keys of some slots. What one slot has taken in stays while the others are merged. -/
theorem forSlots {α : Type} {qs : List α} {f : α → Edit Unit} (name : α → String)
    {place : α → Placement} {d' : Draft} (hready : Ready S f₀ d i)
    (hplaced : ∀ q ∈ qs, (d.forest.get i).kind.placement? (name q) = some (place q))
    (hrun : Steps S d.forest d'.forest)
    (h : ∀ q ∈ qs, ∀ d₁, Ready S f₀ d₁ i →
      (d₁.forest.get i).kind.placement? (name q) = some (place q) →
      Follows S (f q) d₁ fun _ g =>
        Took (o.policy = .warn) (g.Linked S) es i (name q) (place q)) :
    Follows S (qs.forM f) d' fun _ g => ∀ q ∈ qs,
      Took (o.policy = .warn) (g.Linked S) es i (name q) (place q) :=
  forM (fun _ _ _ _ hlater h => h.steps hlater) fun q hq d₁ hrun₁ =>
    h q hq d₁ (hready.steps (hrun.trans hrun₁))
      ((hrun.trans hrun₁).later.placed hready.lt (hplaced q hq)).2

/-- What a source says besides children. -/
theorem forPlain (read : Merge.Reader) (es : Entries) (ho : o.overwrite = S.overwrite)
    (hready : Ready S f₀ d i)
    (hmay : ∀ e ∈ es, ∀ s name, e.1 = .str s →
      (d.forest.get i).kind.fieldOfWire? s = some name → S.fields (d.forest.get i).kind name) :
    Follows S ((parts o read es).forM fun q => Merge.setPlain o i q.key q.value) d fun _ _ =>
      ∀ e ∈ es, ∃ s, e.1 = .str s ∧ (s.startsWith "x-" = true ∨
        (∃ name, (d.forest.get i).kind.fieldOfWire? s = some name) ∨ o.policy = .warn) := by
  show Follows S (ForM.forM (parts o read es) fun q => Merge.setPlain o i q.key q.value) d _
  rw [parts_eq_map, List.forM_map]
  refine forM (fun _ _ _ _ _ h => h) fun e he d' hrun => ?_
  have hkind := hrun.later.kind_eq i hready.lt
  have hplain := setPlain ho (hready.steps hrun) e.1 e.2 (by
    rw [hkind]
    exact hmay e he)
  rw [hkind] at hplain
  exact hplain

/-! ### All levels -/

/-- A source is taken in where all smaller ones are. -/
theorem content (ho : o.overwrite = S.overwrite) (hcovers : S.Covers f₀ P)
    (hread : read.Lands S f₀ P o)
    (hless : ∀ gs : Entries, sizeOf gs < sizeOf es → Merge.Lands S f₀ P o read gs) :
    Merge.Lands S f₀ P o read es := by
  intro d i hready hP
  have hoffers := hcovers.slots _ _ hP
  unfold Merge.content
  refine .after_look (.node i) (.node i) fun n hn => ?_
  subst hn
  extract_lets layout
  refine .bind (forSlots (fun q => q.2) hready (d.forest.get i).kind.placement?_singular
    (.refl _) fun q hq d' hready' hp => intoSingular ho hread hless hready' hp
      fun v => hoffers _ _ v (Kind.placement?_singular _ q hq)) fun _ d₁ hrun₁ hsingular => ?_
  refine .bind (forSlots (fun q => q.2.name) hready
    (d.forest.get i).kind.placement?_indexed hrun₁ fun q hq d' hready' hp =>
      intoIndexed hread hless hready' hp
        fun v => hoffers _ _ v (Kind.placement?_indexed _ q hq)) fun _ d₂ hrun₂ hindexed => ?_
  refine .bind (forSlots (fun q => q.2.name) hready
    (d.forest.get i).kind.placement?_collections (hrun₁.trans hrun₂) fun q hq d' hready' hp =>
      intoCollection hread hless hready' hp
        fun v => hoffers _ _ v (Kind.placement?_collections _ q hq))
    fun _ d₃ hrun₃ hcollections => ?_
  have hrun := (hrun₁.trans hrun₂).trans hrun₃
  have hkind := hrun.later.kind_eq i hready.lt
  have hplain := forPlain read (es.filter fun e => !isSlotKey layout e.1) ho
    (hready.steps hrun) fun e he s name hs hname => by
      rw [hkind] at hname ⊢
      exact hcovers.fields _ _ hP e (List.mem_filter.1 he).1 s name hs hname
  rw [hkind] at hplain
  rw [parts_filter o read es fun key => !isSlotKey layout key]
  refine hplain.mono fun _ g hrun₄ hall mark =>
    .map mark (fun e he hnot => ?_) fun σ p v hp hv => ?_
  · refine hall e (List.mem_filter.2 ⟨he, ?_⟩)
    simpa using hnot
  · rcases Kind.mem_layout_of_placement? hp with ⟨c, hslot, rfl⟩ | ⟨c, slot, hslot, rfl, rfl⟩ |
      ⟨c, slot, hslot, rfl, rfl⟩
    · exact (hsingular _ hslot).steps ((hrun₂.trans hrun₃).trans hrun₄) v hv
    · exact (hindexed _ hslot).steps (hrun₃.trans hrun₄) v hv
    · exact (hcollections _ hslot).steps hrun₄ v hv

/-- Every source is taken in, by induction on its size. -/
theorem lands (ho : o.overwrite = S.overwrite) (hcovers : S.Covers f₀ P)
    (hread : read.Lands S f₀ P o) (es : Entries) : Merge.Lands S f₀ P o read es := by
  induction hn : sizeOf es using Nat.strong_induction_on generalizing es with
  | _ n ih =>
    subst hn
    exact content ho hcovers hread fun gs hgs => ih _ hgs gs rfl

/-- By induction on how often the source is read from nodes. -/
theorem lands_readParts (ho : o.overwrite = S.overwrite) (hcovers : S.Covers f₀ P) (fuel : Nat) :
    Merge.Reader.Lands S f₀ P o (readParts o fuel) := by
  induction fuel with
  | zero =>
    intro es ps h
    cases h
  | succ fuel ih =>
    intro es ps h
    cases h
    exact ⟨readParts o fuel, rfl, fun gs => lands ho hcovers ih gs⟩

/-- A merge takes steps that are allowed and absorbs its source. -/
theorem mergeEntries (ho : o.overwrite = S.overwrite) (hcovers : S.Covers f₀ P)
    (hready : Ready S f₀ d i) (hP : P (d.forest.get i).kind es) :
    Follows S (Edit.mergeEntries o es i) d fun _ g => ∀ mark,
      Absorbed (o.policy = .warn) (g.Linked S) (.content (d.forest.get i).kind) i
        (.map es mark) := by
  unfold Edit.mergeEntries
  refine .after_look .forest .forest fun f _ => ?_
  refine .after_look (.ofExcept _) (.ofExcept _) fun ps hps => ?_
  obtain ⟨read', rfl, hlands⟩ := lands_readParts ho hcovers f.fuel es ps hps
  exact hlands es d i hready hP

/-- A mapping or a node is taken in. -/
theorem merge (source : Data) (ho : o.overwrite = S.overwrite) (hcovers : S.Covers d.forest P)
    (hf : d.forest.Formed S.nodes) (hi : S.nodes i) (hlt : i < d.forest.size)
    (hoffers : source.Offers S d.forest (P (d.forest.get i).kind)) :
    Follows S (Edit.merge o source i) d fun _ g =>
      Absorbed (o.policy = .warn) (g.Linked S) (.content (d.forest.get i).kind) i source := by
  have hready : Ready S d.forest d i := ⟨.refl _, hf, hi, hlt⟩
  unfold Edit.merge
  cases source with
  | map es mark =>
    exact .after_look (.pure es) (.pure es) fun es' he => by
      subst he
      exact (mergeEntries ho hcovers hready hoffers).mono fun _ _ _ h => h mark
  | node j =>
    refine .after_look (.content j) (.content j) fun es hes => ?_
    exact (mergeEntries ho hcovers hready (hoffers _ (.refl _) es hes)).mono fun _ _ _ _ => .node
  | _ =>
    refine .after_look (P := fun _ => False) (.bind (.node i) fun _ => .throw _)
      (.bind (.node i) fun _ _ => .throw _) fun _ h => h.elim

end Edit.Follows

end ApiDoc
