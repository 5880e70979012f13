import ApiDoc.Proofs.Growth.Consistent
import ApiDoc.Proofs.Policy.Licensed

namespace ApiDoc

/-!
# Merges take nothing away

A merge may replace values, but what is set stays set, extensions stay, and members of collections
keep the fields by which they are found:

* `Forest.Identifies` — the fields by which a collection finds a member;
* `Forest.Richer` — a forest in which nothing has been taken away;
* `Licence.fieldless`, `Richer.of_steps` — steps that write no field take nothing away;
* `Edit.Enriches` — an edit that follows a licence and takes nothing away;
* `Enriches.content` — a source merged, by induction on its size and on how often it is read from
  nodes.
-/

open Forest Merge

/-- The licence to do the same except for writing fields. -/
def Licence.fieldless (S : Licence) : Licence := { S with fields := fun _ _ => False }

namespace Forest

variable {f g h : Forest} {i j : NodeId} {name : String} {spared : NodeId → Prop}

/-- A field by which a collection finds one of its members. -/
def Identifies (f : Forest) (j : NodeId) (name : String) : Prop :=
  ∃ i σ k slot, i < f.size ∧ (f.get i).kind.placement? σ = some (.listed k slot) ∧
    f.IsChild i k j ∧ name ∈ slot.identifying

/-- A field by which a member is found stays one. -/
theorem Identifies.later (h : f.Identifies j name) (hfg : f.Later g) : g.Identifies j name := by
  obtain ⟨i, σ, k, slot, hi, hp, hchild, hname⟩ := h
  obtain ⟨hi', hp'⟩ := hfg.placed hi hp
  exact ⟨i, σ, k, slot, hi', hp', hfg.isChild hchild, hname⟩

/-- The fields by which a member is found are shown. -/
theorem Identifies.mem_shownFields (h : f.Identifies j name) :
    name ∈ (f.get j).kind.shownFields := by
  obtain ⟨i, σ, k, slot, -, hp, hchild, hname⟩ := h
  rw [hchild.2.1]
  exact ((Kind.identifying_shown _ _ (Kind.mem_collections_of_placement? hp).1).2.2 name hname).1

/-- The fields by which a member is found are fields of it that hold no lists. -/
theorem Identifies.mem_fields (h : f.Identifies j name) :
    name ∈ (f.get j).kind.fields ∧ name ∉ (f.get j).kind.arrayFields := by
  refine ⟨(List.mem_filter.1 h.mem_shownFields).1, ?_⟩
  obtain ⟨i, σ, k, slot, -, hp, hchild, hname⟩ := h
  rw [hchild.2.1]
  exact ((Kind.identifying_shown _ _ (Kind.mem_collections_of_placement? hp).1).2.2 name hname).2

/-- A child in a slot is found by the fields that the slot says, if by any. -/
theorem Identifies.slot {σ : String} {p : Placement} (h : f.Identifies j name)
    (hp : (f.get i).kind.placement? σ = some p) (hchild : f.IsChild i p.kind j) :
    ∃ k slot, p = .listed k slot ∧ name ∈ slot.identifying := by
  obtain ⟨i', τ, k, slot, -, hp', hchild', hname⟩ := h
  obtain rfl : i = i' := by
    have he := hchild.2.2.symm.trans hchild'.2.2
    cases he
    rfl
  obtain rfl := Kind.slot_unique hp hp' (hchild.2.1.symm.trans hchild'.2.1)
  exact ⟨k, slot, Option.some.inj (hp.symm.trans hp'), hname⟩

end Forest

/-- A node from which nothing has been taken away. -/
structure Node.Richer (n m : Node) : Prop where
  values : ∀ name, n.value name ≠ .unset → m.value name ≠ .unset
  extensions : ∀ (es : Entries) mark, n.extensions = .map es mark → ∃ (es' : Entries) (mark' : Nat),
    m.extensions = .map es' mark' ∧ ∀ s, (es.text? s).isSome = true → (es'.text? s).isSome = true

namespace Node.Richer

variable {n m l : Node}

/-- A node is as rich as itself. -/
theorem refl (n : Node) : n.Richer n := ⟨fun _ h => h, fun es mark h => ⟨es, mark, h, fun _ hs => hs⟩⟩

/-- What is richer than a richer node is richer. -/
theorem trans (hnm : n.Richer m) (hml : m.Richer l) : n.Richer l := by
  refine ⟨fun name h => hml.values name (hnm.values name h), fun es mark hes => ?_⟩
  obtain ⟨es₁, mark₁, hes₁, hkeep₁⟩ := hnm.extensions es mark hes
  obtain ⟨es₂, mark₂, hes₂, hkeep₂⟩ := hml.extensions es₁ mark₁ hes₁
  exact ⟨es₂, mark₂, hes₂, fun s hs => hkeep₂ s (hkeep₁ s hs)⟩

/-- A value set takes nothing away. -/
theorem putValue (n : Node) (name : String) {v : Data} (hv : v ≠ .unset) :
    n.Richer (n.putValue name v) := by
  refine ⟨fun other h => ?_, (refl n).extensions⟩
  by_cases he : other = name
  · rw [he, n.value_putValue_self name (Data.isUnset_eq_false hv)]
    exact hv
  · rwa [n.value_putValue_of_ne he]

/-- An extension set takes nothing away. -/
theorem extend {es : Entries} {mark : Nat} (hes : n.extensions = .map es mark) (key : String)
    (v : Data) : n.Richer { n with extensions := .map (es.insert (.str key) v) mark } := by
  refine ⟨fun _ h => h, fun es' mark' hes' => ⟨_, _, rfl, fun s hs => ?_⟩⟩
  rw [hes] at hes'
  cases hes'
  rw [Entries.text?_insert]
  split
  · rfl
  · exact hs

end Node.Richer

namespace Forest

variable {S : Licence} {f g h : Forest} {i j : NodeId} {name : String} {spared : NodeId → Prop}

/-- Without leave to write fields, whatever becomes of a node is richer. -/
theorem Becomes.richer (hfields : ∀ k name, ¬S.fields k name) {n m : Node}
    (h : f.Becomes S n m) : n.Richer m := by
  cases h with
  | same => exact .refl n
  | alter h =>
    cases h with
    | field v _ _ hmay => exact absurd hmay (hfields _ _)
    | grow ys => exact .putValue n _ nofun
    | extension v _ hes => exact .extend hes _ v
    | flag b => exact .putValue n _ nofun
    | list => exact .putValue n _ nofun
  | attach _ ha =>
    refine .putValue n _ ?_
    cases ha with
    | child => exact nofun
    | member => exact nofun

/-- A forest with all nodes of another, from which nothing has been taken away. Some nodes may have
    other values in the fields by which they are found. -/
structure Richer (spared : NodeId → Prop) (f g : Forest) : Prop where
  later : f.Later g
  nodes : ∀ j < f.size, (f.get j).Richer (g.get j)
  identity : ∀ j < f.size, ¬spared j → ∀ name, f.Identifies j name →
    (g.get j).value name = (f.get j).value name

namespace Richer

/-- A forest is as rich as itself. -/
theorem refl (spared : NodeId → Prop) (f : Forest) : f.Richer spared f :=
  ⟨.refl f, fun _ _ => .refl _, fun _ _ _ _ _ => rfl⟩

/-- What is richer than a richer forest is richer. -/
theorem trans (hfg : f.Richer spared g) (hgh : g.Richer spared h) : f.Richer spared h := by
  have hlt : ∀ j < f.size, j < g.size := fun j hj => Nat.lt_of_lt_of_le hj hfg.later.size_le
  refine ⟨hfg.later.trans hgh.later, fun j hj => (hfg.nodes j hj).trans (hgh.nodes j (hlt j hj)),
    fun j hj hnot name hname => ?_⟩
  rw [hgh.identity j (hlt j hj) hnot name (hname.later hfg.later),
    hfg.identity j hj hnot name hname]

/-- Steps that write no field but those that are lists take nothing away. -/
theorem of_steps (hfields : ∀ k name, ¬S.fields k name)
    (hrun : Steps S f g) : f.Richer spared g := by
  refine ⟨hrun.later, ?_, fun j hj _ name hname => ?_⟩
  · induction hrun with
    | refl => exact fun _ _ => .refl _
    | tail hrun hlast ih =>
      refine fun j hj => (ih j hj).trans ?_
      exact (hlast.becomes (Nat.lt_of_lt_of_le hj (Steps.later hrun).size_le)).richer hfields
  · obtain ⟨hfield, hscalar⟩ := hname.mem_fields
    exact hrun.field_eq hj hfield hscalar (hfields _ _)

/-- A node replaced by a richer one. -/
theorem put (hi : i < f.size) {n : Node} (hkind : n.kind = (f.get i).kind)
    (hparent : n.parent = (f.get i).parent) (hn : (f.get i).Richer n)
    (hidentity : spared i ∨ ∀ name, f.Identifies i name → n.value name = (f.get i).value name) :
    f.Richer spared (f.put i n) := by
  refine ⟨later_put hi hkind hparent, fun j _ => ?_, fun j _ hnot name hname => ?_⟩
  · by_cases he : j = i
    · subst he
      rwa [f.get_put_self hi]
    · rw [f.get_put_of_ne he]
      exact .refl _
  · by_cases he : j = i
    · subst he
      rw [f.get_put_self hi]
      exact hidentity.resolve_left hnot name hname
    · rw [f.get_put_of_ne he]

/-- A value set takes nothing away, unless a collection finds the node by it. -/
theorem putValue (hi : i < f.size) {v : Data} (hv : v ≠ .unset)
    (hname : spared i ∨ ¬f.Identifies i name) :
    f.Richer spared (f.put i ((f.get i).putValue name v)) := by
  refine put hi rfl rfl (.putValue _ name hv) (hname.imp_right fun hnot other hother => ?_)
  refine Node.value_putValue_of_ne _ ?_ v
  rintro rfl
  exact hnot hother

end Richer

end Forest

/-! ### Edits -/

namespace Edit

variable {α β : Type} {S : Licence} {spared : NodeId → Prop} {d : Draft} {i : NodeId}

/-- An edit that follows a licence and, where it succeeds, takes nothing away. -/
structure Enriches (S : Licence) (spared : NodeId → Prop) (act : Edit α) (d : Draft)
    (Q : α → Forest → Prop) : Prop where
  follows : Follows S act d Q
  richer : ∀ a d', act d = .ok a d' → d.forest.Richer spared d'.forest

namespace Enriches

variable {Q : α → Forest → Prop} {Q' : β → Forest → Prop}

/-- An edit that only looks takes nothing away. -/
theorem of_peeks {act : Edit α} (h : Follows S act d Q) (hact : Peeks act) :
    Enriches S spared act d Q := by
  refine ⟨h, fun a d' ha => ?_⟩
  obtain rfl : d' = d := (after_of_ok ha).symm.trans (hact d)
  exact .refl spared _

/-- An answer that fits the forest. -/
protected theorem pure {a : α} (h : Q a d.forest) : Enriches S spared (pure a) d Q :=
  of_peeks (.pure h) (.pure a)

/-- A failure. -/
protected theorem throw (e : Failure) : Enriches S spared (throw e : Edit α) d Q :=
  of_peeks (.throw e) (.throw e)

/-- An edit, and then one that starts from whatever forest the first leaves. -/
theorem bind {x : Edit α} {f : α → Edit β} (hx : Enriches S spared x d Q)
    (hf : ∀ a d', Steps S d.forest d'.forest → Q a d'.forest → Enriches S spared (f a) d' Q') :
    Enriches S spared (x >>= f) d Q' := by
  refine ⟨hx.follows.bind fun a d' hrun hQ => (hf a d' hrun hQ).follows, fun b d' h => ?_⟩
  obtain ⟨a, d₁, ha, hb⟩ := Results.bind_eq_ok.1 h
  refine (hx.richer a d₁ ha).trans ?_
  exact (hf a d₁ (hx.follows.run ha) (hx.follows.2 a d₁ ha)).richer b d' hb

/-- A look before an edit. -/
theorem after_look {x : Edit α} {f : α → Edit β} {P : α → Prop} (hx : Peeks x) (hP : Looks x d P)
    (hf : ∀ a, P a → Enriches S spared (f a) d Q') : Enriches S spared (x >>= f) d Q' := by
  refine ⟨.after_look hx hP fun a ha => (hf a ha).follows, fun b d' h => ?_⟩
  obtain ⟨a, d₁, ha, hb⟩ := Results.bind_eq_ok.1 h
  obtain ⟨rfl, hPa⟩ := hP a d₁ ha
  exact (hf a hPa).richer b d' hb

/-- A loop. -/
theorem forM {f : α → Edit Unit} {xs : List α}
    (hf : ∀ x ∈ xs, ∀ d', Steps S d.forest d'.forest →
      Enriches S spared (f x) d' fun _ _ => True) :
    Enriches S spared (xs.forM f) d fun _ _ => True := by
  induction xs generalizing d with
  | nil => exact .pure trivial
  | cons x xs ih =>
    refine .bind (hf x List.mem_cons_self d (.refl _)) fun _ d₁ hrun _ => ih fun y hy d' hd' => ?_
    exact hf y (List.mem_cons_of_mem _ hy) d' (hrun.trans hd')

/-- An edit that follows a licence to write no field. -/
theorem of_fieldless {act : Edit α} (h : Follows S act d Q)
    (hless : Follows S.fieldless act d fun _ _ => True) : Enriches S spared act d Q :=
  ⟨h, fun _ _ ha => .of_steps (fun _ _ => id) (hless.run ha)⟩

end Enriches

end Edit

/-! ### Sources -/

/-- A class of sources that give a value to each field that they name. -/
def Merge.Assigns (P : Kind → Entries → Prop) : Prop :=
  ∀ k es, P k es → ∀ e ∈ es, ∀ s name, e.1 = .str s → k.fieldOfWire? s = some name → e.2 ≠ .unset

/-- A source for a child that names no field by which the child is found; for some nodes any
    source. -/
def Forest.Leaves (spared : NodeId → Prop) (f : Forest) (j : NodeId) (es : Entries) : Prop :=
  spared j ∨ ∃ i σ p, i < f.size ∧ (f.get i).kind.placement? σ = some p ∧ f.IsChild i p.kind j ∧
    ∀ k slot, p = .listed k slot → ∀ e ∈ es, ∀ s name, e.1 = .str s →
      k.fieldOfWire? s = some name → name ∉ slot.identifying

namespace Forest.Leaves

variable {S : Licence} {spared : NodeId → Prop} {f g : Forest} {i j : NodeId} {es fs : Entries}
  {σ : String} {p : Placement} {v : Data}

/-- A source that leaves the fields by which a node is found leaves them later, too. -/
theorem later (h : f.Leaves spared j es) (hfg : f.Later g) : g.Leaves spared j es := by
  refine h.imp_right ?_
  rintro ⟨i, σ, p, hi, hp, hchild, hnames⟩
  obtain ⟨hi', hp'⟩ := hfg.placed hi hp
  exact ⟨i, σ, p, hi', hp', hfg.isChild hchild, hnames⟩

/-- So does part of the source. -/
theorem subset (h : f.Leaves spared j es) (hfs : ∀ e ∈ fs, e ∈ es) : f.Leaves spared j fs := by
  refine h.imp_right ?_
  rintro ⟨i, σ, p, hi, hp, hchild, hnames⟩
  exact ⟨i, σ, p, hi, hp, hchild, fun k slot hlisted e he => hnames k slot hlisted e (hfs e he)⟩

/-- A child that is not told from others by some of its fields. -/
theorem of_linked (h : f.Linked S i σ p v j) (hp : ∀ k slot, p ≠ .listed k slot) (es : Entries) :
    f.Leaves spared j es :=
  .inr ⟨i, σ, p, h.holder, h.placed, h.child, fun k slot hlisted => absurd hlisted (hp k slot)⟩

/-- The rest of an item does not name what identifies it. -/
theorem rest {k : Kind} {slot : CollectionSlot} (h : f.Linked S i σ (.listed k slot) v j)
    (es : Entries) : f.Leaves spared j (es.rest k slot) := by
  refine .inr ⟨i, σ, _, h.holder, h.placed, h.child, ?_⟩
  rintro _ _ ⟨⟩ ⟨key, w⟩ he s name rfl hfield hname
  obtain ⟨hmem, rfl⟩ := Kind.mem_fields_of_wire hfield
  have hid := (List.mem_filter.1 he).2
  rw [identifies?_wireName hname hmem] at hid
  cases hid

/-- An entry of such a source is for none of these fields. -/
theorem notMem (h : f.Leaves spared j es) {e : Data × Data} (he : e ∈ es) {s name : String}
    (hs : e.1 = .str s) (hname : (f.get j).kind.fieldOfWire? s = some name) :
    spared j ∨ ¬f.Identifies j name := by
  refine h.imp_right ?_
  rintro ⟨i, σ, p, hi, hp, hchild, hnames⟩ hidentifies
  obtain ⟨k, slot, rfl, hmem⟩ := hidentifies.slot hp hchild
  rw [hchild.2.1] at hname
  exact hnames k slot rfl e he s name hs hname hmem

end Forest.Leaves

/-! ### Merges -/

namespace Edit

variable {S : Licence} {f₀ : Forest} {P : Kind → Entries → Prop} {o : MergeOptions} {d : Draft}
  {i j : NodeId} {k : Kind} {es : Entries} {v : Data} {spared : NodeId → Prop}

/-- What is ready under a licence is so without leave to write fields. -/
theorem Ready.fieldless (h : Ready S f₀ d i) : Ready S.fieldless d.forest d i :=
  ⟨.refl _, h.formed, h.node, h.lt⟩

namespace Enriches

/-- A value under a key that names no slot. -/
theorem setPlain (ho : o.overwrite = S.overwrite) (hready : Ready S f₀ d i) {e : Data × Data}
    (hmay : ∀ s name, e.1 = .str s → (d.forest.get i).kind.fieldOfWire? s = some name →
      S.fields (d.forest.get i).kind name)
    (hset : ∀ s name, e.1 = .str s → (d.forest.get i).kind.fieldOfWire? s = some name →
      e.2 ≠ .unset) (hleaves : d.forest.Leaves spared i [e]) :
    Enriches S spared (Merge.setPlain o i e.1 e.2) d fun _ _ => True := by
  refine ⟨(Follows.setPlain ho hready e.1 e.2 hmay).mono fun _ _ _ _ => trivial, fun _ d' h => ?_⟩
  obtain ⟨key, v⟩ := e
  obtain ⟨s, rfl⟩ := text_of_setPlain h
  rw [setPlain_text rfl] at h
  -- Steps that write no field leave every field as it was.
  have hless : ∀ {x : Edit Unit} {Q}, Follows S.fieldless x d Q → x d = .ok () d' →
      d.forest.Richer spared d'.forest := fun hx hok => .of_steps (fun _ _ => id) (hx.run hok)
  have ho' : o.overwrite = S.fieldless.overwrite := ho
  -- Extensions, then keys without a field, then lists that are united, then all other fields.
  by_cases hx : s.startsWith "x-" = true
  · rw [if_pos hx] at h
    exact hless (.setExtension ho' hready.fieldless hx v) h
  rw [if_neg hx] at h
  cases hname : (d.forest.get i).kind.fieldOfWire? s with
  | none =>
    rw [hname] at h
    exact hless (.reject _ _) h
  | some name =>
    rw [hname] at h
    have hfield := (Kind.mem_fields_of_wire hname).1
    by_cases harray : (d.forest.get i).kind.arrayFields.contains name = true
    · simp only [if_pos harray] at h
      exact hless (.growList hready.fieldless v hfield (List.contains_iff_mem.1 harray)) h
    · simp only [if_neg harray] at h
      obtain ⟨n, d₁, hn, h⟩ := Results.bind_eq_ok.1 h
      obtain ⟨rfl, rfl⟩ := Looks.node i n d₁ hn
      -- The field is overwritten, so it must not be among the spared, or it is left alone.
      split at h
      · cases h
        exact .putValue hready.lt (hset s name rfl hname)
          (hleaves.notMem List.mem_cons_self rfl hname)
      · cases h
        exact .refl _ _

end Enriches

end Edit

namespace Merge

/-- Sources that take nothing away wherever they are merged. -/
def Enriching (S : Licence) (f : Forest) (P : Kind → Entries → Prop) (spared : NodeId → Prop)
    (o : MergeOptions) (n : Nat) (es : Entries) : Prop :=
  ∀ d i, Edit.Ready S f d i → P (d.forest.get i).kind es → d.forest.Leaves spared i es →
    Edit.Enriches S spared (content o (parts o (readParts o n) es) i) d fun _ _ => True

end Merge

namespace Edit.Enriches

variable {S : Licence} {f₀ : Forest} {P : Kind → Entries → Prop} {o : MergeOptions} {d : Draft}
  {i j : NodeId} {k : Kind} {es : Entries} {v : Data} {spared : NodeId → Prop} {n : Nat}
  {σ : String} {p : Placement}

/-- The content of a value, be it a mapping or read from a node. -/
theorem opened {R : Entries → Prop} {act : List Part → Edit Unit} (hready : Ready S f₀ d i)
    (hv : v.Offers S f₀ R)
    (hmap : ∀ gs mark, v = .map gs mark → R gs →
      Enriches S spared (act (parts o (readParts o n) gs)) d fun _ _ => True)
    (hnode : ∀ m < n, ∀ gs, R gs →
      Enriches S spared (act (parts o (readParts o m) gs)) d fun _ _ => True) :
    Enriches S spared (Merge.opened o n act v) d fun _ _ => True := by
  cases v with
  | map gs mark => exact hmap gs mark rfl hv
  | node j =>
    refine .after_look (P := fun ps => ∃ m gs, n = m + 1 ∧ R gs ∧ ps = parts o (readParts o m) gs)
      (.bind (.content j) fun _ => .ofExcept _) (fun ps d' h => ?_) ?_
    · obtain ⟨m, gs, hm, rfl, hgs, hps⟩ := partsOf_eq_ok.1 h
      exact ⟨rfl, m, gs, hm, hv _ hready.since gs hgs, hps⟩
    · rintro _ ⟨m, gs, rfl, hgs, rfl⟩
      exact hnode m (Nat.lt_succ_self m) gs hgs
  | _ => exact .throw _

/-- The content of a child that is found or made. -/
theorem found {x : Edit NodeId} (hready : Ready S f₀ d i)
    (hx : Follows S x d fun j g => ∃ σ p v, g.Linked S i σ p v j ∧ p.kind = k ∧
      ∀ c slot, p ≠ .listed c slot)
    (hless : Follows S.fieldless x d fun _ _ => True) (hv : v.Offers S f₀ (P k))
    (hsmaller : ∀ gs mark, v = .map gs mark → Enriching S f₀ P spared o n gs)
    (hfewer : ∀ m < n, ∀ gs, Enriching S f₀ P spared o m gs) :
    Enriches S spared (do Merge.asContent o (readParts o n) v (← x)) d fun _ _ => True := by
  refine .bind (.of_fieldless hx hless) fun j d' hrun hj => ?_
  obtain ⟨σ, p, key, hlinked, rfl, hp⟩ := hj
  obtain ⟨hready', hkind⟩ := hready.linked hrun hlinked
  rw [asContent_eq_opened]
  refine opened hready' (hkind ▸ hv) (fun gs mark hgs hP => ?_) fun m hm gs hP => ?_
  · exact hsmaller gs mark hgs d' j hready' hP (.of_linked hlinked hp gs)
  · exact hfewer m hm gs d' j hready' hP (.of_linked hlinked hp gs)

/-- A value taken as the content of the only child in a slot. -/
theorem single (hready : Ready S f₀ d i) (hv : v.Offers S f₀ (P k))
    (hsmaller : ∀ gs mark, v = .map gs mark → Enriching S f₀ P spared o n gs)
    (hfewer : ∀ m < n, ∀ gs, Enriching S f₀ P spared o m gs) :
    Enriches S spared (do Merge.asContent o (readParts o n) v (← Edit.child i k)) d
      fun _ _ => True := by
  have hnone : Entries.Unreserved [] := fun _ h => absurd h List.not_mem_nil
  refine found hready ?_ ?_ hv hsmaller hfewer
  · refine (Follows.child hready.formed hready.node hready.lt hnone).mono fun j g _ hj => ?_
    obtain ⟨σ, b, hlinked⟩ := hj
    exact ⟨σ, .single k b, .unset, hlinked, rfl, fun _ _ => nofun⟩
  · have hless := hready.fieldless
    exact (Follows.child hless.formed hless.node hless.lt hnone).mono fun _ _ _ _ => trivial

/-- An entry taken as the member under its key. -/
theorem member {e : Data × Data} (hready : Ready S f₀ d i) (hv : e.2.Offers S f₀ (P k))
    (hsmaller : ∀ gs mark, e.2 = .map gs mark → Enriching S f₀ P spared o n gs)
    (hfewer : ∀ m < n, ∀ gs, Enriching S f₀ P spared o m gs) :
    Enriches S spared (intoMember o (readParts o n) i k e) d fun _ _ => True := by
  refine found hready ?_ ?_ hv hsmaller hfewer
  · refine (Follows.indexedItem hready.formed hready.node hready.lt e.1).mono fun j g _ hj => ?_
    obtain ⟨slot, hlinked⟩ := hj
    exact ⟨slot.name, .keyed k slot.key, e.1, hlinked, rfl, fun _ _ => nofun⟩
  · have hless := hready.fieldless
    exact (Follows.indexedItem hless.formed hless.node hless.lt e.1).mono fun _ _ _ _ => trivial

/-- An item taken as a member that is found by some of its fields. -/
theorem item {slot : CollectionSlot} {x : Data} (hready : Ready S f₀ d i)
    (hp : (d.forest.get i).kind.placement? slot.name = some (.listed k slot))
    (hx : x.Offers S f₀ fun gs => P k (gs.rest k slot))
    (hsmaller : ∀ (gs : Entries) mark, x = .map gs mark →
      Enriching S f₀ P spared o n (gs.rest k slot))
    (hfewer : ∀ m < n, ∀ gs, Enriching S f₀ P spared o m gs) :
    Enriches S spared (Merge.opened o n (fun ps => Merge.listed o k slot ps i) x) d
      fun _ _ => True := by
  have hrest : ∀ m (gs : Entries), P k (gs.rest k slot) → Enriching S f₀ P spared o m (gs.rest k slot) →
      Enriches S spared (Merge.listed o k slot (parts o (readParts o m) gs) i) d
        fun _ _ => True := by
    intro m gs hP henriching
    have hfree := (areFields_identity k slot gs).unreserved
    have hless := hready.fieldless
    rw [listed_parts]
    refine .bind (.of_fieldless (.collectionItem hready.formed hready.node hready.lt hfree)
      ((Follows.collectionItem hless.formed hless.node hless.lt hfree).mono
        fun _ _ _ _ => trivial)) fun j d' hrun hj => ?_
    obtain ⟨slot', hlinked⟩ := hj
    obtain ⟨-, hplace⟩ := (hlinked .unset).slot_eq (hrun.later.placed hready.lt hp).2 rfl
    cases hplace
    obtain ⟨hready', hkind⟩ := hready.linked hrun (hlinked .unset)
    exact henriching d' j hready' (by rw [hkind]; exact hP) (.rest (hlinked .unset) gs)
  exact opened hready hx (fun gs mark hgs hP => hrest n gs hP (hsmaller gs mark hgs))
    fun m hm gs hP => hrest m gs hP (hfewer m hm _)

/-- A value taken into a slot. -/
theorem take (hu : Under S f₀ P o) (hready : Ready S f₀ d i)
    (hp : (d.forest.get i).kind.placement? σ = some p) (hv : p.refuses v = none)
    (hoffers : p.Offers S f₀ P v)
    (hsmaller : ∀ gs : Entries, sizeOf gs < sizeOf v → Enriching S f₀ P spared o n gs)
    (hfewer : ∀ m < n, ∀ gs, Enriching S f₀ P spared o m gs) :
    Enriches S spared (Merge.take o (readParts o n) i σ p v) d fun _ _ => True := by
  -- The items are smaller than the value, so the induction hypothesis holds of them.
  have hitems : ∀ item ∈ p.items v, Enriching S f₀ P spared o n item.2 :=
    fun item hitem => hsmaller _ (Placement.sizeOf_items_lt hitem)
  cases p with
  | single k b =>
    cases v with
    | map gs mark =>
      refine single hready hoffers ?_ hfewer
      rintro _ _ ⟨⟩
      exact hsmaller gs (by rw [Data.map.sizeOf_spec]; omega)
    | node j => exact single hready hoffers (fun _ _ => nofun) hfewer
    | scalar x =>
      cases x with
      -- A truth value: it writes a slot and no field.
      | bool c =>
        cases b with
        | false => cases hv
        | true =>
          have ho : o.overwrite = S.fieldless.overwrite := hu.overwrite
          exact of_fieldless (.setScalar hu.overwrite hready fun hset => .flag c hp hset)
            (.setScalar ho hready.fieldless fun hset => .flag c hp hset)
      | _ => cases hv
    | _ => cases hv
  | keyed k key =>
    cases v with
    | map fs mark =>
      -- A mapping, member by member under its keys.
      have hmembers : Enriches S spared (List.forM fs (intoMember o (readParts o n) i k)) d
          fun _ _ => True := by
        refine forM fun e he d' hrun => member (hready.steps hrun) (hoffers fs mark rfl e he) ?_ hfewer
        exact fun gs mark' hgs => hitems _ (Placement.mem_items_of_keyed k key mark he hgs)
      rw [← keyed_eq_intoMember] at hmembers
      exact hmembers
    | _ => cases hv
  | listed k slot =>
    obtain ⟨-, rfl⟩ := Kind.mem_collections_of_placement? hp
    -- A list or a tuple, item by item.
    have hall : ∀ xs, v.items? = some xs → Enriches S spared
        (Merge.items o (readParts o n) xs k slot i) d fun _ _ => True := by
      intro xs hxs
      rw [items_eq_opened]
      refine forM fun x hx d' hrun => item (hready.steps hrun)
        (hrun.later.placed hready.lt hp).2 (hoffers xs hxs x hx) ?_ hfewer
      rintro gs mark rfl
      exact hitems _ (Placement.mem_items_of_listed k slot hxs hx)
    cases v with
    | list xs mark => exact hall xs rfl
    | tuple xs mark => exact hall xs rfl
    | _ => cases hv

/-- The entry for a slot. -/
theorem slot (hu : Under S f₀ P o) (hready : Ready S f₀ d i)
    (hp : (d.forest.get i).kind.placement? σ = some p)
    (hoffers : ∀ v, es.text? (wireName σ) = some v → p.Offers S f₀ P v)
    (hsmaller : ∀ gs : Entries, sizeOf gs < sizeOf es → Enriching S f₀ P spared o n gs)
    (hfewer : ∀ m < n, ∀ gs, Enriching S f₀ P spared o m gs) :
    Enriches S spared (intoSlot o (readParts o n) i es σ p) d fun _ _ => True := by
  cases hv : es.text? (wireName σ) with
  | none =>
    rw [intoSlot_of_none hv]
    exact .pure trivial
  | some v =>
    cases hwhy : p.refuses v with
    | some why =>
      rw [intoSlot_of_refused hv hwhy]
      exact of_fieldless ((Follows.reject _ why).mono fun _ _ _ _ => trivial)
        ((Follows.reject _ why).mono fun _ _ _ _ => trivial)
    | none =>
      rw [intoSlot_of_taken hv hwhy]
      exact take hu hready hp hwhy (hoffers v hv)
        (fun gs hgs => hsmaller gs (Nat.lt_trans hgs (Entries.sizeOf_text?_lt hv))) hfewer

/-- All entries of a source, if those of smaller ones and of nodes read in it take nothing away. -/
theorem content (hu : Under S f₀ P o) (hP : Assigns P)
    (hsmaller : ∀ gs : Entries, sizeOf gs < sizeOf es → Enriching S f₀ P spared o n gs)
    (hfewer : ∀ m < n, ∀ gs, Enriching S f₀ P spared o m gs) :
    Enriching S f₀ P spared o n es := by
  intro d i hready hes hleaves
  rw [content_parts]
  refine .after_look (.node i) (.node i) fun m hm => ?_
  subst hm
  refine .bind (forM fun q hq d' hrun => ?_) fun _ d' hrun _ => forM fun e he d'' hrun' => ?_
  · have hp := Kind.placement?_of_mem hq
    exact slot hu (hready.steps hrun) (hrun.later.placed hready.lt hp).2
      (fun v hv => hu.covers.slots _ _ hes _ _ v hp hv) hsmaller hfewer
  · have hlater := (hrun.trans hrun').later
    have hkind := hlater.kind_eq i hready.lt
    have he := (List.mem_filter.1 he).1
    refine setPlain hu.overwrite (hready.steps (hrun.trans hrun')) (fun s name hs hname => ?_)
      (fun s name hs hname => ?_) ((hleaves.later hlater).subset (List.forall_mem_singleton.2 he))
    · rw [hkind] at hname ⊢
      exact hu.covers.fields _ _ hes e he s name hs hname
    · rw [hkind] at hname
      exact hP _ _ hes e he s name hs hname

/-- Every source takes nothing away, by induction on how often it is read from nodes and on its
    size. -/
theorem enriching (hu : Under S f₀ P o) (hP : Assigns P) (n : Nat) (es : Entries) :
    Enriching S f₀ P spared o n es := by
  induction n using Nat.strong_induction_on generalizing es with
  | _ n ihn =>
    induction hs : sizeOf es using Nat.strong_induction_on generalizing es with
    | _ s ihs =>
      subst hs
      exact content hu hP (fun gs hgs => ihs _ hgs gs rfl) ihn

end Edit.Enriches

end ApiDoc
