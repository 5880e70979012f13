import ApiDoc.Proofs.Policy.Slots

namespace ApiDoc

/-!
# Sources without the keys that are refused

What a merge that goes on after a refused key makes of its source, at every depth:

* `Refusal` — a key that a node does not take; `Refusal.Warns` is the warning about it;
* `Entries.refusal?` — why a node does not take the value under a key;
* `Entries.sifted`, `Entries.refusals` — what a node takes of a source, and the keys that it
  refuses, given what is left of the values in its slots;
* `Merge.Sifted` — a value of a source, what is left of it, and the keys refused in it, in the order
  in which a merge comes to them;
* `Sifted.eq_self` — where no key is refused everything is left.
-/

/-! ### Refused keys -/

/-- A key that a node does not take. -/
structure Refusal where
  key : String
  kind : Kind
  why : Rejection
deriving DecidableEq, Repr

/-- The warning about a refused key, wherever the node is that does not take it. -/
def Refusal.Warns (r : Refusal) (message : String) : Prop :=
  ∃ location, message = rejectionMessage r.key r.kind location r.why ++ " Skipped."

/-- Whether a key names neither an extension nor a field. -/
def Kind.undeclares (k : Kind) (key : String) : Bool :=
  !key.startsWith "x-" && (k.fieldOfWire? key).isNone

namespace Entries

variable (k : Kind) (es : Entries)

/-- Why a node does not take the value of a source under a key; nothing if it does. -/
def refusal? (key : Data) : Option Rejection :=
  key.str?.bind fun s => match k.slotOfWire? s with
    | some σ => (k.placement? σ).bind fun p => (es.text? s).bind p.refuses
    | none => if k.undeclares s then some .undeclared else none

variable (kept : String → Data) (inner : String → List Refusal)

/-- An entry with what is left of its value. Where no key is refused in it, it stays as it is. -/
def leave (e : Data × Data) : Data × Data :=
  match e.1.str?.bind k.slotOfWire? with
  | some σ => if (inner σ).isEmpty then e else (e.1, kept σ)
  | none => e

/-- What a node takes of a source. -/
def sifted : Entries :=
  (es.filter fun e => (refusal? k es e.1).isNone).map (leave k kept inner)

/-- The keys refused at a slot and in its value. -/
def slotRefusals (σ : String) (p : Placement) : List Refusal :=
  match es.text? (wireName σ) with
  | none => []
  | some v => match p.refuses v with
    | some why => [⟨wireName σ, k, why⟩]
    | none => inner σ

/-- The key of an entry, if it names neither a slot nor an extension nor a field. -/
def plainRefusal? (e : Data × Data) : Option Refusal :=
  (e.1.str?.filter k.undeclares).map fun s => ⟨s, k, .undeclared⟩

/-- The keys refused in a source, in the order in which a merge comes to them. -/
def refusals : List Refusal :=
  k.placements.flatMap (fun q => slotRefusals k es inner q.1 q.2)
    ++ (Merge.plain k es).filterMap (plainRefusal? k)

end Entries

/-! ### At every depth -/

namespace Merge

/-- What a value of a source is merged as. -/
inductive Use where
  | content (kind : Kind)
  | slot (placement : Placement)
  | members (kind : Kind)
  | items (kind : Kind)

/-- A value of a source, what is left of it when refused keys are taken out, and these keys. A node
    counts as the content that is read from it; if a key is refused in it, what is left of the
    content takes its place. -/
inductive Sifted (reads : NodeId → Entries → Prop) : Use → Data → Data → List Refusal → Prop
  | map {k : Kind} {es : Entries} (mark : Nat) (kept : String → Data)
      (inner : String → List Refusal)
      (slots : ∀ q ∈ k.placements, ∀ v, es.text? (wireName q.1) = some v →
        q.2.refuses v = none → Sifted reads (.slot q.2) v (kept q.1) (inner q.1)) :
      Sifted reads (.content k) (.map es mark) (.map (es.sifted k kept inner) mark)
        (es.refusals k inner)
  | read {k : Kind} {j : NodeId} {es : Entries} {v : Data} {rs : List Refusal}
      (hreads : reads j es) (h : Sifted reads (.content k) (.ofEntries es) v rs) (hrs : rs ≠ []) :
      Sifted reads (.content k) (.node j) v rs
  | whole {k : Kind} {j : NodeId} {es : Entries} {v : Data} (hreads : reads j es)
      (h : Sifted reads (.content k) (.ofEntries es) v []) :
      Sifted reads (.content k) (.node j) (.node j) []
  | flag {k : Kind} (b : Bool) : Sifted reads (.slot (.single k true)) (.bool b) (.bool b) []
  | single {k : Kind} {b : Bool} {v v' : Data} {rs : List Refusal}
      (h : Sifted reads (.content k) v v' rs) : Sifted reads (.slot (.single k b)) v v' rs
  | keyed {k : Kind} {key : String} {v v' : Data} {rs : List Refusal}
      (h : Sifted reads (.members k) v v' rs) : Sifted reads (.slot (.keyed k key)) v v' rs
  | listed {k : Kind} {slot : CollectionSlot} {v v' : Data} {rs : List Refusal}
      (h : Sifted reads (.items k) v v' rs) : Sifted reads (.slot (.listed k slot)) v v' rs
  | noMember {k : Kind} (mark : Nat) :
      Sifted reads (.members k) (.map [] mark) (.map [] mark) []
  | member {k : Kind} {key v v' : Data} {fs fs' : Entries} {mark : Nat} {rs rs' : List Refusal}
      (h : Sifted reads (.content k) v v' rs)
      (hrest : Sifted reads (.members k) (.map fs mark) (.map fs' mark) rs') :
      Sifted reads (.members k) (.map ((key, v) :: fs) mark) (.map ((key, v') :: fs') mark)
        (rs ++ rs')
  | noItem {k : Kind} (mark : Nat) :
      Sifted reads (.items k) (.list [] mark) (.list [] mark) []
  | item {k : Kind} {x x' : Data} {xs xs' : List Data} {mark : Nat} {rs rs' : List Refusal}
      (h : Sifted reads (.content k) x x' rs)
      (hrest : Sifted reads (.items k) (.list xs mark) (.list xs' mark) rs') :
      Sifted reads (.items k) (.list (x :: xs) mark) (.list (x' :: xs') mark) (rs ++ rs')
  | tuple {k : Kind} {xs xs' : List Data} (mark mark' : Nat) {rs : List Refusal}
      (h : Sifted reads (.items k) (.list xs mark) (.list xs' mark) rs) :
      Sifted reads (.items k) (.tuple xs mark') (.tuple xs' mark') rs

end Merge

/-! ### What is left of entries -/

namespace Kind

variable {k : Kind} {σ s : String} {p : Placement}

/-- The spelling of a slot names the slot. -/
theorem slotOfWire?_wireName (h : σ ∈ k.slots) : k.slotOfWire? (wireName σ) = some σ := by
  unfold slotOfWire?
  cases hfind : k.slots.find? fun other => wireName other == wireName σ with
  | none => exact absurd (beq_self_eq_true _) (List.find?_eq_none.1 hfind σ h)
  | some other =>
    have hmem := List.mem_append_right k.fields (List.mem_of_find?_eq_some hfind)
    have hwire : wireName other = wireName σ := by simpa using List.find?_some hfind
    rw [eq_of_wireName_eq hmem (List.mem_append_right k.fields h) hwire]

/-- What a key names is a slot with this spelling. -/
theorem mem_slots_of_wire (h : k.slotOfWire? s = some σ) : σ ∈ k.slots ∧ wireName σ = s :=
  ⟨List.mem_of_find?_eq_some h, by simpa using List.find?_some h⟩

/-- A key that belongs to no slot names none. -/
theorem slotOfWire?_eq_none (h : Merge.isSlotKey k.layout (.str s) = false) :
    k.slotOfWire? s = none := by
  cases hs : k.slotOfWire? s with
  | none => rfl
  | some σ =>
    obtain ⟨hσ, hwire⟩ := mem_slots_of_wire hs
    rw [isSlotKey_iff.2 ⟨σ, hσ, by rw [hwire]⟩] at h
    cases h

end Kind

namespace Kind

variable {k : Kind} {s : String}

/-- An extension is declared. -/
theorem undeclares_of_extension (h : s.startsWith "x-" = true) : k.undeclares s = false := by
  rw [undeclares, h]
  rfl

/-- A field is declared. -/
theorem undeclares_of_some {name : String} (h : k.fieldOfWire? s = some name) :
    k.undeclares s = false := by
  rw [undeclares, h]
  exact Bool.and_false _

/-- What is neither is not declared. -/
theorem undeclares_of_none (hx : ¬s.startsWith "x-" = true) (h : k.fieldOfWire? s = none) :
    k.undeclares s = true := by
  rw [undeclares, h, Bool.eq_false_iff.2 hx]
  rfl

end Kind

namespace Entries

variable {k : Kind} {es : Entries} {kept : String → Data} {inner : String → List Refusal}
  {σ : String} {p : Placement} {v : Data}

/-- A plain entry is refused where its key is not declared. -/
theorem plainRefusal?_text (s : String) (v : Data) : plainRefusal? k (.str s, v)
    = if k.undeclares s then some ⟨s, k, .undeclared⟩ else none := by
  unfold plainRefusal?
  cases h : k.undeclares s <;> simp [Data.str?, h]

/-- What is left of an entry has its key. -/
theorem leave_fst (e : Data × Data) : (leave k kept inner e).1 = e.1 := by
  unfold leave
  split
  · split <;> rfl
  · rfl

/-- A plain entry is left as it is. -/
theorem leave_plain {e : Data × Data} (h : Merge.isSlotKey k.layout e.1 = false) :
    leave k kept inner e = e := by
  unfold leave
  split
  · rename_i σ hσ
    obtain ⟨s, hs, hslot⟩ := Option.bind_eq_some_iff.1 hσ
    rw [Data.str?_eq_some.1 hs] at h
    rw [Kind.slotOfWire?_eq_none h] at hslot
    cases hslot
  · rfl

/-- The entry of a slot is left with what is kept of its value. -/
theorem leave_slot (hσ : σ ∈ k.slots) (v : Data) :
    leave k kept inner (.str (wireName σ), v)
      = (.str (wireName σ), if (inner σ).isEmpty then v else kept σ) := by
  unfold leave
  rw [show (Data.str (wireName σ)).str?.bind k.slotOfWire? = some σ from
    Kind.slotOfWire?_wireName hσ]
  dsimp only
  split <;> rfl

/-- The key of a slot is refused for the shape of its value. -/
theorem refusal?_slot (hp : k.placement? σ = some p) (hv : es.text? (wireName σ) = some v) :
    es.refusal? k (.str (wireName σ)) = p.refuses v := by
  have hslot := Kind.slotOfWire?_wireName (Kind.mem_slots_of_placement? hp)
  unfold refusal?
  simp only [Data.str?, Option.bind_some, hslot, hp, hv]

/-- A plain key is refused where it is not declared. -/
theorem refusal?_plain {key : Data} (h : Merge.isSlotKey k.layout key = false) :
    es.refusal? k key = (key.str?.filter k.undeclares).map fun _ => .undeclared := by
  unfold refusal?
  cases hs : key.str? with
  | none => rfl
  | some s =>
    rw [Data.str?_eq_some.1 hs] at h
    rw [Option.bind_some, Kind.slotOfWire?_eq_none h]
    by_cases hu : k.undeclares s = true
    · simp [hu]
    · simp [hu]

/-- Values changed under their keys. -/
theorem text?_map {g : Data × Data → Data × Data} {h : Data → Data} {s : String}
    (hkey : ∀ e, (g e).1 = e.1) (hvalue : ∀ v, (g (.str s, v)).2 = h v) (es : Entries) :
    text? (es.map g) s = (es.text? s).map h := by
  induction es with
  | nil => rfl
  | cons e es ih =>
    rw [List.map_cons]
    by_cases he : e.1 = .str s
    · obtain ⟨key, v⟩ := e
      dsimp only at he
      subst he
      have hg : g (.str s, v) = (.str s, h v) := Prod.ext (hkey _) (hvalue v)
      rw [hg, text?_cons_self, text?_cons_self]
      rfl
    · rw [text?_cons_of_ne he, text?_cons_of_ne (by rw [hkey]; exact he), ih]

/-- What a node takes under the key of a slot. -/
theorem text?_sifted_of_taken (hp : k.placement? σ = some p)
    (hv : es.text? (wireName σ) = some v) (htaken : p.refuses v = none) :
    (es.sifted k kept inner).text? (wireName σ)
      = some (if (inner σ).isEmpty then v else kept σ) := by
  have hσ := Kind.mem_slots_of_placement? hp
  unfold sifted
  rw [text?_map (h := fun v => if (inner σ).isEmpty then v else kept σ) leave_fst
    (fun v => by rw [leave_slot hσ]), text?_filter, hv]
  · rfl
  · intro w
    rw [refusal?_slot hp hv, htaken]
    rfl

/-- Nothing is left where there was nothing. -/
theorem text?_sifted_of_none (hv : es.text? (wireName σ) = none) :
    (es.sifted k kept inner).text? (wireName σ) = none := by
  rw [text?_eq_none_iff] at hv ⊢
  intro e he
  obtain ⟨e', he', rfl⟩ := List.mem_map.1 he
  rw [leave_fst]
  exact hv e' (List.mem_filter.1 he').1

/-- Nothing is left under a refused key. -/
theorem text?_sifted_of_refused (hp : k.placement? σ = some p)
    (hv : es.text? (wireName σ) = some v) {why : Rejection} (hwhy : p.refuses v = some why) :
    (es.sifted k kept inner).text? (wireName σ) = none := by
  rw [text?_eq_none_iff]
  intro e he hkey
  obtain ⟨e', he', rfl⟩ := List.mem_map.1 he
  have hnone := (List.mem_filter.1 he').2
  rw [leave_fst] at hkey
  rw [hkey, refusal?_slot hp hv, hwhy] at hnone
  cases hnone

/-- The entries of what is left that name no slot. -/
theorem plain_sifted : Merge.plain k (es.sifted k kept inner)
    = (Merge.plain k es).filter fun e => (plainRefusal? k e).isNone := by
  have hfilter : (es.filter fun e => (refusal? k es e.1).isNone).filter
      ((fun e => !Merge.isSlotKey k.layout e.1) ∘ leave k kept inner)
      = (Merge.plain k es).filter fun e => (plainRefusal? k e).isNone := by
    unfold Merge.plain
    rw [List.filter_filter, List.filter_filter]
    refine List.filter_congr fun e _ => ?_
    rw [Function.comp_apply, leave_fst]
    cases hslot : Merge.isSlotKey k.layout e.1 with
    | true => simp
    | false => rw [refusal?_plain hslot, plainRefusal?]; simp
  unfold sifted
  rw [Merge.plain, List.filter_map, hfilter]
  refine (List.map_congr_left fun e he => leave_plain ?_).trans (List.map_id _)
  simpa using (List.mem_filter.1 (List.mem_filter.1 he).1).2

/-- Where no key is refused every entry is left. -/
theorem sifted_eq_self (hrs : es.refusals k inner = []) : es.sifted k kept inner = es := by
  obtain ⟨hslots, hplain⟩ := List.append_eq_nil_iff.1 hrs
  rw [List.flatMap_eq_nil_iff] at hslots
  rw [List.filterMap_eq_nil_iff] at hplain
  -- An entry that causes no refusal is kept, and with nothing refused inside it is kept whole.
  have hentry : ∀ e ∈ es, refusal? k es e.1 = none ∧ leave k kept inner e = e := by
    intro e he
    cases hslot : Merge.isSlotKey k.layout e.1 with
    | false =>
      have hnone := hplain e (List.mem_filter.2 ⟨he, by rw [hslot]; rfl⟩)
      refine ⟨?_, leave_plain hslot⟩
      rw [refusal?_plain hslot]
      simpa [plainRefusal?] using hnone
    | true =>
      -- The key of a slot: had its value been refused, or something inside, a refusal would be
      -- listed.
      obtain ⟨σ, hσ, hkey⟩ := Kind.isSlotKey_iff.1 hslot
      obtain ⟨p, hp⟩ := Kind.exists_placement? hσ
      obtain ⟨key, w⟩ := e
      dsimp only at hkey
      subst hkey
      have hrefusals := hslots _ (Kind.mem_placements hp)
      unfold slotRefusals at hrefusals
      cases hv : es.text? (wireName σ) with
      | none => exact absurd rfl (text?_eq_none_iff.1 hv _ he)
      | some v =>
        rw [hv] at hrefusals
        dsimp only at hrefusals
        rw [refusal?_slot hp hv, leave_slot hσ]
        cases hwhy : p.refuses v with
        | some why =>
          rw [hwhy] at hrefusals
          cases hrefusals
        | none =>
          rw [hwhy] at hrefusals
          dsimp only at hrefusals
          rw [hrefusals]
          exact ⟨rfl, rfl⟩
  unfold sifted
  rw [List.filter_eq_self.2 fun e he => by rw [(hentry e he).1]; rfl]
  exact (List.map_congr_left fun e he => (hentry e he).2).trans (List.map_id _)

/-! ### Items of a collection -/

section Rest

variable {slot : CollectionSlot}

/-- The key of a slot does not tell members apart. -/
theorem identifies?_slot (hσ : σ ∈ k.slots) :
    Merge.identifies? k slot (.str (wireName σ)) = none := by
  unfold Merge.identifies?
  simp [Kind.slotOfWire?_wireName hσ]

/-- What an item has for a slot is no part of its identity. -/
theorem text?_rest_slot_eq (hσ : σ ∈ k.slots) :
    (es.rest k slot).text? (wireName σ) = es.text? (wireName σ) :=
  text?_filter fun _ => by rw [identifies?_slot hσ]; rfl

/-- A key that tells members apart is not refused. -/
theorem plainRefusal?_of_identifies {e : Data × Data} {name : String}
    (h : Merge.identifies? k slot e.1 = some name) : plainRefusal? k e = none := by
  unfold Merge.identifies? at h
  split at h
  · rename_i s hs
    have hfield := (Option.filter_eq_some_iff.1 h).1
    obtain ⟨key, v⟩ := e
    dsimp only at hs
    rw [hs]
    exact (plainRefusal?_text s v).trans (if_neg (by simp [Kind.undeclares_of_some hfield]))
  · cases h

/-- Taking the identity away changes no refusal. -/
theorem refusal?_rest (key : Data) :
    (es.rest k slot).refusal? k key = es.refusal? k key := by
  unfold refusal?
  refine congrArg (key.str?.bind ·) (funext fun s => ?_)
  cases hs : k.slotOfWire? s with
  | none => rfl
  | some σ =>
    obtain ⟨hσ, rfl⟩ := Kind.mem_slots_of_wire hs
    rw [text?_rest_slot_eq hσ]

/-- The keys refused in an item are those refused in the rest of it. -/
theorem refusals_rest : (es.rest k slot).refusals k inner = es.refusals k inner := by
  have hslots : ∀ q ∈ k.placements, slotRefusals k (es.rest k slot) inner q.1 q.2
      = slotRefusals k es inner q.1 q.2 := by
    intro q hq
    unfold slotRefusals
    rw [text?_rest_slot_eq (Kind.mem_slots_of_placement? (Kind.placement?_of_mem hq))]
  have hplain : (Merge.plain k (es.rest k slot)).filterMap (plainRefusal? k)
      = (Merge.plain k es).filterMap (plainRefusal? k) := by
    unfold Merge.plain rest
    rw [List.filter_filter, List.filterMap_filter, List.filterMap_filter]
    refine List.filterMap_congr fun e _ => ?_
    cases hid : Merge.identifies? k slot e.1 with
    | none => simp
    | some name => simp [plainRefusal?_of_identifies hid]
  unfold refusals
  rw [hplain, List.flatMap_congr hslots]

/-- What is left of an item tells members apart as the item does, and leaves the rest of it. -/
theorem rest_sifted : (es.sifted k kept inner).rest k slot
    = (es.rest k slot).sifted k kept inner := by
  unfold sifted rest
  rw [List.filter_map, List.filter_filter, List.filter_filter]
  congr 1
  refine List.filter_congr fun e _ => ?_
  rw [Function.comp_apply, leave_fst, Bool.and_comm]
  exact congrArg (· && _) (congrArg Option.isNone (refusal?_rest e.1).symm)

/-- What is left of an item has its identity. -/
theorem identity_sifted :
    (es.sifted k kept inner).identity k slot = es.identity k slot := by
  unfold sifted identity
  rw [List.filterMap_map, List.filterMap_filter]
  refine List.filterMap_congr fun e _ => ?_
  rw [Function.comp_apply, leave_fst]
  cases hid : Merge.identifies? k slot e.1 with
  | none => simp
  | some name =>
    -- The key names a field and no slot.
    have hslot : Merge.isSlotKey k.layout e.1 = false := by
      rw [Bool.eq_false_iff]
      intro hslot
      obtain ⟨σ, hσ, hkey⟩ := Kind.isSlotKey_iff.1 hslot
      rw [hkey, identifies?_slot hσ] at hid
      cases hid
    have hnone : (e.1.str?.filter k.undeclares) = none := by
      simpa [plainRefusal?] using plainRefusal?_of_identifies hid
    rw [refusal?_plain hslot, leave_plain hslot, hnone]
    rfl

end Rest

end Entries

namespace Merge.Sifted

variable {reads : NodeId → Entries → Prop} {u : Use} {v v' : Data} {rs : List Refusal}

/-- Where no key is refused everything is left. -/
theorem eq_self (h : Sifted reads u v v' rs) (hrs : rs = []) : v' = v := by
  induction h with
  | map mark kept inner _ _ => rw [Entries.sifted_eq_self hrs]
  | read _ _ hne => exact absurd hrs hne
  | whole => rfl
  | flag => rfl
  | single _ ih => exact ih hrs
  | keyed _ ih => exact ih hrs
  | listed _ ih => exact ih hrs
  | noMember => rfl
  | member _ _ ih ihs =>
    obtain ⟨hhead, hrest⟩ := List.append_eq_nil_iff.1 hrs
    rw [ih hhead, (Data.map.inj (ihs hrest)).1]
  | noItem => rfl
  | item _ _ ih ihs =>
    obtain ⟨hhead, hrest⟩ := List.append_eq_nil_iff.1 hrs
    rw [ih hhead, (Data.list.inj (ihs hrest)).1]
  | tuple _ _ _ ih => rw [(Data.list.inj (ih hrs)).1]

/-- What is left of the value of a slot, under its key. -/
theorem leave_eq {inner : List Refusal} (h : Sifted reads u v v' inner) :
    (if inner.isEmpty then v else v') = v' := by
  split
  · rename_i hempty
    exact (h.eq_self (List.isEmpty_iff.1 hempty)).symm
  · rfl

/-- What is left of content is a mapping or a node. -/
theorem map_or_node {k : Kind} (h : Sifted reads (.content k) v v' rs) :
    (∃ es mark, v' = .map es mark) ∨ ∃ j, v' = .node j := by
  generalize hu : Use.content k = u at h
  induction h with
  | map mark kept inner => exact .inl ⟨_, _, rfl⟩
  | read _ _ _ ih => exact ih hu
  | whole => exact .inr ⟨_, rfl⟩
  | _ => cases hu

/-- A slot takes what is left of a value that it takes. -/
theorem refuses_eq_none {p : Placement} (h : Sifted reads (.slot p) v v' rs) :
    p.refuses v' = none := by
  cases h with
  | flag => rfl
  | single h =>
    obtain ⟨es, mark, rfl⟩ | ⟨j, rfl⟩ := h.map_or_node
    · rfl
    · rfl
  | keyed h =>
    cases h with
    | noMember => rfl
    | member => rfl
  | listed h =>
    cases h with
    | noItem => rfl
    | item => rfl
    | tuple => rfl

end Merge.Sifted

end ApiDoc
