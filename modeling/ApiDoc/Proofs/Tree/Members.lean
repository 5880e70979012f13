import ApiDoc.Proofs.Tree.Edits
import ApiDoc.Proofs.Tree.Items

namespace ApiDoc

/-!
# Members under names

The properties of a schema are members under their names:

* `Tree.name`, `Members.names` — the name of a property, and those of a list of properties;
* `Members.get?`, `Members.put`, `Members.erase` — the first property of a name looked up, replaced
  or added, and taken out;
* `Members.eq_of_get?` — lists without repeated names are told by their names and by what is found
  under them;
* `Forest.Holds.eraseMember`, `Edit.Meets.removeIndexed` — a member taken out of a standing tree.
-/

namespace Tree

/-- The name of a property. -/
def name (c : Tree) : String := (c.field "property").str?.getD ""

/-- The properties of a schema. -/
def properties (t : Tree) : List Tree := (t.slot "properties").list

variable {c : Tree}

/-- A property holds its name in the field of its key. -/
theorem IsFor.field_property (h : c.IsFor (.keyed .property "property")) :
    c.field "property" = .str c.name := by
  obtain ⟨s, hs⟩ := h.text _ _ rfl
  rw [name, hs]
  rfl

/-- A property is found by its name. -/
theorem IsFor.hasValues_iff (h : c.IsFor (.keyed .property "property")) (q : String) :
    c.hasValues [(.str "property", .str q)] = (c.name == q) := by
  show ((c.field "property").alike (.str q) && true) = _
  rw [h.field_property, Bool.and_true, Bool.eq_iff_iff, Data.alike_str_iff, beq_iff_eq]
  exact ⟨fun h => Scalar.str.inj (Data.scalar.inj h), fun h => by rw [h]⟩

end Tree

namespace Members

/-- The names of properties. -/
def names (ts : List Tree) : List String := ts.map Tree.name

/-- The first property of a name. -/
def get? (ts : List Tree) (q : String) : Option Tree := ts.find? (·.name == q)

/-- The first property of a name replaced, or one added. -/
def put (ts : List Tree) (q : String) (c : Tree) : List Tree :=
  upsert (·.name == q) c (fun _ => c) ts

/-- The first property of a name taken out. -/
def erase (ts : List Tree) (q : String) : List Tree := ts.eraseP (·.name == q)

/-- A property with nothing but its name. -/
def new (q : String) : Tree :=
  (Tree.fresh .property ["property"]).putFields [(.str "property", .str q)]

variable {ts us : List Tree} {q r : String} {c : Tree}

/-- The member found for a name has this name. -/
theorem name_of_get? (h : get? ts q = some c) : c.name = q := by
  simpa using List.find?_some h

/-- The member found for a name is one of the members. -/
theorem mem_of_get? (h : get? ts q = some c) : c ∈ ts := List.mem_of_find?_eq_some h

/-- None is found for a name that no member has. -/
theorem get?_eq_none : get? ts q = none ↔ q ∉ names ts := by
  simp [get?, names]

/-- One is found for a name that a member has. -/
theorem isSome_get? : (get? ts q).isSome ↔ q ∈ names ts := by
  rw [← not_iff_not, Option.not_isSome_iff_eq_none, get?_eq_none]

/-! ### Replacing -/

/-- A member put under its name is found. -/
theorem get?_put_self (hc : c.name = q) : get? (put ts q c) q = some c := by
  induction ts with
  | nil => simp [put, upsert, get?, hc]
  | cons d ts ih =>
    unfold put upsert
    split
    · simp [get?, hc]
    · rename_i hd
      rw [get?, List.find?_cons_of_neg (by simpa using hd)]
      exact ih

/-- The members of other names are found as before. -/
theorem get?_put_of_ne (hc : c.name = q) (hr : r ≠ q) : get? (put ts q c) r = get? ts r := by
  have hcr : ¬c.name = r := fun h => hr (h.symm.trans hc)
  induction ts with
  | nil => simp [put, upsert, get?, hcr]
  | cons d ts ih =>
    unfold put upsert
    split
    · rename_i hd
      have hdr : ¬d.name = r := fun h => hr (h.symm.trans (by simpa using hd))
      rw [get?, get?, List.find?_cons_of_neg (by simpa using hcr),
        List.find?_cons_of_neg (by simpa using hdr)]
    · rw [get?, get?, List.find?_cons, List.find?_cons]
      split
      · rfl
      · exact ih

/-- A member of a new name comes last, and any other has its place. -/
theorem names_put (hc : c.name = q) :
    names (put ts q c) = if q ∈ names ts then names ts else names ts ++ [q] := by
  induction ts with
  | nil => simp [put, upsert, names, hc]
  | cons d ts ih =>
    unfold put upsert
    split
    · rename_i hd
      have hd : d.name = q := by simpa using hd
      simp [names, hc, hd]
    · rename_i hd
      have hd : ¬q = d.name := fun h => hd (by simp [h])
      show d.name :: names (put ts q c) = _
      rw [ih]
      have hmem : q ∈ names (d :: ts) ↔ q ∈ names ts := by simp [names, hd]
      simp only [hmem]
      split <;> rfl

/-- Names stay distinct when a member is put under its own. -/
theorem nodup_put (h : (names ts).Nodup) (hc : c.name = q) : (names (put ts q c)).Nodup := by
  rw [names_put hc]
  split
  · exact h
  · rename_i hq
    rw [List.nodup_append]
    refine ⟨h, List.nodup_singleton q, fun r hr r' hr' => ?_⟩
    rw [List.mem_singleton.1 hr']
    rintro rfl
    exact hq hr

/-! ### Taking out -/

/-- The members of other names are found as before. -/
theorem get?_erase_of_ne (hr : r ≠ q) : get? (erase ts q) r = get? ts r := by
  induction ts with
  | nil => rfl
  | cons d ts ih =>
    unfold erase
    rw [List.eraseP_cons]
    cases hd : d.name == q with
    | true =>
      have hdr : ¬d.name = r := fun h => hr (h.symm.trans (by simpa using hd))
      rw [cond_true, get?, get?, List.find?_cons_of_neg (by simpa using hdr)]
    | false =>
      rw [cond_false, get?, get?, List.find?_cons, List.find?_cons]
      split
      · rfl
      · exact ih

/-- A member taken out takes its name away. -/
theorem names_erase : names (erase ts q) = (names ts).erase q := by
  induction ts with
  | nil => rfl
  | cons d ts ih =>
    unfold erase
    rw [List.eraseP_cons]
    cases hd : d.name == q with
    | true =>
      have hd : d.name = q := by simpa using hd
      simp [names, hd]
    | false =>
      have hd : d.name ≠ q := by simpa using hd
      show d.name :: names (erase ts q) = (d.name :: names ts).erase q
      rw [ih, List.erase_cons_tail (by simpa using hd)]

/-- Names stay distinct when a member is taken out. -/
theorem nodup_erase (h : (names ts).Nodup) : (names (erase ts q)).Nodup := by
  rw [names_erase]
  exact h.erase q

/-- A member that has been taken out is not found. -/
theorem get?_erase_self (h : (names ts).Nodup) : get? (erase ts q) q = none := by
  rw [get?_eq_none, names_erase]
  exact h.not_mem_erase

/-- What is put is taken out again. -/
theorem erase_put (hc : c.name = q) : erase (put ts q c) q = erase ts q := by
  induction ts with
  | nil => simp [put, upsert, erase, hc]
  | cons d ts ih =>
    unfold put erase at ih
    by_cases hd : d.name = q
    · simp [put, erase, upsert, hd, hc]
    · simp [put, erase, upsert, hd, ih]

/-- Lists without repeated names that have the same names, and the same under each of them. -/
theorem eq_of_get? (hnames : names ts = names us) (h : (names ts).Nodup)
    (hget : ∀ q ∈ names ts, get? ts q = get? us q) : ts = us := by
  induction ts generalizing us with
  | nil => exact (List.map_eq_nil_iff.1 hnames.symm).symm
  | cons c ts ih =>
    cases us with
    | nil => cases hnames
    | cons d us =>
      obtain ⟨hname, hnames⟩ := List.cons.inj hnames
      obtain ⟨hc, hnodup⟩ := List.nodup_cons.1 h
      have hhead := hget c.name List.mem_cons_self
      rw [get?, get?, List.find?_cons_of_pos (by simp), List.find?_cons_of_pos (by simp [hname])]
        at hhead
      rw [Option.some.inj hhead]
      congr 1
      refine ih hnames hnodup fun q hq => ?_
      have hne : ¬c.name = q := fun he => hc (he ▸ hq)
      have hne' : ¬d.name = q := fun he => hne (hname.trans he)
      have htail := hget q (List.mem_cons_of_mem _ hq)
      rwa [get?, get?, List.find?_cons_of_neg (by simpa using hne),
        List.find?_cons_of_neg (by simpa using hne')] at htail

end Members

/-! ### Standing trees -/

namespace Forest.Holds

variable {f : Forest} {t : Tree} {i : NodeId} {A : Finset NodeId}

/-- A member taken out of a list. -/
theorem eraseMember (hf : f.Holds t i A) {σ : String} (hσ : σ ∈ t.kind.slots) {ts : List Tree}
    (hslot : t.slot σ = .members ts) {items : List Data} {mark : Nat}
    (hvalue : (f.get i).value σ = .list items mark) (n : Nat) :
    (f.put i ((f.get i).putValue σ (.list (items.eraseIdx n) mark))).Holds
      (t.setSlot σ (.members (ts.eraseIdx n))) i A := by
  cases hf with
  | mk ids part own children =>
    have hget : (f.put i ((f.get i).putValue σ (.list (items.eraseIdx n) mark))).get i
        = (f.get i).putValue σ (.list (items.eraseIdx n) mark) :=
      f.get_put_self (own.bound i own.mem) _
    obtain ⟨hlength, mark', hitems⟩ : (ids σ).length = ts.length ∧
        ∃ mark', Data.list items mark = .list ((ids σ).map Data.node) mark' := by
      have hshows := own.slots σ hσ
      rwa [hslot, hvalue] at hshows
    cases hitems
    -- The children behind the one that is taken out move up by one place.
    let place : String → Nat → Nat := fun τ m => if τ = σ then if n ≤ m then m + 1 else m else m
    have hplace : ∀ {α : Type} (l : List α) m, (l.eraseIdx n)[m]? = l[place σ m]? := by
      intro α l m
      rw [List.getElem?_eraseIdx]
      by_cases h : n ≤ m
      · simp [place, h, Nat.not_lt.2 h]
      · simp [place, h, Nat.lt_of_not_le h]
    have hinj : ∀ τ m τ' m', (τ, m) ≠ (τ', m') → (τ, place τ m) ≠ (τ', place τ' m') := by
      intro τ m τ' m' hne heq
      obtain ⟨rfl, hm⟩ := Prod.mk.inj heq
      refine hne (Prod.ext rfl ?_)
      by_cases hτ : τ = σ
      · simp only [place, if_pos hτ] at hm
        split at hm <;> split at hm <;> dsimp only <;> omega
      · simpa only [place, if_neg hτ] using hm
    refine .mk (fun τ => if τ = σ then (ids σ).eraseIdx n else ids τ)
      (fun τ m => part τ (place τ m)) ⟨?_, own.mem, ?_, fun τ hτ => ?_, fun τ hτ => ?_,
        fun τ m => own.part_subset τ _, fun τ m τ' m' hne => own.apart _ _ _ _ (hinj _ _ _ _ hne)⟩
      fun τ m c j hc hj => ?_
    · rw [hget]
      exact own.root.putSlot hσ _ _
    · rw [size_put]
      exact own.bound
    · rw [hget, Node.value_putValue own.root.names]
      by_cases he : τ = σ
      · subst he
        rw [if_pos rfl, if_pos rfl, Tree.setSlot_slot_self]
        refine ⟨?_, mark, ?_⟩
        · rw [List.length_eraseIdx, List.length_eraseIdx, hlength]
        · rw [List.eraseIdx_map]
      · rw [if_neg he, if_neg he]
        show Slot.Shows (if τ = σ then _ else t.slot τ) _ _
        rw [if_neg he]
        exact own.slots τ hτ
    · have hne : τ ≠ σ := by
        rintro rfl
        exact hτ hσ
      exact (if_neg hne).trans (own.others τ hτ)
    · refine Holds.frame ?_ (by simp) fun k hk =>
        f.get_put_of_ne (Finset.mem_erase.1 (own.part_subset τ _ hk)).1 _
      by_cases he : τ = σ
      · subst he
        rw [Tree.setSlot_slot_self] at hc
        rw [if_pos rfl] at hj
        refine children τ _ c j ?_ ?_
        · rw [hslot]
          exact (hplace ts m).symm.trans hc
        · exact (hplace (ids τ) m).symm.trans hj
      · have hsame : place τ m = m := if_neg he
        rw [hsame]
        refine children τ m c j ?_ ?_
        · have hother : (t.setSlot σ (.members (ts.eraseIdx n))).slot τ = t.slot τ := if_neg he
          rwa [hother] at hc
        · rwa [if_neg he] at hj

end Forest.Holds

namespace Edit.Meets

variable {d : Draft} {F : Prop} {t : Tree} {i : NodeId} {A : Finset NodeId} {σ : String} {k : Kind}

/-- The first member under a text taken out of its list. -/
theorem removeIndexed (hd : d.forest.Holds t i A) (ht : t.Typed) {key : String}
    (hp : t.kind.placement? σ = some (.keyed k key)) {ts : List Tree}
    (hts : t.slot σ = .members ts) (s : String) :
    Meets (Edit.removeIndexed i k (.str s)) d F fun _ d' =>
      d.Turned i A (t.setSlot σ (.members (ts.eraseP (·.hasValues [(.str key, .str s)])))) d' := by
  have hσ := Kind.mem_slots_of_placement? hp
  obtain ⟨slot, hslot, rfl, rfl⟩ := Kind.mem_indexed_of_placement? hp
  have hlookup : (d.forest.get i).kind.layout.indexed.lookup k = some slot := by
    rw [hd.kind]
    exact t.kind.lookup_indexed _ hslot
  obtain ⟨js, -, hnodes, hchildren⟩ := membersOf_eq hd hσ (ht slot.name _ hp) rfl
  obtain ⟨mark, hvalue⟩ : ∃ mark, (d.forest.get i).value slot.name
      = .list (js.map Data.node) mark := by
    obtain ⟨js', hshows, -⟩ := hd.slot hσ
    rw [hts] at hshows
    obtain ⟨-, mark, hvalue⟩ := hshows
    rw [hvalue] at hnodes ⊢
    exact ⟨mark, by rw [show js'.map Data.node = js.map Data.node from hnodes]⟩
  rw [hts] at hchildren
  have hsearch : searchIndexed (js.map Data.node) slot.key (.str s) d
      = .ok (ts.findIdx? (·.hasValues [(.str slot.key, .str s)])) d := by
    have htest : List.Forall₂ (fun x (c : Tree) => hasKey d.forest slot.key (.str s) x
        = .ok (c.hasValues [(.str slot.key, .str s)])) (js.map Data.node) ts := by
      refine List.forall₂_map_left_iff.2 (hchildren.imp ?_)
      rintro j c ⟨hc, P, hj⟩
      refine hj.hasKey_eq ?_ s
      rw [hc.keys]
      exact List.mem_singleton_self _
    show ofExcept (position? (hasKey d.forest slot.key (.str s)) 0 (js.map Data.node)) d = _
    rw [position?_eq htest]
    simp [ofExcept, pure, EStateM.pure]
  unfold Edit.removeIndexed
  refine .after_look (slotFor_eq .indexed (·.indexed) hlookup) (.after_look rfl ?_)
  rw [hvalue]
  refine .after_look hsearch ?_
  rw [List.eraseP_eq_eraseIdx]
  cases ts.findIdx? (·.hasValues [(.str slot.key, .str s)]) with
  | none =>
    refine .pure ?_
    dsimp only
    rw [← hts, Tree.setSlot_self]
    exact .refl hd
  | some n =>
    refine .bind (Q := fun _ d' => d.Turned i A
      (t.setSlot slot.name (.members (ts.eraseIdx n))) d') ?_ fun _ d' h => .pure h
    exact .put hd.mem (hd.eraseMember hσ hts hvalue n)

end Edit.Meets

end ApiDoc
