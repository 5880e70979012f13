import ApiDoc.Proofs.Growth.Consistent
import ApiDoc.Proofs.Growth.Embedding
import ApiDoc.Proofs.Growth.Notes
import ApiDoc.Proofs.Growth.Turns

namespace ApiDoc

/-!
# What lists gather while a merge runs

A list that only grows takes in what the mappings hold for it that go into its node, one value after
the other, and nothing else changes it:

* `Entries.valuesFor`, `Merge.Notes.valuesFor` — the values of entries for a field, and those of
  notes for a field of a node;
* `Data.grown` — a list after values have come to it;
* `Forest.Watched`, `Forest.Gathers` — a forest in which a list of a node is watched, and a later
  one in which this list has grown by some values;
* `Edit.Gathers` — an edit with notes that tell by what the list has grown, and that are about the
  nodes of a tree only;
* `Gathers.noteContent` — a step of the merge, and `Gathers.mergeNoting` — a whole merge.
-/

open Forest Merge

/-! ### Values that are supplied -/

/-- The values of entries for a field. -/
def Entries.valuesFor (es : Entries) (name : String) : List Data :=
  (es.filter fun e => e.1.same (.str (wireName name))).map (·.2)

/-- The values of notes for a field of a node. -/
def Merge.Notes.valuesFor (notes : Notes) (t : NodeId) (name : String) : List Data :=
  (notes.filter fun note => note.1 == t).flatMap fun note => note.2.valuesFor name

/-- A list that only grows, after values have come to it one after the other. -/
def Data.grown (v : Data) (ws : List Data) : Data :=
  ws.foldl (fun v w => .ofList (unionItems (v.items?.getD []) (supplied w))) v

namespace Entries

variable {name : String}

/-- The values for a field among two rows of entries. -/
theorem valuesFor_append (es fs : Entries) (name : String) :
    Entries.valuesFor (es ++ fs) name = es.valuesFor name ++ fs.valuesFor name := by
  simp only [valuesFor, List.filter_append, List.map_append]

/-- An entry under the spelling of a field has a value for it. -/
theorem valuesFor_cons_self (v : Data) (es : Entries) :
    Entries.valuesFor ((.str (wireName name), v) :: es) name = v :: es.valuesFor name := by
  simp [valuesFor, Data.same_str_iff.2]

/-- An entry under another key has none. -/
theorem valuesFor_cons_of_ne {key : Data} (h : key ≠ .str (wireName name)) (v : Data)
    (es : Entries) : Entries.valuesFor ((key, v) :: es) name = es.valuesFor name := by
  simp [valuesFor, Data.same_str_iff, h]

/-- A value under another key. -/
theorem valuesFor_other {s : String} (h : s ≠ wireName name) (v : Data) :
    Entries.valuesFor [(.str s, v)] name = [] :=
  valuesFor_cons_of_ne (fun he => h (by simpa using he)) v []

/-- Entries that are left out, but none for the field. -/
theorem valuesFor_filter (test : Data → Bool) (h : test (.str (wireName name)) = true)
    (es : Entries) : Entries.valuesFor (es.filter fun e => test e.1) name = es.valuesFor name := by
  rw [valuesFor, List.filter_filter]
  refine congrArg (List.map _) (List.filter_congr fun e _ => ?_)
  by_cases he : e.1.same (.str (wireName name)) = true
  · rw [Data.same_str_iff.1 he, h, Bool.and_true]
  · rw [Bool.eq_false_iff.2 he, Bool.false_and]

end Entries

namespace Merge.Notes

variable {t : NodeId} {name : String}

/-- The values noted for a field in two rows of notes. -/
theorem valuesFor_append (notes notes' : Notes) (t : NodeId) (name : String) :
    Notes.valuesFor (notes ++ notes') t name
      = notes.valuesFor t name ++ notes'.valuesFor t name := by
  simp only [valuesFor, List.filter_append, List.flatMap_append]

/-- Notes about other nodes. -/
theorem valuesFor_eq_nil {notes : Notes} (h : ∀ note ∈ notes, note.1 ≠ t) :
    notes.valuesFor t name = [] := by
  rw [valuesFor, List.filter_eq_nil_iff.2 fun note hnote => by simpa using h note hnote]
  rfl

/-- A note about a node has values for its fields. -/
theorem valuesFor_self (t : NodeId) (es : Entries) (name : String) :
    Notes.valuesFor [(t, es)] t name = es.valuesFor name := by
  simp [valuesFor]

/-- A note about another node has none. -/
theorem valuesFor_of_ne {i : NodeId} (h : i ≠ t) (es : Entries) (name : String) :
    Notes.valuesFor [(i, es)] t name = [] :=
  valuesFor_eq_nil fun note hnote => by rw [List.mem_singleton.1 hnote]; exact h

/-- A note of no entries has none. -/
theorem valuesFor_nil (i t : NodeId) (name : String) : Notes.valuesFor [(i, [])] t name = [] := by
  by_cases h : i = t <;> simp [valuesFor, Entries.valuesFor, h]

/-- The entries of a note count one by one. -/
theorem valuesFor_cons (i t : NodeId) (e : Data × Data) (es : Entries) (name : String) :
    Notes.valuesFor [(i, e :: es)] t name
      = Notes.valuesFor [(i, [e])] t name ++ Notes.valuesFor [(i, es)] t name := by
  by_cases h : i = t
  · subst h
    simp only [valuesFor_self, ← Entries.valuesFor_append, List.singleton_append]
  · simp only [valuesFor_of_ne h, List.append_nil]

end Merge.Notes

namespace Data

/-- A list grown in two steps or in one. -/
theorem grown_append (v : Data) (ws ws' : List Data) :
    v.grown (ws ++ ws') = (v.grown ws).grown ws' := List.foldl_append ..

/-- A list to which values have come holds the items of all of them. -/
theorem grown_eq {ws : List Data} (h : ws ≠ []) (v : Data) :
    v.grown ws = .ofList (unionItems (v.items?.getD []) (ws.flatMap supplied)) := by
  induction ws generalizing v with
  | nil => exact absurd rfl h
  | cons w ws ih =>
    show (Data.ofList (unionItems (v.items?.getD []) (supplied w))).grown ws = _
    rw [List.flatMap_cons, unionItems_append]
    cases ws with
    | nil => rfl
    | cons w' ws => exact ih (List.cons_ne_nil _ _) _

end Data

/-! ### Lists that are watched -/

/-- A field that holds a list is a field. -/
theorem Kind.mem_fields_of_array {k : Kind} {name : String} (h : name ∈ k.arrayFields) :
    name ∈ k.fields :=
  (List.mem_filter.1 (k.arrayFields_shown name h)).1

/-- A field that holds a list is an attribute. -/
theorem Kind.mem_attributes_of_array {k : Kind} {name : String} (h : name ∈ k.arrayFields) :
    name ∈ k.attributes :=
  List.mem_append_left _ (mem_fields_of_array h)

namespace Forest

variable {f g h : Forest} {t i : NodeId} {name σ : String}

/-- A forest in which a list that only grows is watched. -/
structure Watched (t : NodeId) (name : String) (f : Forest) : Prop where
  formed : f.Formed fun _ => True
  there : t < f.size
  array : name ∈ (f.get t).kind.arrayFields

/-- A later forest in which the list that is watched has grown by some values. -/
structure Gathers (t : NodeId) (name : String) (ws : List Data) (f g : Forest) : Prop where
  watched : g.Watched t name
  later : f.Later g
  ordered : f.Ordered → g.Ordered
  value : (g.get t).value name = ((f.get t).value name).grown ws

/-- The list that is watched stands in no slot. -/
theorem Watched.ne_slot (hf : f.Watched t name) {p : Placement}
    (hp : (f.get t).kind.placement? σ = some p) : name ≠ σ := by
  rintro rfl
  exact Kind.notMem_arrayFields_of_placement? hp hf.array

namespace Gathers

/-- Nothing is gathered where nothing changes. -/
theorem refl (hf : f.Watched t name) : f.Gathers t name [] f := ⟨hf, .refl f, id, rfl⟩

/-- The same for two names of one forest. -/
theorem of_eq (hf : f.Watched t name) (hg : g = f) : f.Gathers t name [] g := by
  subst hg
  exact .refl hf

/-- What is gathered first, and what is gathered then. -/
theorem trans {ws ws' : List Data} (hfg : f.Gathers t name ws g) (hgh : g.Gathers t name ws' h) :
    f.Gathers t name (ws ++ ws') h where
  watched := hgh.watched
  later := hfg.later.trans hgh.later
  ordered ho := hgh.ordered (hfg.ordered ho)
  value := by rw [hgh.value, hfg.value, Data.grown_append]

/-- Steps that are taken anywhere. -/
theorem of_steps {S : Licence} (hS : S.nodes = fun _ => True) (hf : f.Watched t name)
    (hrun : Steps S f g) {ws : List Data}
    (hvalue : (g.get t).value name = ((f.get t).value name).grown ws) :
    f.Gathers t name ws g := by
  have hstep : ∀ {f g}, f.Formed (fun _ => True) → Step S f g → g.Formed fun _ => True := by
    intro f g hf hstep
    rw [← hS] at hf ⊢
    exact hstep.formed hf
  have hformed := Steps.induct (I := fun f => f.Formed fun _ => True)
    (R := fun f g => f.Ordered → g.Ordered) (fun _ => id) (fun _ _ _ hfg hgh ho => hgh (hfg ho))
    (fun _ _ hf h => ⟨hstep hf h, fun ho => h.ordered hf ho⟩) hf.formed hrun
  refine ⟨⟨hformed.1, Nat.lt_of_lt_of_le hf.there hrun.later.size_le, ?_⟩, hrun.later, hformed.2,
    hvalue⟩
  rw [hrun.later.kind_eq t hf.there]
  exact hf.array

end Gathers

/-- A later forest in which one node only has changed, and each of its lists that only grow has
    grown by the values that entries have for it. -/
structure GrowsBy (f : Forest) (i : NodeId) (es : Entries) (g : Forest) : Prop where
  others : ∀ j, j ≠ i → g.get j = f.get j
  lists : ∀ name ∈ (f.get i).kind.arrayFields,
    (g.get i).value name = ((f.get i).value name).grown (es.valuesFor name)

namespace GrowsBy

variable {es : Entries}

/-- Nothing grows by entries that have no values for lists. -/
theorem of_eq (hnone : ∀ name ∈ (f.get i).kind.arrayFields, es.valuesFor name = [])
    (hg : g = f) : f.GrowsBy i es g := by
  subst hg
  refine ⟨fun _ _ => rfl, fun name hname => ?_⟩
  rw [hnone name hname]
  rfl

/-- A node in whose place one stands with the same lists. -/
theorem of_put {n : Node} (hi : i < f.size)
    (hnone : ∀ name ∈ (f.get i).kind.arrayFields, es.valuesFor name = [])
    (hn : ∀ name ∈ (f.get i).kind.arrayFields, n.value name = (f.get i).value name)
    (hg : g = f.put i n) : f.GrowsBy i es g := by
  subst hg
  refine ⟨fun _ hj => f.get_put_of_ne hj n, fun name hname => ?_⟩
  rw [f.get_put_self hi, hn name hname, hnone name hname]
  rfl

/-- A value taken into a list. -/
theorem grow (hi : i < f.size) (other : String) (hother : other ∈ (f.get i).kind.fields)
    (v : Data) :
    f.GrowsBy i [(.str (wireName other), v)] (f.put i ((f.get i).putValue other
      (.ofList (unionItems (((f.get i).value other).items?.getD []) (supplied v))))) where
  others _ hj := f.get_put_of_ne hj _
  lists name hname := by
    rw [f.get_put_self hi]
    by_cases he : name = other
    · subst he
      rw [Node.value_putValue_self _ _ rfl, Entries.valuesFor_cons_self]
      rfl
    · have hwire : wireName other ≠ wireName name := fun hwire =>
        he (Kind.eq_of_wireName_eq (List.mem_append_left _ hother)
          (Kind.mem_attributes_of_array hname) hwire).symm
      rw [Node.value_putValue_of_ne _ he, Entries.valuesFor_other hwire]
      rfl

end GrowsBy

end Forest

/-! ### Edits with notes -/

namespace Edit

variable {α : Type} {t i first : NodeId} {name σ : String} {d d' : Draft} {o : MergeOptions}

/-- An edit whose notes tell by what the list has grown that is watched, where it succeeds. Where
    children come after their parents, the notes are about nodes from some number on. -/
def Gathers (t : NodeId) (name : String) (first : NodeId) (act : Edit Notes) (d : Draft) : Prop :=
  ∀ notes d', act d = .ok notes d' →
    d.forest.Gathers t name (notes.valuesFor t name) d'.forest ∧
      (d.forest.Ordered → ∀ note ∈ notes, first ≤ note.1)

/-- A licence to change all that a merge with some options changes. -/
def licenceOf (o : MergeOptions) : Licence := ⟨fun _ => True, fun _ _ => True, o.overwrite⟩

/-- A licence to change what is not set. -/
def anyNode : Licence := licenceOf {}

namespace Gathers

/-- No notes, and nothing gathered. -/
theorem of_nil (hd : d.forest.Watched t name) : Gathers t name first (return []) d := by
  rintro _ _ ⟨⟩
  exact ⟨.refl hd, fun _ _ h => absurd h List.not_mem_nil⟩

/-- A failure gathers nothing. -/
theorem of_throw (e : Failure) : Gathers t name first (throw e) d := nofun

/-- An edit that takes no notes, and then one that does. -/
theorem bind {x : Edit α} {f : α → Edit Notes} (hx : ∀ a d', x d = .ok a d' →
      d.forest.Gathers t name [] d'.forest ∧ ∃ first', (d.forest.Ordered → first ≤ first') ∧
        Gathers t name first' (f a) d') :
    Gathers t name first (x >>= f) d := by
  intro notes d' h
  obtain ⟨a, d₁, ha, hrest⟩ := Results.bind_eq_ok.1 h
  obtain ⟨hquiet, first', hle, hf⟩ := hx a d₁ ha
  obtain ⟨hgathers, hfirst⟩ := hf notes d' hrest
  refine ⟨hquiet.trans hgathers, fun ho note hnote => ?_⟩
  exact Nat.le_trans (hle ho) (hfirst (hquiet.ordered ho) note hnote)

/-- An edit that takes no notes, and then nothing. -/
theorem bind_nil {x : Edit α} (hx : ∀ a d', x d = .ok a d' →
      d.forest.Gathers t name [] d'.forest) : Gathers t name first (x >>= fun _ => return []) d :=
  bind fun a d' ha => ⟨hx a d' ha, first, fun _ => Nat.le_refl _, .of_nil (hx a d' ha).watched⟩

/-- Two edits, with the notes of both. -/
theorem append {x y : Edit Notes} (hx : Gathers t name first x d)
    (hy : ∀ d', d'.forest.Watched t name → d.forest.Later d'.forest → Gathers t name first y d') :
    Gathers t name first (do
      let notes ← x
      return notes ++ (← y)) d := by
  intro notes d' h
  obtain ⟨before, d₁, hbefore, hrest⟩ := Results.bind_eq_ok.1 h
  obtain ⟨after, d₂, hafter, hend⟩ := Results.bind_eq_ok.1 hrest
  cases hend
  obtain ⟨hgathers, hfirst⟩ := hx before d₁ hbefore
  obtain ⟨hgathers', hfirst'⟩ := hy d₁ hgathers.watched hgathers.later after _ hafter
  rw [Notes.valuesFor_append]
  refine ⟨hgathers.trans hgathers', fun ho note hnote => ?_⟩
  rcases List.mem_append.1 hnote with hnote | hnote
  · exact hfirst ho note hnote
  · exact hfirst' (hgathers.ordered ho) note hnote

/-- Edits with notes, one for each item of a list. -/
theorem noteAll {f : α → Edit Notes} {xs : List α} (hd : d.forest.Watched t name)
    (h : ∀ x ∈ xs, ∀ d', d'.forest.Watched t name → d.forest.Later d'.forest →
      Gathers t name first (f x) d') : Gathers t name first (noteAll f xs) d := by
  induction xs generalizing d with
  | nil => exact .of_nil hd
  | cons x xs ih =>
    refine append (h x List.mem_cons_self d hd (.refl _)) fun d₁ hd₁ hlater => ih hd₁ ?_
    exact fun y hy d₂ hd₂ hlater' =>
      h y (List.mem_cons_of_mem _ hy) d₂ hd₂ (hlater.trans hlater')

/-- A look at something before an edit. -/
theorem after_look {x : Edit α} {f : α → Edit Notes} {P : α → Prop} (hd : d.forest.Watched t name)
    (hx : Looks x d P) (hf : ∀ a, P a → Gathers t name first (f a) d) :
    Gathers t name first (x >>= f) d := by
  refine bind fun a d' ha => ?_
  obtain ⟨rfl, hP⟩ := hx a d' ha
  exact ⟨.refl hd, first, fun _ => Nat.le_refl _, hf a hP⟩

/-! ### Children -/

/-- A child that is found or made, after which it is merged into. The list that is watched stays. -/
theorem of_linked {p : Placement} {v : Data} {new : Node} {j : NodeId} {act : Edit Notes}
    (hd : d.forest.Watched t name) (hi : i < d.forest.size)
    (hrun : Steps anyNode d.forest d'.forest) (hlinked : d'.forest.Linked anyNode i σ p v j)
    (htouches : (d.forest.get i).kind.placement? σ = some p →
      d.forest.Touches i σ new d'.forest)
    (hact : d'.forest.Watched t name → j < d'.forest.size → Gathers t name j act d') :
    d.forest.Gathers t name [] d'.forest ∧ ∃ first, (d.forest.Ordered → i + 1 ≤ first) ∧
      Gathers t name first act d' := by
  have hp := hlinked.placed
  rw [hrun.later.kind_eq i hi] at hp
  have hgathers : d.forest.Gathers t name [] d'.forest := by
    refine .of_steps rfl hd hrun ?_
    by_cases hit : t = i
    · subst hit
      exact (htouches hp).values name (hd.ne_slot hp)
    · rw [(htouches hp).others t hd.there hit]
      rfl
  refine ⟨hgathers, j, fun ho => ?_, hact hgathers.watched hlinked.child.1⟩
  have hbefore := hgathers.ordered ho i hlinked.holder σ p hlinked.placed
  exact (List.pairwise_cons.1 hbefore).1 _ (hlinked.slot (.inr rfl)) i j rfl rfl

section

variable {k : Kind} {f : NodeId → Edit Notes} (hd : d.forest.Watched t name)
  (hi : i < d.forest.size) (hf : ∀ j d', d'.forest.Watched t name → j < d'.forest.size →
    Gathers t name j (f j) d')

include hd hi hf

/-- The child of a slot for one, and then an edit of the child. -/
theorem child : Gathers t name (i + 1) (Edit.child i k [] >>= f) d := by
  have hfree : Entries.Unreserved [] := fun _ he => absurd he List.not_mem_nil
  have hfollows := Follows.child (S := anyNode) (k := k) hd.formed trivial hi hfree
  refine bind fun j d' h => ?_
  obtain ⟨σ, b, hlinked⟩ := hfollows.2 j d' h
  exact of_linked hd hi (hfollows.run h) hlinked
    (fun hp => Touches.child hi hp hfree j d' h) (hf j d')

/-- The member under a key, and then an edit of the member. -/
theorem indexedItem (key : Data) : Gathers t name (i + 1) (Edit.indexedItem i k key >>= f) d := by
  have hfollows := Follows.indexedItem (S := anyNode) (k := k) hd.formed trivial hi key
  refine bind fun j d' h => ?_
  obtain ⟨slot, hlinked⟩ := hfollows.2 j d' h
  exact of_linked hd hi (hfollows.run h) hlinked
    (fun hp => Touches.indexedItem hi hp key j d' h) (hf j d')

/-- The member with given values, and then an edit of the member. -/
theorem collectionItem {fields : Entries} (hfree : fields.Unreserved) :
    Gathers t name (i + 1) (Edit.collectionItem i k fields >>= f) d := by
  have hfollows := Follows.collectionItem (S := anyNode) (k := k) hd.formed trivial hi hfree
  refine bind fun j d' h => ?_
  obtain ⟨slot, hlinked⟩ := hfollows.2 j d' h
  exact of_linked hd hi (hfollows.run h) (hlinked .unset)
    (fun hp => Touches.collectionItem hi hp hfree j d' h) (hf j d')

end

end Gathers

/-! ### Single values -/

/-- A key that is refused under a policy to go on changes nothing. -/
theorem forest_of_reject {key : String} {why : Rejection}
    (h : Merge.reject o i key why d = .ok () d') : d'.forest = d.forest := by
  obtain ⟨n, d₁, hn, hrest⟩ := Results.bind_eq_ok.1 h
  obtain ⟨location, d₂, hlocation, hend⟩ := Results.bind_eq_ok.1 hrest
  obtain ⟨hd₁, -⟩ := Looks.node i n d₁ hn
  obtain ⟨hd₂, -⟩ := Looks.location i location d₂ hlocation
  rw [← hd₁, ← hd₂]
  cases hpolicy : o.policy with
  | error =>
    rw [hpolicy] at hend
    cases hend
  | warn =>
    rw [hpolicy] at hend
    cases hend
    rfl

/-- A value put among the extensions changes no field. -/
theorem forest_of_setExtension {s : String} {v : Data}
    (h : Merge.setExtension o i s v d = .ok () d') : d'.forest = d.forest ∨ ∃ extensions,
      d'.forest = d.forest.put i { d.forest.get i with extensions := extensions } := by
  obtain ⟨n, d₁, hn, hrest⟩ := Results.bind_eq_ok.1 h
  obtain ⟨hd₁, hget⟩ := Looks.node i n d₁ hn
  subst d₁ n
  -- Either nothing is written, or the extensions of the node and nothing else.
  have hput : ∀ skip : Bool, (do
      if !skip then
        let extensions ← Edit.ofExcept (Merge.putExtension s v (d.forest.get i).extensions)
        Edit.setNode i { d.forest.get i with extensions := extensions } : Edit Unit) d = .ok () d' →
      d'.forest = d.forest ∨ ∃ extensions,
        d'.forest = d.forest.put i { d.forest.get i with extensions := extensions } := by
    intro skip hskip
    cases skip with
    | true =>
      cases hskip
      exact .inl rfl
    | false =>
      obtain ⟨extensions, d₂, hextensions, hend⟩ := Results.bind_eq_ok.1 hskip
      obtain ⟨hd₂, -⟩ := (Looks.ofExcept _) extensions d₂ hextensions
      subst d₂
      cases hend
      exact .inr ⟨extensions, rfl⟩
  split at hrest
  · exact hput false hrest
  · obtain ⟨skip, d₂, hskip, hend⟩ := Results.bind_eq_ok.1 hrest
    obtain ⟨hd₂, -⟩ := (Looks.ofExcept _) skip d₂ hskip
    subst d₂
    exact hput skip hend

/-- An extension is under the key of no list. -/
theorem growsBy_of_setExtension {s : String} {v : Data} (hi : i < d.forest.size)
    (hx : s.startsWith "x-" = true) (h : Merge.setExtension o i s v d = .ok () d') :
    d.forest.GrowsBy i [(.str s, v)] d'.forest := by
  have hnone : ∀ name ∈ (d.forest.get i).kind.arrayFields,
      Entries.valuesFor [(.str s, v)] name = [] := by
    refine fun name hname => Entries.valuesFor_other ?_ v
    rintro rfl
    rw [Kind.startsWith_wireName (Kind.mem_attributes_of_array hname)] at hx
    cases hx
  rcases forest_of_setExtension h with hd' | ⟨extensions, hd'⟩
  · exact .of_eq hnone hd'
  · exact .of_put (n := { d.forest.get i with extensions := extensions }) hi hnone
      (fun _ _ => rfl) hd'

/-- A field that is no list is under a key of its own. -/
theorem growsBy_of_setScalar {other : String} {v : Data} (hi : i < d.forest.size)
    (hother : other ∈ (d.forest.get i).kind.fields)
    (hplain : other ∉ (d.forest.get i).kind.arrayFields)
    (h : Merge.setScalar o i other v d = .ok () d') :
    d.forest.GrowsBy i [(.str (wireName other), v)] d'.forest := by
  have hne : ∀ name ∈ (d.forest.get i).kind.arrayFields, name ≠ other := by
    rintro name hname rfl
    exact hplain hname
  have hnone : ∀ name ∈ (d.forest.get i).kind.arrayFields,
      Entries.valuesFor [(.str (wireName other), v)] name = [] := by
    refine fun name hname => Entries.valuesFor_other (fun hwire => hne name hname ?_) v
    exact (Kind.eq_of_wireName_eq (List.mem_append_left _ hother)
      (Kind.mem_attributes_of_array hname) hwire).symm
  rcases setScalar_cases h with hd' | ⟨hd', -⟩
  · exact .of_put hi hnone (fun name hname => Node.value_putValue_of_ne _ (hne name hname) v) hd'
  · exact .of_eq hnone hd'

/-- An entry that names no slot makes at most the list grow that it names. -/
theorem growsBy_of_setPlain {key v : Data} (hi : i < d.forest.size)
    (h : Merge.setPlain o i key v d = .ok () d') : d.forest.GrowsBy i [(key, v)] d'.forest := by
  obtain ⟨s, rfl⟩ := text_of_setPlain h
  rw [setPlain_text rfl] at h
  by_cases hx : s.startsWith "x-" = true
  · rw [if_pos hx] at h
    exact growsBy_of_setExtension hi hx h
  rw [if_neg hx] at h
  cases hnamed : (d.forest.get i).kind.fieldOfWire? s with
  | none =>
    rw [hnamed] at h
    refine .of_eq (fun name hname => Entries.valuesFor_other ?_ v) (forest_of_reject h)
    rintro rfl
    rw [Kind.fieldOfWire?_wireName (Kind.mem_fields_of_array hname)] at hnamed
    cases hnamed
  | some other =>
    rw [hnamed] at h
    obtain ⟨hmem, rfl⟩ := Kind.mem_fields_of_wire hnamed
    by_cases harray : (d.forest.get i).kind.arrayFields.contains other = true
    · simp only [if_pos harray] at h
      cases h
      exact .grow hi other hmem v
    · simp only [if_neg harray] at h
      exact growsBy_of_setScalar hi hmem (fun hlist => harray (List.contains_iff_mem.2 hlist)) h

namespace Gathers

/-- An entry that names no slot of a node. -/
theorem setPlain {key v : Data} (hd : d.forest.Watched t name) (hi : i < d.forest.size)
    (h : Merge.setPlain o i key v d = .ok () d') :
    d.forest.Gathers t name (Notes.valuesFor [(i, [(key, v)])] t name) d'.forest := by
  have hready : Ready (licenceOf o) d.forest d i := ⟨.refl _, hd.formed, trivial, hi⟩
  have hrun := (Follows.setPlain (S := licenceOf o) rfl hready key v fun _ _ _ _ => trivial).run h
  have hgrows := growsBy_of_setPlain hi h
  refine .of_steps rfl hd hrun ?_
  by_cases hit : i = t
  · subst hit
    rw [Notes.valuesFor_self]
    exact hgrows.lists name hd.array
  · rw [hgrows.others t (Ne.symm hit), Notes.valuesFor_of_ne hit]
    rfl

/-- Entries that name no slot of a node, one after the other. -/
theorem forM_setPlain {ps : List Noted} (hd : d.forest.Watched t name) (hi : i < d.forest.size)
    (h : (ps.forM fun p => Merge.setPlain o i p.key p.value : Edit Unit) d = .ok () d') :
    d.forest.Gathers t name (Notes.valuesFor [(i, ps.map Noted.entry)] t name) d'.forest := by
  induction ps generalizing d with
  | nil =>
    cases h
    rw [List.map_nil, Notes.valuesFor_nil]
    exact .refl hd
  | cons p ps ih =>
    obtain ⟨⟨⟩, d₁, hfirst, hrest⟩ := Results.bind_eq_ok.1 h
    have hgathers := setPlain hd hi hfirst
    rw [List.map_cons, Notes.valuesFor_cons]
    exact hgathers.trans (ih hgathers.watched (Nat.lt_of_lt_of_le hi hgathers.later.size_le) hrest)

end Gathers

end Edit

/-! ### Entries of a source -/

section

variable (t : NodeId) (name : String)

/-- An entry of a source whose notes tell by what the list grows that is watched, in each role. -/
structure Merge.Noted.Tells (p : Noted) : Prop where
  asNode : ∀ d i, d.forest.Watched t name → i < d.forest.size →
    Edit.Gathers t name i (p.asNode i) d
  asKeyed : ∀ d k i, d.forest.Watched t name → i < d.forest.size →
    Edit.Gathers t name (i + 1) (p.asKeyed k i) d
  asListed : ∀ d k slot i, d.forest.Watched t name → i < d.forest.size →
    Edit.Gathers t name (i + 1) (p.asListed k slot i) d

/-- A reader all of whose entries tell by what the list grows that is watched. -/
def Merge.NotingReader.Tells (read : NotingReader) : Prop :=
  ∀ es ps, read es = .ok ps → ∀ p ∈ ps, p.Tells t name

end

namespace Edit.Gathers

variable {t i : NodeId} {name σ : String} {d : Draft} {o : MergeOptions} {ps : List Noted}
  {k : Kind}

/-- A truth value in the place of a child. -/
theorem setFlag {d' : Draft} {b : Bool} (hd : d.forest.Watched t name) (hi : i < d.forest.size)
    (hp : (d.forest.get i).kind.placement? σ = some (.single k true))
    (h : Merge.setScalar o i σ (.bool b) d = .ok () d') :
    d.forest.Gathers t name [] d'.forest := by
  have hready : Ready (licenceOf o) d.forest d i := ⟨.refl _, hd.formed, trivial, hi⟩
  have hrun := (Follows.setScalar (S := licenceOf o) (v := .bool b) rfl hready
    fun hset => .flag b hp hset).run h
  refine .of_steps rfl hd hrun ?_
  rcases setScalar_cases h with hd' | ⟨hd', -⟩
  · rw [hd']
    by_cases hit : t = i
    · subst hit
      rw [d.forest.get_put_self hi, Node.value_putValue_of_ne _ (hd.ne_slot hp)]
      rfl
    · rw [d.forest.get_put_of_ne hit]
      rfl
  · rw [hd']
    rfl

/-- The entry for a slot. -/
theorem noteSlot {p : Placement} (hps : ∀ q ∈ ps, q.Tells t name) (hd : d.forest.Watched t name)
    (hi : i < d.forest.size) (hp : (d.forest.get i).kind.placement? σ = some p) :
    Gathers t name (i + 1) (noteSlot o i ps σ p) d := by
  unfold Merge.noteSlot
  cases hfind : ps.find? fun q => q.key.same (.str (wireName σ)) with
  | none => exact .of_nil hd
  | some q =>
    have hq := hps q (List.mem_of_find?_eq_some hfind)
    dsimp only
    cases hrefuses : p.refuses q.value with
    | some why => exact bind_nil fun _ d' h => .of_eq hd (forest_of_reject h)
    | none =>
      cases p with
      | single c b =>
        have hchild : Gathers t name (i + 1) (do q.asNode (← Edit.child i c)) d :=
          child hd hi fun j d' hd' hj => hq.asNode d' j hd' hj
        obtain ⟨key, v, asNode, asKeyed, asListed⟩ := q
        cases v with
        | scalar s =>
          cases s with
          | bool flag =>
            -- A truth value is taken where one may stand in the place of a child.
            have hboolean : b = true := by
              by_contra hb
              simp [Placement.refuses, hb] at hrefuses
            subst hboolean
            exact bind_nil fun _ d' h => setFlag hd hi hp h
          | _ => exact hchild
        | _ => exact hchild
      | keyed c key => exact hq.asKeyed d c i hd hi
      | listed c slot => exact hq.asListed d c slot i hd hi

/-- The keys of slots bring nothing for a list. -/
theorem valuesFor_plain (hd : d.forest.Watched t name) (ps : List Noted) :
    Notes.valuesFor [(i, (ps.filter fun p => !isSlotKey (d.forest.get i).kind.layout p.key).map
      Noted.entry)] t name = Notes.valuesFor [(i, ps.map Noted.entry)] t name := by
  by_cases hit : i = t
  · subst hit
    have hplain : (!isSlotKey (d.forest.get i).kind.layout (.str (wireName name))) = true := by
      rw [Bool.not_eq_true', Bool.eq_false_iff]
      intro hslot
      obtain ⟨σ, hσ, hkey⟩ := Kind.isSlotKey_iff.1 hslot
      obtain ⟨p, hp⟩ := Kind.exists_placement? hσ
      exact hd.ne_slot hp (Kind.eq_of_wireName_eq
        (Kind.mem_attributes_of_array hd.array) (List.mem_append_right _ hσ) (by simpa using hkey))
    have hfilter := Entries.valuesFor_filter
      (fun key => !isSlotKey (d.forest.get i).kind.layout key) hplain (ps.map Noted.entry)
    rw [List.filter_map] at hfilter
    rw [Notes.valuesFor_self, Notes.valuesFor_self]
    exact hfilter
  · rw [Notes.valuesFor_of_ne hit, Notes.valuesFor_of_ne hit]

/-- The entries for all slots. -/
theorem noteSlots (hps : ∀ q ∈ ps, q.Tells t name) (hd : d.forest.Watched t name)
    (hi : i < d.forest.size) : Gathers t name (i + 1)
      (Merge.noteAll (fun q => Merge.noteSlot o i ps q.1 q.2) (d.forest.get i).kind.placements) d :=
  noteAll hd fun _ hq _ hd' hlater => noteSlot hps hd' (Nat.lt_of_lt_of_le hi hlater.size_le)
    (hlater.placed hi (Kind.placement?_of_mem hq)).2

/-- What goes into the nodes below one, and then what goes into itself. -/
theorem noteContent_eq_ok {notes : Notes} {d' : Draft} (hps : ∀ q ∈ ps, q.Tells t name)
    (hd : d.forest.Watched t name) (hi : i < d.forest.size)
    (h : Merge.noteContent o ps i d = .ok notes d') : ∃ below,
      notes = below ++ [(i, ps.map Noted.entry)] ∧
        d.forest.Gathers t name (notes.valuesFor t name) d'.forest ∧
          (d.forest.Ordered → ∀ note ∈ below, i < note.1) := by
  obtain ⟨n, d₁, hn, hcontent⟩ := Results.bind_eq_ok.1 h
  obtain ⟨hd₁, hget⟩ := Looks.node i n d₁ hn
  subst d₁ n
  obtain ⟨below, d₂, hbelow, hrest⟩ := Results.bind_eq_ok.1 hcontent
  obtain ⟨⟨⟩, d₃, hplain, hend⟩ := Results.bind_eq_ok.1 hrest
  cases hend
  -- The slots come first: what they make of the node is no list, so that the fields find it as is.
  obtain ⟨hslots, hfirst⟩ := noteSlots (o := o) hps hd hi below d₂ hbelow
  have hfields := forM_setPlain hslots.watched (Nat.lt_of_lt_of_le hi hslots.later.size_le) hplain
  rw [← hslots.later.kind_eq i hi, valuesFor_plain hslots.watched] at hfields
  refine ⟨below, rfl, ?_, hfirst⟩
  rw [Notes.valuesFor_append]
  exact hslots.trans hfields

/-- Entries merged as the content of a node. -/
theorem noteContent (hps : ∀ q ∈ ps, q.Tells t name) (hd : d.forest.Watched t name)
    (hi : i < d.forest.size) : Gathers t name i (Merge.noteContent o ps i) d := by
  intro notes d' h
  obtain ⟨below, rfl, hgathers, hbelow⟩ := noteContent_eq_ok hps hd hi h
  refine ⟨hgathers, fun ho note hnote => ?_⟩
  rcases List.mem_append.1 hnote with hnote | hnote
  · exact Nat.le_of_lt (hbelow ho note hnote)
  · rw [List.mem_singleton.1 hnote]

/-- Entries merged as members under their keys. -/
theorem noteKeyed (hps : ∀ q ∈ ps, q.Tells t name) (hd : d.forest.Watched t name)
    (hi : i < d.forest.size) : Gathers t name (i + 1) (Merge.noteKeyed k ps i) d :=
  noteAll hd fun p hp _ hd' hlater => indexedItem hd' (Nat.lt_of_lt_of_le hi hlater.size_le)
    (fun j d'' hd'' hj => (hps p hp).asNode d'' j hd'' hj) p.key

/-- Entries merged as one member of a collection. -/
theorem noteListed {slot : CollectionSlot} (hps : ∀ q ∈ ps, q.Tells t name)
    (hd : d.forest.Watched t name) (hi : i < d.forest.size) :
    Gathers t name (i + 1) (Merge.noteListed o k slot ps i) d := by
  have hidentity : ps.filterMap (fun p =>
      (identifies? k slot p.key).map fun name => (Data.str name, p.value))
        = Entries.identity k slot (ps.map Noted.entry) := by
    rw [Entries.identity, List.filterMap_map]
    rfl
  unfold Merge.noteListed
  rw [hidentity]
  exact collectionItem hd hi
    (fun j d' hd' hj => noteContent (fun q hq => hps q (List.mem_filter.1 hq).1) hd' hj)
    (areFields_identity k slot _).unreserved

/-! ### Whole sources -/

variable {read : NotingReader}

/-- What is done with the content of a node in a source. -/
theorem notedOf {first : NodeId} (hread : read.Tells t name) (hd : d.forest.Watched t name)
    (source : NodeId) {f : List Noted → Edit Notes}
    (hf : ∀ ps, (∀ q ∈ ps, q.Tells t name) → Gathers t name first (f ps) d) :
    Gathers t name first (do f (← Merge.notedOf read source)) d := by
  refine after_look (P := fun ps => ∀ q ∈ ps, q.Tells t name) hd ?_ hf
  exact .bind (.content source) fun es _ => (Looks.ofExcept _).mono fun ps hps => hread es ps hps

mutual

/-- The entries of a mapping, by recursion on the source. -/
theorem tells_noted (o : MergeOptions) (hread : read.Tells t name) (es : List (Data × Data)) :
    ∀ p ∈ noted o read es, p.Tells t name := by
  cases es with
  | nil =>
    unfold noted
    exact fun _ hp => absurd hp List.not_mem_nil
  | cons e rest =>
    obtain ⟨key, v⟩ := e
    unfold noted
    refine List.forall_mem_cons.2 ⟨⟨?_, ?_, ?_⟩, tells_noted o hread rest⟩
    · exact fun d i hd hi => noteNode o hread v hd hi
    · exact fun d k i hd hi => noteMembers o hread v hd hi
    · exact fun d k slot i hd hi => noteItems o hread v hd hi

/-- A source merged into a node gathers what its notes say, by recursion on the source. -/
theorem noteNode (o : MergeOptions) (hread : read.Tells t name) (v : Data) {d : Draft} {i : NodeId}
    (hd : d.forest.Watched t name) (hi : i < d.forest.size) :
    Gathers t name i (Merge.noteNode o read v i) d := by
  cases v with
  | map es =>
    unfold Merge.noteNode
    exact noteContent (tells_noted o hread es) hd hi
  | node source =>
    unfold Merge.noteNode
    exact notedOf hread hd source fun ps hps => noteContent hps hd hi
  | _ => exact .of_throw _

/-- The same for members under keys. -/
theorem noteMembers (o : MergeOptions) (hread : read.Tells t name) (v : Data) {d : Draft} {k : Kind}
    {i : NodeId} (hd : d.forest.Watched t name) (hi : i < d.forest.size) :
    Gathers t name (i + 1) (Merge.noteMembers o read v k i) d := by
  cases v with
  | map es =>
    unfold Merge.noteMembers
    exact noteKeyed (tells_noted o hread es) hd hi
  | _ => exact .of_nil hd

/-- The same for the items of a collection. -/
theorem noteItems (o : MergeOptions) (hread : read.Tells t name) (v : Data) {d : Draft} {k : Kind}
    {slot : CollectionSlot} {i : NodeId} (hd : d.forest.Watched t name) (hi : i < d.forest.size) :
    Gathers t name (i + 1) (Merge.noteItems o read v k slot i) d := by
  cases v with
  | list xs =>
    unfold Merge.noteItems
    exact noteList o hread xs hd hi
  | tuple xs =>
    unfold Merge.noteItems
    exact noteList o hread xs hd hi
  | _ => exact .of_nil hd

/-- The same for a list of items, one after the other. -/
theorem noteList (o : MergeOptions) (hread : read.Tells t name) (xs : List Data) {d : Draft}
    {k : Kind} {slot : CollectionSlot} {i : NodeId} (hd : d.forest.Watched t name)
    (hi : i < d.forest.size) : Gathers t name (i + 1) (Merge.noteList o read xs k slot i) d := by
  cases xs with
  | nil =>
    unfold Merge.noteList
    exact .of_nil hd
  | cons x rest =>
    -- The rest of the list is merged into the same node, later.
    have hrest : ∀ d', d'.forest.Watched t name → d.forest.Later d'.forest →
        Gathers t name (i + 1) (Merge.noteList o read rest k slot i) d' := fun d' hd' hlater =>
      noteList o hread rest hd' (Nat.lt_of_lt_of_le hi hlater.size_le)
    cases x with
    | map es =>
      unfold Merge.noteList
      exact append (noteListed (tells_noted o hread es) hd hi) hrest
    | node source =>
      unfold Merge.noteList
      exact notedOf hread hd source fun ps hps => append (noteListed hps hd hi) hrest
    | _ => exact .of_throw _

end

/-- Sources with nodes in them, to any depth. -/
theorem tells_readNoted (o : MergeOptions) (t : NodeId) (name : String) (fuel : Nat) :
    (readNoted o fuel).Tells t name := by
  induction fuel with
  | zero => exact fun _ _ h => nomatch h
  | succ fuel ih =>
    intro es ps h
    cases h
    exact tells_noted o ih es

/-- The notes of a merge tell by what a list grows. They end with what the source says for the
    target, and before that they are about nodes below it. -/
theorem mergeNoting_eq_ok {source : Data} {notes : Notes} {d' : Draft}
    (hd : d.forest.Watched t name) (hi : i < d.forest.size)
    (h : Edit.mergeNoting o source i d = .ok notes d') : ∃ below es,
      sourceEntries source i d = .ok es d ∧ notes = below ++ [(i, es)] ∧
        d.forest.Gathers t name (notes.valuesFor t name) d'.forest ∧
          (d.forest.Ordered → ∀ note ∈ below, i < note.1) := by
  have hlook : Looks (sourceEntries source i) d fun _ => True := by
    cases source with
    | map es => exact (Looks.pure es).mono fun _ _ => trivial
    | node j => exact (Looks.content j).mono fun _ _ => trivial
    | _ => exact .bind (.node i) fun _ _ => .throw _
  obtain ⟨es, d₁, hes, hrest⟩ := Results.bind_eq_ok.1 h
  obtain ⟨hd₁, -⟩ := hlook es d₁ hes
  subst d₁
  obtain ⟨f, d₂, hforest, hread⟩ := Results.bind_eq_ok.1 hrest
  obtain ⟨hd₂, -⟩ := Looks.forest f d₂ hforest
  subst d₂
  obtain ⟨ps, d₃, hparts, hcontent⟩ := Results.bind_eq_ok.1 hread
  obtain ⟨hd₃, hps⟩ := (Looks.ofExcept _) ps d₃ hparts
  subst d₃
  obtain ⟨below, hnotes, hgathers, hbelow⟩ :=
    noteContent_eq_ok (tells_readNoted o t name f.fuel es ps hps) hd hi hcontent
  refine ⟨below, es, hes, ?_, hgathers, hbelow⟩
  rw [hnotes, map_entry_of_readNoted hps]

end Edit.Gathers

end ApiDoc
