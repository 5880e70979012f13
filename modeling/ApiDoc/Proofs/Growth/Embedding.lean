import ApiDoc.Proofs.Growth.Merge
import ApiDoc.Proofs.Tree.Orderly

namespace ApiDoc

/-!
# Merges that only fill in

A merge that does not overwrite settles what is still open. Whatever the source, the tree that
stood at the node stays embedded in what stands there afterwards:

* `Kind.Keeps` — what may become of a value under a name;
* `Node.Embeds` — what may become of a node;
* `Steps.embeds` — what is kept by steps that do not overwrite;
* `Edit.merge_embeds` — what is kept by a merge, at every depth.
-/

open Forest

/-! ### What is kept -/

/-- What may become of the value under a name of a node without being overwritten. -/
inductive Kind.Keeps (k : Kind) (name : String) : Data → Data → Prop
  | unset (v : Data) : Keeps k name .unset v
  | same (v : Data) : Keeps k name v v
  | grown {xs : List Data} {mark : Nat} (ys : List Data) (mark' : Nat)
      (h : name ∈ k.arrayFields ∨ ∃ p, k.placement? name = some p ∧ p.isSingle = false) :
      Keeps k name (.list xs mark) (.list (xs ++ ys) mark')
  | child {c : Kind} (b : Bool) (j : NodeId) (h : k.placement? name = some (.single c true)) :
      Keeps k name (.bool b) (.node j)

/-- Nothing or a list. -/
def Data.ListOrUnset (v : Data) : Prop := v = .unset ∨ ∃ xs mark, v = .list xs mark

instance : (v : Data) → Decidable v.ListOrUnset
  | .unset => .isTrue (.inl rfl)
  | .list xs mark => .isTrue (.inr ⟨xs, mark, rfl⟩)
  | .scalar _ => .isFalse (by simp [Data.ListOrUnset])
  | .tuple .. => .isFalse (by simp [Data.ListOrUnset])
  | .set .. => .isFalse (by simp [Data.ListOrUnset])
  | .map .. => .isFalse (by simp [Data.ListOrUnset])
  | .node _ => .isFalse (by simp [Data.ListOrUnset])
  | .modelRef .. => .isFalse (by simp [Data.ListOrUnset])
  | .bare _ => .isFalse (by simp [Data.ListOrUnset])

/-- A node whose fields that only grow are unset or lists. -/
def Node.ListsGrow (n : Node) : Prop := ∀ name ∈ n.kind.arrayFields, (n.value name).ListOrUnset

instance (n : Node) : Decidable n.ListsGrow :=
  inferInstanceAs (Decidable (∀ name ∈ n.kind.arrayFields, (n.value name).ListOrUnset))

/-- A node that says all that another says. -/
structure Node.Embeds (n m : Node) : Prop where
  kind_eq : m.kind = n.kind
  parent_eq : m.parent = n.parent
  values : ∀ name, n.kind.Keeps name (n.value name) (m.value name)
  extensions : m.extensions = n.extensions ∨ ∃ es fs mark,
    n.extensions = .map es mark ∧ m.extensions = .map (es ++ fs) mark

namespace Kind.Keeps

variable {k : Kind} {name : String} {u v w : Data}

/-- A value kept in two changes. -/
theorem trans (huv : k.Keeps name u v) (hvw : k.Keeps name v w) : k.Keeps name u w := by
  cases huv with
  | unset => exact .unset w
  | same => exact hvw
  | @grown xs mark ys mark' h =>
    cases hvw with
    | same => exact .grown ys mark' h
    | grown zs mark'' =>
      rw [List.append_assoc]
      exact .grown (ys ++ zs) mark'' h
  | child b j h =>
    cases hvw with
    | same => exact .child b j h

/-- Children stay where they are, and in their order. -/
theorem nodes_isPrefix (h : k.Keeps name v w) : v.nodes <+: w.nodes := by
  cases h with
  | unset => exact List.nil_prefix
  | same => exact List.prefix_refl _
  | grown ys => exact List.prefix_append _ ys
  | child => exact List.nil_prefix

end Kind.Keeps

namespace Node.Embeds

variable {n m l : Node}

/-- A node keeps all that it has. -/
theorem refl (n : Node) : n.Embeds n := ⟨rfl, rfl, fun _ => .same _, .inl rfl⟩

/-- What is kept in two changes. -/
theorem trans (hnm : n.Embeds m) (hml : m.Embeds l) : n.Embeds l where
  kind_eq := hml.kind_eq.trans hnm.kind_eq
  parent_eq := hml.parent_eq.trans hnm.parent_eq
  values name := (hnm.values name).trans (hnm.kind_eq ▸ hml.values name)
  extensions := by
    rcases hnm.extensions with hsame | ⟨es, fs, mark, hn, hm⟩
    · rw [← hsame]
      exact hml.extensions
    · rcases hml.extensions with hsame | ⟨es', fs', mark', hm', hl⟩
      · exact .inr ⟨es, fs, mark, hn, hsame.trans hm⟩
      · rw [hm] at hm'
        cases hm'
        exact .inr ⟨es, fs ++ fs', mark, hn, by rw [hl, List.append_assoc]⟩

end Node.Embeds

/-! ### Steps -/

/-- A slot is no field that holds a list. -/
theorem Kind.notMem_arrayFields_of_placement? {k : Kind} {σ : String} {p : Placement}
    (hp : k.placement? σ = some p) : σ ∉ k.arrayFields := by
  intro hmem
  have hshown := k.arrayFields_shown σ hmem
  exact k.field_notMem_slots σ (List.mem_filter.1 hshown).1 (mem_slots_of_placement? hp)

/-- United items start with those of before. -/
theorem Merge.unionItems_eq_append (xs ys : List Data) : ∃ zs, unionItems xs ys = xs ++ zs := by
  induction ys generalizing xs with
  | nil => exact ⟨[], (List.append_nil xs).symm⟩
  | cons y ys ih =>
    show ∃ zs, unionItems (if y.among xs then xs else xs ++ [y]) ys = xs ++ zs
    split
    · exact ih xs
    · obtain ⟨zs, hzs⟩ := ih (xs ++ [y])
      exact ⟨[y] ++ zs, by rw [hzs, List.append_assoc]⟩

/-- An entry under a new key comes last. -/
theorem Entries.insert_of_has {es : Entries} {s : String} (h : es.has (.str s) = false) (v : Data) :
    es.insert (.str s) v = es ++ [(.str s, v)] := by
  refine insert_eq_append (text?_eq_none_iff.1 ?_) v
  simpa [has] using h

namespace Node

variable {S : Licence} {n m : Node}

/-- A value that is put under one name leaves all others. -/
theorem Embeds.put {name : String} {v : Data}
    (h : n.kind.Keeps name (n.value name) ((n.putValue name v).value name)) :
    n.Embeds (n.putValue name v) := by
  refine ⟨rfl, rfl, fun other => ?_, .inl rfl⟩
  by_cases he : other = name
  · subst he
    exact h
  · rw [n.value_putValue_of_ne he]
    exact .same _

/-- Lists are lists or unset after a value is put that is one where it has to be. -/
theorem ListsGrow.put (hn : n.ListsGrow) {name : String} {v : Data}
    (h : name ∈ n.kind.arrayFields → ((n.putValue name v).value name).ListOrUnset) :
    (n.putValue name v).ListsGrow := by
  intro other hother
  by_cases he : other = name
  · subst he
    exact h hother
  · rw [n.value_putValue_of_ne he]
    exact hn other hother

/-- Without leave to overwrite a changed node keeps what it had. -/
theorem Alters.embeds (ho : S.overwrite = false) (hn : n.ListsGrow) (h : n.Alters S m) :
    n.Embeds m ∧ m.ListsGrow := by
  have hunset : ∀ {name}, S.overwrite = true ∨ n.value name = .unset → n.value name = .unset :=
    fun hset => hset.resolve_left (by rw [ho]; exact Bool.false_ne_true)
  -- What is open takes any value.
  have hfill : ∀ {name} v, n.value name = .unset → name ∉ n.kind.arrayFields →
      n.Embeds (n.putValue name v) ∧ (n.putValue name v).ListsGrow := by
    intro name v hopen hname
    refine ⟨.put ?_, hn.put fun h => absurd h hname⟩
    rw [hopen]
    exact .unset _
  cases h with
  | field v _ hscalar _ hset => exact hfill v (hunset hset) hscalar
  | @grow name ys _ harray =>
    have hgrown : (n.putValue name
        (.ofList (Merge.unionItems ((n.value name).items?.getD []) ys))).value name
          = .list (Merge.unionItems ((n.value name).items?.getD []) ys) 0 :=
      n.value_putValue_self _ rfl
    refine ⟨.put ?_, hn.put fun _ => .inr ⟨_, _, hgrown⟩⟩
    rw [hgrown]
    rcases hn name harray with hopen | ⟨xs, mark, hxs⟩
    · rw [hopen]
      exact .unset _
    · obtain ⟨zs, hzs⟩ := Merge.unionItems_eq_append xs ys
      rw [hxs]
      show n.kind.Keeps name _ (.list (Merge.unionItems xs ys) 0)
      rw [hzs]
      exact .grown zs 0 (.inl harray)
  | @extension key es mark v _ hes hset =>
    have hopen : es.has (.str key) = false :=
      hset.resolve_left (by rw [ho]; exact Bool.false_ne_true)
    refine ⟨⟨rfl, rfl, fun _ => .same _, .inr ⟨es, [(.str key, v)], mark, hes, ?_⟩⟩, hn⟩
    rw [Entries.insert_of_has hopen]
  | flag b hp hset =>
    exact hfill _ (hunset hset) (Kind.notMem_arrayFields_of_placement? hp)
  | list hp _ hopen => exact hfill _ hopen (Kind.notMem_arrayFields_of_placement? hp)

end Node

namespace Forest

variable {S : Licence} {f g : Forest} {i j : NodeId}

/-- So does whatever becomes of a node. -/
theorem Becomes.embeds (ho : S.overwrite = false) {n m : Node} (hn : n.ListsGrow)
    (h : f.Becomes S n m) : n.Embeds m ∧ m.ListsGrow := by
  cases h with
  | same => exact ⟨.refl n, hn⟩
  | alter h => exact h.embeds ho hn
  | @attach σ p fields v hp ha =>
    refine ⟨.put ?_, hn.put fun hname =>
      absurd hname (Kind.notMem_arrayFields_of_placement? hp)⟩
    rw [n.value_putValue_self _ ha.isUnset_eq_false]
    cases ha with
    | child hfree =>
      rcases hfree with hopen | ⟨rfl, c, hflag⟩
      · rw [hopen]
        exact .unset _
      · rw [hflag]
        exact .child c _ hp
    | @member _ _ xs mark hlist hvalue =>
      rw [hvalue]
      exact .grown _ mark (.inr ⟨p, hp, hlist⟩)

/-- So does a node in any number of steps. -/
theorem Steps.embeds (ho : S.overwrite = false) (hj : j < f.size) (hlists : (f.get j).ListsGrow)
    (hrun : Steps S f g) : (f.get j).Embeds (g.get j) := by
  suffices h : (f.get j).Embeds (g.get j) ∧ (g.get j).ListsGrow from h.1
  induction hrun with
  | refl => exact ⟨.refl _, hlists⟩
  | tail hrun hlast ih =>
    obtain ⟨hnext, hlists'⟩ :=
      (hlast.becomes (Nat.lt_of_lt_of_le hj (Steps.later hrun).size_le)).embeds ho ih.2
    exact ⟨ih.1.trans hnext, hlists'⟩

/-- The nodes of a tree are nodes of every tree in which they are embedded. -/
theorem Below.of_embeds (hg : ∀ j, f.Below i j → (f.get j).Embeds (g.get j)) (hj : f.Below i j) :
    g.Below i j := by
  induction hj with
  | self => exact .self
  | @child p j σ hp hσ hj ih =>
    refine ih.child ?_ (List.IsPrefix.subset ((hg p hp).values σ).nodes_isPrefix hj)
    rw [(hg p hp).kind_eq]
    exact hσ

end Forest

/-! ### Merges -/

namespace Edit

variable {o : MergeOptions} {source : Data} {d d' : Draft} {i : NodeId}

/-- Every merge takes steps in the tree at its node, be it successful or not. -/
theorem merge_steps (o : MergeOptions) (source : Data) (hf : d.forest.WellFormed i) :
    Steps (d.forest.licence i (fun _ _ => True) o.overwrite) d.forest
      (after (merge o source i) d).forest := by
  exact (Follows.merge (P := fun _ _ => True) source rfl
    (Licence.covers_any (fun _ _ => trivial) _) hf.formed (Or.inl .self) hf.root
    (source.offers_any _ _)).1

/-- A merge without overwriting keeps what a tree says, at every depth. -/
theorem merge_embeds (ho : o.overwrite = false) (hf : d.forest.WellFormed i)
    (hlists : ∀ j, d.forest.Below i j → (d.forest.get j).ListsGrow)
    (h : merge o source i d = .ok () d') :
    ∀ j, d.forest.Below i j → d'.forest.Below i j ∧ (d.forest.get j).Embeds (d'.forest.get j) := by
  have hrun := merge_steps o source hf
  rw [after_of_ok h] at hrun
  have hembeds : ∀ j, d.forest.Below i j → (d.forest.get j).Embeds (d'.forest.get j) :=
    fun j hj => hrun.embeds ho (hf.lt_size hj) (hlists j hj)
  exact fun j hj => ⟨hj.of_embeds hembeds, hembeds j hj⟩

/-- One operation, as a document. -/
def oneOperation (summary tag : String) : Entries :=
  [(.str "paths", .ofEntries [(.str "/a", .ofEntries [(.str "get", .ofEntries
    [(.str "summary", .str summary), (.str "tags", .ofList [.str tag])])])])]

/-- An operation into which another one is merged. -/
theorem merge_embeds_operation : ∃ d d',
    merge {} (.map (oneOperation "First" "a") 0) 0 twoDocuments = .ok () d ∧
      merge {} (.map (oneOperation "Second" "b") 0) 0 d = .ok () d' ∧
        ∀ j, d.forest.Below 0 j →
          d'.forest.Below 0 j ∧ (d.forest.get j).Embeds (d'.forest.get j) := by
  have h : Results.endsIn (merge {} (.map (oneOperation "First" "a") 0) 0) (fun d =>
      decide (∀ j < d.forest.size, (d.forest.get j).ListsGrow) &&
        Results.endsIn (merge {} (.map (oneOperation "Second" "b") 0) 0) (fun _ => true) d)
      twoDocuments = true := by
    decide +kernel
  obtain ⟨d, hd, h⟩ := Results.exists_of_endsIn h
  obtain ⟨hlists, h⟩ := Bool.and_eq_true_iff.1 h
  obtain ⟨d', hd', -⟩ := Results.exists_of_endsIn h
  have hleaf : twoDocuments.forest.WellFormed 0 := .leaf (by decide) fun _ _ => rfl
  have hrun := merge_steps {} (.map (oneOperation "First" "a") 0) hleaf
  rw [after_of_ok hd] at hrun
  have hf : d.forest.WellFormed 0 := (hrun.formed hleaf.formed).wellFormed (Or.inl .self)
    (Nat.lt_of_lt_of_le hleaf.root hrun.later.size_le)
  exact ⟨d, d', hd, hd', merge_embeds rfl hf
    (fun j hj => of_decide_eq_true hlists j (hf.lt_size hj)) hd'⟩

end Edit

end ApiDoc
