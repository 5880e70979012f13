import ApiDoc.Proofs.Growth.Built
import ApiDoc.Proofs.Growth.Contents
import ApiDoc.Proofs.Growth.Gathered

namespace ApiDoc

/-!
# Lists that only grow, over whole runs

Whatever merges are told, and whichever way they come to a node, a list of it that only grows is
the ordered union of all that they supply for it:

* `Merge.firsts` — the items of a list to which no earlier one is equal, and
  `Merge.unionItems_nil_eq` — the list that grows from nothing;
* `Edit.MergeCall`, `Edit.Merges` — a merge with what it is told, and merges one after the other;
* `MergeCall.supplies`, `Edit.suppliedBy` — the values that one merge, and that all of them supply
  for a field of a node;
* `Merges.gathers` — a whole run, and `Edit.merges_union` — a list that is not there at the start;
* `MergeCall.supplies_map`, `MergeCall.supplies_node` — what a mapping and what a node supply for
  the node into which they are merged.
-/

open Forest Merge

/-! ### Items that come first -/

namespace Merge

/-- The items of a list to which no earlier one is equal. -/
def firsts (xs : List Data) : List Data :=
  (xs.zipIdx.filter fun x => !x.1.among (xs.take x.2)).map (·.1)

theorem firsts_append (xs : List Data) (x : Data) :
    firsts (xs ++ [x]) = firsts xs ++ if x.among xs then [] else [x] := by
  have hbefore : (xs.zipIdx.filter fun y => !y.1.among ((xs ++ [x]).take y.2))
      = xs.zipIdx.filter fun y => !y.1.among (xs.take y.2) := by
    refine List.filter_congr fun y hy => ?_
    have hlt : y.2 < xs.length := by simpa using (List.mem_zipIdx hy).2.1
    rw [List.take_append_of_le_length (Nat.le_of_lt hlt)]
  unfold firsts
  rw [List.zipIdx_append, List.filter_append, List.map_append, hbefore]
  congr 1
  by_cases hx : x.among xs = true <;> simp [hx]

theorem mem_of_mem_unionItems {x : Data} {xs ys : List Data} (h : x ∈ unionItems xs ys) :
    x ∈ xs ∨ x ∈ ys := by
  induction ys generalizing xs with
  | nil => exact .inl h
  | cons y ys ih =>
    rcases ih h with hacc | hys
    · dsimp only at hacc
      split at hacc
      · exact .inl hacc
      · exact (List.mem_append.1 hacc).imp_right fun hy => by
          rw [List.mem_singleton.1 hy]
          exact List.mem_cons_self
    · exact .inr (List.mem_cons_of_mem _ hys)

/-- A list that grows from nothing holds the items that come first. An item that is equal to one
    left out is equal to the one for which that was left out. -/
theorem unionItems_nil_eq (xs : List Data) : unionItems [] xs = firsts xs := by
  induction xs using List.reverseRecOn with
  | nil => rfl
  | append_singleton xs x ih =>
    have hamong : x.among (unionItems [] xs) = x.among xs := by
      rw [Bool.eq_iff_iff]
      constructor
      · -- The items of the union are items of the list.
        intro h
        obtain ⟨y, hy, hyx⟩ := among_iff.1 h
        exact among_iff.2 ⟨y, (mem_of_mem_unionItems hy).resolve_left List.not_mem_nil, hyx⟩
      · exact among_unionItems []
    rw [unionItems_append, unionItems_singleton, hamong, firsts_append, ih]
    split
    · rw [List.append_nil]
    · rfl

end Merge

/-! ### Runs of merges -/

namespace Edit

/-- A merge with what it is told. -/
structure MergeCall where
  options : MergeOptions := {}
  source : Data
  target : NodeId

namespace MergeCall

def run (c : MergeCall) : Edit Unit := Edit.merge c.options c.source c.target

/-- The values that a merge supplies for a field of a node: those of the mappings that go into the
    node, be it the target or one that is found on the way. -/
def supplies (c : MergeCall) (t : NodeId) (name : String) (d : Draft) : List Data :=
  match Edit.mergeNoting c.options c.source c.target d with
  | .ok notes _ => notes.valuesFor t name
  | .error _ _ => []

end MergeCall

/-- Merges into nodes that are there, one after the other, all of which succeed. -/
inductive Merges : List MergeCall → Draft → Draft → Prop
  | nil (d : Draft) : Merges [] d d
  | cons {c : MergeCall} {calls : List MergeCall} {d d₁ d' : Draft}
      (htarget : c.target < d.forest.size) (hrun : c.run d = .ok () d₁)
      (hrest : Merges calls d₁ d') : Merges (c :: calls) d d'

/-- The values that merges supply for a field of a node, in the order of the merges. -/
def suppliedBy (t : NodeId) (name : String) : List MergeCall → Draft → List Data
  | [], _ => []
  | c :: calls, d => c.supplies t name d ++ suppliedBy t name calls (after c.run d)

variable {t : NodeId} {name : String} {d d' : Draft} {calls : List MergeCall}

/-- A list grows by what a merge supplies for it. -/
theorem MergeCall.gathers {c : MergeCall} (hd : d.forest.Watched t name)
    (htarget : c.target < d.forest.size) (h : c.run d = .ok () d') :
    d.forest.Gathers t name (c.supplies t name d) d'.forest := by
  rw [run, ← discard_mergeNoting] at h
  obtain ⟨notes, hnotes⟩ := discard_eq_ok.1 h
  obtain ⟨-, -, -, -, hgathers, -⟩ := Gathers.mergeNoting_eq_ok hd htarget hnotes
  rw [supplies, hnotes]
  exact hgathers

/-- A list grows by what the merges of a run supply for it. -/
theorem Merges.gathers (h : Merges calls d d') (hd : d.forest.Watched t name) :
    d.forest.Gathers t name (suppliedBy t name calls d) d'.forest := by
  induction h with
  | nil => exact .refl hd
  | cons htarget hrun _ ih =>
    have hfirst := MergeCall.gathers hd htarget hrun
    rw [suppliedBy, after_of_ok hrun]
    exact hfirst.trans (ih hfirst.watched)

/-- A list that only grows, and is not there before any merges that succeed, is not there after them
    if they supply nothing for it. Otherwise it holds the items of all values that they supply, in
    the order of the merges, but for those to which an earlier one is equal. -/
theorem merges_union (t : NodeId) (name : String) (hf : d.forest.Formed fun _ => True)
    (ht : t < d.forest.size) (hname : name ∈ (d.forest.get t).kind.arrayFields)
    (hunset : (d.forest.get t).value name = .unset) (h : Merges calls d d') :
    (d'.forest.get t).value name = if (suppliedBy t name calls d).isEmpty then .unset
      else .ofList (firsts ((suppliedBy t name calls d).flatMap supplied)) := by
  have hgathers := h.gathers ⟨hf, ht, hname⟩
  rw [hgathers.value, hunset]
  cases hvalues : suppliedBy t name calls d with
  | nil => rfl
  | cons v vs =>
    rw [Data.grown_eq (List.cons_ne_nil v vs), ← unionItems_nil_eq]
    rfl

/-- Whether merges into nodes that are there all succeed and leave a draft that passes a check. -/
def mergesTo (check : Draft → Bool) : List MergeCall → Draft → Bool
  | [], d => check d
  | c :: calls, d => decide (c.target < d.forest.size) &&
    Results.endsIn c.run (mergesTo check calls) d

theorem exists_of_mergesTo {check : Draft → Bool} (h : mergesTo check calls d = true) :
    ∃ d', Merges calls d d' ∧ check d' = true := by
  induction calls generalizing d with
  | nil => exact ⟨d, .nil d, h⟩
  | cons c calls ih =>
    obtain ⟨htarget, hrun⟩ := Bool.and_eq_true_iff.1 h
    obtain ⟨d₁, hd₁, hrest⟩ := Results.exists_of_endsIn hrun
    obtain ⟨d', hd', hcheck⟩ := ih hrest
    exact ⟨d', .cons (of_decide_eq_true htarget) hd₁ hd', hcheck⟩

/-- The texts of a list. -/
def textsOf (v : Data) : Option (List (Option String)) := v.items?.map (List.map Data.str?)

/-- Two schemas among the components of a document. -/
def twoSchemas : Draft := draftAfter
  [.newDocument (.str "3.0.0"), .componentSchema 0 (.str "A"), .componentSchema 0 (.str "B")]

/-- Names that the first of two schemas requires: told to it, told to the document in a tuple over
    what is there, taken from the second schema, and one name that is no list. -/
def requiring : List MergeCall :=
  let required (v : Data) : Data := .ofEntries [(.str "required", v)]
  [{ source := required (.ofList [.str "c", .str "d"]), target := 3 },
   { source := required (.ofList [.str "a", .str "b", .str "a"]), target := 2 },
   { options := { overwrite := true }
     source := .ofEntries [(.str "components", .ofEntries [(.str "schemas", .ofEntries
       [(.str "A", required (.ofTuple [.str "b", .str "c"]))])])]
     target := 0 },
   { options := { overwrite := true, policy := .warn }, source := .node 3, target := 2 },
   { source := required (.str "e"), target := 2 }]

/-- The document with two schemas is made by calls. -/
theorem built_twoSchemas : Built twoSchemas :=
  Built.start.of_allReady (by decide +kernel)

theorem merges_union_requiring : ∃ d', Merges requiring twoSchemas d' ∧
    (d'.forest.get 2).value "required"
      = .ofList (firsts ((suppliedBy 2 "required" requiring twoSchemas).flatMap supplied)) ∧
    (suppliedBy 2 "required" requiring twoSchemas).map (fun v => textsOf (.ofList (supplied v)))
      = [some [some "a", some "b", some "a"], some [some "b", some "c"], some [some "c", some "d"],
          some [some "e"]] ∧
    textsOf ((d'.forest.get 2).value "required")
      = some [some "a", some "b", some "c", some "d", some "e"] := by
  -- What the calls supply and what they leave, in one evaluation.
  obtain ⟨hmerges, hvalues, hempty, hplace, harray, hunset⟩ :
      mergesTo (fun d' => textsOf ((d'.forest.get 2).value "required")
        == some [some "a", some "b", some "c", some "d", some "e"]) requiring twoSchemas = true ∧
      (suppliedBy 2 "required" requiring twoSchemas).map (fun v => textsOf (.ofList (supplied v)))
        = [some [some "a", some "b", some "a"], some [some "b", some "c"],
            some [some "c", some "d"], some [some "e"]] ∧
      (suppliedBy 2 "required" requiring twoSchemas).isEmpty = false ∧
      2 < twoSchemas.forest.size ∧ "required" ∈ (twoSchemas.forest.get 2).kind.arrayFields ∧
      ((twoSchemas.forest.get 2).value "required").isUnset = true := by
    decide +kernel
  obtain ⟨d', hd', hcheck⟩ := exists_of_mergesTo hmerges
  have hunion := merges_union 2 "required" built_twoSchemas.consistent.formed hplace harray
    (Data.isUnset_iff.1 hunset) hd'
  rw [hempty] at hunion
  exact ⟨d', hd', hunion, hvalues, eq_of_beq hcheck⟩

end Edit

/-! ### Nodes that stand for mappings -/

namespace Entries

/-- Entries under the names of a list, no two of which are written alike. -/
theorem valuesFor_names {k : Kind} {names : List String} {name : String}
    (g : String → Option Data) (hnames : ∀ other ∈ names, other ∈ k.attributes)
    (hname : name ∈ k.attributes) (hnodup : names.Nodup) :
    Entries.valuesFor (names.filterMap fun other =>
      (g other).map fun v => (Data.str (wireName other), v)) name
        = if name ∈ names then (g name).toList else [] := by
  induction names with
  | nil => rfl
  | cons other names ih =>
    obtain ⟨hother, hnames⟩ := List.forall_mem_cons.1 hnames
    obtain ⟨hnotMem, hnodup⟩ := List.nodup_cons.1 hnodup
    have hrest := ih hnames hnodup
    by_cases he : other = name
    · subst he
      rw [if_neg hnotMem] at hrest
      rw [if_pos List.mem_cons_self]
      cases hg : g other with
      | none => rwa [List.filterMap_cons_none (by rw [hg]; rfl)]
      | some v =>
        rw [List.filterMap_cons_some (by rw [hg]; rfl), valuesFor_cons_self, hrest]
        rfl
    · have hkey : Data.str (wireName other) ≠ .str (wireName name) := fun hkey =>
        he (Kind.eq_of_wireName_eq hother hname (by simpa using hkey))
      have hmem : name ∈ other :: names ↔ name ∈ names := by simp [Ne.symm he]
      simp only [hmem]
      cases hg : g other with
      | none => rwa [List.filterMap_cons_none (by rw [hg]; rfl)]
      | some v => rwa [List.filterMap_cons_some (by rw [hg]; rfl), valuesFor_cons_of_ne hkey]

/-- Extensions are under no name of a field. -/
theorem AreExtensions.valuesFor_eq {es : Entries} (hes : es.AreExtensions) {k : Kind}
    {name : String} (hname : name ∈ k.attributes) : es.valuesFor name = [] := by
  rw [valuesFor, List.map_eq_nil_iff, List.filter_eq_nil_iff]
  intro e he hkey
  have hx := hes.2 e he _ (Data.same_str_iff.1 hkey)
  rw [Kind.startsWith_wireName hname] at hx
  cases hx

end Entries

namespace Forest

variable {f : Forest} {j : NodeId} {name : String} {es : Entries}

/-- A node that stands for a mapping supplies for a list that only grows what its own holds, if it
    is there: it is shown as it is, under the name of the field and nowhere else. -/
theorem valuesFor_content (hj : (f.get j).Tidy) (hname : name ∈ (f.get j).kind.arrayFields)
    (h : f.content j = .ok es) : es.valuesFor name
      = if (f.get j).isSet name then [shownValue ((f.get j).value name)] else [] := by
  obtain ⟨-, extensions, mark, hvalue, hextensions⟩ := hj
  have hattribute := Kind.mem_attributes_of_array hname
  have hshown : name ∈ (f.get j).kind.shownNames :=
    List.mem_append_left _ (Kind.arrayFields_shown _ name hname)
  rw [assemble_eq_append h hvalue hextensions, Entries.valuesFor_append,
    hextensions.valuesFor_eq hattribute, List.append_nil]
  refine (Entries.valuesFor_names _ (fun _ => Kind.mem_attributes_of_shown) hattribute
    (Kind.shownNames_nodup _)).trans ?_
  rw [if_pos hshown, shownUnder, Kind.placement?_fields _ name (Kind.mem_fields_of_array hname)]
  split <;> rfl

end Forest

/-! ### What a merge supplies for its target -/

namespace Edit.MergeCall

variable {c : MergeCall} {name : String} {d d' : Draft}

/-- A merge supplies for its target what its source says for it, and nothing else. -/
theorem supplies_target (hd : d.forest.Consistent) (htarget : c.target < d.forest.size)
    (hname : name ∈ (d.forest.get c.target).kind.arrayFields) (h : c.run d = .ok () d') :
    ∃ es, sourceEntries c.source c.target d = .ok es d ∧
      c.supplies c.target name d = es.valuesFor name := by
  rw [run, ← discard_mergeNoting] at h
  obtain ⟨notes, hnotes⟩ := discard_eq_ok.1 h
  obtain ⟨below, es, hes, hlast, -, hbelow⟩ :=
    Gathers.mergeNoting_eq_ok ⟨hd.formed, htarget, hname⟩ htarget hnotes
  -- Children come after their parents, so that nothing below is about the target.
  have hnone : Notes.valuesFor below c.target name = [] := by
    refine Notes.valuesFor_eq_nil fun note hnote he => ?_
    exact absurd (hbelow hd.ordered note hnote) (he ▸ Nat.lt_irrefl _)
  refine ⟨es, hes, ?_⟩
  rw [supplies, hnotes]
  dsimp only
  rw [hlast, Notes.valuesFor_append, hnone, Notes.valuesFor_self, List.nil_append]

/-- A mapping supplies the values that it has for the field. -/
theorem supplies_map {es : Entries} {mark : Nat} (hd : d.forest.Consistent)
    (htarget : c.target < d.forest.size)
    (hname : name ∈ (d.forest.get c.target).kind.arrayFields)
    (hsource : c.source = .map es mark) (h : c.run d = .ok () d') :
    c.supplies c.target name d = es.valuesFor name := by
  obtain ⟨es', hes, hsupplies⟩ := supplies_target hd htarget hname h
  rw [hsource] at hes
  cases hes
  exact hsupplies

/-- A node supplies what its own list holds, if that is there. -/
theorem supplies_node {j : NodeId} (hd : d.forest.Consistent) (htarget : c.target < d.forest.size)
    (hname : name ∈ (d.forest.get c.target).kind.arrayFields) (hsource : c.source = .node j)
    (hj : j < d.forest.size) (hlist : name ∈ (d.forest.get j).kind.arrayFields)
    (h : c.run d = .ok () d') : c.supplies c.target name d
      = if (d.forest.get j).isSet name then [shownValue ((d.forest.get j).value name)] else [] := by
  obtain ⟨es, hes, hsupplies⟩ := supplies_target hd htarget hname h
  rw [hsource] at hes
  obtain ⟨-, hcontent⟩ := Looks.content j es d hes
  rw [hsupplies, valuesFor_content (hd.tidy j hj) hlist hcontent]

end Edit.MergeCall

end ApiDoc
