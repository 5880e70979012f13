import ApiDoc.Proofs.Growth.Overwrite
import ApiDoc.Proofs.Policy.Opening
import ApiDoc.Proofs.Policy.Success
import ApiDoc.Proofs.Tree.Repetition

namespace ApiDoc

/-!
# Merges made twice

A merge that has succeeded succeeds once more, and then it leaves all content as it is:

* `Absorbed.entire` — the members and items of a source that has been taken in are mappings;
* `Edit.succeeds_again` — a merge that warns of refused keys does not fail the second time;
* `Edit.merge_twice`, `Edit.merge_again` — a source without nodes merged twice, and one with nodes
  of other trees;
* `Edit.merge_adds_again` — what stands in the way if it is allowed.
-/

open Forest MergeOptions

namespace Merge.Absorbed

variable {skips : Prop} {linked : NodeId → String → Placement → Data → NodeId → Prop} {i : NodeId}
  {k : Kind} {P : Data → Prop} {es : Entries} {σ : String} {p : Placement} {v : Data}

/-- The members and items of a value that has been taken in for a slot are mappings, and so they are
    where it has been left out: it has none. -/
theorem entire_slot (hv : p.Finds P v) (h : Absorbed skips linked (.slot σ p) i v) :
    p.Entire v := by
  cases p with
  | single => exact hv
  | keyed c key =>
    rintro fs mark rfl e he
    cases h with
    | refused _ htakes => exact absurd ⟨fs, mark, rfl⟩ htakes
    | keyed _ _ _ h => exact (h e he).content_eq_map ((hv fs mark rfl).2 e he).1
  | listed c slot =>
    intro xs hxs x hx
    cases h with
    | refused _ htakes => exact absurd ⟨xs, hxs⟩ htakes
    | listed hys _ _ h =>
      obtain rfl := Option.some.inj (hxs.symm.trans hys)
      exact (h x hx).item_eq_map (hv xs hxs x hx).1

/-- The members and items of a source that has been taken in are mappings. -/
theorem entire (hes : es.All (Entries.Findable P) k) (mark : Nat)
    (h : Absorbed skips linked (.content k) i (.map es mark)) : es.All Entries.Entire k := by
  refine all (fun k i es mark own h => ?_) hes mark h
  cases h with
  | map _ _ slots =>
    exact ⟨own.distinct.1, fun σ p v hp hv => (slots σ p v hp hv).entire_slot
      (own.finds σ p v hp hv)⟩

end Merge.Absorbed

namespace Edit

variable {o : MergeOptions} {t : Tree} {es es' : Entries} {mark mark' : Nat} {d d' : Draft}
  {i : NodeId} {A : Finset NodeId}

/-- A merge that warns of refused keys and has succeeded succeeds once more. -/
theorem succeeds_again {ov : Bool} {P : Data → Prop} (hf : d.forest.WellFormed i)
    (hupright : d.forest.Upright (d.forest.Around i))
    (hes : es.All (Entries.Findable P) (d.forest.get i).kind)
    (h : merge (lenient ov) (.map es mark) i d = .ok () d') :
    Succeeds (merge (lenient ov) (.map es mark) i) d' := by
  let S := d.forest.licence i (fun _ _ => True) ov
  have habsorbed := (Follows.merge (o := lenient ov) (S := S) (.map es mark) rfl
    (Licence.covers_any (fun _ _ => trivial) d.forest) hf.formed (.inl .self) hf.root
    trivial).2 _ _ h
  have hrun : Steps S d.forest d'.forest := by
    have hrun := merge_steps (lenient ov) (.map es mark) hf
    rwa [after_of_ok h] at hrun
  have hready : Ready S d.forest d i := ⟨.refl _, hf.formed, .inl .self, hf.root⟩
  exact Succeeds.content (n := d'.forest.size) (fun _ _ => trivial) (habsorbed.entire hes mark) d' i
    (hupright.steps hrun) (hready.steps hrun) (hrun.later.kind_eq i hf.root)

/-- A merge of a source without nodes that has succeeded succeeds once more and leaves the content
    of the node as it is. -/
theorem merge_twice (hd : d.forest.Holds t i A) (hf : d.forest.WellFormed i)
    (ht : t.All Tree.Typed)
    (ho : o.policy = .error ∨ d.forest.Rooted i ∧
      ∀ j, d.forest.Below i j → ∃ es mark, (d.forest.get j).extensions = .map es mark)
    (hes : es.All (Entries.Findable Data.EqualsItself) t.kind)
    (h : merge o (.map es mark) i d = .ok () d') :
    ∃ d'' content, merge o (.map es mark) i d' = .ok () d'' ∧
      d'.forest.content i = .ok content ∧ d''.forest.content i = .ok content := by
  have hturned := (Meets.mergeMap hes hd ht mark).of_ok h
  have ht' : (Tree.merge o.overwrite es t).All Tree.Typed := ht.typed_merge hes
  have hkind := Tree.merge_kind es t o.overwrite
  have hmeets := Meets.mergeMap (o := o) (hkind.symm ▸ hes) hturned.holds ht' mark
  have hagain : Succeeds (merge o (.map es mark) i) d' := by
    obtain ⟨ov, policy⟩ := o
    cases policy with
    | error =>
      have haccepted := accepted_of_merge rfl hf (hd.kind.symm ▸ hes) h
      obtain ⟨_, d'', hd'', -⟩ := hmeets.exists_ok (by rwa [hkind, ← hd.kind])
      exact ⟨(), d'', hd''⟩
    | warn =>
      obtain ⟨hroot, hextensions⟩ := ho.resolve_left nofun
      exact succeeds_again hf (hf.upright hroot hextensions) (hd.kind.symm ▸ hes) h
  obtain ⟨_, d'', hd''⟩ := hagain
  have hturned' := hmeets.of_ok hd''
  rw [Tree.merge_merge hes ht] at hturned'
  exact ⟨d'', _, hd'', hturned.holds.content_eq ht', hturned'.holds.content_eq ht'⟩

/-- A merge that has succeeded succeeds once more and leaves the content of the node as it is, if
    the nodes in its source stand apart from the tree and every item is found by some value. -/
theorem merge_again (hd : d.forest.Holds t i A) (hf : d.forest.WellFormed i)
    (ht : t.All Tree.Typed)
    (ho : o.policy = .error ∨ d.forest.Rooted i ∧
      ∀ j, d.forest.Below i j → ∃ es mark, (d.forest.get j).extensions = .map es mark)
    (hopens : Merge.Opens (d.forest.Apart Data.EqualsItself i) (.content t.kind) (.map es mark)
      (.map es' mark'))
    (hes : es'.All (Entries.Findable Data.EqualsItself) t.kind)
    (h : merge o (.map es mark) i d = .ok () d') :
    ∃ d'' content, merge o (.map es mark) i d' = .ok () d'' ∧
      d'.forest.content i = .ok content ∧ d''.forest.content i = .ok content := by
  let S := d.forest.licence i (fun _ _ => True) o.overwrite
  have hu : Merge.Under S d.forest (fun _ _ => True) o :=
    ⟨rfl, Licence.covers_any (fun _ _ => trivial) d.forest⟩
  have hready : Ready S d.forest d i := ⟨.refl _, hf.formed, .inl .self, hf.root⟩
  have hrun : Steps S d.forest d'.forest := by
    have hrun := merge_steps o (.map es mark) hf
    rwa [after_of_ok h] at hrun
  -- In both merges content could stand in the place of the nodes.
  have hfirst := merge_opened hu rfl hready (hd.kind.symm ▸ hopens)
  have hsecond := merge_opened hu rfl (hready.steps hrun)
    (((hrun.later.kind_eq i hf.root).trans hd.kind).symm ▸ hopens)
  rw [hsecond]
  exact merge_twice hd hf ht ho hes (hfirst ▸ h)

/-- A document with a server is found by its address. -/
theorem findable_oneServer (url description : String) :
    (oneServer url description).All (Entries.Findable Data.EqualsItself) .openApi := by
  refine (all_oneServer ⟨distinct_oneServer url description, fun σ p v hp hv => ?_⟩
    (source_description description)).findable
  obtain ⟨rfl, rfl⟩ := oneServer_slots hp hv
  exact brings_oneServer (Data.alike_str_iff.2 rfl)

/-- A server that is merged twice. -/
theorem merge_again_server : ∃ d' d'' content,
    merge (lenient true) (.map (oneServer "/" "Shop") 0) 0 twoDocuments = .ok () d' ∧
      merge (lenient true) (.map (oneServer "/" "Shop") 0) 0 d' = .ok () d'' ∧
      d'.forest.content 0 = .ok content ∧ d''.forest.content 0 = .ok content := by
  have h : Results.endsIn (merge (lenient true) (.map (oneServer "/" "Shop") 0) 0)
      (fun _ => true) twoDocuments = true := by
    decide +kernel
  obtain ⟨d', hd', -⟩ := Results.exists_of_endsIn h
  have hleaf : twoDocuments.forest.WellFormed 0 := .leaf (by decide) fun _ _ => rfl
  have hextensions : ∀ j, twoDocuments.forest.Below 0 j →
      ∃ es mark, (twoDocuments.forest.get j).extensions = .map es mark := by
    intro j hj
    match j, hleaf.lt_size hj with
    | 0, _ => exact ⟨[], 0, rfl⟩
    | 1, _ => exact ⟨[], 0, rfl⟩
  have hfindable := findable_oneServer "/" "Shop"
  obtain ⟨d'', content, hagain⟩ := merge_again (holds_twoDocuments (by decide)) hleaf
    (.leaf (Tree.typed_fresh rfl) rfl) (.inr ⟨.root (by decide) rfl, hextensions⟩)
    (.self hfindable 0) hfindable hd'
  exact ⟨d', d'', content, hd', hagain⟩

/-- Whether a merge into the first of some nodes succeeds twice and leaves different content. -/
def AddsAgain (o : MergeOptions) (es : Entries) (nodes : Array Node) : Prop :=
  ∃ d, merge o (.map es 0) 0 { forest := ⟨nodes⟩ } = .ok () d ∧ ∃ d',
    merge o (.map es 0) 0 d = .ok () d' ∧
      contentsDiffer (d.forest.content 0) (d'.forest.content 0) = true

/-- Items that carry none of the fields by which they are told apart, values that are not equal to
    themselves, and nodes of the tree itself: for each of these a merge adds something once more. -/
theorem merge_adds_again :
    -- A server without an address is new each time.
    AddsAgain {} [(.str "servers", .ofList [.ofEntries [(.str "description", .str "Shop")]])]
      #[{ kind := .openApi }] ∧
    -- So is one whose address is not a number.
    AddsAgain {} [(.str "servers", .ofList [.ofEntries [(.str "url", .scalar (.float (.nan 0)))]])]
      #[{ kind := .openApi }] ∧
    -- A node is read before it takes something itself.
    AddsAgain { overwrite := true }
      [(.str "components", .ofEntries [(.str "schemas", .ofEntries
        [(.str "B", .node 2), (.str "A", .ofEntries [(.str "title", .str "new")])])])]
      #[{ kind := .openApi, values := [("components", .node 1)] },
        { kind := .components, parent := .node 0, values := [("schemas", .ofList [.node 2])] },
        { kind := .schema, parent := .node 1,
          values := [("schema", .str "A"), ("title", .str "old")] }] := by
  have hadds : ∀ {o es nodes}, Results.endsIn (merge o (.map es 0) 0) (fun d =>
      Results.endsIn (merge o (.map es 0) 0) (fun d' =>
        contentsDiffer (d.forest.content 0) (d'.forest.content 0)) d) { forest := ⟨nodes⟩ } = true →
      AddsAgain o es nodes := by
    intro o es nodes h
    obtain ⟨d, hd, h⟩ := Results.exists_of_endsIn h
    exact ⟨d, hd, Results.exists_of_endsIn h⟩
  exact .imp hadds (.imp hadds hadds) (by decide +kernel)

end Edit

end ApiDoc
