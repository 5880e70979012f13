import ApiDoc.Proofs.Growth.Embedding
import ApiDoc.Proofs.Tree.Adoption

namespace ApiDoc

/-!
# Merges over what is there

A merge that overwrites and succeeds has adopted its source, and leaves everything that the source
does not mention:

* `Merge.Absorbed.accepted` — a source that has been taken in is one that its nodes accept;
* `Edit.merge_adopts` — the content before and after;
* `Edit.merge_not_adopts` — what stands in the way if it is allowed.
-/

open Forest Data

/-! ### Sources taken in -/

namespace Merge.Absorbed

variable {skips : Prop} {linked : NodeId → String → Placement → Data → NodeId → Prop} {i : NodeId}
  {v : Data} {k : Kind} {slot : CollectionSlot} {P : Data → Prop} {es : Entries} {σ : String}
  {p : Placement}

/-- Content is a mapping if it is no node. -/
theorem content_eq_map (h : Absorbed skips linked (.content k) i v) (hv : ∀ j, v ≠ .node j) :
    ∃ es mark, v = .map es mark := by
  cases h with
  | node => exact absurd rfl (hv _)
  | map mark => exact ⟨_, mark, rfl⟩

theorem item_eq_map (h : Absorbed skips linked (.item k slot) i v) (hv : ∀ j, v ≠ .node j) :
    ∃ es mark, v = .map es mark := by
  cases h with
  | itemNode => exact absurd rfl (hv _)
  | itemMap mark => exact ⟨_, mark, rfl⟩

/-- What has been taken in for a slot is accepted there, if there are no nodes in it. -/
theorem accepts (hskips : ¬skips) (hv : p.Finds P v)
    (h : Absorbed skips linked (.slot σ p) i v) : p.Accepts v := by
  cases h with
  | refused h => exact absurd h hskips
  | flag b => exact .inr ⟨rfl, b, rfl⟩
  | single _ h => exact .inl (h.content_eq_map hv)
  | keyed mark member _ h =>
    exact ⟨_, mark, rfl, fun e he => (h e he).content_eq_map ((hv _ mark rfl).2 e he).1⟩
  | listed hxs member _ h =>
    exact ⟨_, hxs, fun x hx => (h x hx).item_eq_map (hv _ hxs x hx).1⟩

/-- An item that has been taken in for a slot is taken in as content. -/
theorem item {item : Entries × Entries} (h : Absorbed skips linked (.slot σ p) i v)
    (hitem : item ∈ p.items v) :
    ∃ j mark, Absorbed skips linked (.content p.kind) j (.map item.2 mark) := by
  rcases Placement.mem_items hitem with ⟨c, key, fs, mark, e, gs, mark', rfl, rfl, he, hgs, rfl⟩ |
    ⟨c, slot, xs, gs, mark, rfl, hxs, hx, rfl⟩
  · cases h with
    | refused _ hv => exact absurd ⟨fs, mark, rfl⟩ hv
    | keyed _ member _ h =>
      have he' := h e he
      rw [hgs] at he'
      exact ⟨_, _, he'⟩
  · cases h with
    | refused _ hv => exact absurd ⟨xs, hxs⟩ hv
    | listed hys member _ h =>
      obtain rfl := Option.some.inj (hxs.symm.trans hys)
      cases h _ hx with
      | itemMap _ h => exact ⟨_, _, h⟩

/-- What holds of all sources that have been taken in holds of one at every depth. -/
theorem all {Q R : Kind → Entries → Prop} (hQ : ∀ k i es mark, R k es →
      Absorbed skips linked (.content k) i (.map es mark) → Q k es)
    (hes : es.All R k) (mark : Nat) (h : Absorbed skips linked (.content k) i (.map es mark)) :
    es.All Q k := by
  induction hes generalizing i mark with
  | @mk k es own _ _ ihs ihm =>
    have hown := hQ k i es mark own h
    cases h with
    | map _ _ slots =>
      refine .mk hown (fun σ c b fs mark hp hv => ?_) fun σ p v item hp hv hitem => ?_
      · cases slots σ _ _ hp hv with
        | refused _ hv => exact absurd (.inl ⟨fs, mark, rfl⟩) hv
        | single _ h => exact ihs σ c b fs mark hp hv mark h
      · obtain ⟨j, mark, h⟩ := (slots σ p v hp hv).item hitem
        exact ihm σ p v item hp hv hitem mark h

/-- A source that has been taken in is accepted at every depth, if no key has been left out. -/
theorem accepted (hskips : ¬skips) (hes : es.All (Entries.Findable P) k) (mark : Nat)
    (h : Absorbed skips linked (.content k) i (.map es mark)) : es.All Entries.Accepted k := by
  refine all (fun k i es mark own h => ?_) hes mark h
  cases h with
  | map _ plain slots =>
    refine ⟨fun σ p v hp hv => ?_, fun e he hnot s hs => ?_⟩
    · exact (slots σ p v hp hv).accepts hskips (own.finds σ p v hp hv)
    · obtain ⟨r, hr, htaken⟩ := plain e he hnot
      obtain rfl : r = s := by simpa using hr.symm.trans hs
      exact htaken.imp_right fun h => h.resolve_right hskips

end Merge.Absorbed

/-! ### Merges -/

namespace Edit

variable {o : MergeOptions} {t : Tree} {es : Entries} {mark : Nat} {d d' : Draft} {i : NodeId}
  {A : Finset NodeId}

/-- A mapping that has been merged without leaving out keys is accepted at every depth. -/
theorem accepted_of_merge {P : Data → Prop} (ho : o.policy = .error) (hf : d.forest.WellFormed i)
    (hes : es.All (Entries.Findable P) (d.forest.get i).kind)
    (h : merge o (.map es mark) i d = .ok () d') : es.All Entries.Accepted (d.forest.get i).kind := by
  have hcovers := Licence.covers_any
    (S := d.forest.licence i (fun _ _ => True) o.overwrite) (fun _ _ => trivial) d.forest
  have habsorbed := (Follows.merge (o := o) (.map es mark) rfl hcovers hf.formed (Or.inl .self)
    hf.root trivial).2 _ _ h
  refine habsorbed.accepted ?_ hes mark
  rw [ho]
  decide

/-- A merge that overwrites, and leaves out no key of a source, leaves the content of a node with
    the source adopted and everything else as it was, at every depth. -/
theorem merge_adopts (ho : o.policy = .error ∨ es.All Entries.Accepted t.kind)
    (hov : o.overwrite = true) (hd : d.forest.Holds t i A) (hf : d.forest.WellFormed i)
    (ht : t.All Tree.Kept) (hes : es.All Entries.Adoptable t.kind)
    (h : merge o (.map es mark) i d = .ok () d') :
    ∃ before after, d.forest.content i = .ok before ∧ d'.forest.content i = .ok after ∧
      ∀ depth, es.Adopts depth t.kind before after := by
  have hsource : es.All (Entries.Source fun _ => True) t.kind := hes.mono fun _ _ h => h.toSource
  have htyped : t.All Tree.Typed := ht.mono fun _ h => h.typed
  have hacc : es.All Entries.Accepted t.kind := by
    rcases ho with ho | hacc
    · have hsource' : es.All (Entries.Source fun _ => True) (d.forest.get i).kind := by
        rw [hd.kind]
        exact hsource
      rw [← hd.kind]
      exact accepted_of_merge ho hf hsource'.findable h
    · exact hacc
  have hturned := (Meets.mergeMap hsource.findable hd htyped mark).of_ok h
  rw [hov] at hturned
  exact ⟨_, _, hd.content_eq htyped,
    hturned.holds.content_eq (htyped.typed_merge hsource.findable),
    fun depth => t.adopts_merge depth hes hacc ht⟩

/-- A document with a server can be adopted. -/
theorem adoptable_oneServer (url description : String) :
    (oneServer url description).All Entries.Adoptable .openApi := by
  have hopenApi : Kind.openApi.internalFields = [] := by decide
  have hserver : Kind.server.internalFields = [] := by decide
  refine all_oneServer ⟨⟨distinct_oneServer url description, fun σ p v hp hv => ?_⟩,
      fun name hname => ?_, fun σ c slot v hp hv => ?_⟩
    ⟨source_description description, fun name hname => ?_, fun σ c slot v hp => ?_⟩
  · obtain ⟨rfl, rfl⟩ := oneServer_slots hp hv
    exact brings_oneServer trivial
  · rw [hopenApi] at hname
    exact absurd hname List.not_mem_nil
  · obtain ⟨hplacement, rfl⟩ := oneServer_slots hp hv
    cases hplacement
    exact List.pairwise_singleton _ _
  · rw [hserver] at hname
    exact absurd hname List.not_mem_nil
  · exact absurd (Kind.mem_slots_of_placement? hp) List.not_mem_nil

/-- A server that is described anew. -/
theorem merge_adopts_server : ∃ d d' before after,
    merge {} (.map (oneServer "/" "Shop") 0) 0 twoDocuments = .ok () d ∧
      merge { overwrite := true } (.map (oneServer "/" "Store") 0) 0 d = .ok () d' ∧
      d.forest.content 0 = .ok before ∧ d'.forest.content 0 = .ok after ∧
      ∀ depth, (oneServer "/" "Store").Adopts depth .openApi before after := by
  have h : Results.endsIn (merge {} (.map (oneServer "/" "Shop") 0) 0)
      (fun d => Results.endsIn (merge { overwrite := true } (.map (oneServer "/" "Store") 0) 0)
        (fun _ => true) d) twoDocuments = true := by
    decide +kernel
  obtain ⟨d, hd, h⟩ := Results.exists_of_endsIn h
  obtain ⟨d', hd', -⟩ := Results.exists_of_endsIn h
  have hempty : (Tree.fresh .openApi []).All Tree.Orderly :=
    .leaf (Tree.orderly_of_empty rfl rfl fun _ _ => rfl) rfl
  have hsource := source_oneServer "/" "Shop"
  -- The document before both merges has no children.
  have hleaf : twoDocuments.forest.WellFormed 0 := .leaf (by decide) fun _ _ => rfl
  have hrun := merge_steps {} (.map (oneServer "/" "Shop") 0) hleaf
  rw [after_of_ok hd] at hrun
  have hf : d.forest.WellFormed 0 := (hrun.formed hleaf.formed).wellFormed (Or.inl .self)
    (Nat.lt_of_lt_of_le hleaf.root hrun.later.size_le)
  have hturned := (Meets.mergeMap hsource.findable (holds_twoDocuments (by decide))
    (hempty.mono fun _ h => h.typed) 0).of_ok hd
  have horderly : (Tree.merge false (oneServer "/" "Shop") (Tree.fresh .openApi [])).All
      Tree.Orderly := hempty.orderly_merge hsource
  have hkind := Tree.merge_kind (oneServer "/" "Shop") (Tree.fresh .openApi []) false
  obtain ⟨before, after, hbefore, hafter, hadopts⟩ := merge_adopts (.inl rfl) rfl hturned.holds hf
    (horderly.mono fun _ h => h.kept) (by rw [hkind]; exact adoptable_oneServer "/" "Store") hd'
  rw [hkind] at hadopts
  exact ⟨d, d', before, after, hd, hd', hbefore, hafter, hadopts⟩

/-- A merge over what is there into the first of some nodes that succeeds and leaves content of some
    sort. -/
def LeavesOver (policy : Policy) (es : Entries) (nodes : Array Node)
    (test : Except Failure Entries → Bool) : Prop :=
  ∃ d', merge { overwrite := true, policy } (.map es 0) 0 { forest := ⟨nodes⟩ } = .ok () d' ∧
    test (d'.forest.content 0) = true

/-- Whether there is content that passes a test. -/
def contentPasses (test : Entries → Bool) : Except Failure Entries → Bool
  | .ok fs => test fs
  | .error _ => false

/-- Keys that are left out, keys of members that cannot be shown, two members under a key,
    extensions under the keys of slots, nodes in the place of content, tuples, and values that are
    equal to others: for each of these a source is not read back. -/
theorem merge_not_adopts :
    -- A key that the node does not take is left out.
    LeavesOver .warn [(.str "nope", .str "x")] #[{ kind := .openApi }]
      (contentPasses fun fs => (fs.text? "nope").isNone) ∧
    -- There is no content where the key of a member is a list.
    LeavesOver .error [(.str "openapi", .str "3.0.0")]
      #[{ kind := .openApi, values := [("paths", .ofList [.node 1])] },
        { kind := .pathItem, parent := .node 0, values := [("path", .ofList [])] }]
      (fun content => !contentPasses (fun _ => true) content) ∧
    -- Of two members under a key the first one is found, and the last one shown.
    LeavesOver .error
      [(.str "paths", .ofEntries [(.str "/", .ofEntries [(.str "summary", .str "a")])])]
      #[{ kind := .openApi, values := [("paths", .ofList [.node 1, .node 2])] },
        { kind := .pathItem, parent := .node 0, values := [("path", .str "/")] },
        { kind := .pathItem, parent := .node 0, values := [("path", .str "/")] }]
      (contentPasses fun fs => ((contentIn ((contentIn (fs.text? "paths")).text? "/")).text?
        "summary").isNone) ∧
    -- An extension takes the place of a child.
    LeavesOver .error [(.str "info", .ofEntries [(.str "version", .str "1")])]
      #[{ kind := .openApi,
          extensions := .ofEntries [(.str "info", .ofEntries [(.str "title", .str "a")])] }]
      (contentPasses fun fs => ((contentIn (fs.text? "info")).text? "version").isNone) ∧
    -- A node that stands in the source takes something from it before it is read.
    LeavesOver .error
      [(.str "components", .ofEntries [(.str "schemas", .ofEntries
        [(.str "A", .ofEntries [(.str "title", .str "new")]), (.str "B", .node 2)])])]
      #[{ kind := .openApi, values := [("components", .node 1)] },
        { kind := .components, parent := .node 0, values := [("schemas", .ofList [.node 2])] },
        { kind := .schema, parent := .node 1,
          values := [("schema", .str "A"), ("title", .str "old")] }]
      (contentPasses fun fs => (((contentIn ((contentIn ((contentIn (fs.text? "components")).text?
        "schemas")).text? "B")).text? "title").getD .unset).identical (.str "new")) ∧
    -- A tuple is shown as a list.
    LeavesOver .error [(.str "openapi", .ofTuple [.int 1])] #[{ kind := .openApi }]
      (contentPasses fun fs => ((fs.text? "openapi").getD .unset).typeName == "list") ∧
    -- A server whose address is equal to the one given keeps its own.
    LeavesOver .error [(.str "servers", .ofList [.ofEntries [(.str "url", .int 1)]])]
      #[{ kind := .openApi, values := [("servers", .ofList [.node 1])] },
        { kind := .server, parent := .node 0, values := [("url", .bool true)] }]
      (contentPasses fun fs => ((contentIn (itemsIn (fs.text? "servers"))[0]?).text? "url").any
        (·.identical (.bool true))) := by
  have hleaves : ∀ {policy es nodes test},
      Results.endsIn (merge { overwrite := true, policy } (.map es 0) 0)
        (fun d' => test (d'.forest.content 0)) { forest := ⟨nodes⟩ } = true →
      LeavesOver policy es nodes test := fun h => Results.exists_of_endsIn h
  exact .imp hleaves (.imp hleaves (.imp hleaves (.imp hleaves (.imp hleaves (.imp hleaves
    hleaves))))) (by decide +kernel)

end Edit

end ApiDoc
