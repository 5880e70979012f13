import ApiDoc.Describe.Defaults
import ApiDoc.Proofs.Growth.Defaults
import ApiDoc.Proofs.Growth.Refusal

namespace ApiDoc

/-!
# Defaults filled in

* `Edit.fill_eq`, `Edit.child_found`, `Edit.indexedItem_of_bare` — values filled in, and children
  found or made, with what they leave;
* `Edit.fillDefaults_info` — the information of a document;
* `Edit.fillResponse_replies` — one operation, and `Edit.fillPaths_replies` — the loops over path
  items and methods;
* `Edit.fillDefaults_of_complete` — nothing is filled in where nothing is missing;
* `Edit.fillDefaults_completes` — every document is completed, and nothing else happens to it.
-/

open Forest

/-! ### Filling in -/

namespace Edit

variable {d : Draft} {i j o : NodeId} {k : Kind} {b : Bool} {σ name : String} {fields : Entries}

/-- A field filled. -/
theorem fill_eq (hlt : j < d.forest.size) (name : String)
    (hname : name ∈ (d.forest.get j).kind.fields) (v : Data) :
    ∃ g, fill j name v d = .ok () (d.to g) ∧ g.size = d.forest.size ∧
      g.get j = (d.forest.get j).filled name v ∧ ∀ k, k ≠ j → g.get k = d.forest.get k := by
  have hread : Edit.read j name d = .ok ((d.forest.get j).value name) d :=
    read_eq (List.mem_append_left _ hname)
  unfold fill Node.filled Node.isSet
  rw [Results.bind_of_ok hread]
  by_cases hunset : ((d.forest.get j).value name).isUnset = true
  · refine ⟨d.forest.put j ((d.forest.get j).putValue name v), ?_, size_put .., ?_, ?_⟩
    · rw [if_pos hunset]
      show (ofExcept ((d.forest.get j).assign? name v) >>= fun n => setNode j n) d = _
      rw [Node.assign?_field _ hname]
      rfl
    · rw [d.forest.get_put_self hlt, hunset]
      rfl
    · exact fun k hk => get_put_of_ne _ hk _
  · refine ⟨d.forest, ?_, rfl, ?_, fun k _ => rfl⟩
    · rw [if_neg hunset]
      rfl
    · rw [Bool.eq_false_iff.2 hunset]
      rfl

/-- A field that is set is left alone. -/
theorem fill_of_isSet (hname : name ∈ (d.forest.get j).kind.fields)
    (hset : (d.forest.get j).isSet name = true) (v : Data) : fill j name v d = .ok () d := by
  have hread : Edit.read j name d = .ok ((d.forest.get j).value name) d :=
    read_eq (List.mem_append_left _ hname)
  unfold fill
  rw [Results.bind_of_ok hread, if_neg (by simpa [Node.isSet] using hset)]
  rfl

/-- A child that is there is found. -/
theorem child_found (hp : (d.forest.get i).kind.placement? σ = some (.single k b))
    (hvalue : (d.forest.get i).value σ = .node j) : child i k fields d = .ok j d := by
  have hslot : singularSlot i k d = .ok σ d :=
    slotFor_eq _ _ (Kind.lookup_singular _ _ (Kind.mem_singular_of_placement? hp))
  unfold child
  rw [Results.bind_of_ok hslot,
    Results.bind_of_ok (show Edit.node i d = .ok (d.forest.get i) d from rfl), hvalue]
  rfl

/-- A child that is missing is made. -/
theorem child_made (hlt : i < d.forest.size)
    (hp : (d.forest.get i).kind.placement? σ = some (.single k b)) (hfields : fields.AreFields k)
    (hvalue : (d.forest.get i).value σ = .unset) : child i k fields d
      = .ok d.forest.size (d.to (withChild d.forest i k fields σ (.node d.forest.size))) := by
  have hslot : singularSlot i k d = .ok σ d :=
    slotFor_eq _ _ (Kind.lookup_singular _ _ (Kind.mem_singular_of_placement? hp))
  unfold child
  rw [Results.bind_of_ok hslot,
    Results.bind_of_ok (show Edit.node i d = .ok (d.forest.get i) d from rfl), hvalue]
  exact addDetached_assign hfields hlt fun j => .node j

/-- Without members an empty list is there, or it is opened. -/
theorem ensureList_of_bare (hlt : i < d.forest.size) (hσ : σ ∈ (d.forest.get i).kind.slots)
    (hbare : (d.forest.get i).value σ = .unset ∨ ∃ mark, (d.forest.get i).value σ = .list [] mark) :
    ∃ f mark, ensureList i σ d = .ok ([], mark) (d.to f) ∧ f.size = d.forest.size ∧
      (d.forest.get i).SameBut [σ] (f.get i) ∧ ∀ j, j ≠ i → f.get j = d.forest.get j := by
  rcases Refused.ensureList_cases (d := d) hσ with ⟨items, mark, hv, hrun⟩ | ⟨hno, hrun⟩
  · rcases hbare with hv' | ⟨mark', hv'⟩ <;> cases hv.symm.trans hv'
    exact ⟨_, _, hrun, rfl, .refl _ _, fun _ _ => rfl⟩
  · refine ⟨_, 0, hrun, size_put .., ?_, fun j hj => get_put_of_ne _ hj _⟩
    rw [opened, get_put_self _ hlt]
    exact .putValue (List.mem_singleton_self _) _ _

/-- A member under a key is made where no member is. -/
theorem indexedItem_of_bare {key : String} (hlt : i < d.forest.size)
    (hp : (d.forest.get i).kind.placement? σ = some (.keyed k key)) (v : Data)
    (hbare : (d.forest.get i).value σ = .unset ∨ ∃ mark, (d.forest.get i).value σ = .list [] mark) :
    ∃ g, indexedItem i k v d = .ok d.forest.size (d.to g) ∧ g.size = d.forest.size + 1 ∧
      g.get d.forest.size = Node.putFields { kind := k, parent := .node i } [(.str key, v)] ∧
      (∃ mark, (g.get i).value σ = .list [.node d.forest.size] mark) ∧
      (d.forest.get i).SameBut [σ] (g.get i) ∧
      ∀ j < d.forest.size, j ≠ i → g.get j = d.forest.get j := by
  have hσ := Kind.mem_slots_of_placement? hp
  obtain ⟨slot, hslot, rfl, rfl⟩ := Kind.mem_indexed_of_placement? hp
  have hindexed : indexedSlot i k d = .ok slot d := slotFor_eq _ _ (Kind.lookup_indexed _ _ hslot)
  have hfields : Entries.AreFields k [(.str slot.key, v)] := by
    intro e he
    rw [List.mem_singleton.1 he]
    exact ⟨slot.key, Kind.index_mem_fields _ _ hslot, rfl⟩
  have hmembers : membersOf i slot.name d = .ok [] d := by
    unfold membersOf
    rw [Results.bind_of_ok (read_eq (List.mem_append_right _ hσ))]
    rcases hbare with hv | ⟨mark, hv⟩ <;> rw [hv] <;> rfl
  have hsearch : searchIndexed [] slot.key v d = .ok none d := rfl
  -- The list may have been opened first, so that the member is appended in another forest.
  obtain ⟨f, mark, hensure, hsize, hsame, hother⟩ := ensureList_of_bare hlt hσ hbare
  have hlt' : i < f.size := hsize ▸ hlt
  have happend : appendItem i slot.name k [(.str slot.key, v)] d = .ok (d.forest.size, 0)
      (d.to (withChild f i k [(.str slot.key, v)] slot.name
        (.list [.node d.forest.size] mark))) := by
    have hmember := addDetached_member (d := d.to f) hfields hlt' (σ := slot.name)
      (by rw [hsame.kind_eq]; exact hσ) [] mark
    rw [hsize] at hmember
    exact (Results.bind_of_ok hensure).trans hmember
  refine ⟨withChild f i k [(.str slot.key, v)] slot.name (.list [.node d.forest.size] mark), ?_,
    by rw [size_withChild, hsize], ?_, ⟨mark, ?_⟩, ?_, fun j hj hji => ?_⟩
  · unfold indexedItem
    rw [Results.bind_of_ok hindexed, Results.bind_of_ok hmembers, Results.bind_of_ok hsearch]
    exact Results.bind_of_ok happend
  · rw [← hsize]
    exact get_withChild_new hlt'
  · rw [get_withChild hlt']
    exact Node.value_putValue_self _ _ rfl
  · rw [get_withChild hlt']
    exact hsame.trans (.putValue (List.mem_singleton_self _) _ _)
  · rw [get_withChild_of_ne (hsize ▸ hj) hji, hother j hji]

/-- Title and version of a node that holds the information of a document. -/
theorem fillInfo_eq (c : Config) (hlt : j < d.forest.size) (hkind : (d.forest.get j).kind = .info) :
    ∃ g, (do
      fill j "title" (.str c.infoTitle)
      fill j "version" (.str c.infoVersion) : Edit Unit) d = .ok () (d.to g) ∧
      g.size = d.forest.size ∧
      g.get j = ((d.forest.get j).filled "title" (.str c.infoTitle)).filled "version"
        (.str c.infoVersion) ∧ ∀ k, k ≠ j → g.get k = d.forest.get k := by
  obtain ⟨g₁, hrun₁, hsize₁, hget₁, hother₁⟩ := fill_eq (d := d) hlt "title"
    (by rw [hkind]; decide) (.str c.infoTitle)
  have hkind₁ : (g₁.get j).kind = .info := by
    rw [hget₁, (Node.sameBut_filled (List.mem_singleton_self _) _ _).kind_eq, hkind]
  obtain ⟨g₂, hrun₂, hsize₂, hget₂, hother₂⟩ := fill_eq (d := d.to g₁) (j := j)
    (by rw [← hsize₁] at hlt; exact hlt) "version" (by rw [hkind₁]; decide) (.str c.infoVersion)
  refine ⟨g₂, (Results.bind_of_ok hrun₁).trans hrun₂, hsize₂.trans hsize₁, ?_, fun k hk => ?_⟩
  · rw [hget₂, ← hget₁]
  · rw [hother₂ k hk]
    exact hother₁ k hk

/-- The information of a document is found or made, and filled in. What remains are the paths. -/
theorem fillDefaults_info (c : Config) (hf : d.forest.IsDocument i) :
    ∃ g, d.forest.Informed c i g ∧ fillDefaults c i d
      = (do (← membersOf i "paths").forM fillOperations : Edit Unit) (d.to g) := by
  have hlt := hf.wellFormed.root
  -- Whichever node it is, title and version are filled in there.
  have hrest : ∀ {j : NodeId} {d₁ : Draft} {g : Forest}, Edit.child i .info [] d = .ok j d₁ →
      (do
        fill j "title" (.str c.infoTitle)
        fill j "version" (.str c.infoVersion) : Edit Unit) d₁ = .ok () (d.to g) →
      fillDefaults c i d
        = (do (← membersOf i "paths").forM fillOperations : Edit Unit) (d.to g) := by
    intro j d₁ g hchild hfill
    obtain ⟨⟨⟩, d₂, hrun₁, hrun₂⟩ := Results.bind_eq_ok.1 hfill
    unfold fillDefaults
    rw [Results.bind_of_ok hchild, Results.bind_of_ok hrun₁, Results.bind_of_ok hrun₂]
  rcases hf.info with hunset | ⟨j, hvalue, hc⟩
  · have hfields : Entries.AreFields .info [] := fun _ h => absurd h List.not_mem_nil
    have hchild := child_made hlt hf.placement?_info hfields hunset
    have hne : d.forest.size ≠ i := Nat.ne_of_gt hlt
    have hnew : (withChild d.forest i .info [] "info" (.node d.forest.size)).get d.forest.size =
        { kind := .info, parent := .node i } := get_withChild_new hlt
    obtain ⟨g, hrun, hsize, hget, hother⟩ := fillInfo_eq (j := d.forest.size)
      (d := d.to (withChild d.forest i .info [] "info" (.node d.forest.size))) c
      (by rw [size_withChild]; exact Nat.lt_succ_self _) (by rw [hnew])
    refine ⟨g, .made hunset ?_ ?_ ?_ fun k hk hki => ?_, hrest hchild hrun⟩
    · rw [hsize, size_withChild]
    · rw [hget, hnew]
      rfl
    · rw [hother i hne.symm, get_withChild hlt]
    · rw [hother k (Nat.ne_of_lt hk), get_withChild_of_ne hk hki]
  · obtain ⟨g, hrun, hsize, hget, hother⟩ := fillInfo_eq c hc.1 hc.2.1
    exact ⟨g, .found hvalue hsize hget hother,
      hrest (child_found hf.placement?_info hvalue) hrun⟩

/-! ### Responses -/

/-- An operation with a response stays as it is. -/
theorem fillResponse_of_responses (hkind : (d.forest.get o).kind.isOperation = true)
    (hsome : d.forest.responses o ≠ []) : fillResponse o d = .ok () d := by
  have hslot := Kind.mem_slots_of_placement? (Kind.responses_of_isOperation hkind).1
  unfold fillResponse
  rw [Results.bind_of_ok (read_eq (List.mem_append_right _ hslot)), Data.truthy_of_nodes hsome]
  rfl

/-- An operation without responses gets one, which is a new node. -/
theorem fillResponse_of_bare (hlt : o < d.forest.size)
    (hkind : (d.forest.get o).kind.isOperation = true)
    (hbare : (d.forest.get o).value "responses" = .unset ∨
      ∃ mark, (d.forest.get o).value "responses" = .list [] mark) :
    ∃ g, fillResponse o d = .ok () (d.to g) ∧ d.forest.Replied g o d.forest.size ∧
      g.size = d.forest.size + 1 ∧ ∀ j < d.forest.size, j ≠ o → g.get j = d.forest.get j := by
  obtain ⟨hp, -⟩ := Kind.responses_of_isOperation hkind
  have hread : Edit.read o "responses" d = .ok ((d.forest.get o).value "responses") d :=
    read_eq (List.mem_append_right _ (Kind.mem_slots_of_placement? hp))
  -- Without a list of responses there is no response.
  have hnone : ((d.forest.get o).value "responses").truthy = false ∧ d.forest.responses o = [] := by
    unfold responses
    rcases hbare with hv | ⟨mark, hv⟩ <;> rw [hv] <;> exact ⟨rfl, rfl⟩
  -- The response is made first, then its description is filled in; neither touches another node.
  obtain ⟨g₁, hitem, hsize₁, hnew, hlisted, hsame, hother₁⟩ :=
    indexedItem_of_bare hlt hp (.str "default") hbare
  have hlt₁ : d.forest.size < g₁.size := by
    rw [hsize₁]
    exact Nat.lt_succ_self _
  have hfield : "description" ∈ (g₁.get d.forest.size).kind.fields := by
    rw [hnew]
    exact (by decide : "description" ∈ Kind.response.fields)
  obtain ⟨g, hfill, hsize, hget, hother⟩ := fill_eq (d := d.to g₁) hlt₁ "description" hfield
    (.str "Default response")
  have ho : g.get o = g₁.get o := hother o (Nat.ne_of_lt hlt)
  refine ⟨g, ?_, ⟨hnone.2, hlt, ⟨Nat.le_refl _, hsize ▸ hlt₁⟩, ?_, ho ▸ hlisted, ho ▸ hsame⟩,
    hsize.trans hsize₁, fun j hj hjo => ?_⟩
  · unfold fillResponse
    rw [Results.bind_of_ok hread, hnone.1]
    exact (Results.bind_of_ok hitem).trans hfill
  · rw [hget, hnew]
    rfl
  · exact (hother j (Nat.ne_of_lt hj)).trans (hother₁ j hj hjo)

/-! ### The loops -/

/-- A loop of which no turn does anything. -/
theorem forM_of_ok {α : Type} {act : α → Edit Unit} {xs : List α}
    (h : ∀ x ∈ xs, act x d = .ok () d) : xs.forM act d = .ok () d := by
  induction xs with
  | nil => rfl
  | cons x xs ih =>
    obtain ⟨hx, hxs⟩ := List.forall_mem_cons.1 h
    exact (Results.bind_of_ok hx).trans (ih hxs)

variable {f : Forest} {O : NodeId → Prop} {p : NodeId}

/-- What stands under the name of a method of a path item. -/
theorem readMethod (hp : (d.forest.get p).kind = .pathItem) {m : String × Kind}
    (hm : m ∈ Kind.operations) : ofExcept (d.forest.readFrom (.node p) m.1) d
      = .ok ((d.forest.get p).value m.1) d := by
  have hslot : m.1 ∈ (d.forest.get p).kind.slots := by
    rw [hp]
    exact Kind.mem_slots_of_placement? (Kind.placement?_method hm)
  show ofExcept (d.forest.read p m.1) d = _
  rw [read_attribute (List.mem_append_right _ hslot)]
  rfl

/-- One turn: an operation of the document that is reached has a response afterwards. -/
theorem fillResponse_replies (hf : f.IsDocument i) (hd : f.Replies O d.forest)
    (ho : f.Operates i o) : Meets (fillResponse o) d True fun _ d' =>
      d' = d.to d'.forest ∧ f.Replies (fun j => O j ∨ j = o) d'.forest := by
  obtain ⟨hlt, hkind, -⟩ := hf.operation ho
  have hlt' := Nat.lt_of_lt_of_le hlt hd.size_le
  -- It has become another node only if it has a response by now.
  have hcases : d.forest.get o = f.get o ∨ ∃ n, f.Replied d.forest o n := by
    by_cases h : O o ∧ f.responses o = []
    · exact .inr (hd.replied o h.1 h.2)
    · exact .inl (hd.same o hlt h)
  have hkind' : (d.forest.get o).kind.isOperation = true := by
    rcases hcases with hsame | ⟨n, hn⟩
    · rwa [hsame]
    · rwa [hn.same.kind_eq]
  by_cases hsome : d.forest.responses o = []
  · have hsame : d.forest.get o = f.get o := by
      refine hcases.resolve_right fun ⟨n, hn⟩ => ?_
      exact absurd (hn.responses_eq.symm.trans hsome) (List.cons_ne_nil _ _)
    have hbare := hf.bare ho (by rw [responses, ← hsame]; exact hsome)
    rw [← hsame] at hbare
    obtain ⟨g, hrun, hreplied, hsize, hother⟩ := fillResponse_of_bare hlt' hkind' hbare
    unfold Meets
    rw [hrun]
    exact ⟨rfl, hd.answer hlt hreplied hsize hother⟩
  · unfold Meets
    rw [fillResponse_of_responses hkind' hsome]
    exact ⟨rfl, hd.pass hlt hsome⟩

/-- The operations of a path item, one after the other. -/
theorem fillOperations_replies (hf : f.IsDocument i) (hd : f.Replies O d.forest)
    (hO : ∀ o, O o → f.Operates i o) (hp : .node p ∈ ((f.get i).value "paths").nodes) :
    Meets (fillOperations (.node p)) d True fun _ d' => d' = d.to d'.forest ∧
      f.Replies (fun o => O o ∨ ∃ m ∈ Kind.operations, (f.get p).value m.1 = .node o)
        d'.forest := by
  refine Meets.forM (I := fun before d' => d' = d.to d'.forest ∧
    f.Replies (fun o => O o ∨ ∃ m : String × Kind, m ∈ before ∧ (f.get p).value m.1 = .node o)
      d'.forest) ⟨rfl, hd.congr fun o => ?_⟩ fun before m rest hsplit d₁ hd₁ => ?_
  · simp
  obtain ⟨he, hreplies⟩ := hd₁
  have hm : ∀ m' ∈ before ++ [m], m' ∈ Kind.operations := by
    intro m' hm'
    rw [hsplit, List.append_cons]
    exact List.mem_append_left _ hm'
  obtain ⟨hchild, -⟩ := hf.pathItem hp
  -- A path item is no operation, so that it has stayed as it was.
  have hitem : d₁.forest.get p = f.get p := by
    refine hreplies.same p hchild.1 fun hreached => ?_
    have hoperates : f.Operates i p := by
      rcases hreached.1 with h | ⟨m', hm', h⟩
      · exact hO p h
      · exact ⟨p, hp, m', hm m' (List.mem_append_left _ hm'), h⟩
    have hkind := (hf.operation hoperates).2.1
    rw [hchild.2.1] at hkind
    exact absurd hkind (by decide)
  have hm' := hm m (List.mem_append_right _ (List.mem_singleton_self m))
  have hread := readMethod (d := d₁) (by rw [hitem]; exact hchild.2.1) hm'
  rw [hitem] at hread
  refine .after_look (show Edit.forest d₁ = .ok d₁.forest d₁ from rfl) (.after_look hread ?_)
  rcases hf.method hp hm' with hunset | ⟨o, ho, hoperates⟩
  · rw [hunset]
    refine .pure ⟨he, hreplies.congr fun o => ?_⟩
    simp [or_and_right, exists_or, hunset]
  · rw [ho]
    refine (fillResponse_replies hf hreplies hoperates).mono fun _ d₂ hd₂ => ?_
    refine ⟨?_, hd₂.2.congr fun o' => ?_⟩
    · rw [hd₂.1, he]
    · simp only [List.mem_append, List.mem_singleton, or_and_right, exists_or, exists_eq_left, ho,
        Data.node.injEq, or_assoc, eq_comm (a := o)]

/-- All path items, one after the other. -/
theorem fillPaths_replies (hf : f.IsDocument i) (hd : d.forest = f) :
    Meets (do (← membersOf i "paths").forM fillOperations) d True fun _ d' =>
      d' = d.to d'.forest ∧ f.Replies (f.Operates i) d'.forest := by
  subst hd
  have hmembers := membersOf_formed hf.wellFormed.formed (.inl .self) hf.wellFormed.root
    hf.placement?_paths rfl
  refine .after_look hmembers ?_
  refine Meets.forM (I := fun (before : List Data) d' => d' = d.to d'.forest ∧ d.forest.Replies
      (fun o => ∃ p, .node p ∈ before ∧ ∃ m ∈ Kind.operations, (d.forest.get p).value m.1 = .node o)
      d'.forest) ⟨rfl, (Replies.none d.forest).congr fun o => by simp⟩ ?_
  · intro before x rest hsplit d₁ hd₁
    obtain ⟨he, hreplies⟩ := hd₁
    have hx : x ∈ ((d.forest.get i).value "paths").nodes :=
      hsplit ▸ List.mem_append_right _ List.mem_cons_self
    obtain ⟨p, rfl, -⟩ := hf.wellFormed.formed.member (.inl .self) hf.wellFormed.root
      hf.placement?_paths rfl hx
    have hsub : ∀ q, .node q ∈ before → .node q ∈ ((d.forest.get i).value "paths").nodes :=
      fun q hq => hsplit ▸ List.mem_append_left _ hq
    refine (fillOperations_replies hf hreplies (fun o ho => ?_) hx).mono fun _ d₂ hd₂ => ?_
    · obtain ⟨q, hq, hoperation⟩ := ho
      exact ⟨q, hsub q hq, hoperation⟩
    · refine ⟨by rw [hd₂.1, he], hd₂.2.congr fun o => ?_⟩
      simp only [List.mem_append, List.mem_singleton, or_and_right, exists_or, Data.node.injEq,
        exists_eq_left]

/-! ### The document -/

/-- Nothing is filled in where nothing is missing. -/
theorem fillDefaults_of_complete (c : Config) (hf : d.forest.IsDocument i)
    (hd : d.forest.Complete i) : fillDefaults c i d = .ok () d := by
  obtain ⟨j, hvalue, htitle, hversion⟩ := hd.info
  obtain ⟨-, hchild⟩ := hf.info_ne hvalue
  have hfields : "title" ∈ (d.forest.get j).kind.fields ∧
      "version" ∈ (d.forest.get j).kind.fields := by
    rw [hchild.2.1]
    decide
  have hpaths := membersOf_formed hf.wellFormed.formed (.inl .self) hf.wellFormed.root
    hf.placement?_paths rfl
  unfold fillDefaults
  rw [Results.bind_of_ok (child_found hf.placement?_info hvalue),
    Results.bind_of_ok (fill_of_isSet hfields.1 htitle _),
    Results.bind_of_ok (fill_of_isSet hfields.2 hversion _), Results.bind_of_ok hpaths]
  -- No turn of either loop does anything.
  refine forM_of_ok fun x hx => ?_
  obtain ⟨p, rfl, hitem, -⟩ := hf.wellFormed.formed.member (.inl .self) hf.wellFormed.root
    hf.placement?_paths rfl hx
  refine forM_of_ok fun m hm => ?_
  refine (Results.bind_of_ok (show Edit.forest d = .ok d.forest d from rfl)).trans
    ((Results.bind_of_ok (readMethod hitem.2.1 hm)).trans ?_)
  rcases hf.method hx hm with hunset | ⟨o, ho, hoperates⟩
  · rw [hunset]
    rfl
  · rw [ho]
    obtain ⟨r, hr⟩ := hd.answered o hoperates
    exact fillResponse_of_responses (hf.operation hoperates).2.1 (List.ne_nil_of_mem hr)

/-- Defaults complete a document and disturb nothing: afterwards title and version are set and every
    operation has a response; what was set before is as it was, nodes that lacked nothing are the
    same, and only information and responses that were missing are new. Filled in once more,
    whatever is configured, they change nothing. -/
theorem fillDefaults_completes (c : Config) (hf : d.forest.WellFormed i)
    (hkind : (d.forest.get i).kind = .openApi) :
    ∃ g, fillDefaults c i d = .ok () (d.to g) ∧ g.WellFormed i ∧ g.Complete i ∧
      d.forest.Defaulted c i g ∧ ∀ c', fillDefaults c' i (d.to g) = .ok () (d.to g) := by
  have hdocument : d.forest.IsDocument i := ⟨hf, hkind⟩
  obtain ⟨f, hinfo, hrun⟩ := fillDefaults_info c hdocument
  have hf₁ := hinfo.isDocument hdocument
  obtain ⟨⟨⟩, d', hloops, hd', hreplies⟩ :=
    (fillPaths_replies (d := d.to f) hf₁ rfl).exists_ok trivial
  have hg : (d'.forest).IsDocument i := hreplies.isDocument hf₁
  have hcomplete := hinfo.complete hdocument hreplies
  refine ⟨d'.forest, ?_, hg.wellFormed, hcomplete, hinfo.defaulted hdocument hreplies, fun c' =>
    fillDefaults_of_complete c' hg hcomplete⟩
  rw [hrun, hloops, hd']

/-- A document without information, with an operation whose only response has been taken out and one
    that has a response. -/
theorem fillDefaults_completes_shop : ∃ d g, Built d ∧
    (d.forest.get 0).value "info" = .unset ∧
    ((d.forest.get 2).isSet "responses" = true ∧ d.forest.responses 2 = []) ∧
    (d.forest.responses 3).mapM Data.node? = some [5] ∧
    fillDefaults {} 0 d = .ok () (d.to g) ∧ g.Complete 0 ∧ d.forest.Defaulted {} 0 g := by
  let d := draftAfter [.newDocument (.str "3.0.0"), .indexedItem 0 .pathItem (.str "/items"),
    .operation 1 (.str "GET"), .operation 1 (.str "POST"), .indexedItem 2 .response (.str "200"),
    .indexedItem 3 .response (.str "201"), .removeIndexed 2 .response (.str "200")]
  have hbuilt : Built d := Built.start.of_allReady (by decide +kernel)
  obtain ⟨hsize, hkind, hinfo, hset, hnone, hsome⟩ : 0 < d.forest.size ∧
      (d.forest.get 0).kind = .openApi ∧ ((d.forest.get 0).value "info").isUnset = true ∧
      (d.forest.get 2).isSet "responses" = true ∧ (d.forest.responses 2).isEmpty = true ∧
      (d.forest.responses 3).mapM Data.node? = some [5] := by
    decide +kernel
  have hf := hbuilt.consistent.formed.wellFormed (i := 0) trivial hsize
  obtain ⟨g, hrun, -, hcomplete, hdefaulted, -⟩ := fillDefaults_completes {} hf hkind
  exact ⟨d, g, hbuilt, Data.isUnset_iff.1 hinfo, ⟨hset, List.isEmpty_iff.1 hnone⟩, hsome, hrun,
    hcomplete, hdefaulted⟩

end Edit

end ApiDoc
