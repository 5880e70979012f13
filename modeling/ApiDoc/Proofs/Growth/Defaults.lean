import ApiDoc.Config
import ApiDoc.Proofs.Growth.Follows

namespace ApiDoc

/-!
# Documents with defaults

What filling in defaults makes of a document, said about forests:

* `Forest.Operates`, `Forest.responses` — the operations of a document, and the responses of one;
* `Node.SameBut`, `Node.filled` — nodes that differ in the values under some names only, and a
  value put where none is set;
* `Forest.Informed`, `Forest.Replied` — what becomes of the information of a document, and of an
  operation without responses;
* `Forest.Replies`, with `Replies.pass` and `Replies.answer` — what becomes of several operations,
  one after the other;
* `Forest.Complete`, `Forest.Defaulted` — documents that lack nothing, and a document before and
  after defaults have been filled in;
* `Informed.complete`, `Informed.defaulted` — information and responses together.
-/

open Forest

/-! ### Nodes -/

namespace Node

/-- Two nodes that differ in the values under some names only. -/
structure SameBut (names : List String) (n m : Node) : Prop where
  kind_eq : m.kind = n.kind
  parent_eq : m.parent = n.parent
  extensions_eq : m.extensions = n.extensions
  value_eq : ∀ name ∉ names, m.value name = n.value name

namespace SameBut

variable {names : List String} {n m l : Node}

/-- A node differs from itself nowhere. -/
theorem refl (names : List String) (n : Node) : n.SameBut names n :=
  ⟨rfl, rfl, rfl, fun _ _ => rfl⟩

/-- Two changes, both under the same names. -/
theorem trans (h : n.SameBut names m) (h' : m.SameBut names l) : n.SameBut names l where
  kind_eq := h'.kind_eq.trans h.kind_eq
  parent_eq := h'.parent_eq.trans h.parent_eq
  extensions_eq := h'.extensions_eq.trans h.extensions_eq
  value_eq name hname := (h'.value_eq name hname).trans (h.value_eq name hname)

/-- A value put under one of the names. -/
theorem putValue {name : String} (hname : name ∈ names) (n : Node) (v : Data) :
    n.SameBut names (n.putValue name v) := by
  refine ⟨rfl, rfl, rfl, fun other hother => n.value_putValue_of_ne ?_ v⟩
  rintro rfl
  exact hother hname

end SameBut

/-- The node with a value under a name where none is set. -/
def filled (n : Node) (name : String) (v : Data) : Node :=
  if n.isSet name then n else n.putValue name v

/-- A field that is set is not filled. -/
theorem filled_of_isSet {n : Node} {name : String} (h : n.isSet name = true) (v : Data) :
    n.filled name v = n := if_pos h

/-- Filling a field changes nothing but the field. -/
theorem sameBut_filled {names : List String} {name : String} (hname : name ∈ names) (n : Node)
    (v : Data) : n.SameBut names (n.filled name v) := by
  unfold filled
  split
  · exact .refl _ _
  · exact .putValue hname _ _

/-- After it has been filled a value is set: the one that was, or the one given. -/
theorem value_filled (n : Node) (name : String) {v : Data} (hv : v.isUnset = false) :
    (n.filled name v).value name = if n.isSet name then n.value name else v := by
  unfold filled
  split
  · rfl
  · exact n.value_putValue_self name hv

/-- A field that has been filled is set. -/
theorem isSet_filled (n : Node) (name : String) {v : Data} (hv : v.isUnset = false) :
    (n.filled name v).isSet name = true := by
  by_cases h : n.isSet name = true
  · rwa [filled_of_isSet h]
  · show (!((n.filled name v).value name).isUnset) = true
    rw [n.value_filled name hv, if_neg h, hv]
    rfl

/-- Other fields keep their values. -/
theorem value_filled_of_ne (n : Node) {name other : String} (h : other ≠ name) (v : Data) :
    (n.filled name v).value other = n.value other :=
  (n.sameBut_filled (List.mem_singleton_self name) v).value_eq other (by simpa using h)

/-- No value that is set gives way. -/
theorem value_filled_of_isSet {n : Node} {name : String} (h : n.isSet name = true)
    (other : String) (v : Data) : (n.filled other v).value name = n.value name := by
  by_cases he : name = other
  · subst he
    rw [filled_of_isSet h]
  · exact n.value_filled_of_ne he v

/-- The response that an operation gets. -/
def defaultResponse (operation : NodeId) : Node where
  kind := .response
  parent := .node operation
  values := [("response", .str "default"), ("description", .str "Default response")]

/-- The information that a document gets. -/
def defaultInfo (c : Config) (document : NodeId) : Node where
  kind := .info
  parent := .node document
  values := [("title", .str c.infoTitle), ("version", .str c.infoVersion)]

/-- A node holds nothing under a name that none of its values has. -/
theorem value_eq_unset {n : Node} {name : String} (h : ∀ e ∈ n.values, name ≠ e.1) :
    n.value name = .unset := by
  have hnone : n.values.lookup name = none :=
    List.lookup_eq_none_iff.2 fun e he => by simpa using h e he
  rw [Node.value, hnone]
  rfl

/-- The default response has no children. -/
theorem value_defaultResponse (o : NodeId) {σ : String} (hσ : σ ∈ Kind.response.slots) :
    (defaultResponse o).value σ = .unset := by
  have hne : σ ≠ "response" ∧ σ ≠ "description" := by
    revert σ
    decide
  exact value_eq_unset (List.forall_mem_cons.2 ⟨hne.1, List.forall_mem_singleton.2 hne.2⟩)

/-- The default information has no children. -/
theorem value_defaultInfo (c : Config) (i : NodeId) {σ : String} (hσ : σ ∈ Kind.info.slots) :
    (defaultInfo c i).value σ = .unset := by
  have hne : σ ≠ "title" ∧ σ ≠ "version" := by
    revert σ
    decide
  exact value_eq_unset (List.forall_mem_cons.2 ⟨hne.1, List.forall_mem_singleton.2 hne.2⟩)

end Node

/-! ### Documents and their operations -/

/-- A value that holds a node counts as true. -/
theorem Data.truthy_of_nodes {v : Data} (h : v.nodes ≠ []) : v.truthy = true := by
  cases v with
  | node => rfl
  | list xs mark => simpa [Data.nodes, Data.truthy] using h
  | _ => exact absurd rfl h

namespace Kind

/-- The kinds in the table of methods are kinds of operations. -/
theorem isOperation_of_mem {m : String × Kind} (h : m ∈ operations) : m.2.isOperation = true :=
  List.any_eq_true.2 ⟨m, h, beq_self_eq_true _⟩

/-- The layout of an operation has its responses under keys. -/
theorem responses_of_isOperation {k : Kind} (h : k.isOperation = true) :
    k.placement? "responses" = some (.keyed .response "response") ∧
      k.layout.indexed.lookup .response = some ⟨"responses", "response"⟩ := by
  revert h
  cases k <;> decide

/-- Under the name of a method a path has one operation. -/
theorem placement?_method {m : String × Kind} (h : m ∈ operations) :
    pathItem.placement? m.1 = some (.single m.2 false) := by
  revert m
  decide

end Kind

namespace Forest

/-- An operation of a path item of a document. -/
def Operates (f : Forest) (i o : NodeId) : Prop :=
  ∃ p, .node p ∈ ((f.get i).value "paths").nodes ∧
    ∃ m ∈ Kind.operations, (f.get p).value m.1 = .node o

/-- The responses of an operation. Whether an empty list of them is there makes no difference. -/
def responses (f : Forest) (o : NodeId) : List Data := ((f.get o).value "responses").nodes

variable {f g h : Forest} {i j o p : NodeId}

/-- The operations of a document are found in its path items. -/
theorem operates_congr (hpaths : (g.get i).value "paths" = (f.get i).value "paths")
    (hitems : ∀ p, .node p ∈ ((f.get i).value "paths").nodes →
      ∀ m ∈ Kind.operations, (g.get p).value m.1 = (f.get p).value m.1) :
    g.Operates i o ↔ f.Operates i o := by
  unfold Operates
  rw [hpaths]
  constructor
  · rintro ⟨p, hp, m, hm, ho⟩
    exact ⟨p, hp, m, hm, hitems p hp m hm ▸ ho⟩
  · rintro ⟨p, hp, m, hm, ho⟩
    exact ⟨p, hp, m, hm, (hitems p hp m hm).trans ho⟩

/-- A document, with what its slots hold. -/
structure IsDocument (f : Forest) (i : NodeId) : Prop where
  wellFormed : f.WellFormed i
  kind_eq : (f.get i).kind = .openApi

namespace IsDocument

/-- A document has one child for its information. -/
theorem placement?_info (hf : f.IsDocument i) :
    (f.get i).kind.placement? "info" = some (.single .info false) := by
  rw [hf.kind_eq]
  decide

/-- The information of a document is unset, or a child of it. -/
theorem info (hf : f.IsDocument i) : (f.get i).value "info" = .unset ∨
    ∃ j, (f.get i).value "info" = .node j ∧ f.IsChild i .info j := by
  have hfills := hf.wellFormed.slots i .self _ _ hf.placement?_info
  generalize (f.get i).value "info" = v at hfills
  cases hfills with
  | unset => exact .inl rfl
  | child hc => exact .inr ⟨_, rfl, hc⟩
  | list _ hlist => exact nomatch hlist

/-- A document has its paths under keys. -/
theorem placement?_paths (hf : f.IsDocument i) :
    (f.get i).kind.placement? "paths" = some (.keyed .pathItem "path") := by
  rw [hf.kind_eq]
  decide

/-- A path of a document is a child of it, and below it. -/
theorem pathItem (hf : f.IsDocument i) (hp : .node p ∈ ((f.get i).value "paths").nodes) :
    f.IsChild i .pathItem p ∧ f.Below i p := by
  have hslot := hf.placement?_paths
  refine ⟨((hf.wellFormed.slots i .self _ _ hslot).isChild hp).1, ?_⟩
  exact .child .self (Kind.mem_slots_of_placement? hslot) hp

/-- Under the name of a method a path item has an operation or nothing. -/
theorem method (hf : f.IsDocument i) (hp : .node p ∈ ((f.get i).value "paths").nodes)
    {m : String × Kind} (hm : m ∈ Kind.operations) : (f.get p).value m.1 = .unset ∨
      ∃ o, (f.get p).value m.1 = .node o ∧ f.Operates i o := by
  obtain ⟨hchild, hbelow⟩ := hf.pathItem hp
  have hslot : (f.get p).kind.placement? m.1 = some (.single m.2 false) := by
    rw [hchild.2.1]
    exact Kind.placement?_method hm
  have hfills := hf.wellFormed.slots p hbelow _ _ hslot
  generalize hv : (f.get p).value m.1 = v at hfills
  cases hfills with
  | unset => exact .inl rfl
  | child hc => exact .inr ⟨_, rfl, p, hp, m, hm, hv⟩
  | list _ hlist => exact nomatch hlist

/-- An operation of a document is a node below it. -/
theorem operation (hf : f.IsDocument i) (ho : f.Operates i o) :
    o < f.size ∧ (f.get o).kind.isOperation = true ∧ f.Below i o := by
  obtain ⟨p, hp, m, hm, ho⟩ := ho
  obtain ⟨hchild, hbelow⟩ := hf.pathItem hp
  have hslot : (f.get p).kind.placement? m.1 = some (.single m.2 false) := by
    rw [hchild.2.1]
    exact Kind.placement?_method hm
  have hmem : .node o ∈ ((f.get p).value m.1).nodes := by
    rw [ho]
    exact List.mem_singleton_self _
  obtain ⟨hc, -⟩ := (hf.wellFormed.slots p hbelow _ _ hslot).isChild hmem
  refine ⟨hc.1, ?_, .child hbelow (Kind.mem_slots_of_placement? hslot) hmem⟩
  rw [hc.2.1]
  exact Kind.isOperation_of_mem hm

/-- Without responses an operation has no list of them, or an empty one. -/
theorem bare (hf : f.IsDocument i) (ho : f.Operates i o) (hbare : f.responses o = []) :
    (f.get o).value "responses" = .unset ∨ ∃ mark, (f.get o).value "responses" = .list [] mark := by
  obtain ⟨-, hkind, hbelow⟩ := hf.operation ho
  have hfills := hf.wellFormed.slots o hbelow _ _ (Kind.responses_of_isOperation hkind).1
  unfold responses at hbare
  generalize (f.get o).value "responses" = v at hfills hbare
  cases hfills with
  | unset => exact .inl rfl
  | list mark =>
    obtain rfl := hbare
    exact .inr ⟨mark, rfl⟩

end IsDocument

/-! ### What becomes of a document -/

/-- The information of a document filled in: the node that is there, or a new one. -/
inductive Informed (c : Config) (i : NodeId) (f g : Forest) : Prop
  | found {j : NodeId} (hinfo : (f.get i).value "info" = .node j) (hsize : g.size = f.size)
      (hnode : g.get j = ((f.get j).filled "title" (.str c.infoTitle)).filled "version"
        (.str c.infoVersion))
      (hother : ∀ k, k ≠ j → g.get k = f.get k)
  | made (hinfo : (f.get i).value "info" = .unset) (hsize : g.size = f.size + 1)
      (hnew : g.get f.size = .defaultInfo c i)
      (hnode : g.get i = (f.get i).putValue "info" (.node f.size))
      (hother : ∀ k < f.size, k ≠ i → g.get k = f.get k)

/-- A bare operation that has a response now, a new node. -/
structure Replied (f g : Forest) (o n : NodeId) : Prop where
  bare : f.responses o = []
  old : o < f.size
  new : f.size ≤ n ∧ n < g.size
  response : g.get n = .defaultResponse o
  listed : ∃ mark, (g.get o).value "responses" = .list [.node n] mark
  same : (f.get o).SameBut ["responses"] (g.get o)

/-- An operation that has been given a response has this one only. -/
theorem Replied.responses_eq {n : NodeId} (h : f.Replied g o n) : g.responses o = [.node n] := by
  obtain ⟨mark, hvalue⟩ := h.listed
  rw [responses, hvalue]
  rfl

/-- A forest in which those of some operations that had no response have one now, each a new node of
    its own. -/
structure Replies (O : NodeId → Prop) (f g : Forest) : Prop where
  size_le : f.size ≤ g.size
  replied : ∀ o, O o → f.responses o = [] → ∃ n, f.Replied g o n
  same : ∀ j < f.size, ¬(O j ∧ f.responses j = []) → g.get j = f.get j
  new : ∀ n, f.size ≤ n → n < g.size → ∃ o, O o ∧ f.Replied g o n

namespace Replies

variable {O O' : NodeId → Prop}

/-- No operation is given a response where none is to be. -/
theorem none (f : Forest) : f.Replies (fun _ => False) f where
  size_le := Nat.le_refl _
  replied _ ho := ho.elim
  same _ _ _ := rfl
  new _ hn hlt := absurd hn (Nat.not_le_of_lt hlt)

/-- Only which operations they are counts, not how they are told. -/
theorem congr (h : f.Replies O g) (hO : ∀ o, O o ↔ O' o) : f.Replies O' g := by
  obtain rfl : O = O' := funext fun o => propext (hO o)
  exact h

/-- A response stays when another operation gets one. -/
theorem stays {n : NodeId} (hj : f.Replied g j n) (hlt : o < f.size) (hne : j ≠ o)
    (hsize : g.size ≤ h.size) (hother : ∀ j < g.size, j ≠ o → h.get j = g.get j) :
    f.Replied h j n := by
  have hno : n ≠ o := fun he => absurd hj.new.1 (Nat.not_le_of_lt (he ▸ hlt))
  have hget := hother j (Nat.lt_of_lt_of_le hj.old (Nat.le_trans hj.new.1 (Nat.le_of_lt hj.new.2)))
    hne
  refine ⟨hj.bare, hj.old, ⟨hj.new.1, Nat.lt_of_lt_of_le hj.new.2 hsize⟩, ?_, ?_, ?_⟩
  · rw [hother n hj.new.2 hno]
    exact hj.response
  · rw [hget]
    exact hj.listed
  · rw [hget]
    exact hj.same

/-- An operation that has a response needs none. -/
theorem pass (hfg : f.Replies O g) (hlt : o < f.size) (hsome : g.responses o ≠ []) :
    f.Replies (fun j => O j ∨ j = o) g := by
  have hdone : ∀ j, (O j ∨ j = o) ∧ f.responses j = [] ↔ O j ∧ f.responses j = [] := by
    refine fun j => ⟨fun ⟨hj, hbare⟩ => ⟨hj.elim id ?_, hbare⟩, fun ⟨hj, hbare⟩ => ⟨.inl hj, hbare⟩⟩
    rintro rfl
    -- One that had none would still have none.
    by_contra hnot
    refine hsome ?_
    rw [responses, hfg.same j hlt fun h => hnot h.1]
    exact hbare
  refine ⟨hfg.size_le, fun j hj hbare => ?_, fun j hj hnot => ?_, fun n hn hlt' => ?_⟩
  · exact hfg.replied j ((hdone j).1 ⟨hj, hbare⟩).1 hbare
  · exact hfg.same j hj fun h => hnot ((hdone j).2 h)
  · obtain ⟨j, hj, hn⟩ := hfg.new n hn hlt'
    exact ⟨j, .inl hj, hn⟩

/-- One more operation gets a response: what has been done before stays. -/
theorem answer (hfg : f.Replies O g) (hlt : o < f.size) (hgh : g.Replied h o g.size)
    (hsize : h.size = g.size + 1) (hother : ∀ j < g.size, j ≠ o → h.get j = g.get j) :
    f.Replies (fun j => O j ∨ j = o) h := by
  have hle : g.size ≤ h.size := by omega
  -- What has a response is not bare any more.
  have hne : ∀ {j n}, f.Replied g j n → j ≠ o := by
    rintro j n hj rfl
    exact absurd (hj.responses_eq.symm.trans hgh.bare) (List.cons_ne_nil _ _)
  have hold : g.get o = f.get o := by
    refine hfg.same o hlt fun ⟨hO, hbare⟩ => ?_
    obtain ⟨n, hn⟩ := hfg.replied o hO hbare
    exact hne hn rfl
  have hnew : f.Replied h o g.size := by
    refine ⟨?_, hlt, ⟨hfg.size_le, hgh.new.2⟩, hgh.response, hgh.listed, ?_⟩
    · rw [responses, ← hold]
      exact hgh.bare
    · rw [← hold]
      exact hgh.same
  have hstay : ∀ {j n}, f.Replied g j n → f.Replied h j n := fun hj =>
    stays hj hlt (hne hj) hle hother
  refine ⟨Nat.le_trans hfg.size_le hle, fun j hj hbare => ?_, fun j hj hnot => ?_,
    fun n hn hlt' => ?_⟩
  · rcases hj with hj | rfl
    · obtain ⟨n, hn⟩ := hfg.replied j hj hbare
      exact ⟨n, hstay hn⟩
    · exact ⟨_, hnew⟩
  · have hjo : j ≠ o := by
      rintro rfl
      exact hnot ⟨.inr rfl, hnew.bare⟩
    rw [hother j (Nat.lt_of_lt_of_le hj hfg.size_le) hjo]
    exact hfg.same j hj fun h => hnot ⟨.inl h.1, h.2⟩
  · by_cases hng : n < g.size
    · obtain ⟨j, hj, hn'⟩ := hfg.new n hn hng
      exact ⟨j, .inl hj, hstay hn'⟩
    · rw [hsize] at hlt'
      have hn' : n = g.size := Nat.le_antisymm (Nat.le_of_lt_succ hlt') (Nat.le_of_not_lt hng)
      exact ⟨o, .inr rfl, hn' ▸ hnew⟩

end Replies

end Forest

/-! ### The document afterwards -/

namespace Forest

variable {c : Config} {f f₁ g : Forest} {i j o : NodeId} {T : NodeId → Prop}

/-- A later forest is formed as well, where all slots that have been there are filled as before, and
    those of new nodes are empty. -/
theorem Formed.of_later (hT : f.Formed T) (hlater : f.Later g)
    (hold : ∀ j < f.size, ∀ σ p, (f.get j).kind.placement? σ = some p →
      g.Fills T j p ((f.get j).value σ) → g.Fills T j p ((g.get j).value σ))
    (hnew : ∀ j, f.size ≤ j → j < g.size → ∀ σ ∈ (g.get j).kind.slots,
      (g.get j).value σ = .unset) : g.Formed T := by
  refine ⟨fun j hj => hT.fresh j (Nat.le_trans hlater.size_le hj), fun j hj hlt σ p hp => ?_⟩
  by_cases hlt' : j < f.size
  · rw [hlater.kind_eq j hlt'] at hp
    exact hold j hlt' σ p hp ((hT.slots j hj hlt' σ p hp).later hlater)
  · rw [hnew j (Nat.le_of_not_lt hlt') hlt σ (Kind.mem_slots_of_placement? hp)]
    exact .unset

namespace IsDocument

/-- An operation is neither the document nor its information. -/
theorem operation_ne (hf : f.IsDocument i) (ho : f.Operates i o) :
    o ≠ i ∧ (f.get i).value "info" ≠ .node o := by
  have hkind := (hf.operation ho).2.1
  refine ⟨?_, fun hinfo => ?_⟩
  · rintro rfl
    rw [hf.kind_eq] at hkind
    exact absurd hkind (by decide)
  · rcases hf.info with hunset | ⟨j, hvalue, hchild⟩
    · cases hunset.symm.trans hinfo
    · cases hvalue.symm.trans hinfo
      rw [hchild.2.1] at hkind
      exact absurd hkind (by decide)

/-- The information is not the document itself. -/
theorem info_ne (hf : f.IsDocument i) (hinfo : (f.get i).value "info" = .node j) :
    j ≠ i ∧ f.IsChild i .info j := by
  rcases hf.info with hunset | ⟨_, hvalue, hchild⟩
  · cases hunset.symm.trans hinfo
  · cases hvalue.symm.trans hinfo
    refine ⟨?_, hchild⟩
    rintro rfl
    exact absurd (hf.kind_eq.symm.trans hchild.2.1) (by decide)

/-- A path item is none of the nodes that get something. -/
theorem pathItem_ne (hf : f.IsDocument i) {p : NodeId}
    (hp : .node p ∈ ((f.get i).value "paths").nodes) :
    p ≠ i ∧ (f.get i).value "info" ≠ .node p ∧ ¬f.Operates i p := by
  have hkind := (hf.pathItem hp).1.2.1
  refine ⟨?_, fun hinfo => ?_, fun ho => ?_⟩
  · rintro rfl
    exact absurd (hf.kind_eq.symm.trans hkind) (by decide)
  · exact absurd ((hf.info_ne hinfo).2.2.1.symm.trans hkind) (by decide)
  · have hoperation := (hf.operation ho).2.1
    rw [hkind] at hoperation
    exact absurd hoperation (by decide)

end IsDocument

/-! ### The information -/

namespace Informed

/-- No node is lost when information is filled in. -/
theorem size_le (h : f.Informed c i f₁) : f.size ≤ f₁.size := by
  cases h with
  | found _ hsize => exact Nat.le_of_eq hsize.symm
  | made _ hsize => rw [hsize]; exact Nat.le_succ _

/-- Nodes other than the document and its information stay as they are. -/
theorem other (h : f.Informed c i f₁) (hlt : j < f.size) (hi : j ≠ i)
    (hinfo : (f.get i).value "info" ≠ .node j) : f₁.get j = f.get j := by
  cases h with
  | found hvalue _ _ hother =>
    refine hother j ?_
    rintro rfl
    exact hinfo hvalue
  | made _ _ _ _ hother => exact hother j hlt hi

/-- The document changes under the name of its information only. -/
theorem document (h : f.Informed c i f₁) (hf : f.IsDocument i) :
    (f.get i).SameBut ["info"] (f₁.get i) := by
  cases h with
  | found hvalue _ _ hother =>
    rw [hother i (hf.info_ne hvalue).1.symm]
    exact .refl _ _
  | made _ _ _ hnode =>
    rw [hnode]
    exact .putValue (List.mem_singleton_self _) _ _

/-- The information that is there loses nothing. -/
theorem sameBut (h : f.Informed c i f₁) (hvalue : (f.get i).value "info" = .node j) :
    f₁.get j = ((f.get j).filled "title" (.str c.infoTitle)).filled "version"
      (.str c.infoVersion) ∧ (f.get j).SameBut ["title", "version"] (f₁.get j) := by
  cases h with
  | found hvalue' _ hnode =>
    cases hvalue.symm.trans hvalue'
    refine ⟨hnode, ?_⟩
    rw [hnode]
    exact (Node.sameBut_filled (by decide) _ _).trans (Node.sameBut_filled (by decide) _ _)
  | made hunset => cases hunset.symm.trans hvalue

/-- The nodes are those of before, with more to come. -/
theorem later (h : f.Informed c i f₁) (hf : f.IsDocument i) : f.Later f₁ := by
  have hcases : ∀ j < f.size, ∃ names, (f.get j).SameBut names (f₁.get j) := by
    intro j hj
    by_cases hi : j = i
    · exact ⟨_, hi ▸ h.document hf⟩
    · by_cases hinfo : (f.get i).value "info" = .node j
      · exact ⟨_, (h.sameBut hinfo).2⟩
      · exact ⟨[], h.other hj hi hinfo ▸ .refl _ _⟩
  refine ⟨h.size_le, fun j hj => ?_, fun j hj => ?_⟩
  · obtain ⟨_, hsame⟩ := hcases j hj
    exact hsame.kind_eq
  · obtain ⟨_, hsame⟩ := hcases j hj
    exact hsame.parent_eq

/-- A node that is made is the new information. -/
theorem new (h : f.Informed c i f₁) {n : NodeId} (hn : f.size ≤ n) (hlt : n < f₁.size) :
    (f.get i).value "info" = .unset ∧ n = f.size ∧ f₁.get n = .defaultInfo c i ∧
      f₁.get i = (f.get i).putValue "info" (.node n) := by
  cases h with
  | found _ hsize => exact absurd (hsize ▸ hlt) (Nat.not_lt_of_le hn)
  | made hunset hsize hnew hnode =>
    rw [hsize] at hlt
    obtain rfl : n = f.size := Nat.le_antisymm (Nat.le_of_lt_succ hlt) hn
    exact ⟨hunset, rfl, hnew, hnode⟩

/-- In the slots of the document stands what stood there, and where there was nothing the new
    information. -/
theorem fills_document (h : f.Informed c i f₁) (hf : f.IsDocument i) (hT : f.Formed T) {σ : String}
    {p : Placement} (hp : (f.get i).kind.placement? σ = some p)
    (hfills : f₁.Fills T i p ((f.get i).value σ)) : f₁.Fills T i p ((f₁.get i).value σ) := by
  cases h with
  | found hvalue _ _ hother => rwa [hother i (hf.info_ne hvalue).1.symm]
  | made _ hsize hnew hnode =>
    rw [hnode]
    by_cases hσ : σ = "info"
    · subst hσ
      cases hp.symm.trans hf.placement?_info
      have hlt : f.size < f₁.size := hsize ▸ Nat.lt_succ_self _
      have hchild : f₁.IsChild i .info f.size := ⟨hlt, by rw [hnew]; rfl, by rw [hnew]; rfl⟩
      rw [Node.value_putValue_self _ _ rfl]
      exact .child hchild (hT.fresh _ (Nat.le_refl _))
    · rwa [Node.value_putValue_of_ne _ hσ]

/-- Slots still hold what they are for. -/
theorem formed (h : f.Informed c i f₁) (hf : f.IsDocument i) (hT : f.Formed T) :
    f₁.Formed T := by
  refine hT.of_later (h.later hf) (fun j hlt σ p hp hfills => ?_) fun j hj hlt σ hσ => ?_
  · by_cases hi : j = i
    · subst hi
      exact h.fills_document hf hT hp hfills
    by_cases hinfo : (f.get i).value "info" = .node j
    · rwa [(h.sameBut hinfo).2.value_eq σ fun hσ => ?_]
      -- Title and version are no slots.
      have hslot := Kind.mem_slots_of_placement? hp
      rw [(hf.info_ne hinfo).2.2.1] at hslot
      revert hslot
      simp only [List.mem_cons, List.not_mem_nil, or_false] at hσ
      rcases hσ with rfl | rfl <;> decide
    · rwa [h.other hlt hi hinfo]
  · obtain ⟨-, -, hnew, -⟩ := h.new hj hlt
    rw [hnew] at hσ ⊢
    exact Node.value_defaultInfo c i hσ

/-- The document is still one. -/
theorem isDocument (h : f.Informed c i f₁) (hf : f.IsDocument i) : f₁.IsDocument i := by
  have hroot := hf.wellFormed.root
  refine ⟨?_, (h.document hf).kind_eq.trans hf.kind_eq⟩
  exact (h.formed hf hf.wellFormed.formed).wellFormed (.inl .self)
    (Nat.lt_of_lt_of_le hroot h.size_le)

/-- The operations are what they were. -/
theorem operates_iff (h : f.Informed c i f₁) (hf : f.IsDocument i) :
    f₁.Operates i o ↔ f.Operates i o := by
  refine operates_congr ((h.document hf).value_eq "paths" (by decide)) fun p hp m _ => ?_
  obtain ⟨hi, hinfo, -⟩ := hf.pathItem_ne hp
  rw [h.other (hf.pathItem hp).1.1 hi hinfo]

/-- No operation changes when information is filled in. -/
theorem get_operation (h : f.Informed c i f₁) (hf : f.IsDocument i) (ho : f.Operates i o) :
    f₁.get o = f.get o := by
  obtain ⟨hi, hinfo⟩ := hf.operation_ne ho
  exact h.other (hf.operation ho).1 hi hinfo

/-- No responses change when information is filled in. -/
theorem responses_eq (h : f.Informed c i f₁) (hf : f.IsDocument i) (ho : f.Operates i o) :
    f₁.responses o = f.responses o := by
  rw [responses, h.get_operation hf ho]
  rfl

/-- An operation that gets a response afterwards had none before. -/
theorem replied (h : f.Informed c i f₁) (hf : f.IsDocument i) (ho : f.Operates i o) {n : NodeId}
    (hn : f₁.Replied g o n) : f.Replied g o n where
  bare := h.responses_eq hf ho ▸ hn.bare
  old := (hf.operation ho).1
  new := ⟨Nat.le_trans h.size_le hn.new.1, hn.new.2⟩
  response := hn.response
  listed := hn.listed
  same := h.get_operation hf ho ▸ hn.same

/-- Title and version are set. -/
theorem exists_info (h : f.Informed c i f₁) (hf : f.IsDocument i) : ∃ j,
    (f₁.get i).value "info" = .node j ∧ (f₁.get j).isSet "title" = true ∧
      (f₁.get j).isSet "version" = true := by
  cases h with
  | @found j hvalue _ hnode hother =>
    refine ⟨j, ?_, ?_, ?_⟩
    · rw [hother i (hf.info_ne hvalue).1.symm]
      exact hvalue
    · rw [hnode, Node.isSet, Node.value_filled_of_ne _ (by decide)]
      exact Node.isSet_filled _ _ rfl
    · rw [hnode]
      exact Node.isSet_filled _ _ rfl
  | made _ _ hnew hnode =>
    refine ⟨f.size, ?_, ?_, ?_⟩
    · rw [hnode]
      exact Node.value_putValue_self _ _ rfl
    · rw [hnew]
      rfl
    · rw [hnew]
      rfl

end Informed

/-! ### The responses -/

namespace Replies

variable {O : NodeId → Prop}

/-- A node that has been there stays as it is, but for its responses. -/
theorem sameBut (h : f.Replies O g) (hlt : j < f.size) :
    (f.get j).SameBut ["responses"] (g.get j) := by
  by_cases hj : O j ∧ f.responses j = []
  · obtain ⟨n, hn⟩ := h.replied j hj.1 hj.2
    exact hn.same
  · rw [h.same j hlt hj]
    exact .refl _ _

/-- The nodes are those of before, with more to come. -/
theorem later (h : f.Replies O g) : f.Later g :=
  ⟨h.size_le, fun _ hj => (h.sameBut hj).kind_eq, fun _ hj => (h.sameBut hj).parent_eq⟩

/-- Slots still hold what they are for. -/
theorem formed (h : f.Replies O g) (hO : ∀ o, O o → (f.get o).kind.isOperation = true)
    (hT : f.Formed T) : g.Formed T := by
  refine hT.of_later h.later (fun j hlt σ p hp hfills => ?_) fun j hj hlt σ hσ => ?_
  · by_cases hreached : O j ∧ f.responses j = []
    · obtain ⟨n, hn⟩ := h.replied j hreached.1 hreached.2
      by_cases hσ : σ = "responses"
      · subst hσ
        cases hp.symm.trans (Kind.responses_of_isOperation (hO j hreached.1)).1
        obtain ⟨mark, hvalue⟩ := hn.listed
        have hchild : g.IsChild j .response n :=
          ⟨hn.new.2, by rw [hn.response]; rfl, by rw [hn.response]; rfl⟩
        rw [hvalue]
        exact .list mark rfl fun x hx =>
          ⟨n, List.mem_singleton.1 hx, hchild, hT.fresh n hn.new.1⟩
      · rwa [hn.same.value_eq σ (by simpa using hσ)]
    · rwa [h.same j hlt hreached]
  · obtain ⟨o, -, hn⟩ := h.new j hj hlt
    rw [hn.response] at hσ ⊢
    exact Node.value_defaultResponse o hσ

/-- The document is still one. -/
theorem isDocument (h : f.Replies (f.Operates i) g) (hf : f.IsDocument i) : g.IsDocument i := by
  have hroot := hf.wellFormed.root
  refine ⟨?_, (h.later.kind_eq i hroot).trans hf.kind_eq⟩
  exact (h.formed (fun o ho => (hf.operation ho).2.1) hf.wellFormed.formed).wellFormed (.inl .self)
    (Nat.lt_of_lt_of_le hroot h.size_le)

/-- What is no operation stays. -/
theorem other (h : f.Replies (f.Operates i) g) (hlt : j < f.size) (hj : ¬f.Operates i j) :
    g.get j = f.get j := h.same j hlt fun hreached => hj hreached.1

/-- The operations of the document are the same. -/
theorem operates_iff (h : f.Replies (f.Operates i) g) (hf : f.IsDocument i) :
    g.Operates i o ↔ f.Operates i o := by
  have hdocument : g.get i = f.get i :=
    h.other hf.wellFormed.root fun ho => (hf.operation_ne ho).1 rfl
  refine operates_congr (by rw [hdocument]) fun p hp m _ => ?_
  rw [h.other (hf.pathItem hp).1.1 (hf.pathItem_ne hp).2.2]

/-- Every operation has a response. -/
theorem exists_response (h : f.Replies (f.Operates i) g) (hf : f.IsDocument i)
    (ho : f.Operates i o) : ∃ r, .node r ∈ g.responses o := by
  by_cases hbare : f.responses o = []
  · obtain ⟨n, hn⟩ := h.replied o ho hbare
    exact ⟨n, by rw [hn.responses_eq]; exact List.mem_singleton_self _⟩
  · obtain ⟨hlt, hkind, hbelow⟩ := hf.operation ho
    have hsame : g.responses o = f.responses o := by
      rw [responses, h.same o hlt fun hreached => hbare hreached.2]
      rfl
    obtain ⟨x, hx⟩ := List.exists_mem_of_ne_nil _ hbare
    obtain ⟨r, rfl, -⟩ := hf.wellFormed.formed.member (.inl hbelow) hlt
      (Kind.responses_of_isOperation hkind).1 rfl hx
    exact ⟨r, by rw [hsame]; exact hx⟩

end Replies

/-! ### The whole -/

/-- A document that lacks nothing: its title and its version are set, and every operation of its
    path items has a response. -/
structure Complete (f : Forest) (i : NodeId) : Prop where
  info : ∃ j, (f.get i).value "info" = .node j ∧ (f.get j).isSet "title" = true ∧
    (f.get j).isSet "version" = true
  answered : ∀ o, f.Operates i o → ∃ r, .node r ∈ f.responses o

/-- A document before and after defaults have been filled in. -/
structure Defaulted (c : Config) (i : NodeId) (f g : Forest) : Prop where
  /-- No node goes, and none gets another kind or parent. -/
  later : f.Later g
  operates : ∀ o, g.Operates i o ↔ f.Operates i o
  /-- What has been set stays. Only an empty list of responses gets a member. -/
  kept : ∀ j < f.size, (g.get j).extensions = (f.get j).extensions ∧
    ∀ name, (f.get j).isSet name = true → (g.get j).value name = (f.get j).value name ∨
      name = "responses" ∧ f.Operates i j ∧ f.responses j = []
  /-- The document gets nothing but its information, if it had none. -/
  document : (f.get i).SameBut ["info"] (g.get i)
  /-- The information that is there gets a title and a version where it had none. -/
  info : ∀ j, (f.get i).value "info" = .node j → g.get i = f.get i ∧
    g.get j = ((f.get j).filled "title" (.str c.infoTitle)).filled "version" (.str c.infoVersion)
  /-- New information has the title and the version that are configured. -/
  newInfo : (f.get i).value "info" = .unset → ∃ n, f.size ≤ n ∧ n < g.size ∧
    (g.get i).value "info" = .node n ∧ g.get n = .defaultInfo c i
  /-- An operation without responses gets one. -/
  replied : ∀ o, f.Operates i o → f.responses o = [] → ∃ n, f.Replied g o n
  /-- An operation with responses stays as it is. -/
  answered : ∀ o, f.Operates i o → f.responses o ≠ [] → g.get o = f.get o
  /-- So does every other node. -/
  other : ∀ j < f.size, j ≠ i → (f.get i).value "info" ≠ .node j → ¬f.Operates i j →
    g.get j = f.get j
  /-- Nothing else is added. -/
  new : ∀ n, f.size ≤ n → n < g.size →
    (f.get i).value "info" = .unset ∧ (g.get i).value "info" = .node n ∨
      ∃ o, f.Operates i o ∧ f.Replied g o n

section

variable (hf : f.IsDocument i) (h : f.Informed c i f₁) (h' : f₁.Replies (f₁.Operates i) g)

include hf h h'

namespace Informed

/-- The responses are no concern of the document. -/
theorem get_document : g.get i = f₁.get i := by
  have hf₁ := h.isDocument hf
  exact h'.other hf₁.wellFormed.root fun ho => (hf₁.operation_ne ho).1 rfl

/-- With information and responses filled in a document lacks nothing. -/
theorem complete : g.Complete i := by
  have hf₁ := h.isDocument hf
  obtain ⟨j, hvalue, htitle, hversion⟩ := h.exists_info hf
  obtain ⟨hji, hchild⟩ := hf₁.info_ne hvalue
  have hj : g.get j = f₁.get j :=
    h'.other hchild.1 fun ho => (hf₁.operation_ne ho).2 hvalue
  refine ⟨⟨j, ?_, by rwa [hj], by rwa [hj]⟩, fun o ho => ?_⟩
  · rwa [h.get_document hf h']
  · exact h'.exists_response hf₁ ((h'.operates_iff hf₁).1 ho)

/-- Information that is there is filled in, and the document does not change. -/
theorem get_info (hvalue : (f.get i).value "info" = .node j) : g.get i = f.get i ∧
    g.get j = ((f.get j).filled "title" (.str c.infoTitle)).filled "version"
      (.str c.infoVersion) := by
  obtain ⟨hji, hchild⟩ := hf.info_ne hvalue
  have hno : ¬f₁.Operates i j := fun ho =>
    (hf.operation_ne ((h.operates_iff hf).1 ho)).2 hvalue
  rw [h'.other (Nat.lt_of_lt_of_le hchild.1 h.size_le) hno, (h.sameBut hvalue).1,
    h.get_document hf h']
  refine ⟨?_, rfl⟩
  cases h with
  | found hvalue' _ _ hother =>
    cases hvalue.symm.trans hvalue'
    exact hother i hji.symm
  | made hunset => cases hunset.symm.trans hvalue

/-- A new node is the new information, or the response of an operation. -/
theorem new_cases {n : NodeId} (hn : f.size ≤ n) (hlt : n < g.size) :
    (f.get i).value "info" = .unset ∧ (g.get i).value "info" = .node n ∨
      ∃ o, f.Operates i o ∧ f.Replied g o n := by
  by_cases hold : n < f₁.size
  · obtain ⟨hunset, rfl, -, hnode⟩ := h.new hn hold
    refine .inl ⟨hunset, ?_⟩
    rw [h.get_document hf h', hnode]
    exact Node.value_putValue_self _ _ rfl
  · obtain ⟨o, ho, hn'⟩ := h'.new n (Nat.le_of_not_lt hold) hlt
    have ho := (h.operates_iff hf).1 ho
    exact .inr ⟨o, ho, h.replied hf ho hn'⟩

/-- Without information the document gets a node for it. -/
theorem exists_newInfo (hunset : (f.get i).value "info" = .unset) : ∃ n, f.size ≤ n ∧
    n < g.size ∧ (g.get i).value "info" = .node n ∧ g.get n = .defaultInfo c i := by
  cases h with
  | found hvalue => cases hvalue.symm.trans hunset
  | made hunset hsize hnew hnode hother =>
    have h : f.Informed c i f₁ := .made hunset hsize hnew hnode hother
    have hlt : f.size < f₁.size := hsize ▸ Nat.lt_succ_self _
    -- A node that was not there is no operation.
    have hget : g.get f.size = f₁.get f.size := h'.other hlt fun ho =>
      absurd (hf.operation ((h.operates_iff hf).1 ho)).1 (Nat.lt_irrefl _)
    refine ⟨f.size, Nat.le_refl _, Nat.lt_of_lt_of_le hlt h'.size_le, ?_, hget.trans hnew⟩
    rw [h.get_document hf h', hnode]
    exact Node.value_putValue_self _ _ rfl

/-- What has been set in the document stays. -/
theorem kept_document {name : String} (hset : (f.get i).isSet name = true) :
    (g.get i).value name = (f.get i).value name := by
  by_cases hname : name = "info"
  · subst hname
    rcases hf.info with hunset | ⟨k, hvalue, -⟩
    · rw [Node.isSet, hunset] at hset
      exact absurd hset Bool.false_ne_true
    · rw [(h.get_info hf h' hvalue).1]
  · rw [h.get_document hf h']
    exact (h.document hf).value_eq name (by simpa using hname)

/-- What has been set in the information stays. -/
theorem kept_info (hvalue : (f.get i).value "info" = .node j) {name : String}
    (hset : (f.get j).isSet name = true) : (g.get j).value name = (f.get j).value name := by
  have hset' : ((f.get j).filled "title" (.str c.infoTitle)).isSet name = true := by
    rwa [Node.isSet, Node.value_filled_of_isSet hset]
  rw [(h.get_info hf h' hvalue).2, Node.value_filled_of_isSet hset',
    Node.value_filled_of_isSet hset]

/-- An operation gets a response if it has none, and stays as it is otherwise. -/
theorem operation_cases (ho : f.Operates i o) :
    (f.responses o = [] ∧ ∃ n, f.Replied g o n) ∨ (f.responses o ≠ [] ∧ g.get o = f.get o) := by
  by_cases hbare : f.responses o = []
  · obtain ⟨n, hn⟩ := h'.replied o ((h.operates_iff hf).2 ho) (by rw [h.responses_eq hf ho, hbare])
    exact .inl ⟨hbare, n, h.replied hf ho hn⟩
  · have hlt := Nat.lt_of_lt_of_le (hf.operation ho).1 h.size_le
    refine .inr ⟨hbare, ?_⟩
    rw [h'.same o hlt fun hreached => hbare (h.responses_eq hf ho ▸ hreached.2),
      h.get_operation hf ho]

/-- A node that is neither the document nor its information nor an operation. -/
theorem get_other (hj : j < f.size) (hi : j ≠ i) (hvalue : (f.get i).value "info" ≠ .node j)
    (hno : ¬f.Operates i j) : g.get j = f.get j := by
  rw [h'.other (Nat.lt_of_lt_of_le hj h.size_le) fun ho => hno ((h.operates_iff hf).1 ho)]
  exact h.other hj hi hvalue

/-- What has been set stays, but for an empty list of responses. -/
theorem kept (hj : j < f.size) : (g.get j).extensions = (f.get j).extensions ∧
    ∀ name, (f.get j).isSet name = true → (g.get j).value name = (f.get j).value name ∨
      name = "responses" ∧ f.Operates i j ∧ f.responses j = [] := by
  by_cases hi : j = i
  · subst hi
    refine ⟨?_, fun name hset => .inl (h.kept_document hf h' hset)⟩
    rw [h.get_document hf h', (h.document hf).extensions_eq]
  by_cases hvalue : (f.get i).value "info" = .node j
  · refine ⟨?_, fun name hset => .inl (h.kept_info hf h' hvalue hset)⟩
    rw [(h.get_info hf h' hvalue).2, ← (h.sameBut hvalue).1, (h.sameBut hvalue).2.extensions_eq]
  by_cases ho : f.Operates i j
  · rcases h.operation_cases hf h' ho with ⟨hbare, n, hn⟩ | ⟨-, hget⟩
    · refine ⟨hn.same.extensions_eq, fun name _ => ?_⟩
      by_cases hname : name = "responses"
      · exact .inr ⟨hname, ho, hbare⟩
      · exact .inl (hn.same.value_eq name (by simpa using hname))
    · rw [hget]
      exact ⟨rfl, fun _ _ => .inl rfl⟩
  · rw [h.get_other hf h' hj hi hvalue ho]
    exact ⟨rfl, fun _ _ => .inl rfl⟩

/-- Information and responses filled in, one after the other. -/
theorem defaulted : f.Defaulted c i g where
  later := (h.later hf).trans h'.later
  operates _ := (h'.operates_iff (h.isDocument hf)).trans (h.operates_iff hf)
  kept _ hj := h.kept hf h' hj
  document := by
    rw [h.get_document hf h']
    exact h.document hf
  info _ hvalue := h.get_info hf h' hvalue
  newInfo hunset := h.exists_newInfo hf h' hunset
  replied o ho hbare := by
    rcases h.operation_cases hf h' ho with ⟨-, hn⟩ | ⟨hsome, -⟩
    · exact hn
    · exact absurd hbare hsome
  answered o ho hsome := by
    rcases h.operation_cases hf h' ho with ⟨hbare, -⟩ | ⟨-, hget⟩
    · exact absurd hbare hsome
    · exact hget
  other _ hj hi hvalue hno := h.get_other hf h' hj hi hvalue hno
  new _ hn hlt := h.new_cases hf h' hn hlt

end Informed

end

end Forest

end ApiDoc
