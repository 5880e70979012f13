import ApiDoc.Generator
import ApiDoc.Proofs.Document.Fragments

namespace ApiDoc

/-!
# Documents described as a whole

* `Keeps.fill`, `Keeps.fillDefaults` — defaults filled in;
* `Fragment.Holds`, `DocumentDescriber.CarriesKey` — the mapping that a fragment holds, and
  describers that can set the key of a component schema;
* `DocumentDescriber.describe_spec` — all others leave the desk, and keep the document sound.
-/

open Forest

/-! ### Defaults -/

namespace Edit.Keeps

variable {K : Kind → Prop} {d : Draft} {i : NodeId}

/-- A field filled where it is unset. -/
theorem fill (hs : d.forest.Sound) (hi : d.forest.Has K i) {name : String} (v : Data)
    (hname : name ∈ (d.forest.get i).kind.fields)
    (hkey : d.forest.IsComponentSchema i → name ≠ "schema") :
    Keeps K (Edit.fill i name v) d fun _ _ => True := by
  refine .after_look (.read i name) fun current _ => .ite (fun _ => ?_) fun _ => .pure hs trivial
  exact (assign? hs hi (Kind.field_notMem_reserved _ _ hname)
    (fun _ => (hs.slots i hi.1).putField hname v) hkey).mono fun _ _ _ => trivial

/-- The default response of an operation. -/
theorem fillResponse (hs : d.forest.Sound) (hi : d.forest.Has K i) (hK : K .response) :
    Keeps K (Edit.fillResponse i) d fun _ _ => True := by
  refine .after_look (.read i _) fun responses _ => .ite (fun _ => ?_) fun _ => .pure hs trivial
  refine .bind (indexedItem hs hi _) fun j d' hs' hc hj => ?_
  have hkind : (d'.forest.get j).kind = .response := hj.1.2.1
  refine fill hs' (hj.1.has hK) _ (by rw [hkind]; decide) fun hschema => ?_
  exact nomatch hkind.symm.trans hschema.1

/-- The default responses of a path item. -/
theorem fillOperations {p : NodeId} (hs : d.forest.Sound) (hi : d.forest.IsChild p .pathItem i)
    (hK : ∀ k, K k) : Keeps K (Edit.fillOperations (.node i)) d fun _ _ => True := by
  refine forM hs fun q hq d₁ hs₁ hc₁ => ?_
  obtain ⟨method, k⟩ := q
  have hi₁ := hc₁.isChild hi
  have hslot : (k, method) ∈ (d₁.forest.get i).kind.layout.singular := by
    rw [hi₁.2.1]
    exact List.mem_map.2 ⟨_, hq, rfl⟩
  refine .after_look .forest fun f hf => .after_look (.ofExcept _) fun v hv => ?_
  subst hf
  have hread : d₁.forest.read i method = .ok ((d₁.forest.get i).value method) :=
    read_attribute (List.mem_append_right _ (Kind.singular_mem_slots _ _ hslot))
  split
  · rename_i operation
    have hvalue := Except.ok.inj (hread.symm.trans hv)
    have hchild := (hs₁.slots i hi₁.1).singular k method hslot operation hvalue
    exact fillResponse hs₁ (hchild.has (hK k)) (hK _)
  · exact .pure hs₁ trivial

theorem fillDefaults (hs : d.forest.Sound) (c : Config) (hK : ∀ k, K k) :
    Keeps K (Edit.fillDefaults c 0) d fun _ _ => True := by
  have hdocument : d.forest.Has K 0 := ⟨hs.nonempty, hK _⟩
  refine .bind (child hs hdocument) fun j d₁ hs₁ hc₁ hj => ?_
  -- The information stays where it is while its fields are filled.
  have hinfo : ∀ {d' : Draft}, d'.forest.Sound → Changes K d₁.forest d'.forest → ∀ name v,
      name ∈ Kind.info.fields → Keeps K (Edit.fill j name v) d' fun _ _ => True := by
    intro d' hs' hc name v hname
    have hkind : (d'.forest.get j).kind = .info := (hc.isChild hj.1).2.1
    refine fill hs' ((hc.isChild hj.1).has (hK _)) v (by rw [hkind]; exact hname) fun hschema => ?_
    exact nomatch hkind.symm.trans hschema.1
  refine .bind (hinfo hs₁ (.refl K _) _ _ (by decide)) fun _ d₂ hs₂ hc₂ _ => ?_
  refine .bind (hinfo hs₂ hc₂ _ _ (by decide)) fun _ d₃ hs₃ hc₃ _ => ?_
  have hpaths : (Kind.pathItem, "paths") ∈ (d₃.forest.get 0).kind.layout.lists := by
    rw [hs₃.document]; decide
  refine .after_look (.membersOf hs₃ hs₃.nonempty hpaths) fun items hitems => ?_
  refine forM hs₃ fun x hx d₄ hs₄ hc₄ => ?_
  rw [hitems] at hx
  obtain ⟨i, rfl, hi⟩ := hs₃.isChild_of_mem hs₃.nonempty hpaths hx
  exact fillOperations hs₄ (hc₄.isChild hi) hK

end Edit.Keeps

/-! ### Fragments -/

/-- A mapping that a fragment holds, whatever marks it is read with. -/
def Fragment.Holds : Fragment → Entries → Prop
  | .value v, es => ∃ mark, v = .map es mark
  | .text yaml, es => ∃ first next mark, Yaml.read yaml first = .ok (.map es mark, next)

/-- A describer that can set the key of a component schema. -/
def DocumentDescriber.CarriesKey : DocumentDescriber → Prop
  | .defaults _ => False
  | .external doc => ∃ es, doc.fragment.Holds es ∧ es.CarriesKey

namespace ExternalDoc

theorem mapping?_eq_some {v : Data} {es : Entries} (h : mapping? v = .ok (some es)) :
    ∃ mark, v = .map es mark := by
  unfold mapping? at h
  split at h
  · exact nomatch h
  · rename_i es' mark _
    cases h
    exact ⟨mark, rfl⟩
  · exact nomatch h

/-- Reading a text leaves the desk and the forest. -/
theorem readText_spec {yaml : String} {s t : Site} {v : Data} (h : readText yaml s = .ok v t) :
    t.desk? = s.desk? ∧ t.draft.forest = s.draft.forest ∧
      ∃ first next, Yaml.read yaml first = .ok (v, next) := by
  obtain ⟨_, s₁, hget, hread⟩ := Results.bind_eq_ok.1 h
  cases hget
  obtain ⟨⟨v', next⟩, s₂, hyaml, hrest⟩ := Results.bind_eq_ok.1 hread
  obtain ⟨hyaml, rfl⟩ := Describe.ofExcept_eq_ok hyaml
  obtain ⟨⟨⟩, s₃, hmodify, hpure⟩ := Results.bind_eq_ok.1 hrest
  cases hmodify
  cases hpure
  exact ⟨rfl, rfl, _, next, hyaml⟩

/-- Reading a fragment leaves the desk and the forest. -/
theorem content?_spec {f : Fragment} {s t : Site} {es? : Option Entries}
    (h : content? f s = .ok es? t) : t.desk? = s.desk? ∧ t.draft.forest = s.draft.forest ∧
      ∀ es, es? = some es → f.Holds es := by
  cases f with
  | value v =>
    obtain ⟨hv, rfl⟩ := Describe.ofExcept_eq_ok h
    exact ⟨rfl, rfl, fun es hes => mapping?_eq_some (hes ▸ hv)⟩
  | text yaml =>
    obtain ⟨v, s₁, hread, h⟩ := Results.bind_eq_ok.1 h
    obtain ⟨hdesk, hforest, first, next, hyaml⟩ := readText_spec hread
    rw [← hdesk, ← hforest]
    split at h
    · obtain ⟨hv, rfl⟩ := Describe.ofExcept_eq_ok h
      refine ⟨rfl, rfl, fun es hes => ?_⟩
      obtain ⟨mark, rfl⟩ := mapping?_eq_some (hes ▸ hv)
      exact ⟨first, next, mark, hyaml⟩
    · cases h
      exact ⟨rfl, rfl, fun es hes => nomatch hes⟩

/-- A fragment that carries no key of a component schema, merged into the document. -/
theorem describe_spec {w : World} {doc : ExternalDoc} {s t : Site} (hs : s.draft.forest.Sound)
    (hkey : ∀ es, doc.fragment.Holds es → ¬es.CarriesKey)
    (h : doc.describe w 0 s = .ok () t) : t.desk? = s.desk? ∧ t.draft.forest.Sound := by
  obtain ⟨es?, s₁, hcontent, h⟩ := Results.bind_eq_ok.1 h
  obtain ⟨hdesk, hforest, hholds⟩ := content?_spec hcontent
  rw [← hdesk]
  cases es? with
  | none =>
    cases h
    exact ⟨rfl, hforest ▸ hs⟩
  | some es =>
    obtain ⟨_, s₂, hget, hpolicy⟩ := Results.bind_eq_ok.1 h
    cases hget
    obtain ⟨policy, s₃, hpolicy, hedit⟩ := Results.bind_eq_ok.1 hpolicy
    obtain ⟨-, rfl⟩ := Describe.ofExcept_eq_ok hpolicy
    obtain ⟨d, hmerge, rfl⟩ := Describe.edit_eq_ok hedit
    have hkeeps := Edit.Keeps.mergeDocument (K := fun _ => True) (o := ⟨doc.overwrite, policy⟩)
      (fun _ _ _ _ => trivial) (hforest ▸ hs) trivial (hkey es (hholds es rfl))
    exact ⟨rfl, (hkeeps _ _ hmerge).1⟩

end ExternalDoc

/-! ### All describers of documents -/

/-- A describer that cannot set the key of a component schema. -/
theorem DocumentDescriber.describe_spec {w : World} {x : DocumentDescriber} {s t : Site}
    (hs : s.draft.forest.Sound) (hkey : ¬x.CarriesKey) (h : x.describe w 0 s = .ok () t) :
    t.desk? = s.desk? ∧ t.draft.forest.Sound := by
  cases x with
  | defaults c =>
    obtain ⟨d, hfill, rfl⟩ := Describe.edit_eq_ok h
    have hkeeps := Edit.Keeps.fillDefaults (K := fun _ => True) hs c fun _ => trivial
    exact ⟨rfl, (hkeeps _ _ hfill).1⟩
  | external doc => exact doc.describe_spec hs (fun es hes hc => hkey ⟨es, hes, hc⟩) h

theorem DocumentDescriber.forM_spec {w : World} {xs : List DocumentDescriber} {s t : Site}
    (hs : s.draft.forest.Sound) (hkey : ∀ x ∈ xs, ¬x.CarriesKey)
    (h : xs.forM (·.describe w 0) s = .ok () t) : t.desk? = s.desk? ∧ t.draft.forest.Sound := by
  induction xs generalizing s with
  | nil =>
    cases h
    exact ⟨rfl, hs⟩
  | cons x xs ih =>
    obtain ⟨⟨⟩, u, hx, hrest⟩ := Results.bind_eq_ok.1 h
    obtain ⟨hdesk, hu⟩ := describe_spec hs (hkey x List.mem_cons_self) hx
    obtain ⟨hdesk', ht⟩ := ih hu (fun y hy => hkey y (List.mem_cons_of_mem _ hy)) hrest
    exact ⟨hdesk'.trans hdesk, ht⟩

end ApiDoc
