import ApiDoc.Proofs.Describe.Plans
import ApiDoc.Proofs.Describe.Schemas
import ApiDoc.Proofs.Policy.Slots

namespace ApiDoc

/-!
# Overrides with their references resolved

Before an override is merged, references stand in it in the place of references to models:

* `Data.Resolves`, `Entries.Resolves` — what values and sources can become;
* `Yields.resolveEntries` — and do become;
* `Resolves.findable`, `Resolves.forProperty`, `Resolves.decisive` — what can be told of them
  beforehand.
-/

/-! ### What values become -/

namespace Data

/-- What a value can become. A reference to a model becomes the text of a reference, or a schema
    that holds nothing else. -/
inductive Resolves : Data → Data → Prop
  | text (target : Target) (own : Data) (ref : String) : Resolves (.modelRef target own) (.str ref)
  | schema (target : Target) (own : Data) (ref : String) (mark : Nat) :
      Resolves (.modelRef target own) (.map [(.str "$ref", .str ref)] mark)
  | map {es fs : Entries} (mark mark' : Nat) (keys : fs.map Prod.fst = es.map Prod.fst)
      (values : List.Forall₂ Resolves (es.map Prod.snd) (fs.map Prod.snd)) :
      Resolves (.map es mark) (.map fs mark')
  | list {xs ys : List Data} (mark mark' : Nat) (items : List.Forall₂ Resolves xs ys) :
      Resolves (.list xs mark) (.list ys mark')
  | same (v : Data) : Resolves v v

end Data

/-- What a source can become. -/
structure Entries.Resolves (es fs : Entries) : Prop where
  keys : fs.map Prod.fst = es.map Prod.fst
  values : List.Forall₂ Data.Resolves (es.map Prod.snd) (fs.map Prod.snd)

namespace Entries.Resolves

variable {es fs : Entries} {s : String} {v : Data}

/-- No entries are resolved to none. -/
theorem nil : Entries.Resolves [] [] := ⟨rfl, .nil⟩

/-- One more entry, under the same key. -/
theorem cons {u v : Data} (k : Data) (hv : u.Resolves v) (h : Entries.Resolves es fs) :
    Entries.Resolves ((k, u) :: es) ((k, v) :: fs) :=
  ⟨congrArg (k :: ·) h.keys, .cons hv h.values⟩

/-- Entries may stay as they are. -/
theorem refl (es : Entries) : Entries.Resolves es es := by
  induction es with
  | nil => exact nil
  | cons e es ih => exact ih.cons e.1 (.same e.2)

/-- The entries in pairs. -/
theorem pairs (h : Entries.Resolves es fs) :
    List.Forall₂ (fun e f => f.1 = e.1 ∧ e.2.Resolves f.2) es fs := by
  induction es generalizing fs with
  | nil =>
    rw [List.map_eq_nil_iff.1 h.keys]
    exact .nil
  | cons e es ih =>
    obtain ⟨keys, values⟩ := h
    cases fs with
    | nil => cases keys
    | cons f fs =>
      obtain ⟨hkey, hkeys⟩ := List.cons.inj keys
      cases values with
      | cons hvalue hvalues => exact .cons ⟨hkey, hvalue⟩ (ih ⟨hkeys, hvalues⟩)

/-- A resolved entry comes from one under its key. -/
theorem exists_mem (h : Entries.Resolves es fs) {f : Data × Data} (hf : f ∈ fs) :
    ∃ e ∈ es, f.1 = e.1 ∧ e.2.Resolves f.2 := by
  obtain ⟨e, he, hef⟩ := exists_of_forall₂ h.pairs.flip hf
  exact ⟨e, he, hef⟩

/-- Resolved entries have distinct keys if the entries have. -/
theorem distinct (h : Entries.Resolves es fs) (hes : es.Distinct) : fs.Distinct := by
  refine ⟨fun f hf => ?_, List.pairwise_map.1 ?_⟩
  · obtain ⟨e, he, hkey, -⟩ := h.exists_mem hf
    obtain ⟨s, hs⟩ := hes.1 e he
    exact ⟨s, hkey.trans hs⟩
  · rw [h.keys]
    exact List.pairwise_map.2 hes.2

/-- What is found under a text comes from what was there. -/
theorem exists_text? (h : Entries.Resolves es fs) (hv : fs.text? s = some v) :
    ∃ u, es.text? s = some u ∧ u.Resolves v := by
  have hpairs := h.pairs
  clear h
  induction hpairs with
  | nil => cases hv
  | @cons e f es fs hef _ ih =>
    obtain ⟨k, u⟩ := e
    obtain ⟨k', w⟩ := f
    obtain ⟨rfl, huw⟩ := hef
    by_cases hk : k' = .str s
    · subst hk
      rw [text?_cons_self] at hv
      cases hv
      exact ⟨u, text?_cons_self, huw⟩
    · rw [text?_cons_of_ne hk] at hv
      obtain ⟨u', hu', hres⟩ := ih hv
      exact ⟨u', (text?_cons_of_ne hk).trans hu', hres⟩

/-- Nothing is found where nothing was. -/
theorem text?_eq_none (h : Entries.Resolves es fs) : fs.text? s = none ↔ es.text? s = none := by
  have hkeys : ∀ gs : Entries, gs.text? s = none ↔ Data.str s ∉ gs.map Prod.fst := by
    intro gs
    rw [text?_eq_none_iff]
    exact ⟨fun h hs => by
      obtain ⟨e, he, hkey⟩ := List.mem_map.1 hs
      exact h e he hkey, fun h e he hkey => h (hkey ▸ List.mem_map_of_mem he)⟩
  rw [hkeys, hkeys, h.keys]

/-- What is set stays set. -/
theorem text?_ne_unset (h : Entries.Resolves es fs) (hes : es.text? s ≠ some .unset) :
    fs.text? s ≠ some .unset := by
  intro hfs
  obtain ⟨u, hu, hres⟩ := h.exists_text? hfs
  cases hres
  exact hes hu

end Entries.Resolves

/-- Only a node is resolved to a node. -/
theorem Data.Resolves.eq_node {u : Data} {j : NodeId} (h : u.Resolves (.node j)) : u = .node j := by
  cases h
  rfl

/-- A mapping was a reference to a model or a mapping. -/
theorem Data.Resolves.of_map {u : Data} {fs : Entries} {mark : Nat}
    (h : u.Resolves (.map fs mark)) : (∃ ref : String, fs = [(.str "$ref", .str ref)]) ∨
      ∃ es mark', u = .map es mark' ∧ Entries.Resolves es fs := by
  cases h with
  | schema target own ref => exact .inl ⟨ref, rfl⟩
  | map mark mark' keys values => exact .inr ⟨_, mark, rfl, keys, values⟩
  | same => exact .inr ⟨fs, mark, rfl, .refl fs⟩

/-! ### References resolved -/

namespace Describe.Yields

mutual

/-- A value becomes one that it may be resolved to, by recursion on the value. -/
theorem resolveValue (r : Reader) (groups : Data) (key? : Option Data) (v : Data)
    (s : Site) : Yields (r.resolve groups key? v) s fun u _ => v.Resolves u := by
  match v with
  | .modelRef target own =>
    unfold Reader.resolve
    refine .bind (P := fun _ _ => True) (fun _ _ _ => trivial) fun ref _ _ => ?_
    refine .ite (fun _ => .pure (.text target own ref)) fun _ => ?_
    exact .bind (P := fun _ _ => True) (fun _ _ _ => trivial) fun mark _ _ =>
      .pure (.schema target own ref mark)
  | .map es mark =>
    unfold Reader.resolve
    refine .bind (P := fun _ _ => True) (fun _ _ _ => trivial) fun mark' s _ => ?_
    exact .bind (resolveEntries r groups es s) fun fs _ hfs =>
      .pure (.map mark mark' hfs.keys hfs.values)
  | .list xs mark =>
    unfold Reader.resolve
    refine .ite (fun _ => .pure (.same _)) fun _ => ?_
    refine .bind (P := fun _ _ => True) (fun _ _ _ => trivial) fun mark' s _ => ?_
    exact .bind (resolveItems r groups xs s) fun ys _ hys => .pure (.list mark mark' hys)
  | .scalar _ | .tuple _ _ | .set _ _ | .unset | .node _ | .bare _ => exact .pure (.same _)

/-- What becomes of the entries of an override. -/
theorem resolveEntries (r : Reader) (groups : Data) (es : List (Data × Data))
    (s : Site) : Yields (r.resolveEntries groups es) s fun fs _ => Entries.Resolves es fs := by
  match es with
  | [] => exact .pure .nil
  | (k, v) :: rest =>
    unfold Reader.resolveEntries
    refine .bind (resolveValue r groups (some k) v s) fun u s hu => ?_
    exact .bind (resolveEntries r groups rest s) fun fs _ hfs => .pure (hfs.cons k hu)

/-- So do the items of a list. -/
theorem resolveItems (r : Reader) (groups : Data) (xs : List Data) (s : Site) :
    Yields (r.resolveItems groups xs) s fun ys _ => List.Forall₂ Data.Resolves xs ys := by
  match xs with
  | [] => exact .pure .nil
  | v :: rest =>
    unfold Reader.resolveItems
    refine .bind (resolveValue r groups none v s) fun u s hu => ?_
    exact .bind (resolveItems r groups rest s) fun ys _ hys => .pure (.cons hu hys)

end

end Describe.Yields

/-! ### What can be told beforehand -/

/-- The slots of schemas are for one child, or for children under keys that are names of
    properties. -/
theorem Kind.InSchema.placement {k : Kind} (hk : k.InSchema) {σ : String} {p : Placement}
    (hp : k.placement? σ = some p) :
    p.kind.InSchema ∧ (p.isSingle = true ∨ p = .keyed .property "property") := by
  have hall : ∀ k ∈ Kind.externalDocumentation :: Kind.schemas, ∀ q ∈ k.placements,
      q.2.kind.InSchema ∧ (q.2.isSingle = true ∨ q.2 = .keyed .property "property") := by decide
  exact hall k hk _ (mem_placements hp)

namespace Entries

variable {P : Data → Prop} {k : Kind} {es fs : Entries}

/-- One entry alone has nothing under other texts. -/
theorem text?_alone {key other : String} (v : Data) (h : key ≠ other) :
    Entries.text? [(.str key, v)] other = none :=
  text?_cons_of_ne fun he => h (Scalar.str.inj (Data.scalar.inj he))

/-- A source of one entry that is not for a slot. -/
theorem findable_alone (P : Data → Prop) {key : String} (hkey : ∀ σ ∈ k.slots, wireName σ ≠ key)
    (v : Data) : Entries.All (Findable P) k [(.str key, v)] := by
  have hnone : ∀ σ p, k.placement? σ = some p →
      Entries.text? [(.str key, v)] (wireName σ) = none := fun σ p hp =>
    text?_alone v (hkey σ (Kind.mem_slots_of_placement? hp)).symm
  refine .mk ⟨Distinct.nil.insert key v, fun σ p v hp hv => ?_⟩
    (fun σ c b gs mark hp hv => ?_) fun σ p v item hp hv hitem => ?_ <;>
    (rw [hnone σ _ hp] at hv; cases hv)

/-- A schema that holds nothing but a reference. -/
theorem findable_reference (P : Data → Prop) (hk : k.InSchema) (ref : String) :
    Entries.All (Findable P) k [(.str "$ref", .str ref)] := by
  have hall : ∀ k ∈ Kind.externalDocumentation :: Kind.schemas, ∀ σ ∈ k.slots,
      wireName σ ≠ "$ref" := by decide
  exact findable_alone P (hall k hk) _

/-- What is found in a source is found in what it becomes. -/
theorem Resolves.findable (hk : k.InSchema) (hes : es.All (Findable P) k)
    (h : Entries.Resolves es fs) : fs.All (Findable P) k := by
  induction hes generalizing fs with
  | @mk k es own _ _ ihs ihm =>
    refine .mk ⟨h.distinct own.distinct, fun σ p v hp hv => ?_⟩ (fun σ c b gs mark hp hv => ?_)
      fun σ p v item hp hv hitem => ?_
    · obtain ⟨u, hu, hres⟩ := h.exists_text? hv
      have hfinds := own.finds σ p u hp hu
      -- In a schema all slots but that of the properties are for one child.
      rcases (hk.placement hp).2 with hsingle | rfl
      · cases p with
        | single c b =>
          rintro j rfl
          cases hres
          exact hfinds j rfl
        | _ => cases hsingle
      · rintro gs mark rfl
        -- A reference in the place of the properties is a mapping to one text, which is no
        -- property.
        rcases hres.of_map with ⟨ref, rfl⟩ | ⟨gs', mark', rfl, hgs⟩
        · refine ⟨(findable_reference P hk ref).root.distinct, fun e he => ?_⟩
          rw [List.mem_singleton.1 he]
          exact ⟨nofun, nofun⟩
        · obtain ⟨hdistinct, hmembers⟩ := hfinds gs' mark' rfl
          refine ⟨hgs.distinct hdistinct, fun f hf => ?_⟩
          obtain ⟨e, he, -, hef⟩ := hgs.exists_mem hf
          obtain ⟨hnode, hkey⟩ := hmembers e he
          refine ⟨fun j hj => ?_, fun fs mark hfs => ?_⟩
          · rw [hj] at hef
            exact hnode j hef.eq_node
          · rw [hfs] at hef
            -- A reference in the place of a property names no key.
            rcases hef.of_map with ⟨ref, rfl⟩ | ⟨es', mark', he', hes'⟩
            · exact text?_cons_of_ne fun heq =>
                absurd (Scalar.str.inj (Data.scalar.inj heq)) (by decide)
            · exact hes'.text?_eq_none.2 (hkey es' mark' he')
    · obtain ⟨u, hu, hres⟩ := h.exists_text? hv
      -- A reference in the place of a child has no slots, and any other value was there before.
      rcases hres.of_map with ⟨ref, rfl⟩ | ⟨gs', mark', rfl, hgs⟩
      · exact findable_reference P (hk.placement hp).1 ref
      · exact ihs σ c b gs' mark' hp hu (hk.placement hp).1 hgs
    · obtain ⟨u, hu, hres⟩ := h.exists_text? hv
      obtain ⟨hkind, hsingle | rfl⟩ := hk.placement hp
      · cases p with
        | single c b => cases v <;> cases hitem
        | _ => cases hsingle
      -- Only the properties have items.
      · rcases Placement.mem_items hitem with ⟨_, _, gs, mark, e, fs', mark', he, rfl, hmem, hfs', rfl⟩ |
          ⟨_, _, _, _, _, he, _⟩
        · cases he
          rcases hres.of_map with ⟨ref, rfl⟩ | ⟨gs', mark'', rfl, hgs⟩
          · rw [List.mem_singleton.1 hmem] at hfs'
            cases hfs'
          · obtain ⟨e', he', -, hef⟩ := hgs.exists_mem hmem
            rw [hfs'] at hef
            rcases hef.of_map with ⟨ref, rfl⟩ | ⟨es', m, hes', hres'⟩
            · exact findable_reference P hkind ref
            · exact ihm σ _ _ _ hp hu (Placement.mem_items_of_keyed _ _ mark'' he' hes') hkind hres'
        · cases he

/-- An override for a property stays one when it is resolved. -/
theorem Resolves.forProperty (hes : es.ForProperty) (h : Entries.Resolves es fs) :
    fs.ForProperty where
  findable := h.findable (by decide) hes.findable
  key := h.text?_eq_none.2 hes.key

/-- A decisive override stays so when it is resolved. -/
theorem Resolves.decisive (hes : es.Decisive) (h : Entries.Resolves es fs) : fs.Decisive where
  whole name hname hsome := by
    have hkeys := fun s => not_congr (h.text?_eq_none (s := s))
    exact ((hes.whole name hname ((hkeys _).1 hsome)).imp (hkeys _).2 (hkeys _).2)
  given := ⟨h.text?_ne_unset hes.given.1, h.text?_ne_unset hes.given.2⟩

end Entries

end ApiDoc
