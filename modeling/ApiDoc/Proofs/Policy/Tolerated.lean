import ApiDoc.Proofs.Growth.Overwrite
import ApiDoc.Proofs.Policy.Repetition
import ApiDoc.Proofs.Tree.Marks

namespace ApiDoc

/-!
# Sources that can be merged again

What a merge asks of its source, whichever way it deals with refused keys. The source of a merge
that has succeeded has it, and a merge of a source that has it succeeds in any upright tree:

* `Entries.Tolerated` — what is asked of a source under a policy;
* `Entries.Tolerated.congr` — marks do not count;
* `Edit.tolerated_of_ok`, `Edit.ok_of_tolerated` — a merge that has succeeded, and one that will.
-/

/-! ### Marks -/

namespace Entries

variable {P : Kind → Entries → Prop} {k : Kind} {es fs : Entries}

/-- What stands under a text in sources that differ in marks only. -/
theorem exists_text?_of_unmarked (h : Entries.unmarked es = Entries.unmarked fs) {s : String} {v : Data}
    (hv : fs.text? s = some v) : ∃ u, es.text? s = some u ∧ u.unmarked = v.unmarked := by
  have hboth : (es.text? s).map Data.unmarked = some v.unmarked := by
    rw [← text?_unmarked, h, text?_unmarked, hv]
    rfl
  exact Option.map_eq_some_iff.1 hboth

theorem exists_mem_of_unmarked (h : Entries.unmarked es = Entries.unmarked fs) {f : Data × Data}
    (hf : f ∈ fs) : ∃ e ∈ es, e.1.unmarked = f.1.unmarked ∧ e.2.unmarked = f.2.unmarked := by
  have hmem : (f.1.unmarked, f.2.unmarked) ∈ Entries.unmarked es := h ▸ List.mem_map_of_mem hf
  obtain ⟨e, he, hsame⟩ := List.mem_map.1 hmem
  exact ⟨e, he, Prod.mk.inj hsame⟩

/-- What does not look at marks at one level does not at any. -/
theorem All.congr_unmarked
    (hP : ∀ k es fs, Entries.unmarked es = Entries.unmarked fs → P k es → P k fs)
    (h : es.All P k) (hfs : Entries.unmarked es = Entries.unmarked fs) : fs.All P k := by
  induction h generalizing fs with
  | @mk k es own _ _ ihs ihm =>
    refine .mk (hP _ _ _ hfs own) (fun σ c b gs mark hp hv => ?_) fun σ p v item hp hv hitem => ?_
    · obtain ⟨u, hu, hsame⟩ := exists_text?_of_unmarked hfs hv
      rw [Data.unmarked_map] at hsame
      obtain ⟨gs', mark', rfl, hgs⟩ := Data.exists_of_unmarked_map hsame
      exact ihs σ c b gs' mark' hp hu hgs
    · obtain ⟨u, hu, hsame⟩ := exists_text?_of_unmarked hfs hv
      have hitems : (p.items u).map (fun item => (item.1.unmarked, item.2.unmarked))
          = (p.items v).map fun item => (item.1.unmarked, item.2.unmarked) := by
        rw [← Placement.items_unmarked, ← Placement.items_unmarked, hsame]
      obtain ⟨item', hitem', he⟩ := List.mem_map.1 (hitems ▸ List.mem_map_of_mem hitem)
      exact ihm σ p u item' hp hu hitem' (Prod.mk.inj he).2

end Entries

namespace Placement

variable {p : Placement} {u v : Data}

/-- Items of values that differ in marks only. -/
theorem exists_item_of_unmarked (h : u.unmarked = v.unmarked) {ys : List Data}
    (hys : v.items? = some ys) : ∃ xs, u.items? = some xs ∧
      ∀ y ∈ ys, ∃ x ∈ xs, x.unmarked = y.unmarked := by
  have hboth : u.items?.map (·.map Data.unmarked) = some (ys.map Data.unmarked) := by
    rw [← Data.items?_unmarked, h, Data.items?_unmarked, hys]
    rfl
  obtain ⟨xs, hxs, hsame⟩ := Option.map_eq_some_iff.1 hboth
  refine ⟨xs, hxs, fun y hy => ?_⟩
  exact List.mem_map.1 (hsame ▸ List.mem_map_of_mem hy)

theorem isMap_of_unmarked {x y : Data} (h : x.unmarked = y.unmarked)
    (hx : ∃ gs mark, x = .map gs mark) : ∃ gs mark, y = .map gs mark := by
  obtain ⟨gs, mark, rfl⟩ := hx
  rw [Data.unmarked_map] at h
  obtain ⟨fs, mark', he, -⟩ := Data.exists_of_unmarked_map h.symm
  exact ⟨fs, mark', he⟩

theorem Accepts.congr_unmarked (h : u.unmarked = v.unmarked) (hu : p.Accepts u) : p.Accepts v := by
  cases p with
  | single k boolean =>
    rcases hu with hmap | ⟨hboolean, b, rfl⟩
    · exact .inl (isMap_of_unmarked h hmap)
    · refine .inr ⟨hboolean, b, ?_⟩
      cases v <;> simp_all [Data.unmarked]
  | keyed k key =>
    obtain ⟨es, mark, rfl, hes⟩ := hu
    rw [Data.unmarked_map] at h
    obtain ⟨fs, mark', rfl, hfs⟩ := Data.exists_of_unmarked_map h.symm
    refine ⟨fs, mark', rfl, fun f hf => ?_⟩
    obtain ⟨e, he, -, hsame⟩ := Entries.exists_mem_of_unmarked hfs.symm hf
    exact isMap_of_unmarked hsame (hes e he)
  | listed k slot =>
    obtain ⟨xs, hxs, hall⟩ := hu
    obtain ⟨ys, hys, hitems⟩ := exists_item_of_unmarked h.symm hxs
    obtain ⟨xs', hxs', hitems'⟩ := exists_item_of_unmarked h hys
    obtain rfl := Option.some.inj (hxs.symm.trans hxs')
    refine ⟨ys, hys, fun y hy => ?_⟩
    obtain ⟨x, hx, hsame⟩ := hitems' y hy
    exact isMap_of_unmarked hsame (hall x hx)

theorem Entire.congr_unmarked (h : u.unmarked = v.unmarked) (hu : p.Entire u) : p.Entire v := by
  cases p with
  | single k boolean =>
    rintro j rfl
    refine hu j ?_
    cases u <;> simp_all [Data.unmarked]
  | keyed k key =>
    rintro fs mark rfl f hf
    rw [Data.unmarked_map] at h
    obtain ⟨es, mark', rfl, hes⟩ := Data.exists_of_unmarked_map h
    obtain ⟨e, he, -, hsame⟩ := Entries.exists_mem_of_unmarked hes hf
    exact isMap_of_unmarked hsame (hu es mark' rfl e he)
  | listed k slot =>
    intro ys hys y hy
    obtain ⟨xs, hxs, hitems⟩ := exists_item_of_unmarked h hys
    obtain ⟨x, hx, hsame⟩ := hitems y hy
    exact isMap_of_unmarked hsame (hu xs hxs x hx)

end Placement

/-! ### What is asked of a source -/

namespace Entries

variable {k : Kind} {es fs : Entries} {policy : Policy}

theorem Accepted.congr_unmarked (h : Entries.unmarked es = Entries.unmarked fs)
    (hes : es.Accepted k) : fs.Accepted k where
  slots σ p v hp hv := by
    obtain ⟨u, hu, hsame⟩ := exists_text?_of_unmarked h hv
    exact (hes.slots σ p u hp hu).congr_unmarked hsame
  plain f hf hnot s hs := by
    obtain ⟨e, he, hkey, -⟩ := exists_mem_of_unmarked h hf
    have he1 : e.1 = .str s := by
      rw [hs] at hkey
      exact Data.str?_eq_some.1 (by rw [← Data.str?_unmarked, hkey]; rfl)
    exact hes.plain e he (he1.trans hs.symm ▸ hnot) s he1

theorem Entire.congr_unmarked (h : Entries.unmarked es = Entries.unmarked fs) (hes : es.Entire k) :
    fs.Entire k where
  texts f hf := by
    obtain ⟨e, he, hkey, -⟩ := exists_mem_of_unmarked h hf
    obtain ⟨s, hs⟩ := hes.texts e he
    refine ⟨s, Data.str?_eq_some.1 ?_⟩
    rw [← Data.str?_unmarked, ← hkey, hs]
    rfl
  slots σ p v hp hv := by
    obtain ⟨u, hu, hsame⟩ := exists_text?_of_unmarked h hv
    exact (hes.slots σ p u hp hu).congr_unmarked hsame

/-- What a merge asks of its source: that no key is refused, or, where refused keys are only warned
    of, that members and items are mappings. -/
def Tolerated (policy : Policy) (k : Kind) (es : Entries) : Prop :=
  match policy with
  | .error => es.All Accepted k
  | .warn => es.All Entire k

theorem Tolerated.congr (h : es.Tolerated policy k) (hfs : Entries.unmarked es = Entries.unmarked fs) :
    fs.Tolerated policy k := by
  cases policy with
  | error => exact All.congr_unmarked (fun _ _ _ h hes => hes.congr_unmarked h) h hfs
  | warn => exact All.congr_unmarked (fun _ _ _ h hes => hes.congr_unmarked h) h hfs

end Entries

/-! ### Merges -/

namespace Edit

open Forest MergeOptions

variable {T : NodeId → Prop} {d d' : Draft} {i : NodeId} {A : Finset NodeId} {t : Tree}
  {es : Entries} {ov : Bool} {policy : Policy}

/-- The source of a merge that has succeeded. -/
theorem tolerated_of_ok {P : Data → Prop} (hd : d.forest.Formed T) (hT : T i) (hi : i < d.forest.size)
    (hes : es.All (Entries.Findable P) (d.forest.get i).kind)
    (h : mergeEntries ⟨ov, policy⟩ es i d = .ok () d') :
    es.Tolerated policy (d.forest.get i).kind := by
  let S : Licence := ⟨T, fun _ _ => True, ov⟩
  have habsorbed := (Follows.mergeEntries (S := S) (o := ⟨ov, policy⟩) rfl
    (Licence.covers_any (fun _ _ => trivial) _) ⟨.refl _, hd, hT, hi⟩ trivial).2 _ _ h 0
  cases policy with
  | error => exact habsorbed.accepted (fun h => nomatch h) hes 0
  | warn => exact habsorbed.entire hes 0

/-- A merge of a source that a tree tolerates. -/
theorem ok_of_tolerated (hd : d.forest.Holds t i A) (ht : t.All Tree.Typed)
    (hupright : d.forest.Upright T) (hT : T i)
    (hes : es.All (Entries.Findable Data.EqualsItself) t.kind) (h : es.Tolerated policy t.kind) :
    ∃ d', mergeEntries ⟨ov, policy⟩ es i d = .ok () d' ∧
      d.Turned i A (Tree.merge ov es t) d' := by
  have hmeets := Meets.mergeEntries (o := ⟨ov, policy⟩) hes hd ht
  cases policy with
  | error =>
    obtain ⟨⟨⟩, d', hd', hturned⟩ := hmeets.exists_ok h
    exact ⟨d', hd', hturned⟩
  | warn =>
    let S : Licence := ⟨T, fun _ _ => True, ov⟩
    obtain ⟨⟨⟩, d', hd'⟩ := Succeeds.content (S := S) (n := d.forest.size) (fun _ _ => trivial) h d i
      hupright ⟨.refl _, hupright.formed, hT, hd.lt_size⟩ hd.kind
    exact ⟨d', hd', hmeets.of_ok hd'⟩

end Edit

end ApiDoc
