import Mathlib.Data.List.Basic
import ApiDoc.Proofs.Data.Upsert

namespace ApiDoc

/-!
# Changes made twice

When several changes of a list are made once more they find the items that they found or added
before:

* `Put.applyAll` — an item after several changes;
* `Put.Steady` — changes that leave what any of them finds;
* `Put.settle` — a list in which each item is changed by the changes that find it there;
* `Put.Steady.exists_settle`, `Put.Steady.runAll_eq_settle` — what steady changes make of a list;
* `Put.Steady.runAll_runAll` — made twice they come to the same as once, if they do so for each
  item.
-/

namespace Put

variable {α : Type} {G : α → Prop} {us vs : List (Put α)} {v : Put α} {as : List α} {a : α}
  {n : Nat}

/-- An item after several changes. -/
def applyAll (us : List (Put α)) (a : α) : α := us.foldl (fun a u => u.change a) a

/-- Changes that leave what any of them finds. An item that is added is one that is found,
    changed. -/
structure Steady (G : α → Prop) (us : List (Put α)) : Prop where
  made : ∀ u ∈ us, ∃ a, G a ∧ u.test a = true ∧ u.new = u.change a
  keeps : ∀ u ∈ us, ∀ a, G a → G (u.change a)
  tests : ∀ u ∈ us, ∀ v ∈ us, ∀ a, G a → v.test (u.change a) = v.test a

/-- A list in which each item is changed by the changes that find it there. -/
def settle (us : List (Put α)) (as : List α) : List α :=
  as.mapIdx fun n a => applyAll (us.filter fun u => as.findIdx? u.test == some n) a

theorem applyAll_append (us vs : List (Put α)) (a : α) :
    applyAll (us ++ vs) a = applyAll vs (applyAll us a) := List.foldl_append

theorem getElem?_settle (us : List (Put α)) (as : List α) (n : Nat) : (settle us as)[n]?
    = as[n]?.map (applyAll (us.filter fun u => as.findIdx? u.test == some n)) :=
  List.getElem?_mapIdx

namespace Steady

variable (h : Steady G us)

include h

theorem mono (hvs : vs ⊆ us) : Steady G vs where
  made u hu := h.made u (hvs hu)
  keeps u hu := h.keeps u (hvs hu)
  tests u hu v hv := h.tests u (hvs hu) v (hvs hv)

/-- Several of the changes leave what any of them finds. -/
theorem applyAll (hvs : vs ⊆ us) (ha : G a) :
    G (applyAll vs a) ∧ ∀ u ∈ us, u.test (applyAll vs a) = u.test a := by
  induction vs generalizing a with
  | nil => exact ⟨ha, fun _ _ => rfl⟩
  | cons v vs ih =>
    obtain ⟨hv, hvs⟩ := List.cons_subset.1 hvs
    obtain ⟨hG, htests⟩ := ih hvs (h.keeps v hv a ha)
    exact ⟨hG, fun u hu => (htests u hu).trans (h.tests v hv u hu a ha)⟩

theorem forall_settle (hvs : vs ⊆ us) (has : ∀ a ∈ as, G a) : ∀ a ∈ settle vs as, G a := by
  intro a ha
  obtain ⟨n, hn⟩ := List.getElem?_of_mem ha
  rw [getElem?_settle] at hn
  obtain ⟨b, hb, rfl⟩ := Option.map_eq_some_iff.1 hn
  have hsub := List.Subset.trans (List.filter_sublist
    (p := fun u => as.findIdx? u.test == some n)).subset hvs
  exact (h.applyAll hsub (has b (List.mem_of_getElem? hb))).1

/-- What a change finds is where it was. -/
theorem findIdx?_settle (hvs : vs ⊆ us) (hv : v ∈ us) (has : ∀ a ∈ as, G a) :
    (settle vs as).findIdx? v.test = as.findIdx? v.test := by
  have hmap : (settle vs as).map v.test = as.map v.test := by
    refine List.ext_getElem? fun n => ?_
    rw [List.getElem?_map, List.getElem?_map, getElem?_settle]
    cases hn : as[n]? with
    | none => rfl
    | some a =>
      have hsub := List.Subset.trans (List.filter_sublist
        (p := fun u => as.findIdx? u.test == some n)).subset hvs
      exact congrArg some ((h.applyAll hsub (has a (List.mem_of_getElem? hn))).2 v hv)
  have hfind : ∀ bs : List α, bs.findIdx? v.test = (bs.map v.test).findIdx? id := fun bs => by
    rw [List.findIdx?_map]
    rfl
  rw [hfind, hmap, ← hfind]

/-- One more change, of an item that is there. -/
theorem run_settle (hvs : vs ⊆ us) (hv : v ∈ us) (has : ∀ a ∈ as, G a)
    (hn : as.findIdx? v.test = some n) : v.run (settle vs as) = settle (vs ++ [v]) as := by
  have hfind := (h.findIdx?_settle hvs hv has).trans hn
  obtain ⟨hlt, -, -⟩ := List.findIdx?_eq_some_iff_getElem.1 hfind
  have hset : v.run (settle vs as) = (settle vs as).set n (v.change (settle vs as)[n]) :=
    upsert_of_found hfind (List.getElem?_eq_getElem hlt)
  rw [hset]
  refine List.ext_getElem? fun m => ?_
  rw [getElem?_settle, List.filter_append]
  by_cases hm : m = n
  · subst hm
    have hself := getElem?_settle vs as m
    rw [List.getElem?_eq_getElem hlt] at hself
    obtain ⟨a, ha, hchanged⟩ := Option.map_eq_some_iff.1 hself.symm
    rw [List.getElem?_set_self hlt, ha, List.filter_singleton, hn, beq_self_eq_true, ← hchanged,
      Option.map_some, applyAll_append]
    rfl
  · have hother : (as.findIdx? v.test == some m) = false := by
      rw [hn, beq_eq_false_iff_ne]
      simpa using Ne.symm hm
    rw [List.getElem?_set_ne (Ne.symm hm), getElem?_settle, List.filter_singleton, hother,
      cond_false, List.append_nil]

/-- Changes that find their items each change what they find. -/
theorem runAll_eq_settle (has : ∀ a ∈ as, G a) (hfound : ∀ u ∈ us, ∃ a ∈ as, u.test a = true) :
    runAll us as = settle us as := by
  suffices hpart : ∀ vs, vs <+: us → runAll vs as = settle vs as from hpart us (List.prefix_refl us)
  intro vs
  induction vs using List.reverseRecOn with
  | nil =>
    intro _
    refine List.ext_getElem? fun n => ?_
    rw [getElem?_settle]
    exact (congrFun Option.map_id as[n]?).symm
  | append_singleton vs v ih =>
    intro hprefix
    have hvs := ((List.prefix_append vs [v]).trans hprefix).subset
    have hv := hprefix.subset (List.mem_append_right vs (List.mem_singleton_self v))
    obtain ⟨n, hn⟩ : ∃ n, as.findIdx? v.test = some n := by
      obtain ⟨a, ha, htest⟩ := hfound v hv
      exact Option.isSome_iff_exists.1
        (List.findIdx?_isSome.trans (List.any_eq_true.2 ⟨a, ha, htest⟩))
    have hrun : runAll (vs ++ [v]) as = v.run (runAll vs as) := List.foldl_append
    rw [hrun, ih ((List.prefix_append vs [v]).trans hprefix), h.run_settle hvs hv has hn]

/-- What steady changes make of a list is what they make of the items that they find in it, and of
    those that are added. -/
theorem exists_settle (has : ∀ a ∈ as, G a) : ∃ bs, (∀ b ∈ bs, G b) ∧
    (∀ u ∈ us, ∃ b ∈ bs, u.test b = true) ∧ runAll us as = settle us bs := by
  induction us using List.reverseRecOn with
  | nil =>
    refine ⟨as, has, fun _ h => absurd h List.not_mem_nil, List.ext_getElem? fun n => ?_⟩
    rw [getElem?_settle]
    exact (congrFun Option.map_id as[n]?).symm
  | append_singleton us v ih =>
    have hus : us ⊆ us ++ [v] := List.subset_append_left us [v]
    have hv : v ∈ us ++ [v] := List.mem_append_right us (List.mem_singleton_self v)
    obtain ⟨bs, hbs, hfound, hsettle⟩ := ih (h.mono hus)
    have hrun : runAll (us ++ [v]) as = v.run (settle us bs) := by
      rw [← hsettle]
      exact List.foldl_append
    have hall : ∀ cs : List α, (∀ u ∈ us, ∃ b ∈ cs, u.test b = true) →
        (∃ b ∈ cs, v.test b = true) → ∀ u ∈ us ++ [v], ∃ b ∈ cs, u.test b = true :=
      fun cs hcs hc => List.forall_mem_append.2 ⟨hcs, List.forall_mem_singleton.2 hc⟩
    cases hn : bs.findIdx? v.test with
    | some n =>
      obtain ⟨hlt, htest, -⟩ := List.findIdx?_eq_some_iff_getElem.1 hn
      refine ⟨bs, hbs, hall bs hfound ⟨_, List.getElem_mem hlt, htest⟩, ?_⟩
      rw [hrun, h.run_settle hus hv hbs hn]
    | none =>
      -- The item that is added is one that the change finds, and no other change does.
      obtain ⟨a, ha, htest, hnew⟩ := h.made v hv
      refine ⟨bs ++ [a], List.forall_mem_append.2 ⟨hbs, List.forall_mem_singleton.2 ha⟩,
        hall _ (fun u hu => ?_) ⟨a, List.mem_append_right _ (List.mem_singleton_self a), htest⟩, ?_⟩
      · obtain ⟨b, hb, hbtest⟩ := hfound u hu
        exact ⟨b, List.mem_append_left _ hb, hbtest⟩
      have hmissing := (h.findIdx?_settle hus hv hbs).trans hn
      have hold : ∀ u ∈ us, (bs ++ [a]).findIdx? u.test = bs.findIdx? u.test ∧
          bs.findIdx? u.test ≠ some bs.length := by
        intro u hu
        obtain ⟨b, hb, hbtest⟩ := hfound u hu
        obtain ⟨m, hm⟩ := Option.isSome_iff_exists.1
          (List.findIdx?_isSome.trans (List.any_eq_true.2 ⟨b, hb, hbtest⟩))
        obtain ⟨hlt, -, -⟩ := List.findIdx?_eq_some_iff_getElem.1 hm
        rw [List.findIdx?_append, hm]
        exact ⟨rfl, by simpa using Nat.ne_of_lt hlt⟩
      have hnext : (bs ++ [a]).findIdx? v.test = some bs.length := by
        rw [List.findIdx?_append, hn, List.findIdx?_singleton, if_pos htest]
        simp
      have hadd : v.run (settle us bs) = settle us bs ++ [v.change a] := by
        rw [← hnew]
        exact upsert_of_none hmissing
      rw [hrun, hadd, settle, settle, List.mapIdx_concat]
      congr 1
      · refine List.mapIdx_eq_mapIdx_iff.2 fun m hm => ?_
        have hother : ((bs ++ [a]).findIdx? v.test == some m) = false := by
          rw [hnext, beq_eq_false_iff_ne]
          simpa using Nat.ne_of_gt hm
        rw [List.filter_append, List.filter_singleton, hother, cond_false, List.append_nil,
          List.filter_congr fun u hu => by rw [← (hold u hu).1]]
      · have hnone : us.filter (fun u => (bs ++ [a]).findIdx? u.test == some bs.length) = [] := by
          refine List.filter_eq_nil_iff.2 fun u hu => ?_
          rw [(hold u hu).1, beq_iff_eq]
          exact (hold u hu).2
        rw [List.filter_append, hnone, List.filter_singleton, hnext, beq_self_eq_true]
        rfl

/-- Steady changes made twice come to the same as once, if they do so for each item. -/
theorem runAll_runAll (has : ∀ a ∈ as, G a)
    (hitem : ∀ vs, vs.Sublist us → ∀ a, G a →
      Put.applyAll vs (Put.applyAll vs a) = Put.applyAll vs a) :
    runAll us (runAll us as) = runAll us as := by
  obtain ⟨bs, hbs, hfound, hsettle⟩ := h.exists_settle has
  have hself := List.Subset.refl us
  rw [hsettle, h.runAll_eq_settle (h.forall_settle hself hbs)]
  · refine List.ext_getElem? fun n => ?_
    have hfilter : us.filter (fun u => (settle us bs).findIdx? u.test == some n)
        = us.filter fun u => bs.findIdx? u.test == some n :=
      List.filter_congr fun u hu => by rw [h.findIdx?_settle hself hu hbs]
    rw [getElem?_settle us (settle us bs), hfilter, getElem?_settle, Option.map_map]
    cases hn : bs[n]? with
    | none => rfl
    | some b =>
      exact congrArg some (hitem _ List.filter_sublist b (hbs b (List.mem_of_getElem? hn)))
  · intro u hu
    obtain ⟨b, hb, htest⟩ := hfound u hu
    have hsome := List.findIdx?_isSome.trans (List.any_eq_true.2 ⟨b, hb, htest⟩)
    rw [← h.findIdx?_settle hself hu hbs, List.findIdx?_isSome, List.any_eq_true] at hsome
    exact hsome

end Steady

end Put

end ApiDoc
