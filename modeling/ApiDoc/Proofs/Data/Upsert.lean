import Mathlib.Data.List.Basic
import Mathlib.Data.List.Induction

namespace ApiDoc

/-!
# Items found and changed, or added

A list can be changed by changing its first item that passes a test, or by adding one to its end
if there is none:

* `upsert` — the change, with `upsert_of_found` and `upsert_of_none`;
* `forall_upsert`, `pairwise_upsert` — what holds of all items, and of all pairs of them;
* `upsert_upsert`, `upsert_comm` — two changes of the same item, and changes of different items;
* `Put`, `Put.runAll` — changes as values, and several of them one after the other;
* `Put.runAll_map_run` — a list put into another after it was changed, or changed after it was put
  into the other;
* `Put.puts_runAll` — what several changes of different items leave at each place.
-/

/-- A list with its first item that passes a test changed, or with a new one at the end. -/
def upsert {α : Type} (test : α → Bool) (new : α) (change : α → α) : List α → List α
  | [] => [new]
  | a :: as => if test a then change a :: as else a :: upsert test new change as

section

variable {α : Type} {test test' : α → Bool} {new new' : α} {change change' : α → α} {as : List α}

theorem upsert_ne_nil (test : α → Bool) (new : α) (change : α → α) (as : List α) :
    upsert test new change as ≠ [] := by
  unfold upsert
  split
  · exact List.cons_ne_nil _ _
  · split <;> exact List.cons_ne_nil _ _

/-- An item that is found is changed in its place. -/
theorem upsert_of_found {n : Nat} {a : α} (hn : as.findIdx? test = some n)
    (ha : as[n]? = some a) : upsert test new change as = as.set n (change a) := by
  induction as generalizing n with
  | nil => exact nomatch ha
  | cons b as ih =>
    rw [List.findIdx?_cons] at hn
    unfold upsert
    split
    · rename_i hb
      rw [if_pos hb] at hn
      cases hn
      cases ha
      rfl
    · rename_i hb
      rw [if_neg hb] at hn
      obtain ⟨m, hm, rfl⟩ := Option.map_eq_some_iff.1 hn
      rw [List.set_cons_succ, ih hm ha]

/-- Without such an item there is one more. -/
theorem upsert_of_none (h : as.findIdx? test = none) :
    upsert test new change as = as ++ [new] := by
  induction as with
  | nil => rfl
  | cons b as ih =>
    rw [List.findIdx?_cons] at h
    unfold upsert
    split
    · rename_i hb
      rw [if_pos hb] at h
      exact nomatch h
    · rename_i hb
      rw [if_neg hb] at h
      rw [ih (Option.map_eq_none_iff.1 h)]
      rfl

/-- A new item comes to the end of a list without such an item. -/
theorem upsert_of_forall (h : ∀ a ∈ as, test a = false) :
    upsert test new change as = as ++ [new] :=
  upsert_of_none (List.findIdx?_eq_none_iff.2 h)

/-- What holds of a new item, and is kept when an item is changed, holds of all items. -/
theorem forall_upsert {Q : α → Prop} (has : ∀ a ∈ as, Q a) (hnew : Q new)
    (hchange : ∀ a, Q a → Q (change a)) : ∀ a ∈ upsert test new change as, Q a := by
  induction as with
  | nil =>
    intro a ha
    rw [List.mem_singleton.1 ha]
    exact hnew
  | cons b as ih =>
    obtain ⟨hb, has⟩ := List.forall_mem_cons.1 has
    unfold upsert
    split
    · exact List.forall_mem_cons.2 ⟨hchange b hb, has⟩
    · exact List.forall_mem_cons.2 ⟨hb, ih has⟩

/-- Items stay apart where those that do not pass the test are apart from a new one, and changes
    keep what is apart. -/
theorem pairwise_upsert {R : α → α → Prop} (has : as.Pairwise R)
    (hnew : ∀ a ∈ as, test a = false → R a new)
    (hchange : ∀ a b, (R a b → R (change a) b) ∧ (R b a → R b (change a))) :
    (upsert test new change as).Pairwise R := by
  -- The relation to an arbitrary item in front has to be carried along for the induction.
  suffices h : (∀ b, (∀ a ∈ as, R b a) → ((∀ a ∈ as, test a = false) → R b new) →
      ∀ a ∈ upsert test new change as, R b a) ∧ (upsert test new change as).Pairwise R from h.2
  induction as with
  | nil =>
    refine ⟨fun b _ hb a ha => ?_, List.pairwise_singleton _ _⟩
    rw [List.mem_singleton.1 ha]
    exact hb fun _ h => absurd h List.not_mem_nil
  | cons a as ih =>
    obtain ⟨ha, has⟩ := List.pairwise_cons.1 has
    obtain ⟨hhead, htail⟩ := List.forall_mem_cons.1 hnew
    obtain ⟨ihforall, ihpairwise⟩ := ih has htail
    unfold upsert
    split
    -- The item that is found is changed in place.
    · rename_i htest
      refine ⟨fun b hb _ => ?_, List.pairwise_cons.2 ⟨fun c hc => (hchange a c).1 (ha c hc), has⟩⟩
      obtain ⟨hba, hbas⟩ := List.forall_mem_cons.1 hb
      exact List.forall_mem_cons.2 ⟨(hchange a b).2 hba, hbas⟩
    -- The head stays in front of what the rest becomes, the new item included.
    · rename_i htest
      have htest : test a = false := by simpa using htest
      refine ⟨fun b hb hbnew => ?_, List.pairwise_cons.2 ⟨?_, ihpairwise⟩⟩
      · obtain ⟨hba, hbas⟩ := List.forall_mem_cons.1 hb
        exact List.forall_mem_cons.2 ⟨hba, ihforall b hbas fun h =>
          hbnew (List.forall_mem_cons.2 ⟨htest, h⟩)⟩
      · exact ihforall a ha fun _ => hhead htest

/-- What is found in a list is found in it after a change that keeps it. -/
theorem exists_upsert {Q : α → Prop} (h : ∃ a ∈ as, Q a) (hchange : ∀ a, Q a → Q (change a)) :
    ∃ a ∈ upsert test new change as, Q a := by
  induction as with
  | nil =>
    obtain ⟨a, ha, -⟩ := h
    exact absurd ha List.not_mem_nil
  | cons b as ih =>
    unfold upsert
    obtain ⟨a, ha, hQ⟩ := h
    split
    · rcases List.mem_cons.1 ha with rfl | ha
      · exact ⟨_, List.mem_cons_self, hchange a hQ⟩
      · exact ⟨a, List.mem_cons_of_mem _ ha, hQ⟩
    · rcases List.mem_cons.1 ha with rfl | ha
      · exact ⟨a, List.mem_cons_self, hQ⟩
      · obtain ⟨c, hc, hQ⟩ := ih ⟨a, ha, hQ⟩
        exact ⟨c, List.mem_cons_of_mem _ hc, hQ⟩

/-- What a change is about is found after it. -/
theorem exists_upsert_self (hnew : test new = true)
    (hchange : ∀ a, test (change a) = test a) : ∃ a ∈ upsert test new change as, test a = true := by
  induction as with
  | nil => exact ⟨new, List.mem_singleton_self new, hnew⟩
  | cons b as ih =>
    unfold upsert
    split
    · exact ⟨_, List.mem_cons_self, (hchange b).trans ‹_›⟩
    · obtain ⟨c, hc, h⟩ := ih
      exact ⟨c, List.mem_cons_of_mem _ hc, h⟩

/-- Changes that do the same to the items of a list. -/
theorem upsert_congr (htest : ∀ a ∈ as, test a = test' a) (hnew : new = new')
    (hchange : ∀ a ∈ as, test' a = true → change a = change' a) :
    upsert test new change as = upsert test' new' change' as := by
  induction as with
  | nil => rw [hnew]; rfl
  | cons a as ih =>
    obtain ⟨hta, htest⟩ := List.forall_mem_cons.1 htest
    obtain ⟨hca, hchange⟩ := List.forall_mem_cons.1 hchange
    unfold upsert
    rw [hta]
    split
    · rw [hca ‹_›]
    · rw [ih htest hchange]

/-- Two changes of the same item are one. -/
theorem upsert_upsert (htest : ∀ a ∈ as, test a = test' a) (hnew : test' new = true)
    (hchange : ∀ a ∈ as, test' a = true → test' (change a) = true) :
    upsert test' new' change' (upsert test new change as)
      = upsert test' (change' new) (fun a => change' (change a)) as := by
  induction as with
  | nil => exact if_pos hnew
  | cons a as ih =>
    obtain ⟨hta, htest⟩ := List.forall_mem_cons.1 htest
    obtain ⟨hca, hchange⟩ := List.forall_mem_cons.1 hchange
    cases ha : test' a with
    | true => simp [upsert, hta, ha, hca ha]
    | false => simp [upsert, hta, ha, ih htest hchange]

/-- Changes of different items, one of which is there, can be made in either order. -/
theorem upsert_comm (hfound : ∃ a ∈ as, test a = true)
    (hapart : ∀ a ∈ as, test a = true → test' a = false)
    (hchange : ∀ a ∈ as, test' (change a) = test' a)
    (hchange' : ∀ a ∈ as, test (change' a) = test a) :
    upsert test new change (upsert test' new' change' as)
      = upsert test' new' change' (upsert test new change as) := by
  induction as with
  | nil =>
    obtain ⟨a, ha, -⟩ := hfound
    exact absurd ha List.not_mem_nil
  | cons a as ih =>
    obtain ⟨haa, hapart⟩ := List.forall_mem_cons.1 hapart
    obtain ⟨hca, hchange⟩ := List.forall_mem_cons.1 hchange
    obtain ⟨hca', hchange'⟩ := List.forall_mem_cons.1 hchange'
    cases ha : test a with
    | true => simp [upsert, ha, haa ha, hca]
    | false =>
      have hfound : ∃ a ∈ as, test a = true := by simpa [ha] using hfound
      cases ha' : test' a with
      | true => simp [upsert, ha, ha', hca']
      | false => simp [upsert, ha, ha', ih hfound hapart hchange hchange']

end

/-! ### Changes as values -/

/-- A change of a list. -/
structure Put (α : Type) where
  test : α → Bool
  new : α
  change : α → α

namespace Put

variable {α : Type}

/-- The list changed. -/
def run (u : Put α) (as : List α) : List α := upsert u.test u.new u.change as

/-- The list after several changes. -/
def runAll (us : List (Put α)) (as : List α) : List α := us.foldl (fun as u => u.run as) as

variable {G : α → Prop} {u x : Put α} {us : List (Put α)} {as : List α}

/-- A change of an item that is there can come before several changes of others. -/
theorem runAll_run (hus : ∀ u ∈ us, G u.new ∧ ∀ a, G a → G (u.change a))
    (has : ∀ a ∈ as, G a) (hfound : ∃ a ∈ as, x.test a = true)
    (hapart : ∀ u ∈ us, ∀ a, G a → x.test a = true → u.test a = false)
    (htest : ∀ u ∈ us, ∀ a, x.test (u.change a) = x.test a ∧ u.test (x.change a) = u.test a) :
    runAll us (x.run as) = x.run (runAll us as) := by
  induction us generalizing as with
  | nil => rfl
  | cons u us ih =>
    obtain ⟨hu, hus⟩ := List.forall_mem_cons.1 hus
    obtain ⟨huapart, hapart⟩ := List.forall_mem_cons.1 hapart
    obtain ⟨hutest, htest⟩ := List.forall_mem_cons.1 htest
    have hcomm : u.run (x.run as) = x.run (u.run as) :=
      (upsert_comm hfound (fun a ha => huapart a (has a ha)) (fun a _ => (hutest a).2)
        fun a _ => (hutest a).1).symm
    show runAll us (u.run (x.run as)) = x.run (runAll us (u.run as))
    rw [hcomm]
    refine ih hus (forall_upsert has hu.1 hu.2) (exists_upsert hfound fun a ha => ?_) hapart htest
    rw [(hutest a).1, ha]

/-- Items put into a list, where each stands for a change of the list: to change the items first
    comes to the same as to change the list afterwards. -/
theorem runAll_map_run {item : α → Put α} {S : List α}
    (hkeep : ∀ c ∈ S, G (item c).new ∧ ∀ a, G a → G ((item c).change a))
    (htest : ∀ c ∈ S, ∀ a, x.test ((item c).change a) = x.test a ∧
      (item c).test (x.change a) = (item c).test a)
    (hnew : ∀ as, (∀ a ∈ as, G a) → (item x.new).run as = x.run as)
    (hfound : ∀ c ∈ S, x.test c = true → ∀ as, (∀ a ∈ as, G a) →
      (item (x.change c)).run as = x.run ((item c).run as) ∧
        ∃ a ∈ (item c).run as, x.test a = true)
    (hapart : S.Pairwise fun c c' => x.test c = true → ∀ a, G a → x.test a = true →
      (item c').test a = false) (has : ∀ a ∈ as, G a) :
    runAll ((x.run S).map item) as = x.run (runAll (S.map item) as) := by
  induction S generalizing as with
  | nil => exact hnew as has
  | cons c S ih =>
    obtain ⟨hckeep, hkeep⟩ := List.forall_mem_cons.1 hkeep
    obtain ⟨-, htest⟩ := List.forall_mem_cons.1 htest
    obtain ⟨hcfound, hfound⟩ := List.forall_mem_cons.1 hfound
    obtain ⟨hcapart, hapart⟩ := List.pairwise_cons.1 hapart
    have hnext : ∀ a ∈ (item c).run as, G a := forall_upsert has hckeep.1 hckeep.2
    cases hc : x.test c with
    -- The head is the one that `x` finds: it is there before and after all the other items.
    | true =>
      obtain ⟨hrun, hthere⟩ := hcfound hc as has
      have hx : x.run (c :: S) = x.change c :: S := if_pos hc
      rw [hx]
      show runAll (S.map item) ((item (x.change c)).run as)
        = x.run (runAll (S.map item) ((item c).run as))
      rw [hrun]
      refine runAll_run ?_ hnext hthere ?_ ?_
      · simpa using hkeep
      · simpa using fun c' hc' => hcapart c' hc' hc
      · simpa using htest
    -- `x` finds another: it meets the same items after the head as before it.
    | false =>
      have hx : x.run (c :: S) = c :: x.run S := if_neg (by simp [hc])
      rw [hx]
      exact ih hkeep htest hfound hapart hnext

/-- The place in a list at which a change is found: of an item that was there, or of a new one. -/
inductive Lands (u : Put α) (as bs : List α) (n : Nat) : Prop
  | found {a : α} (ha : as[n]? = some a) (htest : u.test a = true) (hb : bs[n]? = some (u.change a))
  | added (ha : as[n]? = none) (hnone : ∀ a ∈ as, u.test a = false) (hb : bs[n]? = some u.new)

theorem Lands.congr {bs cs : List α} {n : Nat} (h : u.Lands as bs n) (hbc : cs[n]? = bs[n]?) :
    u.Lands as cs n := by
  cases h with
  | found ha htest hb => exact .found ha htest (hbc.trans hb)
  | added ha hnone hb => exact .added ha hnone (hbc.trans hb)

theorem Lands.isSome {bs : List α} {n : Nat} (h : u.Lands as bs n) : bs[n]?.isSome = true := by
  cases h with
  | found _ _ hb => rw [hb]; rfl
  | added _ _ hb => rw [hb]; rfl

/-- A list in which several changes have landed, with everything else in its place. -/
structure Puts (us : List (Put α)) (as bs : List α) : Prop where
  lands : ∀ u ∈ us, ∃ n, u.Lands as bs n
  others : ∀ n, bs[n]? = as[n]? ∨ ∃ u ∈ us, u.Lands as bs n

namespace Puts

variable {bs cs : List α} {n : Nat}

/-- One more change that lands where none has. -/
theorem append (h : Puts us as bs) (hn : x.Lands as cs n) (hkept : ∀ m, m ≠ n → cs[m]? = bs[m]?)
    (hfresh : ∀ u ∈ us, ¬u.Lands as bs n) : Puts (us ++ [x]) as cs where
  lands u hu := by
    rcases List.mem_append.1 hu with hu | hu
    · obtain ⟨m, hm⟩ := h.lands u hu
      refine ⟨m, hm.congr (hkept m ?_)⟩
      rintro rfl
      exact hfresh u hu hm
    · rw [List.mem_singleton.1 hu]
      exact ⟨n, hn⟩
  others m := by
    by_cases hm : m = n
    · subst hm
      exact .inr ⟨x, List.mem_append_right _ (List.mem_singleton_self x), hn⟩
    · have heq := hkept m hm
      rcases h.others m with hsame | ⟨u, hu, hland⟩
      · exact .inl (heq.trans hsame)
      · exact .inr ⟨u, List.mem_append_left _ hu, hland.congr heq⟩

/-- One more change, of an item that none has changed or added. -/
theorem run (h : Puts us as bs)
    (hother : ∀ u ∈ us, ∀ n b, u.Lands as bs n → bs[n]? = some b → x.test b = false)
    (hback : (∀ b ∈ bs, x.test b = false) → ∀ a ∈ as, x.test a = false) :
    Puts (us ++ [x]) as (x.run bs) := by
  -- Where no upsert landed, the list is as it was.
  have hold : ∀ n, (∀ u ∈ us, ¬u.Lands as bs n) → as[n]? = bs[n]? := by
    intro n hfresh
    rcases h.others n with heq | ⟨u, hu, hland⟩
    · exact heq.symm
    · exact absurd hland (hfresh u hu)
  cases hfind : bs.findIdx? x.test with
  -- Found: none of the others landed there, or it would not be found as one that differs.
  | some n =>
    obtain ⟨hlt, htest, -⟩ := List.findIdx?_eq_some_iff_getElem.1 hfind
    have hb := List.getElem?_eq_getElem hlt
    have hset : x.run bs = bs.set n (x.change bs[n]) := upsert_of_found hfind hb
    have hfresh : ∀ u ∈ us, ¬u.Lands as bs n := by
      intro u hu hn
      rw [hother u hu n _ hn hb] at htest
      cases htest
    refine h.append (.found ((hold n hfresh).trans hb) htest ?_) (fun m hm => ?_) hfresh
    · rw [hset, List.getElem?_set_self hlt]
    · rw [hset, List.getElem?_set_ne (Ne.symm hm)]
  -- Not found: the new item comes behind all that the others added.
  | none =>
    have happend : x.run bs = bs ++ [x.new] := upsert_of_none hfind
    have hend : bs[bs.length]? = none := List.getElem?_eq_none (Nat.le_refl _)
    have hfresh : ∀ u ∈ us, ¬u.Lands as bs bs.length := by
      intro u _ hn
      have hsome := hn.isSome
      rw [hend] at hsome
      cases hsome
    have hnone := hback (List.findIdx?_eq_none_iff.1 hfind)
    refine h.append (.added ((hold _ hfresh).trans hend) hnone ?_) (fun m hm => ?_) hfresh
    · rw [happend, List.getElem?_append_right (Nat.le_refl _), Nat.sub_self]
      rfl
    · rw [happend]
      rcases Nat.lt_or_gt_of_ne hm with hlt | hgt
      · exact List.getElem?_append_left hlt
      · rw [List.getElem?_eq_none (Nat.le_of_lt hgt), List.getElem?_eq_none]
        rw [List.length_append]
        exact hgt

end Puts

/-- Changes of different items each land at some place, and all other places stay as they are. -/
theorem puts_runAll (has : ∀ a ∈ as, G a)
    (hkeep : ∀ u ∈ us, ∀ v ∈ us, ∀ a, G a → v.test (u.change a) = v.test a)
    (hapart : us.Pairwise fun u v => v.test u.new = false ∧
      ∀ a, G a → u.test a = true → v.test a = false) : Puts us as (runAll us as) := by
  induction us using List.reverseRecOn with
  | nil => exact ⟨fun _ h => absurd h List.not_mem_nil, fun _ => .inl rfl⟩
  | append_singleton us v ih =>
    obtain ⟨hapart, -, hv⟩ := List.pairwise_append.1 hapart
    have hself := List.mem_singleton_self v
    have hkeep' : ∀ u ∈ us, ∀ a ∈ as, v.test (u.change a) = v.test a := fun u hu a ha =>
      hkeep u (List.mem_append_left _ hu) v (List.mem_append_right _ hself) a (has a ha)
    have hputs := ih (fun u hu w hw => hkeep u (List.mem_append_left _ hu) w
      (List.mem_append_left _ hw)) hapart
    have hrun : runAll (us ++ [v]) as = v.run (runAll us as) := List.foldl_append
    rw [hrun]
    refine hputs.run (fun u hu n b hn hb => ?_) fun hbs a ha => ?_
    -- What was changed or added before is not what is changed now.
    · cases hn with
      | found ha htest hb' =>
        have ha := List.mem_of_getElem? ha
        obtain rfl := Option.some.inj (hb'.symm.trans hb)
        rw [hkeep' u hu _ ha]
        exact (hv u hu v hself).2 _ (has _ ha) htest
      | added _ _ hb' =>
        obtain rfl := Option.some.inj (hb'.symm.trans hb)
        exact (hv u hu v hself).1
    · obtain ⟨m, hm⟩ := List.getElem?_of_mem ha
      rcases hputs.others m with heq | ⟨u, hu, hland⟩
      · exact hbs a (List.mem_of_getElem? (heq.trans hm))
      · cases hland with
        | found ha' _ hb =>
          obtain rfl := Option.some.inj (hm.symm.trans ha')
          rw [← hkeep' u hu a ha]
          exact hbs _ (List.mem_of_getElem? hb)
        | added ha' =>
          rw [hm] at ha'
          cases ha'

end Put

end ApiDoc
