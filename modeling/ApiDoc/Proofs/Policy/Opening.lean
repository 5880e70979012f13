import ApiDoc.Proofs.Growth.Embedding
import ApiDoc.Proofs.Growth.Frame
import ApiDoc.Proofs.Policy.Licensed
import ApiDoc.Proofs.Policy.Sifted

namespace ApiDoc

/-!
# Nodes in sources

A node in a source is merged as the content that is read from it when its turn comes. If that is the
same at every turn, the content could stand there in its place:

* `Merge.Opens` — a value of a source, and the same value with content in the place of nodes;
* `Merge.SameContent`, `Merge.SameSlot` — values that are merged alike wherever a licence leads;
* `SameContent.map`, `SameContent.node` — mappings and nodes that are;
* `Opens.same` — a value is merged as it is with its nodes opened;
* `Edit.merge_opened` — and so is a whole source.
-/

open Forest

namespace Merge

/-- A value of a source, and the same value with what is read from nodes in their place. -/
inductive Opens (reads : Kind → NodeId → Entries → Prop) : Use → Data → Data → Prop
  | map {k : Kind} {es : Entries} (mark : Nat) (value : Data × Data → Data)
      (plain : ∀ e ∈ es, isSlotKey k.layout e.1 = false → value e = e.2)
      (slots : ∀ σ p v, k.placement? σ = some p → es.text? (wireName σ) = some v →
        Opens reads (.slot p) v (value (.str (wireName σ), v))) :
      Opens reads (.content k) (.map es mark) (.map (es.map fun e => (e.1, value e)) mark)
  | node {k : Kind} {j : NodeId} {es : Entries} (hreads : reads k j es) :
      Opens reads (.content k) (.node j) (.ofEntries es)
  | other {k : Kind} {v : Data} (hmap : v.entries? = none) (hnode : v.node? = none) :
      Opens reads (.content k) v v
  | refused {p : Placement} {v : Data} {why : Rejection} (h : p.refuses v = some why) :
      Opens reads (.slot p) v v
  | single {k : Kind} {b : Bool} {v v' : Data} (h : Opens reads (.content k) v v') :
      Opens reads (.slot (.single k b)) v v'
  | keyed {k : Kind} {key : String} {fs : Entries} (mark : Nat) (value : Data × Data → Data)
      (h : ∀ e ∈ fs, Opens reads (.content k) e.2 (value e)) :
      Opens reads (.slot (.keyed k key)) (.map fs mark)
        (.map (fs.map fun e => (e.1, value e)) mark)
  | list {k : Kind} {slot : CollectionSlot} {xs : List Data} (mark : Nat) (value : Data → Data)
      (h : ∀ x ∈ xs, Opens reads (.content k) x (value x)) :
      Opens reads (.slot (.listed k slot)) (.list xs mark) (.list (xs.map value) mark)
  | tuple {k : Kind} {slot : CollectionSlot} {xs : List Data} (mark : Nat) (value : Data → Data)
      (h : ∀ x ∈ xs, Opens reads (.content k) x (value x)) :
      Opens reads (.slot (.listed k slot)) (.tuple xs mark) (.tuple (xs.map value) mark)

/-- A value that is merged as another one is wherever a licence leads, if nodes are read to so many
    levels: as content, and as an item of a list. -/
structure SameContent (S : Licence) (f : Forest) (o : MergeOptions) (n m : Nat) (k : Kind)
    (v v' : Data) : Prop where
  content : ∀ d i, Edit.Ready S f d i → (d.forest.get i).kind = k →
    opened o n (fun ps => Merge.content o ps i) v d
      = opened o m (fun ps => Merge.content o ps i) v' d
  item : ∀ d i slot, Edit.Ready S f d i →
    (d.forest.get i).kind.placement? slot.name = some (.listed k slot) →
    opened o n (fun ps => listed o k slot ps i) v d
      = opened o m (fun ps => listed o k slot ps i) v' d

/-- A value that is taken into a slot as another one is, or refused as the other one is. -/
structure SameSlot (S : Licence) (f : Forest) (o : MergeOptions) (n m : Nat) (p : Placement)
    (v v' : Data) : Prop where
  refuses : p.refuses v' = p.refuses v
  take : ∀ d i σ, Edit.Ready S f d i → (d.forest.get i).kind.placement? σ = some p →
    p.refuses v = none → Merge.take o (readParts o n) i σ p v d
      = Merge.take o (readParts o m) i σ p v' d

end Merge

namespace Edit

variable {S : Licence} {f₀ : Forest} {o : MergeOptions} {n m : Nat} {k : Kind} {d : Draft}
  {i : NodeId} {es es' : Entries} {v v' : Data} {σ : String} {p : Placement}

/-! ### Edits that do the same -/

/-- Loops whose turns do the same wherever the others lead. -/
theorem forM_congr {α : Type} {f g : α → Edit Unit} {xs : List α} (hready : Ready S f₀ d i)
    (h : ∀ x ∈ xs, ∀ d', Steps S d.forest d'.forest → Ready S f₀ d' i →
      Follows S (f x) d' (fun _ _ => True) ∧ f x d' = g x d') : xs.forM f d = xs.forM g d := by
  induction xs generalizing d with
  | nil => rfl
  | cons x xs ih =>
    obtain ⟨hx, hrest⟩ := List.forall_mem_cons.1 h
    obtain ⟨hfollows, hsame⟩ := hx d (.refl _) hready
    show (f x >>= fun _ => xs.forM f) d = (g x >>= fun _ => xs.forM g) d
    refine Results.bind_congr hsame fun _ d' hd' => ?_
    have hrun := hfollows.run hd'
    exact ih (hready.steps hrun) fun y hy d'' hd'' => hrest y hy d'' (hrun.trans hd'')

/-- Edits of a child that is found or made. -/
theorem found_congr {x : Edit NodeId} {f g : NodeId → Edit Unit} (hready : Ready S f₀ d i)
    (hx : Follows S x d fun j g => ∃ σ p key, g.Linked S i σ p key j ∧ p.kind = k)
    (h : ∀ d' j, Ready S f₀ d' j → (d'.forest.get j).kind = k → f j d' = g j d') :
    (x >>= f) d = (x >>= g) d := by
  refine Results.bind_congr rfl fun j d' hj => ?_
  obtain ⟨σ, p, key, hlinked, rfl⟩ := hx.2 j d' hj
  obtain ⟨hready', hkind⟩ := hready.linked (hx.run hj) hlinked
  exact h d' j hready' hkind

end Edit

namespace Merge

variable {S : Licence} {f₀ : Forest} {o : MergeOptions} {n m : Nat} {k : Kind} {d : Draft}
  {i j : NodeId} {es es' : Entries} {v v' : Data} {σ : String} {p : Placement}

/-! ### Entries -/

/-- A slot for which two sources have values that are taken alike. -/
theorem intoSlot_congr (hready : Edit.Ready S f₀ d i)
    (hp : (d.forest.get i).kind.placement? σ = some p)
    (hv : Option.Rel (SameSlot S f₀ o n m p) (es.text? (wireName σ)) (es'.text? (wireName σ))) :
    intoSlot o (readParts o n) i es σ p d = intoSlot o (readParts o m) i es' σ p d := by
  generalize hv₁ : es.text? (wireName σ) = v?, hv₂ : es'.text? (wireName σ) = v'? at hv
  cases hv with
  | none => rw [intoSlot_of_none hv₁, intoSlot_of_none hv₂]
  | @some v v' hsame =>
    cases hwhy : p.refuses v with
    | some why =>
      rw [intoSlot_of_refused hv₁ hwhy, intoSlot_of_refused hv₂ (hsame.refuses.trans hwhy)]
    | none =>
      rw [intoSlot_of_taken hv₁ hwhy, intoSlot_of_taken hv₂ (hsame.refuses.trans hwhy)]
      exact hsame.take d i σ hready hp hwhy

/-- Sources with values that are taken alike. -/
theorem content_congr (hu : Under S f₀ (fun _ _ => True) o) (hready : Edit.Ready S f₀ d i)
    (hslots : ∀ σ p, (d.forest.get i).kind.placement? σ = some p →
      Option.Rel (SameSlot S f₀ o n m p) (es.text? (wireName σ)) (es'.text? (wireName σ)))
    (hplain : plain (d.forest.get i).kind es' = plain (d.forest.get i).kind es) :
    content o (parts o (readParts o n) es) i d = content o (parts o (readParts o m) es') i d := by
  rw [content_parts, content_parts]
  refine Results.bind_congr rfl fun N d₁ hN => ?_
  obtain ⟨rfl, rfl⟩ := Edit.Looks.node i N d₁ hN
  rw [hplain]
  refine Results.bind_congr (Edit.forM_congr hready fun q hq d' hrun hready' => ?_)
    fun _ _ _ => rfl
  have hp := Kind.placement?_of_mem hq
  have hp' := (hrun.later.placed hready.lt hp).2
  exact ⟨hu.slot hready' n hp' fun v _ => q.2.offers_any S f₀ v,
    intoSlot_congr hready' hp' (hslots q.1 q.2 hp)⟩

/-- What tells a member is among the entries that name no slot. -/
theorem identity_plain (es : Entries) (slot : CollectionSlot) :
    Entries.identity k slot (plain k es) = es.identity k slot := by
  unfold Entries.identity plain
  rw [List.filterMap_filter]
  refine List.filterMap_congr fun e _ => ?_
  cases hslot : isSlotKey k.layout e.1 with
  | false => rfl
  | true =>
    obtain ⟨σ, hσ, hkey⟩ := Kind.isSlotKey_iff.1 hslot
    rw [hkey, Entries.identifies?_slot hσ]
    rfl

theorem plain_rest (es : Entries) (slot : CollectionSlot) :
    plain k (es.rest k slot) = Entries.rest k slot (plain k es) := List.filter_comm ..

namespace SameContent

/-- Mappings with values that are taken alike. -/
theorem map (hu : Under S f₀ (fun _ _ => True) o) (mark mark' : Nat)
    (hslots : ∀ σ p, k.placement? σ = some p →
      Option.Rel (SameSlot S f₀ o n m p) (es.text? (wireName σ)) (es'.text? (wireName σ)))
    (hplain : plain k es' = plain k es) :
    SameContent S f₀ o n m k (.map es mark) (.map es' mark') where
  content d i hready hk := by
    subst hk
    exact content_congr hu hready hslots hplain
  item d i slot hready hp := by
    show listed o k slot (parts o (readParts o n) es) i d
      = listed o k slot (parts o (readParts o m) es') i d
    have hidentity : es'.identity k slot = es.identity k slot := by
      rw [← identity_plain, hplain, identity_plain]
    rw [listed_parts, listed_parts, hidentity]
    refine Edit.found_congr hready ((Edit.Follows.collectionItem hready.formed hready.node hready.lt
      (areFields_identity k slot es).unreserved).mono fun _ _ _ ⟨slot, hlinked⟩ =>
        ⟨slot.name, .listed k slot, .unset, hlinked _, rfl⟩) fun d' j hready' hk => ?_
    subst hk
    refine content_congr hu hready' (fun σ p hp => ?_) ?_
    · have hσ := Kind.mem_slots_of_placement? hp
      rw [Entries.text?_rest_slot_eq hσ, Entries.text?_rest_slot_eq hσ]
      exact hslots σ p hp
    · rw [plain_rest, plain_rest, hplain]

/-- A node whose content is the same wherever a licence leads. -/
theorem node (hread : ∀ d : Draft, Steps S f₀ d.forest → d.forest.content j = .ok es)
    (hes : SameContent S f₀ o n m k (.ofEntries es) (.ofEntries es)) :
    SameContent S f₀ o (n + 1) m k (.node j) (.ofEntries es) := by
  have hopened : ∀ act (d : Draft), Steps S f₀ d.forest →
      opened o (n + 1) act (.node j) d = opened o n act (.ofEntries es) d := fun act d hd =>
    Results.bind_of_ok (partsOf_eq_ok.2 ⟨n, es, rfl, rfl, hread d hd, rfl⟩)
  refine ⟨fun d i hready hk => ?_, fun d i slot hready hp => ?_⟩
  · exact (hopened _ d hready.since).trans (hes.content d i hready hk)
  · exact (hopened _ d hready.since).trans (hes.item d i slot hready hp)

/-- A value that has no content. -/
theorem other (hmap : v.entries? = none) (hnode : v.node? = none) :
    SameContent S f₀ o n m k v v := by
  have hopened : ∀ act, opened o n act v = opened o m act v := by
    intro act
    cases v with
    | map => cases hmap
    | node => cases hnode
    | _ => rfl
  exact ⟨fun _ _ _ _ => by rw [hopened], fun _ _ _ _ _ => by rw [hopened]⟩

end SameContent

/-! ### Values in slots -/

namespace SameSlot

theorem refused {why : Rejection} (h : p.refuses v = some why) : SameSlot S f₀ o n m p v v where
  refuses := rfl
  take _ _ _ _ _ hnone := by
    rw [h] at hnone
    cases hnone

theorem single {reads : Kind → NodeId → Entries → Prop} {b : Bool}
    (hopens : Opens reads (.content k) v v') (h : SameContent S f₀ o n m k v v') :
    SameSlot S f₀ o n m (.single k b) v v' := by
  -- The child is found or made in the same way, and then both values open to the same.
  have hchild : ∀ d i σ, Edit.Ready S f₀ d i →
      (d.forest.get i).kind.placement? σ = some (.single k b) →
      (do asContent o (readParts o n) v (← Edit.child i k) : Edit Unit) d
        = (do asContent o (readParts o m) v' (← Edit.child i k) : Edit Unit) d := by
    intro d i σ hready hp
    refine Edit.found_congr hready ((Edit.Follows.child hready.formed hready.node hready.lt
      fun _ h => absurd h List.not_mem_nil).mono fun _ _ _ ⟨σ, b, hlinked⟩ =>
        ⟨σ, .single k b, .unset, hlinked, rfl⟩) fun d' j hready' hk => ?_
    rw [asContent_eq_opened, asContent_eq_opened]
    exact h.content d' j hready' hk
  cases hopens with
  | map => exact ⟨rfl, fun d i σ hready hp _ => hchild d i σ hready hp⟩
  | node => exact ⟨rfl, fun d i σ hready hp _ => hchild d i σ hready hp⟩
  | other hmap hnode =>
    refine ⟨rfl, fun d i σ hready hp htaken => ?_⟩
    -- What opens to nothing is a truth value, or the slot refuses it.
    cases v with
    | scalar x =>
      cases x with
      | bool => rfl
      | _ => cases htaken
    | map => cases hmap
    | node => cases hnode
    | _ => cases htaken

theorem keyed {key : String} {fs : Entries} (hu : Under S f₀ (fun _ _ => True) o) (mark : Nat)
    (value : Data × Data → Data) (h : ∀ e ∈ fs, SameContent S f₀ o n m k e.2 (value e)) :
    SameSlot S f₀ o n m (.keyed k key) (.map fs mark)
      (.map (fs.map fun e => (e.1, value e)) mark) where
  refuses := rfl
  take d i σ hready hp _ := by
    show Merge.keyed k (parts o (readParts o n) fs) i d
      = Merge.keyed k (parts o (readParts o m) (fs.map fun e => (e.1, value e))) i d
    rw [keyed_eq_intoMember, keyed_eq_intoMember, List.forM_eq_forM, List.forM_map]
    refine Edit.forM_congr hready fun e he d' hrun hready' => ?_
    refine ⟨hu.member hready' n (e.2.offers_any S f₀), ?_⟩
    refine Edit.found_congr hready' ((Edit.Follows.indexedItem hready'.formed hready'.node
      hready'.lt e.1).mono fun _ _ _ ⟨slot, hlinked⟩ =>
        ⟨slot.name, .keyed k slot.key, e.1, hlinked, rfl⟩) fun d'' j hready'' hk => ?_
    rw [asContent_eq_opened, asContent_eq_opened]
    exact (h e he).content d'' j hready'' hk

theorem listed {slot : CollectionSlot} {xs : List Data} (hu : Under S f₀ (fun _ _ => True) o)
    (value : Data → Data) (hxs : v.items? = some xs) (hys : v'.items? = some (xs.map value))
    (h : ∀ x ∈ xs, SameContent S f₀ o n m k x (value x)) :
    SameSlot S f₀ o n m (.listed k slot) v v' where
  refuses := by
    have hrefuses : ∀ {v : Data} {xs : List Data}, v.items? = some xs →
        (Placement.listed k slot).refuses v = none := by
      intro v xs hxs
      cases v <;> cases hxs <;> rfl
    rw [hrefuses hxs, hrefuses hys]
  take d i σ hready hp _ := by
    obtain rfl : slot.name = σ := (Kind.mem_collections_of_placement? hp).2
    have htake : ∀ (n : Nat) {v : Data} {xs : List Data}, v.items? = some xs →
        Merge.take o (readParts o n) i slot.name (.listed k slot) v
          = xs.forM (opened o n fun ps => Merge.listed o k slot ps i) := by
      intro n v xs hxs
      rw [← items_eq_opened]
      cases v <;> cases hxs <;> rfl
    rw [htake n hxs, htake m hys, List.forM_eq_forM, List.forM_map]
    refine Edit.forM_congr hready fun x hx d' hrun hready' => ?_
    have hp' := (hrun.later.placed hready.lt hp).2
    exact ⟨hu.item hready' n hp' (x.offers_any S f₀), (h x hx).item d' i slot hready' hp'⟩

end SameSlot

/-! ### All values -/

/-- What is said of the two values of a source. -/
def Same (S : Licence) (f : Forest) (o : MergeOptions) (n m : Nat) : Use → Data → Data → Prop
  | .content k => SameContent S f o n m k
  | .slot p => SameSlot S f o n m p
  | _ => fun _ _ => True

/-- A value is merged as it is with its nodes opened, if they are. -/
theorem Opens.same {reads : Kind → NodeId → Entries → Prop} {u : Use}
    (hu : Under S f₀ (fun _ _ => True) o)
    (hreads : ∀ k j es, reads k j es → SameContent S f₀ o n m k (.node j) (.ofEntries es))
    (h : Opens reads u v v') : Same S f₀ o n m u v v' := by
  induction h with
  | @map k es mark value hplain hslots ih =>
    -- Entry by entry the slots take the same, and the plain entries stay as they are.
    refine SameContent.map hu mark mark (fun σ p hp => ?_) ?_
    · rw [Entries.text?_map (g := fun e => (e.1, value e))
        (h := fun v => value (.str (wireName σ), v)) (fun _ => rfl) fun _ => rfl]
      cases hv : es.text? (wireName σ) with
      | none => exact .none
      | some v => exact .some (ih σ p v hp hv)
    · unfold Merge.plain
      rw [List.filter_map]
      refine (List.map_congr_left fun e he => ?_).trans (List.map_id _)
      obtain ⟨hmem, hnot⟩ := List.mem_filter.1 he
      exact Prod.ext rfl (hplain e hmem (by simpa using hnot))
  | node h => exact hreads _ _ _ h
  | other hmap hnode => exact .other hmap hnode
  | refused h => exact .refused h
  | single h ih => exact .single h ih
  | keyed mark value _ ih => exact .keyed hu mark value ih
  | list mark value _ ih => exact .listed hu value rfl rfl ih
  | tuple mark value _ ih => exact .listed hu value rfl rfl ih

end Merge

/-! ### Sources without nodes -/

namespace Merge.Opens

variable {reads : Kind → NodeId → Entries → Prop} {P : Data → Prop} {k : Kind} {es : Entries}
  {σ : String} {p : Placement} {v : Data}

/-- Entries stay as they are if their values do. -/
theorem of_slots (h : ∀ σ p v, k.placement? σ = some p → es.text? (wireName σ) = some v →
    Opens reads (.slot p) v v) (mark : Nat) :
    Opens reads (.content k) (.map es mark) (.map es mark) := by
  have hself : es.map (fun e => (e.1, e.2)) = es := List.map_id _
  have hopens : Opens reads (.content k) (.map es mark) (.map (es.map fun e => (e.1, e.2)) mark) :=
    .map mark Prod.snd (fun e _ _ => rfl) h
  rwa [hself] at hopens

/-- What a source without nodes has for a slot stays as it is. -/
theorem slot_self (hes : es.All (Entries.Findable P) k) : ∀ σ p v, k.placement? σ = some p →
    es.text? (wireName σ) = some v → Opens reads (.slot p) v v := by
  induction hes with
  | @mk k es own _ _ ihs ihm =>
    intro σ p v hp hv
    have hfinds := own.finds σ p v hp hv
    -- Nothing in the source is a node, so that all values open to themselves.
    cases hwhy : p.refuses v with
    | some why => exact .refused hwhy
    | none => ?_
    have hcontent : ∀ {c : Kind} {w : Data}, (∀ j, w ≠ .node j) →
        (∀ gs mark, w = .map gs mark → Opens reads (.content c) w w) →
          Opens reads (.content c) w w := by
      intro c w hnode hmap
      cases w with
      | map gs mark => exact hmap gs mark rfl
      | node j => exact absurd rfl (hnode j)
      | _ => exact .other rfl rfl
    cases p with
    | single c b =>
      refine .single (hcontent hfinds fun fs mark hfs => ?_)
      subst hfs
      exact .of_slots (ihs σ c b fs mark hp hv) mark
    | keyed c key =>
      cases v with
      | map fs mark =>
        -- A mapping whose values are replaced by themselves is the mapping.
        have hself : fs.map (fun e => (e.1, e.2)) = fs := List.map_id _
        have hvalues : ∀ e ∈ fs, Opens reads (.content c) e.2 e.2 := fun e he =>
          hcontent ((hfinds fs mark rfl).2 e he).1 fun gs mark' hgs => by
            rw [hgs]
            exact .of_slots
              (ihm σ _ _ _ hp hv (Placement.mem_items_of_keyed c key mark he hgs)) mark'
        have hopens : Opens reads (.slot (.keyed c key)) (.map fs mark)
            (.map (fs.map fun e => (e.1, e.2)) mark) := .keyed mark Prod.snd hvalues
        rwa [hself] at hopens
      | _ => cases hwhy
    | listed c slot =>
      have hitems : ∀ xs, v.items? = some xs → ∀ x ∈ xs, Opens reads (.content c) x x := by
        intro xs hxs x hx
        refine hcontent (hfinds xs hxs x hx).1 fun gs mark hgs => ?_
        subst hgs
        -- The fields by which an item is told from others are for no slot.
        refine .of_slots (fun τ q w hq hw => ?_) mark
        have hrest := ihm σ _ _ _ hp hv (Placement.mem_items_of_listed c slot hxs hx)
        refine hrest τ q w hq ?_
        rw [Entries.text?_rest_slot_eq (Kind.mem_slots_of_placement? hq)]
        exact hw
      cases v with
      | list xs mark =>
        have hopens : Opens reads (.slot (.listed c slot)) (.list xs mark) (.list (xs.map id) mark) :=
          .list mark id (hitems xs rfl)
        rwa [List.map_id] at hopens
      | tuple xs mark =>
        have hopens : Opens reads (.slot (.listed c slot)) (.tuple xs mark)
            (.tuple (xs.map id) mark) := .tuple mark id (hitems xs rfl)
        rwa [List.map_id] at hopens
      | _ => cases hwhy

/-- A source without nodes stays as it is. -/
theorem self (hes : es.All (Entries.Findable P) k) (mark : Nat) :
    Opens reads (.content k) (.map es mark) (.map es mark) := .of_slots (slot_self hes) mark

end Merge.Opens

/-! ### Nodes of other trees -/

/-- A node of a tree that has none of the nodes below another node, with the content that is read
    from it: a source whose items are found by values of some sort. -/
structure Forest.Apart (P : Data → Prop) (f : Forest) (i : NodeId) (k : Kind) (j : NodeId)
    (es : Entries) : Prop where
  stands : ∃ (s : Tree) (B : Finset NodeId), f.Holds s j B ∧ s.All Tree.Typed ∧
    (∀ b ∈ B, ¬f.Below i b) ∧ s.shown = es
  findable : es.All (Entries.Findable P) k

/-- What is done in a tree leaves the content of a tree apart from it. -/
theorem Forest.Apart.content {P : Data → Prop} {f g : Forest} {i j : NodeId} {k : Kind}
    {es : Entries} (h : f.Apart P i k j es) {S : Licence} (hS : S.nodes = f.Around i)
    (hrun : Steps S f g) : g.content j = .ok es := by
  obtain ⟨s, B, hs, htyped, hapart, rfl⟩ := h.stands
  refine (hs.frame hrun.later.size_le fun b hb => ?_).content_eq htyped
  refine hrun.get_eq (hs.bound b hb) fun hnode => ?_
  rw [hS] at hnode
  exact hnode.elim (hapart b hb) (Nat.not_le_of_lt (hs.bound b hb))

namespace Edit

variable {S : Licence} {f₀ : Forest} {o : MergeOptions} {es es' : Entries} {mark mark' : Nat}
  {d : Draft} {i j : NodeId} {P : Data → Prop}

/-- A source is merged as it is with those of its nodes opened that stand apart from the tree. -/
theorem merge_opened (hu : Merge.Under S f₀ (fun _ _ => True) o) (hS : S.nodes = f₀.Around j)
    (hready : Ready S f₀ d i)
    (h : Merge.Opens (f₀.Apart P j) (.content (d.forest.get i).kind) (.map es mark)
      (.map es' mark')) : merge o (.map es mark) i d = merge o (.map es' mark') i d := by
  obtain ⟨n, hn⟩ : ∃ n, d.forest.size = n + 1 :=
    ⟨_, (Nat.succ_pred_eq_of_pos (Nat.zero_lt_of_lt hready.lt)).symm⟩
  have hsame := h.same hu (n := n + 1) (m := n + 1) fun k j gs hgs =>
    .node (fun _ hd => hgs.content hS hd)
      ((Merge.Opens.self hgs.findable 0).same hu fun _ _ _ h => h)
  have hrun := hsame.content d i hready rfl
  rw [← hn] at hrun
  exact hrun

end Edit

end ApiDoc
