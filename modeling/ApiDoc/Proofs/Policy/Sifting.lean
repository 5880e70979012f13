import ApiDoc.Proofs.Growth.Embedding
import ApiDoc.Proofs.Policy.Lenience
import ApiDoc.Proofs.Policy.Licensed
import ApiDoc.Proofs.Policy.Sifted
import ApiDoc.Proofs.Policy.Warnings

namespace ApiDoc

/-!
# Lenient merges and sifted sources

A merge that warns about refused keys and goes on does what a merge that fails at refused keys does
with the source without these keys:

* `MergeOptions.strict`, `MergeOptions.lenient` — the two policies;
* `Edit.Tracks` — a run with its warnings, and an edit that gets to the same forest without any;
* `Merge.Sifts` — a source for which this holds wherever it is merged;
* `Tracks.plain`, `Tracks.members`, `Tracks.items`, `Tracks.slots` — the entries of a source;
* `sifts`, `sifts_readParts` — all sources, by induction on their size and on how often they are
  read from nodes;
* `merge_policies` — what the two policies have to do with each other.
-/

open Forest

namespace MergeOptions

/-- Refused keys are failures. -/
def strict (ov : Bool) : MergeOptions := { overwrite := ov, policy := .error }

/-- Refused keys are left out with a warning. -/
def lenient (ov : Bool) : MergeOptions := { overwrite := ov, policy := .warn }

end MergeOptions

open Merge MergeOptions

namespace Edit

/-! ### Runs that are tracked -/

/-- A run that has warned of some refused keys, and an edit that does the same on drafts with any
    warnings and gives none, if it reads nodes to some levels at least. -/
structure Tracks (n : Nat) (d d' : Draft) (rs : List Refusal) (strict : Nat → Edit Unit) : Prop where
  warned : ∃ ws, d'.warnings = d.warnings ++ ws ∧ List.Forall₂ Refusal.Warns rs ws
  same : ∀ m, n ≤ m → ∀ ws, strict m (d.withWarnings ws) = .ok () (d'.withWarnings ws)

namespace Tracks

variable {n : Nat} {d d₁ d' : Draft} {rs rs' : List Refusal} {x y : Nat → Edit Unit}

/-- A silent edit is tracked by itself. -/
theorem of_silent {act : Edit Unit} (hact : Silent act) (h : act d = .ok () d') :
    Tracks n d d' [] fun _ => act where
  warned := ⟨[], by rw [hact.warnings_eq h, List.append_nil], .nil⟩
  same _ _ ws := hact.of_ok h ws

theorem refl (n : Nat) (d : Draft) : Tracks n d d [] fun _ => pure () :=
  of_silent (.pure ()) rfl

/-- One run after another. -/
theorem seq (hx : Tracks n d d₁ rs x) (hy : Tracks n d₁ d' rs' y) :
    Tracks n d d' (rs ++ rs') fun m => do x m; y m where
  warned := by
    obtain ⟨ws, hws, hwarns⟩ := hx.warned
    obtain ⟨vs, hvs, hwarns'⟩ := hy.warned
    exact ⟨ws ++ vs, by rw [hvs, hws, List.append_assoc], List.rel_append hwarns hwarns'⟩
  same m hm ws := by
    rw [Results.bind_of_ok (hx.same m hm ws)]
    exact hy.same m hm ws

/-- A run after a silent edit. -/
theorem after_silent {α : Type} {act : Edit α} {f : Nat → α → Edit Unit} {a : α}
    (hact : Silent act) (h : act d = .ok a d₁) (hf : Tracks n d₁ d' rs fun m => f m a) :
    Tracks n d d' rs fun m => act >>= f m where
  warned := by
    rw [← hact.warnings_eq h]
    exact hf.warned
  same m hm ws := by
    rw [Results.bind_of_ok (hact.of_ok h ws)]
    exact hf.same m hm ws

theorem congr (h : Tracks n d d' rs x) (hxy : ∀ m, n ≤ m → x m = y m) : Tracks n d d' rs y where
  warned := h.warned
  same m hm ws := by rw [← hxy m hm, h.same m hm ws]

/-- A refused key. -/
theorem reject {ov : Bool} {i : NodeId} {key : String} {why : Rejection} {k : Kind}
    (hk : (d.forest.get i).kind = k) (h : Merge.reject (lenient ov) i key why d = .ok () d') :
    Tracks n d d' [⟨key, k, why⟩] fun _ => pure () := by
  obtain ⟨m, d₁, hnode, h⟩ := Results.bind_eq_ok.1 h
  obtain ⟨rfl, rfl⟩ := Looks.node i m d₁ hnode
  obtain ⟨location, d₂, hlocation, h⟩ := Results.bind_eq_ok.1 h
  obtain ⟨rfl, -⟩ := Looks.location i location d₂ hlocation
  cases h
  refine ⟨⟨_, rfl, .cons ⟨location, ?_⟩ .nil⟩, fun _ _ _ => rfl⟩
  rw [← hk]

end Tracks

end Edit

/-! ### Sources that are sifted -/

namespace Merge

/-- What is taken of the value in a slot of a source. -/
def SiftsSlot (S : Licence) (f g : Forest) (es : Entries) (kept : String → Data)
    (inner : String → List Refusal) (q : String × Placement) : Prop :=
  ∀ v, es.text? (wireName q.1) = some v → q.2.refuses v = none →
    Sifted (ReadBetween S f g) (.slot q.2) v (kept q.1) (inner q.1)

/-- A lenient run on the parts of a source that is tracked by the strict one on the parts of what is
    left of the source. -/
def SiftsIn (S : Licence) (f g : Forest) (k : Kind) (act : MergeOptions → List Part → Edit Unit)
    (n : Nat) (es : Entries) (d d' : Draft) : Prop :=
  act (lenient S.overwrite) (parts (lenient S.overwrite) (readParts (lenient S.overwrite) n) es) d
    = .ok () d' →
  ∃ kept inner, (∀ q ∈ k.placements, SiftsSlot S f g es kept inner q) ∧
    Edit.Tracks n d d' (es.refusals k inner) fun m => act (strict S.overwrite)
      (parts (strict S.overwrite) (readParts (strict S.overwrite) m) (es.sifted k kept inner))

/-- A source that is sifted wherever it is merged. -/
def Sifts (S : Licence) (f g : Forest) (n : Nat) (es : Entries) : Prop :=
  ∀ d d' i, Edit.Ready S f d i → Steps S d'.forest g →
    SiftsIn S f g (d.forest.get i).kind (fun o ps => content o ps i) n es d d'

end Merge

namespace Edit

variable {S : Licence} {f₀ f₁ : Forest} {d d' : Draft} {i j : NodeId} {k : Kind} {n : Nat}
  {es : Entries} {v : Data}

/-- Where all fields may be written every source is covered. -/
theorem lenient_under (hany : ∀ k name, S.fields k name) (f₀ : Forest) :
    Under S f₀ (fun _ _ => True) (lenient S.overwrite) :=
  ⟨rfl, S.covers_any hany f₀⟩

namespace Tracks

/-! ### Entries that name no slot -/

/-- The value under a key that names no slot. -/
theorem setPlain {ov : Bool} (hk : (d.forest.get i).kind = k) {e : Data × Data}
    (h : Merge.setPlain (lenient ov) i e.1 e.2 d = .ok () d') :
    Tracks n d d' (Entries.plainRefusal? k e).toList fun _ =>
      if (Entries.plainRefusal? k e).isNone then Merge.setPlain (strict ov) i e.1 e.2
      else pure () := by
  obtain ⟨key, v⟩ := e
  obtain ⟨s, rfl⟩ := text_of_setPlain h
  rw [setPlain_text hk] at h
  -- The policies only differ in what they do about keys that are refused.
  have hsame : ∀ act : Edit Unit, Silent act → act d = .ok () d' →
      (∀ ws, Merge.setPlain (strict ov) i (.str s) v (d.withWarnings ws)
        = act (d.withWarnings ws)) →
      Tracks n d d' [] fun _ => Merge.setPlain (strict ov) i (.str s) v := by
    intro act hact hrun hstrict
    refine ⟨(of_silent (n := n) hact hrun).warned, fun m _ ws => ?_⟩
    rw [hstrict ws, hact.of_ok hrun ws]
  have hstrict := fun ws => setPlain_text (o := strict ov) (d := d.withWarnings ws) hk s v
  by_cases hx : s.startsWith "x-" = true
  · rw [if_pos hx] at h
    simp only [if_pos hx] at hstrict
    rw [Entries.plainRefusal?_text, Kind.undeclares_of_extension hx]
    exact hsame _ (.setExtension (lenient ov) i s v) h hstrict
  · rw [if_neg hx] at h
    simp only [if_neg hx] at hstrict
    cases hfield : k.fieldOfWire? s with
    | none =>
      rw [hfield] at h
      rw [Entries.plainRefusal?_text, Kind.undeclares_of_none hx hfield]
      exact reject hk h
    | some name =>
      rw [hfield] at h
      simp only [hfield] at hstrict
      rw [Entries.plainRefusal?_text, Kind.undeclares_of_some hfield]
      exact hsame _ (.ite (.growList i name v) (.setScalar (lenient ov) i name v)) h hstrict

/-- All entries that name no slot. -/
theorem plain (hany : ∀ k name, S.fields k name) (hready : Ready S f₀ d i)
    (hk : (d.forest.get i).kind = k) (es : Entries)
    (h : es.forM (fun e => Merge.setPlain (lenient S.overwrite) i e.1 e.2) d = .ok () d') :
    Tracks n d d' (es.filterMap (Entries.plainRefusal? k)) fun _ =>
      (es.filter fun e => (Entries.plainRefusal? k e).isNone).forM fun e =>
        Merge.setPlain (strict S.overwrite) i e.1 e.2 := by
  induction es generalizing d with
  | nil =>
    cases h
    exact refl n _
  | cons e es ih =>
    obtain ⟨_, d₁, he, hes⟩ := Results.bind_eq_ok.1 h
    have hrun := (Follows.setPlain (o := lenient S.overwrite) rfl hready e.1 e.2
      fun _ _ _ _ => hany _ _).run he
    have hrest := ih (hready.steps hrun) ((hrun.later.kind_eq i hready.lt).trans hk) hes
    have hboth := (setPlain (n := n) hk he).seq hrest
    rw [List.filterMap_cons, List.filter_cons]
    cases hplain : Entries.plainRefusal? k e with
    | none =>
      rw [hplain] at hboth
      exact hboth
    | some r =>
      rw [hplain] at hboth
      exact hboth

/-! ### Content -/

/-- The content of a value, be it a mapping or read from a node. -/
theorem opened (act : MergeOptions → List Part → Edit Unit) (hsince : Steps S f₀ d.forest)
    (hend : Steps S d.forest f₁)
    (hmap : ∀ gs mark, v = .map gs mark → SiftsIn S f₀ f₁ k act n gs d d')
    (hnode : ∀ m < n, ∀ gs, SiftsIn S f₀ f₁ k act m gs d d')
    (h : opened (lenient S.overwrite) n (act (lenient S.overwrite)) v d = .ok () d') :
    ∃ v' rs, Sifted (ReadBetween S f₀ f₁) (.content k) v v' rs ∧
      Tracks n d d' rs fun m => Merge.opened (strict S.overwrite) m (act (strict S.overwrite)) v' := by
  cases v with
  -- A mapping is sifted entry by entry.
  | map gs mark =>
    obtain ⟨kept, inner, hslots, htracks⟩ := hmap gs mark rfl h
    exact ⟨_, _, .map mark kept inner hslots, htracks⟩
  | node j =>
    -- A node is read and what it shows is sifted.
    obtain ⟨ps, d₁, hps, h⟩ := Results.bind_eq_ok.1 h
    obtain ⟨m, gs, rfl, rfl, hgs, rfl⟩ := partsOf_eq_ok.1 hps
    obtain ⟨kept, inner, hslots, htracks⟩ := hnode m (Nat.lt_succ_self m) gs h
    have hread : ReadBetween S f₀ f₁ j gs := ⟨_, hsince, hend, hgs⟩
    have hsifted : Sifted (ReadBetween S f₀ f₁) (.content k) (.ofEntries gs)
        (.map (gs.sifted k kept inner) 0) (gs.refusals k inner) := .map 0 kept inner hslots
    by_cases hrs : gs.refusals k inner = []
    · -- The node stays, and is read once more.
      rw [hrs] at hsifted htracks
      refine ⟨.node j, [], .whole hread hsifted, htracks.warned, fun m' hm ws => ?_⟩
      have hsame := fun m' hm => htracks.same m' hm ws
      simp only [Entries.sifted_eq_self hrs] at hsame
      cases m' with
      | zero => cases hm
      | succ m' =>
        show (Merge.partsOf _ j >>= act (strict S.overwrite)) _ = _
        rw [Results.bind_of_ok (partsOf_eq_ok (d := d₁.withWarnings ws).2
          ⟨m', gs, rfl, rfl, hgs, rfl⟩)]
        exact hsame m' (Nat.le_of_succ_le_succ hm)
    · refine ⟨_, _, .read hread hsifted hrs, htracks.warned, fun m' hm ws => ?_⟩
      exact htracks.same m' (Nat.le_of_succ_le hm) ws
  | _ => cases h

/-- A mapping as the content of a node and what is read from a node. -/
theorem asContent (hsmaller : ∀ gs mark, v = .map gs mark → Sifts S f₀ f₁ n gs)
    (hfewer : ∀ m < n, ∀ gs, Sifts S f₀ f₁ m gs) (hready : Ready S f₀ d i)
    (hk : (d.forest.get i).kind = k) (hrun : Steps S d.forest d'.forest)
    (hend : Steps S d'.forest f₁)
    (h : Merge.asContent (lenient S.overwrite) (readParts (lenient S.overwrite) n) v i d
      = .ok () d') :
    ∃ v' rs, Sifted (ReadBetween S f₀ f₁) (.content k) v v' rs ∧ Tracks n d d' rs fun m =>
      Merge.asContent (strict S.overwrite) (readParts (strict S.overwrite) m) v' i := by
  subst hk
  simp only [asContent_eq_opened] at h ⊢
  exact opened (fun o ps => Merge.content o ps i) hready.since (hrun.trans hend)
    (fun gs mark hv => hsmaller gs mark hv d d' i hready hend)
    (fun m hm gs => hfewer m hm gs d d' i hready hend) h

/-- The content of a child that is found or made. -/
theorem found (hany : ∀ k name, S.fields k name) {x : Edit NodeId} (hx : Silent x)
    (hfound : Follows S x d fun j g => ∃ σ p key, g.Linked S i σ p key j ∧ p.kind = k)
    (hsmaller : ∀ gs mark, v = .map gs mark → Sifts S f₀ f₁ n gs)
    (hfewer : ∀ m < n, ∀ gs, Sifts S f₀ f₁ m gs) (hready : Ready S f₀ d i)
    (hend : Steps S d'.forest f₁)
    (h : (x >>= Merge.asContent (lenient S.overwrite) (readParts (lenient S.overwrite) n) v) d
      = .ok () d') :
    ∃ v' rs, Sifted (ReadBetween S f₀ f₁) (.content k) v v' rs ∧ Tracks n d d' rs fun m =>
      x >>= Merge.asContent (strict S.overwrite) (readParts (strict S.overwrite) m) v' := by
  obtain ⟨j, d₁, hj, h⟩ := Results.bind_eq_ok.1 h
  obtain ⟨σ, p, key, hlinked, rfl⟩ := hfound.2 j d₁ hj
  obtain ⟨hready', hkind⟩ := hready.linked (hfound.run hj) hlinked
  obtain ⟨v', rs, hsifted, htracks⟩ := asContent hsmaller hfewer hready' hkind
    (((lenient_under hany f₀).asContent hready' n (v.offers_any S f₀)).run h) hend h
  exact ⟨v', rs, hsifted, after_silent hx hj htracks⟩

/-! ### Members under keys -/

/-- All members under keys. -/
theorem members (hany : ∀ k name, S.fields k name) {fs : Entries} (mark : Nat)
    (hsmaller : ∀ e ∈ fs, ∀ gs mark, e.2 = .map gs mark → Sifts S f₀ f₁ n gs)
    (hfewer : ∀ m < n, ∀ gs, Sifts S f₀ f₁ m gs) (hready : Ready S f₀ d i)
    (hend : Steps S d'.forest f₁)
    (h : List.forM fs (intoMember (lenient S.overwrite) (readParts (lenient S.overwrite) n) i k) d
      = .ok () d') :
    ∃ fs' rs, Sifted (ReadBetween S f₀ f₁) (.members k) (.map fs mark) (.map fs' mark) rs ∧
      Tracks n d d' rs fun m =>
        List.forM fs' (intoMember (strict S.overwrite) (readParts (strict S.overwrite) m) i k) := by
  induction fs generalizing d with
  | nil =>
    cases h
    exact ⟨[], [], .noMember mark, refl n _⟩
  | cons e fs ih =>
    obtain ⟨hhead, htail⟩ := List.forall_mem_cons.1 hsmaller
    obtain ⟨_, d₁, he, hfs⟩ := Results.bind_eq_ok.1 h
    have hrun := ((lenient_under hany f₀).member hready n (e.2.offers_any S f₀)).run he
    have hready' := hready.steps hrun
    have hrest := ((lenient_under hany f₀).members hready' n fun e _ => e.2.offers_any S f₀).run hfs
    have hfound : Follows S (Edit.indexedItem i k e.1) d fun j g => ∃ σ p key,
        g.Linked S i σ p key j ∧ p.kind = k :=
      (Follows.indexedItem hready.formed hready.node hready.lt e.1).mono
        fun _ _ _ ⟨slot, hlinked⟩ => ⟨slot.name, .keyed k slot.key, e.1, hlinked, rfl⟩
    obtain ⟨v', rs, hsifted, htracks⟩ := found hany (.indexedItem i k e.1) hfound hhead hfewer
      hready (hrest.trans hend) he
    obtain ⟨fs', rs', hsifted', htracks'⟩ := ih htail hready' hfs
    exact ⟨(e.1, v') :: fs', rs ++ rs', .member hsifted hsifted', htracks.seq htracks'⟩

/-! ### Items of a collection -/

/-- An item of a collection. -/
theorem listed {gs : Entries} {slot : CollectionSlot}
    (hsifts : Sifts S f₀ f₁ n (gs.rest k slot)) (hready : Ready S f₀ d i)
    (hend : Steps S d'.forest f₁) :
    SiftsIn S f₀ f₁ k (fun o ps => Merge.listed o k slot ps i) n gs d d' := by
  intro h
  dsimp only at h
  rw [listed_parts] at h
  obtain ⟨j, d₁, hj, h⟩ := Results.bind_eq_ok.1 h
  have hfound := Follows.collectionItem (k := k) hready.formed hready.node hready.lt
    (areFields_identity k slot gs).unreserved
  obtain ⟨slot', hlinked⟩ := hfound.2 j d₁ hj
  obtain ⟨hready', hkind⟩ := hready.linked (hfound.run hj) (hlinked .unset)
  have hrest := hsifts d₁ d' j hready' hend
  rw [hkind] at hrest
  obtain ⟨kept, inner, hslots, htracks⟩ := hrest h
  refine ⟨kept, inner, fun q hq v hv => hslots q hq v ?_, ?_⟩
  · have hσ := Kind.mem_slots_of_placement? (Kind.placement?_of_mem hq)
    exact (Entries.text?_rest_slot_eq hσ).trans hv
  · have hrefusals : (gs.rest k slot).refusals k inner = gs.refusals k inner :=
      Entries.refusals_rest
    rw [Placement.kind, hrefusals] at htracks
    refine (after_silent (.collectionItem i k _) hj htracks).congr fun m _ => ?_
    dsimp only
    rw [listed_parts, Entries.rest_sifted, Entries.identity_sifted]

/-- All items of a collection. -/
theorem items (hany : ∀ k name, S.fields k name) {xs : List Data} {slot : CollectionSlot}
    (mark : Nat)
    (hsmaller : ∀ (gs : Entries) mark, .map gs mark ∈ xs → Sifts S f₀ f₁ n (gs.rest k slot))
    (hfewer : ∀ m < n, ∀ gs, Sifts S f₀ f₁ m gs) (hready : Ready S f₀ d i)
    (hp : (d.forest.get i).kind.placement? slot.name = some (.listed k slot))
    (hend : Steps S d'.forest f₁)
    (h : Merge.items (lenient S.overwrite) (readParts (lenient S.overwrite) n) xs k slot i d
      = .ok () d') :
    ∃ xs' rs, Sifted (ReadBetween S f₀ f₁) (.items k) (.list xs mark) (.list xs' mark) rs ∧
      Tracks n d d' rs fun m =>
        Merge.items (strict S.overwrite) (readParts (strict S.overwrite) m) xs' k slot i := by
  simp only [items_eq_opened] at h ⊢
  induction xs generalizing d with
  | nil =>
    cases h
    exact ⟨[], [], .noItem mark, refl n _⟩
  | cons x xs ih =>
    obtain ⟨_, d₁, hx, hxs⟩ := Results.bind_eq_ok.1 h
    have hrun := ((lenient_under hany f₀).item hready n hp (x.offers_any S f₀)).run hx
    have hready' := hready.steps hrun
    have hp' := (hrun.later.placed hready.lt hp).2
    have hrest := ((lenient_under hany f₀).items hready' n hp' _ fun x _ => x.offers_any S f₀).run
      ((congrFun (items_eq_opened ..) d₁).trans hxs)
    obtain ⟨x', rs, hsifted, htracks⟩ := opened (fun o ps => Merge.listed o k slot ps i)
      hready.since (hrun.trans (hrest.trans hend))
      (fun gs mark hx => listed (hsmaller gs mark (hx ▸ List.mem_cons_self)) hready
        (hrest.trans hend))
      (fun m hm gs => listed (hfewer m hm _) hready (hrest.trans hend)) hx
    obtain ⟨xs', rs', hsifted', htracks'⟩ := ih
      (fun gs mark hgs => hsmaller gs mark (List.mem_cons_of_mem _ hgs)) hready' hp' hxs
    exact ⟨x' :: xs', rs ++ rs', .item hsifted hsifted', htracks.seq htracks'⟩

/-! ### Slots -/

/-- A value taken into a slot. -/
theorem take (hany : ∀ k name, S.fields k name) {σ : String} {p : Placement}
    (hsmaller : ∀ gs : Entries, sizeOf gs < sizeOf v → Sifts S f₀ f₁ n gs)
    (hfewer : ∀ m < n, ∀ gs, Sifts S f₀ f₁ m gs) (hready : Ready S f₀ d i)
    (hp : (d.forest.get i).kind.placement? σ = some p) (hv : p.refuses v = none)
    (hend : Steps S d'.forest f₁)
    (h : Merge.take (lenient S.overwrite) (readParts (lenient S.overwrite) n) i σ p v d
      = .ok () d') :
    ∃ v' rs, Sifted (ReadBetween S f₀ f₁) (.slot p) v v' rs ∧ Tracks n d d' rs fun m =>
      Merge.take (strict S.overwrite) (readParts (strict S.overwrite) m) i σ p v' := by
  have hcontent : ∀ gs mark, v = .map gs mark → Sifts S f₀ f₁ n gs := by
    rintro gs mark rfl
    exact hsmaller gs (by rw [Data.map.sizeOf_spec]; omega)
  cases p with
  | single k b =>
    -- What is left of content is content, and no truth value.
    have hchild : Merge.take (lenient S.overwrite) (readParts (lenient S.overwrite) n) i σ
          (.single k b) v = (do
        Merge.asContent (lenient S.overwrite) (readParts (lenient S.overwrite) n) v
          (← Edit.child i k)) →
        ∃ v' rs, Sifted (ReadBetween S f₀ f₁) (.slot (.single k b)) v v' rs ∧
          Tracks n d d' rs fun m => Merge.take (strict S.overwrite)
            (readParts (strict S.overwrite) m) i σ (.single k b) v' := by
      intro htake
      have hfound : Follows S (Edit.child i k []) d fun j g => ∃ σ p key,
          g.Linked S i σ p key j ∧ p.kind = k :=
        (Follows.child hready.formed hready.node hready.lt fun _ h => absurd h List.not_mem_nil).mono
          fun _ _ _ ⟨σ, b, hlinked⟩ => ⟨σ, .single k b, .unset, hlinked, rfl⟩
      obtain ⟨v', rs, hsifted, htracks⟩ := found hany (.child i k []) hfound hcontent hfewer hready
        hend (htake ▸ h)
      refine ⟨v', rs, .single hsifted, ?_⟩
      obtain ⟨es, mark, rfl⟩ | ⟨j, rfl⟩ := hsifted.map_or_node
      · exact htracks
      · exact htracks
    cases v with
    | scalar x =>
      cases x with
      | bool c =>
        cases b with
        | false => cases hv
        | true => exact ⟨_, [], .flag c, of_silent (.setScalar (lenient S.overwrite) i σ _) h⟩
      | _ => cases hv
    | map => exact hchild rfl
    | node => exact hchild rfl
    | _ => cases hv
  | keyed k key =>
    cases v with
    | map fs mark =>
      have hmembers : ∀ e ∈ fs, ∀ gs mark', e.2 = .map gs mark' → Sifts S f₀ f₁ n gs := by
        rintro ⟨key, w⟩ he gs mark' rfl
        have hlt := List.sizeOf_lt_of_mem he
        simp only [Prod.mk.sizeOf_spec, Data.map.sizeOf_spec] at hlt
        exact hsmaller gs (by rw [Data.map.sizeOf_spec]; omega)
      obtain ⟨fs', rs, hsifted, htracks⟩ := members hany mark hmembers hfewer hready hend
        ((congrFun (keyed_eq_intoMember fs) d).symm.trans h)
      exact ⟨_, rs, .keyed hsifted, htracks.congr fun m _ => (keyed_eq_intoMember fs').symm⟩
    | _ => cases hv
  | listed k slot =>
    have hname : slot.name = σ := by
      rcases Kind.mem_layout_of_placement? hp with ⟨_, _, hq⟩ | ⟨_, _, _, _, hq⟩ |
        ⟨_, _, _, rfl, hq⟩
      · cases hq
      · cases hq
      · cases hq
        rfl
    subst hname
    have hitems : ∀ xs : List Data, sizeOf xs < sizeOf v → ∀ (gs : Entries) mark,
        Data.map gs mark ∈ xs → Sifts S f₀ f₁ n (gs.rest k slot) := by
      intro xs hxs gs mark hgs
      have hlt := List.sizeOf_lt_of_mem hgs
      have hrest : sizeOf (gs.rest k slot) ≤ sizeOf gs := Entries.sizeOf_filter_le gs _
      rw [Data.map.sizeOf_spec] at hlt
      exact hsmaller _ (by omega)
    cases v with
    | list xs mark =>
      obtain ⟨xs', rs, hsifted, htracks⟩ := items hany mark
        (hitems xs (by rw [Data.list.sizeOf_spec]; omega)) hfewer hready hp hend h
      exact ⟨_, rs, .listed hsifted, htracks⟩
    | tuple xs mark =>
      obtain ⟨xs', rs, hsifted, htracks⟩ := items hany 0
        (hitems xs (by rw [Data.tuple.sizeOf_spec]; omega)) hfewer hready hp hend h
      exact ⟨_, rs, .listed (.tuple 0 mark hsifted), htracks⟩
    | _ => cases hv

/-- The entry for a slot. -/
theorem slot (hany : ∀ k name, S.fields k name) {q : String × Placement} (hq : q ∈ k.placements)
    (hk : (d.forest.get i).kind = k)
    (hsmaller : ∀ gs : Entries, sizeOf gs < sizeOf es → Sifts S f₀ f₁ n gs)
    (hfewer : ∀ m < n, ∀ gs, Sifts S f₀ f₁ m gs) (hready : Ready S f₀ d i)
    (hend : Steps S d'.forest f₁)
    (h : Merge.intoSlot (lenient S.overwrite) (readParts (lenient S.overwrite) n) i es q.1 q.2 d
      = .ok () d') :
    ∃ v' rs, ∀ kept inner, kept q.1 = v' → inner q.1 = rs → SiftsSlot S f₀ f₁ es kept inner q ∧
      Tracks n d d' (es.slotRefusals k inner q.1 q.2) fun m =>
        Merge.intoSlot (strict S.overwrite) (readParts (strict S.overwrite) m) i
          (es.sifted k kept inner) q.1 q.2 := by
  have hp := Kind.placement?_of_mem hq
  -- Without an entry for the slot nothing happens in either run.
  cases hv : es.text? (wireName q.1) with
  | none =>
    rw [intoSlot_of_none hv] at h
    cases h
    refine ⟨.unset, [], fun kept inner _ _ => ⟨fun v hv' => ?_, ?_⟩⟩
    · rw [hv] at hv'
      cases hv'
    · rw [Entries.slotRefusals, hv]
      exact (refl n _).congr fun m _ => (intoSlot_of_none (Entries.text?_sifted_of_none hv)).symm
  | some v =>
    cases hwhy : q.2.refuses v with
    -- A refused value is warned about in the one run and missing from the source of the other.
    | some why =>
      rw [intoSlot_of_refused hv hwhy] at h
      refine ⟨.unset, [], fun kept inner _ _ => ⟨fun w hw htaken => ?_, ?_⟩⟩
      · obtain rfl := Option.some.inj (hv.symm.trans hw)
        rw [hwhy] at htaken
        cases htaken
      · have hnone : (es.sifted k kept inner).text? (wireName q.1) = none :=
          Entries.text?_sifted_of_refused hp hv hwhy
        rw [Entries.slotRefusals, hv]
        dsimp only
        rw [hwhy]
        exact (reject hk h).congr fun m _ => (intoSlot_of_none hnone).symm
    | none =>
      -- A value that is taken is sifted in turn, and the other run takes what is left of it.
      rw [intoSlot_of_taken hv hwhy] at h
      obtain ⟨v', rs, hsifted, htracks⟩ := take hany
        (fun gs hgs => hsmaller gs (Nat.lt_trans hgs (Entries.sizeOf_text?_lt hv))) hfewer hready
        (hk ▸ hp) hwhy hend h
      refine ⟨v', rs, fun kept inner hkept hinner => ⟨fun w hw _ => ?_, ?_⟩⟩
      · obtain rfl := Option.some.inj (hv.symm.trans hw)
        rw [hkept, hinner]
        exact hsifted
      · have hleft : (es.sifted k kept inner).text? (wireName q.1) = _ :=
          Entries.text?_sifted_of_taken hp hv hwhy
        rw [hkept, hinner, hsifted.leave_eq] at hleft
        rw [Entries.slotRefusals, hv]
        dsimp only
        rw [hwhy, hinner]
        exact htracks.congr fun m _ => (intoSlot_of_taken hleft hsifted.refuses_eq_none).symm

/-- The entries for some slots. What is left of them does not depend on the other slots. -/
theorem slots (hany : ∀ k name, S.fields k name) {qs : List (String × Placement)}
    (hqs : ∀ q ∈ qs, q ∈ k.placements) (hnodup : (qs.map Prod.fst).Nodup)
    (hk : (d.forest.get i).kind = k)
    (hsmaller : ∀ gs : Entries, sizeOf gs < sizeOf es → Sifts S f₀ f₁ n gs)
    (hfewer : ∀ m < n, ∀ gs, Sifts S f₀ f₁ m gs) (hready : Ready S f₀ d i)
    (hend : Steps S d'.forest f₁)
    (h : qs.forM (fun q => Merge.intoSlot (lenient S.overwrite)
      (readParts (lenient S.overwrite) n) i es q.1 q.2) d = .ok () d') :
    ∃ (kept : String → Data) (inner : String → List Refusal), ∀ kept' inner',
      (∀ q ∈ qs, kept' q.1 = kept q.1 ∧ inner' q.1 = inner q.1) →
      (∀ q ∈ qs, SiftsSlot S f₀ f₁ es kept' inner' q) ∧
        Tracks n d d' (qs.flatMap fun q => es.slotRefusals k inner' q.1 q.2) fun m =>
          qs.forM fun q => Merge.intoSlot (strict S.overwrite) (readParts (strict S.overwrite) m) i
            (es.sifted k kept' inner') q.1 q.2 := by
  induction qs generalizing d with
  | nil =>
    cases h
    exact ⟨fun _ => .unset, fun _ => [], fun _ _ _ =>
      ⟨fun q hq => absurd hq List.not_mem_nil, refl n _⟩⟩
  -- The first slot is sifted before the others; what is kept is put together slot by slot.
  | cons q qs ih =>
    obtain ⟨hq, hqs⟩ := List.forall_mem_cons.1 hqs
    obtain ⟨hnot, hnodup⟩ := List.nodup_cons.1 hnodup
    obtain ⟨_, d₁, hslot, hslots⟩ := Results.bind_eq_ok.1 h
    have hrun := ((lenient_under hany f₀).slot hready n (hk ▸ Kind.placement?_of_mem hq)
      fun v _ => q.2.offers_any S f₀ v).run hslot
    have hready' := hready.steps hrun
    have hk' := (hrun.later.kind_eq i hready.lt).trans hk
    have hrest := ((lenient_under hany f₀).slots hready' n hk' hqs trivial).run hslots
    obtain ⟨v', rs, hfirst⟩ := slot hany hq hk hsmaller hfewer hready (hrest.trans hend) hslot
    obtain ⟨kept, inner, hothers⟩ := ih hqs hnodup hk' hready' hslots
    refine ⟨Function.update kept q.1 v', Function.update inner q.1 rs, fun kept' inner' hsame => ?_⟩
    obtain ⟨⟨hkept, hinner⟩, hsame⟩ := List.forall_mem_cons.1 hsame
    rw [Function.update_self] at hkept hinner
    obtain ⟨hsifts, htracks⟩ := hfirst kept' inner' hkept hinner
    -- No other slot has the name of the first, so what was kept for it stays.
    obtain ⟨hsifts', htracks'⟩ := hothers kept' inner' fun r hr => by
      have hne : r.1 ≠ q.1 := fun he => hnot (he ▸ List.mem_map_of_mem hr)
      have := hsame r hr
      rwa [Function.update_of_ne hne, Function.update_of_ne hne] at this
    exact ⟨List.forall_mem_cons.2 ⟨hsifts, hsifts'⟩, htracks.seq htracks'⟩

/-- All entries. -/
theorem content (hany : ∀ k name, S.fields k name)
    (hsmaller : ∀ gs : Entries, sizeOf gs < sizeOf es → Sifts S f₀ f₁ n gs)
    (hfewer : ∀ m < n, ∀ gs, Sifts S f₀ f₁ m gs) (hready : Ready S f₀ d i)
    (hend : Steps S d'.forest f₁) :
    SiftsIn S f₀ f₁ (d.forest.get i).kind (fun o ps => Merge.content o ps i) n es d d' := by
  intro h
  dsimp only at h
  rw [content_parts] at h
  obtain ⟨m, d₀, hnode, h⟩ := Results.bind_eq_ok.1 h
  obtain ⟨rfl, rfl⟩ := Looks.node i m d₀ hnode
  -- The slots come first, and what they leave is ready for the plain entries.
  obtain ⟨_, d₁, hslots, hplain⟩ := Results.bind_eq_ok.1 h
  have hrun := ((lenient_under hany f₀).slots hready n rfl (fun _ h => h) trivial).run hslots
  have hready' := hready.steps hrun
  have hk := hrun.later.kind_eq i hready.lt
  have hrest := ((lenient_under hany f₀).plain hready' hk es trivial
    fun _ he => (List.mem_filter.1 he).1).run hplain
  obtain ⟨kept, inner, hall⟩ := slots hany (fun _ h => h) (Kind.placements_nodup _) rfl hsmaller
    hfewer hready (hrest.trans hend) hslots
  obtain ⟨hsifts, htracks⟩ := hall kept inner fun _ _ => ⟨rfl, rfl⟩
  refine ⟨kept, inner, hsifts, ?_⟩
  -- Sifting leaves no plain entry behind that the strict run would refuse.
  have hentries := htracks.seq (plain hany hready' hk _ hplain)
  refine (after_silent (.node i) hnode (f := fun m n => do
    n.kind.placements.forM fun q => Merge.intoSlot (strict S.overwrite)
      (readParts (strict S.overwrite) m) i (es.sifted (d₀.forest.get i).kind kept inner) q.1 q.2
    (Merge.plain n.kind (es.sifted (d₀.forest.get i).kind kept inner)).forM fun e =>
      Merge.setPlain (strict S.overwrite) i e.1 e.2)
    (hentries.congr fun m _ => ?_)).congr fun m _ => content_parts.symm
  rw [Entries.plain_sifted]

end Tracks

end Edit

/-! ### All sources -/

namespace Merge

variable {S : Licence} {f₀ f₁ : Forest} {n : Nat}

/-- All sources, if their nodes are read to so many levels. -/
theorem sifts (hany : ∀ k name, S.fields k name) (n : Nat) (es : Entries) :
    Sifts S f₀ f₁ n es := by
  induction n using Nat.strong_induction_on generalizing es with
  | _ n ihn =>
    induction hsize : sizeOf es using Nat.strong_induction_on generalizing es with
    | _ size ih =>
      intro d d' i hready hend
      exact Edit.Tracks.content hany (fun gs hgs => ih _ (hsize ▸ hgs) gs rfl) ihn hready hend

end Merge

namespace Edit

variable {ov : Bool} {es : Entries} {mark : Nat} {d : Draft} {i : NodeId}

/-- What a merge that succeeds in spite of refused keys has done. -/
theorem merge_lenient {d' : Draft} (hf : d.forest.WellFormed i)
    (h : merge (lenient ov) (.map es mark) i d = .ok () d') :
    ∃ es' rs, Sifted (ReadBetween (d.forest.licence i (fun _ _ => True) ov) d.forest d'.forest)
        (.content (d.forest.get i).kind) (.map es mark) (.map es' mark) rs ∧
      Tracks d.forest.size d d' rs fun _ => merge (strict ov) (.map es' mark) i := by
  have hready : Ready (d.forest.licence i (fun _ _ => True) ov) d.forest d i :=
    ⟨.refl _, hf.formed, .inl .self, hf.root⟩
  obtain ⟨kept, inner, hslots, htracks⟩ :=
    Merge.sifts (fun _ _ => trivial) d.forest.size es d d' i hready (.refl _) h
  exact ⟨_, _, .map mark kept inner hslots, htracks.warned, fun _ _ ws =>
    htracks.same d.forest.size (Nat.le_refl _) ws⟩

/-- A merge under which refused keys are failures succeeds if and only if one that warns of them
    does so without a warning, and both end alike. A merge that warns ends as the other one does
    with what is left of the source without the keys of which it has warned. -/
theorem merge_policies (ov : Bool) (es : Entries) (mark : Nat) (hf : d.forest.WellFormed i) :
    (∀ d', merge (strict ov) (.map es mark) i d = .ok () d' ↔
      merge (lenient ov) (.map es mark) i d = .ok () d' ∧ d'.warnings = d.warnings) ∧
    ∀ d', merge (lenient ov) (.map es mark) i d = .ok () d' → ∃ es' rs ws,
      Sifted (ReadBetween (d.forest.licence i (fun _ _ => True) ov) d.forest d'.forest)
        (.content (d.forest.get i).kind) (.map es mark) (.map es' mark) rs ∧
      d'.warnings = d.warnings ++ ws ∧ List.Forall₂ Refusal.Warns rs ws ∧
      merge (strict ov) (.map es' mark) i d = .ok () (d'.withWarnings d.warnings) := by
  have hleft : ∀ d', merge (lenient ov) (.map es mark) i d = .ok () d' → ∃ es' rs ws,
      Sifted (ReadBetween (d.forest.licence i (fun _ _ => True) ov) d.forest d'.forest)
        (.content (d.forest.get i).kind) (.map es mark) (.map es' mark) rs ∧
      d'.warnings = d.warnings ++ ws ∧ List.Forall₂ Refusal.Warns rs ws ∧
      merge (strict ov) (.map es' mark) i d = .ok () (d'.withWarnings d.warnings) := by
    intro d' h
    obtain ⟨es', rs, hsifted, htracks⟩ := merge_lenient hf h
    obtain ⟨ws, hws, hwarns⟩ := htracks.warned
    exact ⟨es', rs, ws, hsifted, hws, hwarns,
      htracks.same d.forest.size (Nat.le_refl _) d.warnings⟩
  refine ⟨fun d' => ⟨fun h => ?_, fun ⟨h, hwarnings⟩ => ?_⟩, hleft⟩
  · exact (Entails.merge (s := strict ov) (l := lenient ov) rfl rfl (.map es mark) i d () d' h).symm
  · obtain ⟨es', rs, ws, hsifted, hws, hwarns, hstrict⟩ := hleft d' h
    -- Without a warning no key has been refused, and everything is left.
    obtain rfl : ws = [] := by
      rw [hwarnings] at hws
      exact List.append_right_eq_self.1 hws.symm
    cases hwarns
    rw [hsifted.eq_self rfl, ← hwarnings, Draft.withWarnings_self] at hstrict
    exact hstrict

/-- An operation with a key that no operation has. -/
def misspeltOperation : Entries :=
  [(.str "paths", .ofEntries [(.str "/a", .ofEntries [(.str "get", .ofEntries
    [(.str "sumary", .str "First"), (.str "tags", .ofList [.str "a"])])])])]

/-- The misspelt key is left out with a warning. -/
theorem merge_policies_misspelt : ∃ d' es' rs ws,
    merge (lenient false) (.map misspeltOperation 0) 0 twoDocuments = .ok () d' ∧
      Sifted (ReadBetween (twoDocuments.forest.licence 0 (fun _ _ => True) false)
        twoDocuments.forest d'.forest) (.content .openApi) (.map misspeltOperation 0)
        (.map es' 0) rs ∧
      d'.warnings = [] ++ ws ∧ ws.length = 1 ∧ List.Forall₂ Refusal.Warns rs ws ∧
      merge (strict false) (.map es' 0) 0 twoDocuments = .ok () (d'.withWarnings []) ∧
      ¬merge (strict false) (.map misspeltOperation 0) 0 twoDocuments = .ok () d' := by
  have h : Results.endsIn (merge (lenient false) (.map misspeltOperation 0) 0)
      (fun d => d.warnings.length == 1) twoDocuments = true := by
    decide +kernel
  obtain ⟨d', hd', hlength⟩ := Results.exists_of_endsIn h
  have hleaf : twoDocuments.forest.WellFormed 0 := .leaf (by decide) fun _ _ => rfl
  obtain ⟨hpolicies, hleft⟩ := merge_policies false misspeltOperation 0 hleaf
  obtain ⟨es', rs, ws, hsifted, hws, hwarns, hstrict⟩ := hleft d' hd'
  have hnonempty : ws.length = 1 := by
    have hwarnings : d'.warnings = ws := hws
    rw [← hwarnings]
    exact eq_of_beq hlength
  refine ⟨d', es', rs, ws, hd', hsifted, hws, hnonempty, hwarns, hstrict, fun h => ?_⟩
  have hsame := ((hpolicies d').1 h).2
  rw [hws, show twoDocuments.warnings = [] from rfl, List.nil_append] at hsame
  rw [hsame] at hnonempty
  cases hnonempty

end Edit

end ApiDoc
