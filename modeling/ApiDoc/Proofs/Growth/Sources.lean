import ApiDoc.Proofs.Growth.Follows
import ApiDoc.Proofs.Tree.Sources

namespace ApiDoc

/-!
# Sources that a licence permits

* `Data.Offers`, `Placement.Offers` — what a value offers as content of children;
* `Licence.Covers`, `Licence.Permits` — sources that write no field but those that a licence allows;
* `Forest.licence` — a licence to change one tree;
* `Entries.isPermitted` — a test for sources without nodes.
-/

open Forest

/-! ### What a source offers -/

/-- A value that offers content of some sort, be it a mapping or a node that is read in some later
    forest. -/
def Data.Offers (S : Licence) (f : Forest) (P : Entries → Prop) (v : Data) : Prop :=
  match v with
  | .map es _ => P es
  | .node j => ∀ g, Steps S f g → ∀ es, g.content j = .ok es → P es
  | _ => True

/-- A value that offers content of some sort for the children in a slot. -/
def Placement.Offers (S : Licence) (f : Forest) (P : Kind → Entries → Prop) (p : Placement)
    (v : Data) : Prop :=
  match p with
  | .single k _ => v.Offers S f (P k)
  | .keyed k _ => ∀ fs mark, v = .map fs mark → ∀ e ∈ fs, e.2.Offers S f (P k)
  | .listed k slot => ∀ xs, v.items? = some xs → ∀ x ∈ xs,
      x.Offers S f fun gs => P k (gs.rest k slot)

theorem Data.offers_any (S : Licence) (f : Forest) (v : Data) : v.Offers S f fun _ => True := by
  cases v with
  | map => trivial
  | node => exact fun _ _ _ _ => trivial
  | _ => trivial

theorem Placement.offers_any (S : Licence) (f : Forest) (p : Placement) (v : Data) :
    p.Offers S f (fun _ _ => True) v := by
  cases p with
  | single => exact v.offers_any S f
  | keyed => exact fun _ _ _ e _ => e.2.offers_any S f
  | listed => exact fun _ _ x _ => x.offers_any S f

/-- Sources that write no field but those that a licence allows, and whose content is such a
    source at every depth. -/
structure Licence.Covers (S : Licence) (f : Forest) (P : Kind → Entries → Prop) : Prop where
  fields : ∀ k es, P k es → ∀ e ∈ es, ∀ s name, e.1 = .str s → k.fieldOfWire? s = some name →
    S.fields k name
  slots : ∀ k es, P k es → ∀ σ p v, k.placement? σ = some p → es.text? (wireName σ) = some v →
    p.Offers S f P v

namespace Licence

variable {S : Licence} {f : Forest}

/-- A source that a licence permits. -/
def Permits (S : Licence) (f : Forest) (k : Kind) (es : Entries) : Prop :=
  ∃ P, S.Covers f P ∧ P k es

/-- Where all fields may be written every source is permitted. -/
theorem covers_any (hS : ∀ k name, S.fields k name) (f : Forest) : S.Covers f fun _ _ => True where
  fields _ _ _ _ _ _ _ _ _ := hS _ _
  slots _ _ _ _ p v _ _ := p.offers_any S f v

end Licence

/-- A licence to change what is in a tree or still to come, with some of the fields. -/
def Forest.licence (f : Forest) (i : NodeId) (fields : Kind → String → Prop) (overwrite : Bool) :
    Licence where
  nodes := f.Around i
  fields := fields
  overwrite := overwrite

/-! ### Sources without nodes -/

/-- Whether all fields that a source names are among some. -/
def Entries.namesOnly (may : Kind → String → Bool) (k : Kind) (es : Entries) : Bool :=
  es.all fun e => (e.1.str?.bind k.fieldOfWire?).all (may k)

/-- Whether a value offers no content, or content that passes a test. -/
def Data.bringsOnly (test : Entries → Bool) : Data → Bool
  | .map es _ => test es
  | .node _ => false
  | _ => true

/-- Whether all content that a value offers for the children in a slot passes a test. -/
def Placement.bringsOnly (test : Kind → Entries → Bool) (p : Placement) (v : Data) : Bool :=
  match p, v with
  | .single k _, v => v.bringsOnly (test k)
  | .keyed k _, .map fs _ => fs.all fun e => e.2.bringsOnly (test k)
  | .keyed _ _, _ => true
  | .listed k slot, v =>
    (v.items?.getD []).all fun x => x.bringsOnly fun gs => test k (gs.rest k slot)

/-- Whether a source without nodes names no field but some, at every depth up to a bound. -/
def Entries.isPermitted (may : Kind → String → Bool) : (depth : Nat) → Kind → Entries → Bool
  | 0, _, _ => false
  | depth + 1, k, es => es.namesOnly may k && k.slots.all fun σ =>
    match k.placement? σ, es.text? (wireName σ) with
    | some p, some v => p.bringsOnly (isPermitted may depth) v
    | _, _ => true

theorem Data.offers_of_bringsOnly {S : Licence} {f : Forest} {test : Entries → Bool}
    {P : Entries → Prop} (hP : ∀ es, test es = true → P es) {v : Data}
    (h : v.bringsOnly test = true) : v.Offers S f P := by
  cases v with
  | map es => exact hP es h
  | node => cases h
  | _ => trivial

theorem Placement.offers_of_bringsOnly {S : Licence} {f : Forest} {test : Kind → Entries → Bool}
    {P : Kind → Entries → Prop} (hP : ∀ k es, test k es = true → P k es) {p : Placement} {v : Data}
    (h : p.bringsOnly test v = true) : p.Offers S f P v := by
  cases p with
  | single k b => exact Data.offers_of_bringsOnly (hP k) h
  | keyed k key =>
    rintro fs mark rfl e he
    exact Data.offers_of_bringsOnly (hP k) (List.all_eq_true.1 h e he)
  | listed k slot =>
    intro xs hxs x hx
    have hall : (v.items?.getD []).all
      (fun x => x.bringsOnly fun gs => test k (gs.rest k slot)) = true := h
    rw [hxs] at hall
    exact Data.offers_of_bringsOnly (fun gs => hP k (gs.rest k slot)) (List.all_eq_true.1 hall x hx)

/-- A source that passes the test is permitted. -/
theorem Licence.permits_of_isPermitted {S : Licence} {f : Forest} {may : Kind → String → Bool}
    (hmay : ∀ k name, may k name = true → S.fields k name) {depth : Nat} {k : Kind} {es : Entries}
    (h : es.isPermitted may depth k = true) : S.Permits f k es := by
  refine ⟨fun k es => ∃ depth, es.isPermitted may depth k = true, ⟨?_, ?_⟩, depth, h⟩
  · rintro k es ⟨_ | depth, h⟩ e he s name hs hname
    · cases h
    · have hnames := List.all_eq_true.1 (Bool.and_eq_true_iff.1 h).1 e he
      rw [hs] at hnames
      refine hmay k name ?_
      simpa [Data.str?, hname] using hnames
  · rintro k es ⟨_ | depth, h⟩ σ p v hp hv
    · cases h
    · have hslots := List.all_eq_true.1 (Bool.and_eq_true_iff.1 h).2 σ
        (Kind.mem_slots_of_placement? hp)
      rw [hp, hv] at hslots
      exact Placement.offers_of_bringsOnly (fun _ _ h => ⟨depth, h⟩) hslots

end ApiDoc
