import ApiDoc.Proofs.Describe.Filling

namespace ApiDoc

/-!
# Metadata and annotations are described alike

Types that metadata and annotations share are classified twice: by their names, and by what
inference makes of them. Both write what `SharedType.fill` writes.

* `Forest.Blank.part` — a child for a part of a type is the same, whether a child that is there
  would be kept or not;
* `World.Knows`, `SharedType.Known` — classes that are known by their full names;
* `ObjectDescriber.describeType_eq`, `ObjectDescriber.describeProperty_eq` — an annotation
  described, and a property that has it;
* `MetadataDescriber.describeItem_eq`, `MetadataDescriber.describeProperty_eq` — the same for
  metadata;
* `describers_agree` — both leave the same document and register the same models.
-/

open Forest

namespace Edit

variable {d : Draft} {i : NodeId} {k c : Kind} {σ : String} {b : Bool}

/-- In a slot that is not set a new child is made, by whichever accessor. -/
theorem child_of_unset (hkind : (d.forest.get i).kind = k) (hi : i < d.forest.size)
    (hp : k.placement? σ = some (.single c b)) (hunset : (d.forest.get i).value σ = .unset) :
    Edit.child i c [] d
      = .ok d.forest.size (d.to (withChild d.forest i c [] σ (.node d.forest.size))) ∧
    (do
      let j ← addDetached i c []
      assign? i σ (.node j)
      return j : Edit NodeId) d
      = .ok d.forest.size (d.to (withChild d.forest i c [] σ (.node d.forest.size))) := by
  have hfields : Entries.AreFields c [] := fun _ h => absurd h List.not_mem_nil
  have hlookup : (d.forest.get i).kind.layout.singular.lookup c = some σ := by
    rw [hkind]
    exact k.lookup_singular _ (Kind.mem_singular_of_placement? hp)
  refine ⟨?_, renew_eq hkind hi (Kind.mem_slots_of_placement? hp)⟩
  refine (Results.bind_of_ok (slotFor_eq .singular (·.singular) hlookup)).trans ?_
  refine (Results.bind_of_ok (show node i d = .ok (d.forest.get i) d from rfl)).trans ?_
  rw [hunset]
  exact addDetached_assign hfields hi Data.node

end Edit

namespace Forest.Blank

open Edit

variable {d : Draft} {i : NodeId} {k c : Kind} {σ name : String} {b : Bool}

/-- A field set at a node that holds nothing, and then a child made in it: by whichever accessor
    it is made, it is the same, and holds nothing. -/
theorem part (h : d.forest.Blank i k) (hname : name ∈ k.fields)
    (hp : k.placement? σ = some (.single c b)) (hc : c ∈ Kind.schemas) (v : Data) :
    ∃ d₁ d₂ j, assign? i name v d = .ok () d₁ ∧ Edit.child i c [] d₁ = .ok j d₂ ∧
      (do
        let j ← addDetached i c []
        assign? i σ (.node j)
        return j : Edit NodeId) d₁ = .ok j d₂ ∧ d₂.forest.Blank j c := by
  have hkind : (d.forest.get i).kind = k := h.root.kind
  have hne : σ ≠ name := by
    rintro rfl
    exact k.field_notMem_slots σ hname (Kind.mem_slots_of_placement? hp)
  let d₁ : Draft := d.to (d.forest.put i ((d.forest.get i).putValue name v))
  have hget : d₁.forest.get i = (d.forest.get i).putValue name v :=
    d.forest.get_put_self h.bound _
  have hi : i < d₁.forest.size := by simpa [d₁] using h.bound
  obtain ⟨hchild, hrenew⟩ := child_of_unset (d := d₁) (σ := σ) (by rw [hget]; exact hkind) hi hp
    (by rw [hget, Node.value_putValue_of_ne _ hne, h.slots σ (Kind.mem_slots_of_placement? hp)])
  refine ⟨d₁, _, _, assign?_field (hkind ▸ hname) v, hchild, hrenew, ?_⟩
  refine .new (i := i) hc (by simp [withChild]) ?_
  show (withChild d₁.forest i c [] σ _).get d₁.forest.size = _
  rw [withChild, get_put_of_ne _ (Nat.ne_of_lt hi).symm, d₁.forest.get_add_self]
  rfl

end Forest.Blank

/-! ### Known classes -/

namespace ClassTable

variable {t : ClassTable} {met more : List String} {name : String}

/-- A class that is known stays known when more classes are met. -/
theorem resolve_append (h : t.resolve met name = .ok (some name)) (more : List String) :
    t.resolve (met ++ more) name = .ok (some name) := by
  unfold resolve at h ⊢
  by_cases hmet : (met ++ more).contains name = true
  · rw [if_pos hmet]
  · have hnot : ¬ met.contains name = true := by
      rw [List.contains_iff_mem] at hmet ⊢
      exact fun h => hmet (List.mem_append_left _ h)
    rw [if_neg hnot] at h
    rw [if_neg hmet]
    exact h

/-- Standard classes that are not declared anew. -/
def KeepsStandard (t : ClassTable) : Prop :=
  ∀ name, (standardClasses.lookup name).isSome = true → t.find? name = none

/-- The classes of moments and days are known, and they are dates. -/
theorem KeepsStandard.date (h : t.KeepsStandard) (met : List String) {p : PlainType}
    (hname : p.class? = some name) : t.resolve met name = .ok (some name) ∧ t.isDate name = true := by
  have horder : (standardClasses.lookup name).isSome = true →
      t.order name = (standardClasses.lookup name).getD [name, rootClass] := by
    intro hstandard
    rw [order, h name hstandard]
  constructor
  · unfold resolve
    split
    · rfl
    · cases p <;> cases hname <;> rfl
  · unfold isDate
    cases p <;> cases hname <;> rw [horder (by decide)] <;> decide

end ClassTable

/-- A class that is known by its full name, and that is neither a date nor an enumeration. -/
structure World.Knows (w : World) (met : List String) (c : TypeExpr.Name) : Prop where
  dotted : '.' ∈ c.chars
  resolve_eq : w.classes.resolve met c.text = .ok (some c.text)
  isDate_eq : w.classes.isDate c.text = false
  enumeration?_eq : w.classes.enumeration? c.text = none

/-- The classes of a type are known. -/
def SharedType.Known (w : World) (met : List String) : SharedType → Prop
  | plain _ => True
  | object c => w.Knows met c
  | list a => Known w met a
  | mapping a => Known w met a

/-- A type that is known stays so when more classes are met. -/
theorem SharedType.Known.append {w : World} {met : List String} {T : SharedType}
    (h : T.Known w met) (more : List String) : T.Known w (met ++ more) := by
  induction T with
  | plain p => trivial
  | object c => exact ⟨h.dotted, w.classes.resolve_append h.resolve_eq more, h.isDate_eq,
      h.enumeration?_eq⟩
  | list a ih => exact ih h
  | mapping a ih => exact ih h

/-! ### Describing from annotations -/

namespace Describe

variable {s : Site}

/-- An edit that succeeds on the draft succeeds at the site. -/
theorem edit_of_ok {α : Type} {act : Edit α} {a : α} {d : Draft} (h : act s.draft = .ok a d) :
    edit act s = .ok a { s with draft := d } := by
  unfold edit
  rw [h]

/-- A name that is resolved changes nothing. -/
theorem resolve_of_ok {w : World} {name : String} {c : Option String}
    (h : w.classes.resolve s.met name = .ok c) : resolve w name s = .ok c s := by
  show ofExcept (w.classes.resolve s.met name) s = _
  rw [h]
  rfl

end Describe

namespace Site

/-- The site after an edit, with some models registered. -/
def done (s : Site) (desk : Desk) (draft : Draft) (ms : List Model) : Site :=
  { s with draft := draft, desk? := some ⟨desk.registry.addAll ms, desk.cache⟩ }

/-- With no class met only the draft is another. -/
theorem done_nil {s : Site} {desk : Desk} (hdesk : s.desk? = some desk) (draft : Draft) :
    s.done desk draft [] = { s with draft := draft } := by
  obtain ⟨_, desk?, met, shelf⟩ := s
  cases hdesk
  rfl

end Site

namespace ObjectDescriber

open SharedType Describe

variable {w : World} {s : Site} {desk : Desk} {draft : Draft} {i : NodeId} {m : Model}

/-- No mark is written where null is not admitted. -/
theorem markNullable_eq {t : TypeInfo} (h : t.nullable = false) :
    markNullable t i s = .ok () s := by
  unfold markNullable
  rw [h]
  rfl

/-- A class of dates is written out. -/
theorem describeObject_of_isDate {c : String} (hresolve : w.classes.resolve s.met c = .ok (some c))
    (hdate : w.classes.isDate c = true) :
    describeObject w m (.object c) i s = (do
      setField i "type" (.str "string")
      setField i "format" (.str "date-time")
      markNullable (.object c) i) s := by
  have hif : ((some c).map w.classes.isDate).getD false = true := hdate
  refine (Results.bind_of_ok (resolve_of_ok hresolve)).trans ?_
  rw [if_pos hif]

/-- Another class is registered. -/
theorem describeObject_of_class {c : TypeExpr.Name} (hknown : w.Knows s.met c)
    (hgroups : m.groups = .null) : describeObject w m (.object c.text) i s = (do
      let reference ← register missing (.ofClass c.text .null)
      setField i "ref" (.str reference)) s := by
  have hif : ((some c.text).map w.classes.isDate).getD false ≠ true := by
    simp [hknown.isDate_eq]
  have hnone : (some c.text).bind w.classes.enumeration? = none := hknown.enumeration?_eq
  refine (Results.bind_of_ok (resolve_of_ok hknown.resolve_eq)).trans ?_
  rw [if_neg hif, hnone, hgroups]
  rfl

/-- A plain type is described from its annotation as it is written into a node. -/
theorem describePlain_eq (hkeeps : w.classes.KeepsStandard) (property : String) {p : PlainType}
    {r : Registry} (hfill : (SharedType.plain p).fill r i s.draft = .ok () draft) :
    describeType w m property p.info i s = .ok () { s with draft := draft } := by
  obtain ⟨⟨⟩, d₁, htype, hformat⟩ := Results.bind_eq_ok.1 hfill
  have htype := edit_of_ok htype
  -- With a format two fields are set, and nothing is marked.
  have hdate : ∀ c, p.class? = some c → p.info = .object c → p.type = "string" →
      p.format? = some "date-time" →
      describeType w m property p.info i s = .ok () { s with draft := draft } := by
    intro c hc hinfo hstring hf
    obtain ⟨hresolve, hisDate⟩ := hkeeps.date s.met hc
    rw [hf] at hformat
    rw [hstring] at htype
    rw [hinfo, TypeInfo.object, describeType]
    refine (describeObject_of_isDate hresolve hisDate).trans ?_
    refine (Results.bind_of_ok htype).trans ?_
    exact (Results.bind_of_ok (edit_of_ok (s := { s with draft := d₁ }) hformat)).trans
      (markNullable_eq rfl)
  cases p with
  | text | truth | integer =>
    cases hformat
    exact (Results.bind_of_ok htype).trans (markNullable_eq rfl)
  | number =>
    refine (Results.bind_of_ok htype).trans ?_
    exact (Results.bind_of_ok (edit_of_ok (s := { s with draft := d₁ }) hformat)).trans
      (markNullable_eq rfl)
  | moment => exact hdate _ rfl rfl rfl rfl
  | day => exact hdate _ rfl rfl rfl rfl

/-- A shared type is described from its annotation as it is written into a node. -/
theorem describeType_eq (hkeeps : w.classes.KeepsStandard) (hgroups : m.groups = .null)
    (property : String) {T : SharedType} (hT : T.Known w s.met) (hdesk : s.desk? = some desk)
    (hfill : T.fill (desk.registry.addAll T.models) i s.draft = .ok () draft) :
    describeType w m property T.info i s = .ok () (s.done desk draft T.models) := by
  induction T generalizing s i with
  | plain p => exact (describePlain_eq hkeeps property hfill).trans (by rw [← s.done_nil hdesk]; rfl)
  | object c =>
    -- A class is registered, and its reference is written into the node.
    refine (describeObject_of_class hT hgroups).trans ?_
    refine (Results.bind_of_ok (register_of_some hdesk _ _)).trans ?_
    refine (edit_of_ok (s := withRegistry s _) hfill).trans ?_
    rw [withRegistry, hdesk]
    rfl
  | list a ih =>
    -- The type is written and the part made first, then the items are described into the part.
    obtain ⟨⟨⟩, d₁, hset, hrest⟩ := Results.bind_eq_ok.1 hfill
    obtain ⟨j, d₂, hchild, hrest⟩ := Results.bind_eq_ok.1 hrest
    rw [info, TypeInfo.array, describeType]
    rw [if_neg (by decide)]
    refine (Results.bind_of_ok (edit_of_ok hset)).trans ?_
    refine (Results.bind_of_ok (edit_of_ok (s := { s with draft := d₁ }) hchild)).trans ?_
    exact ih (s := { s with draft := d₂ }) hT hdesk hrest
  | mapping a ih =>
    obtain ⟨⟨⟩, d₁, hset, hrest⟩ := Results.bind_eq_ok.1 hfill
    obtain ⟨j, d₂, hchild, hrest⟩ := Results.bind_eq_ok.1 hrest
    rw [info, TypeInfo.array, describeType]
    rw [if_pos (by decide)]
    refine (Results.bind_of_ok (edit_of_ok hset)).trans ?_
    refine (Results.bind_of_ok (edit_of_ok (s := { s with draft := d₁ }) hchild)).trans ?_
    exact ih (s := { s with draft := d₂ }) hT hdesk hrest

end ObjectDescriber

/-! ### Describing from metadata -/

namespace MetadataDescriber

open SharedType Describe

variable {w : World} {d : MetadataDescriber} {s : Site} {desk : Desk} {draft : Draft} {i : NodeId}
  {k : Kind} {previous : Data}

/-- A name that is resolved changes nothing here, either. -/
theorem resolve?_of_ok {name : String} {c : Option String}
    (h : w.classes.resolve s.met name = .ok c) : resolve? w name s = .ok c s := by
  unfold resolve?
  rw [h]

/-- The names of all families of types. -/
def familyNames : List String :=
  arrayTypes ++ plainTypes.map (·.1) ++ integerTypes ++ numberTypes ++ momentTypes

/-- The names of collections and scalars are no full names of classes. -/
theorem dot_notMem_familyNames : ∀ name ∈ familyNames, '.' ∉ name.toList := by
  decide +kernel

/-- A class with a dot in its name has the name of no family. -/
theorem notMem_familyNames {c : TypeExpr.Name} (h : '.' ∈ c.chars) : c.text ∉ familyNames := by
  intro hmem
  refine dot_notMem_familyNames _ hmem ?_
  rw [TypeExpr.Name.text, String.toList_ofList]
  exact h

/-- A name that is none of a collection, of a text, of a truth value or of a number. -/
theorem describeLeaf_of_notMem {name : String} {groups : Data} (harray : name ∉ arrayTypes)
    (hplain : name ∉ plainTypes.map (·.1)) (hinteger : name ∉ integerTypes)
    (hnumber : name ∉ numberTypes) :
    describeLeaf w d name groups previous i = (do
      if ← isMoment w name then
        setField i "type" (.str "string")
        setField i "format" (.str "date-time")
      else if ← isClass w d name then
        let reference ← register missing (.ofClass name groups)
        setField i "ref" (.str reference)
        if previous.truthy then
          let desk ← Describe.desk missing
          setCache (desk.cache.remember (Model.ofClass name groups).hash previous)) := by
  have hlookup : plainTypes.lookup name = none := by
    rw [List.lookup_eq_none_iff]
    intro p hp
    have hne : name ≠ p.1 := fun h => hplain (List.mem_map.2 ⟨p, hp, h.symm⟩)
    simpa using hne
  unfold describeLeaf
  rw [if_neg (by simpa using harray), hlookup]
  dsimp only
  rw [if_neg (by simpa using hinteger), if_neg (by simpa using hnumber)]

/-- A class is registered. -/
theorem describeLeaf_of_class {c : TypeExpr.Name} (hknown : w.Knows s.met c)
    (hprevious : previous.truthy = false) (hdesk : s.desk? = some desk)
    (hfill : (SharedType.object c).fill (desk.registry.addAll (SharedType.object c).models) i s.draft
      = .ok () draft) :
    describeLeaf w d c.text .null previous i s
      = .ok () (s.done desk draft (SharedType.object c).models) := by
  have hnames := notMem_familyNames hknown.dotted
  simp only [familyNames, List.mem_append, not_or] at hnames
  obtain ⟨⟨⟨⟨harray, hplain⟩, hinteger⟩, hnumber⟩, hmoment⟩ := hnames
  have hresolve := resolve?_of_ok hknown.resolve_eq
  have hisMoment : isMoment w c.text s = .ok false s := by
    unfold isMoment
    rw [if_neg (by simpa using hmoment)]
    refine (Results.bind_of_ok hresolve).trans ?_
    show EStateM.Result.ok (w.classes.isDate c.text) s = _
    rw [hknown.isDate_eq]
  have hisClass : isClass w d c.text s = .ok true s := Results.bind_of_ok hresolve
  rw [describeLeaf_of_notMem harray hplain hinteger hnumber, hprevious]
  refine (Results.bind_of_ok hisMoment).trans ((Results.bind_of_ok hisClass).trans ?_)
  refine (Results.bind_of_ok (register_of_some hdesk _ _)).trans ?_
  refine (Results.bind_of_ok (edit_of_ok (s := withRegistry s _) hfill)).trans ?_
  rw [withRegistry, hdesk]
  rfl

/-- A plain type is described from metadata as it is written into a node. -/
theorem describePlain_eq (hkeeps : w.classes.KeepsStandard) {p : PlainType} {name : String}
    (hname : name ∈ p.names) {r : Registry}
    (hfill : (SharedType.plain p).fill r i s.draft = .ok () draft) :
    describeLeaf w d name .null previous i s = .ok () { s with draft := draft } := by
  obtain ⟨⟨⟩, d₁, htype, hformat⟩ := Results.bind_eq_ok.1 hfill
  have htype := edit_of_ok htype
  have hformatted : ∀ f, p.format? = some f →
      setField i "format" (.str f) { s with draft := d₁ } = .ok () { s with draft := draft } := by
    intro f hf
    rw [hf] at hformat
    exact edit_of_ok (s := { s with draft := d₁ }) hformat
  -- What has the name of a moment or of a day is written out with a format.
  have hdate : p.type = "string" → p.format? = some "date-time" →
      name ∈ "datetime.datetime" :: "datetime.date" :: momentTypes →
      describeLeaf w d name .null previous i s = .ok () { s with draft := draft } := by
    intro hstring hf hmoment
    have hnames : ∀ name ∈ "datetime.datetime" :: "datetime.date" :: momentTypes,
        name ∉ arrayTypes ∧ name ∉ plainTypes.map (·.1) ∧ name ∉ integerTypes ∧
          name ∉ numberTypes := by decide
    obtain ⟨harray, hplain, hinteger, hnumber⟩ := hnames name hmoment
    have hisMoment : isMoment w name s = .ok true s := by
      unfold isMoment
      split
      · rfl
      · rename_i hnot
        have hdate : ∃ p : PlainType, p.class? = some name := by
          rcases List.mem_cons.1 hmoment with rfl | hmoment
          · exact ⟨.moment, rfl⟩
          rcases List.mem_cons.1 hmoment with rfl | hmoment
          · exact ⟨.day, rfl⟩
          · exact absurd (List.contains_iff_mem.2 hmoment) hnot
        obtain ⟨p, hp⟩ := hdate
        obtain ⟨hresolve, hisDate⟩ := hkeeps.date s.met hp
        refine (Results.bind_of_ok (resolve?_of_ok hresolve)).trans ?_
        show EStateM.Result.ok (w.classes.isDate name) s = _
        rw [hisDate]
    rw [describeLeaf_of_notMem harray hplain hinteger hnumber]
    rw [hstring] at htype
    refine (Results.bind_of_ok hisMoment).trans ?_
    exact (Results.bind_of_ok htype).trans (hformatted _ hf)
  cases p with
  | text | truth | integer =>
    simp only [PlainType.names, List.mem_cons, List.not_mem_nil, or_false] at hname
    cases hformat
    rcases hname with rfl | rfl <;> exact htype
  | number =>
    simp only [PlainType.names, List.mem_cons, List.not_mem_nil, or_false] at hname
    cases hname
    exact (Results.bind_of_ok htype).trans (hformatted _ rfl)
  | moment =>
    simp only [PlainType.names, List.mem_cons, List.not_mem_nil, or_false] at hname
    refine hdate rfl rfl ?_
    rcases hname with rfl | rfl | rfl | rfl <;> decide
  | day =>
    simp only [PlainType.names, List.mem_cons, List.not_mem_nil, or_false] at hname
    refine hdate rfl rfl ?_
    rcases hname with rfl | rfl <;> decide

/-- What spells a shared type is no array of unknown items. -/
theorem isOpenArray_eq {met : List String} {T : SharedType} (hT : T.Known w met) {t : TypeExpr}
    (ht : T.Spells t) : isOpenArray t = false := by
  cases ht with
  | @plain p name hname => cases p <;> revert name <;> decide
  | object c =>
    have hne : c.text ≠ "array" := by
      rintro h
      exact notMem_familyNames hT.dotted (h ▸ by decide)
    simp [isOpenArray, TypeExpr.name, hne]
  | list h => simp [isOpenArray, TypeExpr.param?, TypeExpr.params]
  | mapping hkey h => simp [isOpenArray, TypeExpr.param?, TypeExpr.params]

/-- A shared type is described from metadata as it is written into a node that holds nothing. -/
theorem describeItem_eq (hkeeps : w.classes.KeepsStandard) (hprevious : previous.truthy = false)
    {T : SharedType} (hT : T.Known w s.met) {t : TypeExpr} (ht : T.Spells t)
    (hdesk : s.desk? = some desk) (hblank : s.draft.forest.Blank i k)
    (hfill : T.fill (desk.registry.addAll T.models) i s.draft = .ok () draft) :
    describeItem w d .null previous i t s = .ok () (s.done desk draft T.models) := by
  induction ht generalizing s i k with
  | @plain p name hname =>
    -- None of the plain names is the name of an array.
    have hleaf : itemType? (.mk name []) = none := by
      cases p <;> revert name <;> decide
    rw [describeItem, hleaf]
    exact (describePlain_eq hkeeps hname hfill).trans (by rw [← s.done_nil hdesk]; rfl)
  | object c =>
    -- The name of a class has a dot, the names of the families have none.
    have harray : c.text ∉ arrayTypes := by
      have := notMem_familyNames hT.dotted
      simp only [familyNames, List.mem_append, not_or] at this
      exact this.1.1.1.1
    have hleaf : itemType? (.mk c.text []) = none :=
      if_neg (by simpa [TypeExpr.name] using harray)
    rw [describeItem, hleaf]
    exact describeLeaf_of_class hT hprevious hdesk hfill
  | @list a t ht ih =>
    -- The part is new, so making it and renewing it are the same step.
    obtain ⟨d₁, d₂, j, hset, hchild, hrenew, hnew⟩ := hblank.part (List.mem_filter.1 (shownFields_schemas hblank.schema).1).1
      (placement?_parts hblank.schema).1 (by decide) (.str "array")
    have hrest := (Results.bind_of_ok hset).symm.trans hfill
    have hrest := (Results.bind_of_ok hchild).symm.trans hrest
    rw [describeItem]
    show (do
      setField i "type" (.str "array")
      let c ← renewChild i "items" .items
      describeParam w d .null previous c 0 [.type t]) s = _
    refine (Results.bind_of_ok (edit_of_ok hset)).trans ?_
    refine (Results.bind_of_ok (edit_of_ok (s := { s with draft := d₁ }) hrenew)).trans ?_
    rw [describeParam]
    exact ih (s := { s with draft := d₂ }) hT hdesk hnew hrest
  | @mapping a key t hkey ht ih =>
    obtain ⟨d₁, d₂, j, hset, hchild, hrenew, hnew⟩ := hblank.part (List.mem_filter.1 (shownFields_schemas hblank.schema).1).1
      (placement?_parts hblank.schema).2 (by decide) (.str "object")
    have hrest := (Results.bind_of_ok hset).symm.trans hfill
    have hrest := (Results.bind_of_ok hchild).symm.trans hrest
    rw [describeItem]
    show (do
      setField i "type" (.str "object")
      if isOpenArray t then setField i "additional_properties" (.bool true)
      else
        let c ← renewChild i "additional_properties" .additionalProperties
        describeParam w d .null previous c 1 [.type (.mk key []), .type t]) s = _
    refine (Results.bind_of_ok (edit_of_ok hset)).trans ?_
    -- A mapping to anything at all takes no part; here the values have a type.
    rw [if_neg (by simp [isOpenArray_eq (T := a) hT ht])]
    refine (Results.bind_of_ok (edit_of_ok (s := { s with draft := d₁ }) hrenew)).trans ?_
    rw [describeParam, describeParam]
    exact ih (s := { s with draft := d₂ }) hT hdesk hnew hrest

end MetadataDescriber

/-! ### Properties -/

/-- A node with nothing but the key of a property holds nothing yet. -/
theorem Forest.Blank.of_values {f : Forest} {i : NodeId} {name : Data} {mark : Nat}
    (hi : i < f.size) (hkind : (f.get i).kind = .property)
    (hextensions : (f.get i).extensions = .map [] mark)
    (hvalues : (f.get i).values = [("property", name)]) : f.Blank i .property := by
  have hvalue : ∀ other, other ≠ "property" → (f.get i).value other = .unset := by
    intro other hne
    have hother : (other == "property") = false := beq_false_of_ne hne
    rw [Node.value, hvalues, List.lookup_cons, hother]
    rfl
  refine ⟨by decide, hi, ⟨hkind, fun _ h => absurd h List.not_mem_nil, ⟨mark, hextensions⟩, ?_,
    fun other => ?_⟩, fun σ hσ => hvalue σ ?_⟩
  · rw [hvalues]
    exact List.nodup_singleton _
  · by_cases hother : other = "property"
    · subst hother
      rfl
    · rw [hvalue other hother]
      show Data.unset = Tree.told .property [] other .unset
      unfold Tree.told
      split
      · rfl
      · split <;> rfl
  · rintro rfl
    exact absurd hσ (by decide)

/-- Nothing is decided at a node that holds nothing. -/
theorem Describe.isDecided_eq {s : Site} {i : NodeId} {k : Kind} (h : s.draft.forest.Blank i k) :
    isDecided i s = .ok false s := by
  obtain ⟨htype, -, href⟩ := SharedType.shownFields_schemas h.schema
  have hunset : ∀ name ∈ k.shownFields, (s.draft.forest.get i).value name = .unset := by
    intro name hname
    have hfield : Data.unset = Tree.told k [] name _ := h.root.field name
    rw [Tree.told, if_neg List.not_mem_nil, if_pos hname] at hfield
    rw [← Data.isUnset_iff, ← Data.isUnset_shownValue, ← hfield]
    rfl
  have hisSet : ∀ name ∈ k.shownFields, isSet i name s = .ok false s := by
    intro name hname
    have hread : Edit.read i name s.draft = .ok .unset s.draft := by
      rw [Edit.read_eq (h.root.kind ▸ List.mem_append_left _ (List.mem_filter.1 hname).1),
        hunset name hname]
    exact Results.bind_of_ok (edit_of_ok hread)
  exact (Results.bind_of_ok (hisSet _ htype)).trans (hisSet _ href)

namespace Reader

variable {x : Reflection}

/-- Without overrides a property keeps its name. -/
theorem propertyName_of_nil (h : x.overrides = []) (default : Data) :
    propertyName x default = default := by
  unfold propertyName
  rw [h]
  rfl

/-- Without overrides a property stays as it is. -/
theorem updateProperty_of_nil (h : x.overrides = []) {w : World} {r : Reader} {groups : Data}
    {i : NodeId} : r.updateProperty w x groups i = pure () := by
  unfold updateProperty
  rw [h]
  rfl

end Reader

/-- Metadata declares what is read from a text. -/
theorem Metadata.declaredType?_of_parse {text : String} {t : TypeExpr}
    (h : TypeExpr.parse text = .ok t) : declaredType? (.str text) = .ok (some t) := by
  have htext : text ≠ "" := by
    rintro rfl
    have hfails : (TypeExpr.parse "").isOk = false := by decide +kernel
    rw [h] at hfails
    exact nomatch hfails
  have htruthy : (Data.str text).truthy = true := bne_iff_ne.2 htext
  unfold declaredType?
  rw [if_neg (by simp [htruthy])]
  dsimp only [Data.str]
  rw [h]

namespace ClassTable

/-- The types of a property that is annotated with a shared type. -/
theorem types_of_hint {t : ClassTable} {owner property : String} {T : SharedType}
    (h : (t.hints owner).lookup property = some T.annotation) :
    t.types owner property = [T.info] := by
  have hinferable : t.inferable? owner property = some T.annotation := by
    unfold inferable?
    rw [h]
    cases T with
    | plain p => cases p <;> rfl
    | object c => rfl
    | list a => rfl
    | mapping a => rfl
  rw [types, hinferable]
  exact T.infer_annotation

end ClassTable

namespace MetadataDescriber

open Describe

variable {w : World} {d : MetadataDescriber} {s : Site} {desk : Desk} {draft d₁ : Draft}
  {schema i : NodeId} {m : Model} {p : PropertyMetadata} {property : String}

/-- Without groups the type of a property is seen without groups, and no groups are handed on. -/
theorem propertyGroups_eq (hdesk : s.desk? = some desk) (hgroups : m.groups = .null)
    (hprevious : (desk.cache.previous m.hash).truthy = false) :
    d.propertyGroups m p s = .ok (.null, .null) s := by
  unfold propertyGroups
  rw [hgroups]
  refine (Results.bind_of_ok (desk_of_some hdesk _)).trans ?_
  rw [hprevious]
  rfl

/-- Without overrides the node of a property is found or made, and stays as it is. -/
theorem propertyNode_eq {r : Reader} {ref? : Option Reflection} {groups : Data}
    (href : reflection? w p s = .ok ref? s) (hplain : ∀ x ∈ ref?, x.overrides = [])
    (hnode : Edit.indexedItem schema .property (.str property) s.draft = .ok i d₁) :
    propertyNode w r p groups (.str property) schema s = .ok i { s with draft := d₁ } := by
  refine (Results.bind_of_ok href).trans ?_
  cases ref? with
  | none => exact edit_of_ok hnode
  | some x =>
    dsimp only
    rw [Reader.propertyName_of_nil (hplain x rfl)]
    refine (Results.bind_of_ok (edit_of_ok hnode)).trans ?_
    rw [Reader.updateProperty_of_nil (hplain x rfl)]
    rfl

/-- A property of a shared type is described from metadata as the type is written into its node. -/
theorem describeProperty_eq (hkeeps : w.classes.KeepsStandard) (hdesk : s.desk? = some desk)
    (hgroups : m.groups = .null) (hprevious : (desk.cache.previous m.hash).truthy = false)
    {T : SharedType} (hT : T.Known w s.met) {t : TypeExpr} (ht : T.Spells t)
    (htype : p.type? = some t) (hname : d.exposedName p = .ok (.str property))
    {ref? : Option Reflection} (href : reflection? w p s = .ok ref? s)
    (hplain : ∀ x ∈ ref?, x.overrides = [])
    (hnode : Edit.indexedItem schema .property (.str property) s.draft = .ok i d₁)
    (hblank : d₁.forest.Blank i .property)
    (hfill : T.fill (desk.registry.addAll T.models) i d₁ = .ok () draft) (r : Reader) :
    describeProperty w d r m p schema s = .ok () (s.done desk draft T.models) := by
  have hexposed : ofExcept (d.exposedName p) s = .ok (.str property) s := by
    rw [hname]
    rfl
  refine (Results.bind_of_ok (propertyGroups_eq hdesk hgroups hprevious)).trans ?_
  refine (Results.bind_of_ok hexposed).trans ?_
  refine (Results.bind_of_ok (propertyNode_eq href hplain hnode)).trans ?_
  refine (Results.bind_of_ok (isDecided_eq (s := { s with draft := d₁ }) hblank)).trans ?_
  rw [if_neg Bool.false_ne_true, htype]
  exact describeItem_eq (s := { s with draft := d₁ }) hkeeps rfl hT ht hdesk hblank hfill

end MetadataDescriber

namespace ObjectDescriber

open Describe

variable {w : World} {s : Site} {desk : Desk} {draft d₁ : Draft} {schema i : NodeId} {m : Model}
  {owner property : String}

/-- Without overrides the node of a property is found or made, and stays as it is. -/
theorem propertyNode_eq {r : Reader}
    (hplain : ∀ x, Reflection.ofClass w.classes owner property = .ok x → x.overrides = [])
    (hnode : Edit.indexedItem schema .property (.str property) s.draft = .ok i d₁) :
    propertyNode w r m owner property schema s = .ok i { s with draft := d₁ } := by
  unfold propertyNode
  cases href : Reflection.ofClass w.classes owner property with
  | error e => exact edit_of_ok hnode
  | ok x =>
    dsimp only
    rw [Reader.propertyName_of_nil (hplain x href)]
    refine (Results.bind_of_ok (edit_of_ok hnode)).trans ?_
    rw [Reader.updateProperty_of_nil (hplain x href)]
    rfl

/-- A property of a shared type is described from its annotation as the type is written into its
    node. Its classes are met. -/
theorem describeProperty_eq (hkeeps : w.classes.KeepsStandard) (hdesk : s.desk? = some desk)
    (hgroups : m.groups = .null) {T : SharedType} (hT : T.Known w s.met)
    (hhint : (w.classes.hints owner).lookup property = some T.annotation)
    (hplain : ∀ x, Reflection.ofClass w.classes owner property = .ok x → x.overrides = [])
    (hnode : Edit.indexedItem schema .property (.str property) s.draft = .ok i d₁)
    (hblank : d₁.forest.Blank i .property)
    (hfill : T.fill (desk.registry.addAll T.models) i d₁ = .ok () draft) (r : Reader) :
    ∃ met, describeProperty w r m owner property schema s
      = .ok () { s.done desk draft T.models with met := met } := by
  let more := (w.classes.typeClasses owner property).filter fun n => !s.met.contains n
  refine ⟨s.met ++ more, ?_⟩
  refine (Results.bind_of_ok (propertyNode_eq hplain hnode)).trans ?_
  refine (Results.bind_of_ok (isDecided_eq (s := { s with draft := d₁ }) hblank)).trans ?_
  rw [if_neg Bool.false_ne_true]
  have honly : onlyType w owner (m.className?.getD "") property { s with draft := d₁ }
      = .ok T.info { s with draft := d₁, met := s.met ++ more } := by
    refine (Results.bind_of_ok (show meet _ { s with draft := d₁ }
      = .ok () { s with draft := d₁, met := s.met ++ more } from rfl)).trans ?_
    rw [ClassTable.types_of_hint hhint]
    rfl
  refine (Results.bind_of_ok honly).trans ?_
  exact describeType_eq (s := { s with draft := d₁, met := s.met ++ more }) hkeeps hgroups property
    (hT.append more) hdesk hfill

end ObjectDescriber

/-- The two describers agree. A property without overrides, of a model without groups, is described
    at a node that holds nothing yet: once from metadata that declares a shared type by any text
    that is read as the type, and once from an annotation with the type. Both succeed and leave the
    same document, in which the node shows the content of the type, and the same registry, in which
    the models of the type are registered. Every shared type has such a text. -/
theorem describers_agree {w : World} (hkeeps : w.classes.KeepsStandard) {s : Site} {desk : Desk}
    (hdesk : s.desk? = some desk) {m : Model} (hgroups : m.groups = .null)
    (hprevious : (desk.cache.previous m.hash).truthy = false) {T : SharedType}
    (hT : T.Known w s.met) {d : MetadataDescriber} {p : PropertyMetadata} {owner property : String}
    (hname : d.exposedName p = .ok (.str property)) {ref? : Option Reflection}
    (href : MetadataDescriber.reflection? w p s = .ok ref? s)
    (hplain : ∀ x ∈ ref?, x.overrides = [])
    (hhint : (w.classes.hints owner).lookup property = some T.annotation)
    (hplain' : ∀ x, Reflection.ofClass w.classes owner property = .ok x → x.overrides = [])
    {schema i : NodeId} {d₁ : Draft}
    (hnode : Edit.indexedItem schema .property (.str property) s.draft = .ok i d₁)
    (hblank : d₁.forest.Blank i .property) (r r' : Reader) :
    T.Written T.text ∧
    ∀ text, T.Written text → Metadata.declaredType? (.str text) = .ok p.type? →
      ∃ draft met,
        MetadataDescriber.describeProperty w d r m p schema s
          = .ok () (s.done desk draft T.models) ∧
        ObjectDescriber.describeProperty w r' m owner property schema s
          = .ok () { s.done desk draft T.models with met := met } ∧
        draft.forest.shown i = .ok (.ofEntries (T.schema (desk.registry.addAll T.models))) := by
  refine ⟨T.written_text, fun text htext htype => ?_⟩
  obtain ⟨t, hparse, ht⟩ := htext
  rw [Metadata.declaredType?_of_parse hparse] at htype
  have htype : p.type? = some t := (Except.ok.inj htype).symm
  obtain ⟨draft, hfill, hshown⟩ := hblank.fill (desk.registry.addAll T.models) T
  obtain ⟨met, hobject⟩ := ObjectDescriber.describeProperty_eq hkeeps hdesk hgroups hT hhint hplain'
    hnode hblank hfill r'
  exact ⟨draft, met, MetadataDescriber.describeProperty_eq hkeeps hdesk hgroups hprevious hT ht htype
    hname href hplain hnode hblank hfill r, hobject, hshown⟩

/-! ### A mapping of lists of a class -/

/-- The name of a class. -/
def pointName : TypeExpr.Name := .ofText "shop.Point" (by decide) (by decide +kernel)

/-- A mapping of lists of the class. -/
def pointLists : SharedType := .mapping (.list (.object pointName))

/-- The class, and one with a property of that type. -/
def pointClasses : ClassTable :=
  [{ decl := { module := "shop", name := "Point", kind := .plain }
     order := ["shop.Point", rootClass], recordFields? := none },
   { decl := { module := "shop", name := "Shape", kind := .plain,
               fields := [⟨"corners", pointLists.annotation, .null, none⟩] }
     order := ["shop.Shape", rootClass], recordFields? := none }]

/-- What metadata says about the property. -/
def cornersMetadata : PropertyMetadata where
  className := .str "shop.Shape"
  name := .str "corners"
  type? := some (pointLists.form SharedType.tight).tree

/-- An empty schema, and a new registry. -/
def emptySchemaSite : Site where
  draft := { forest := ⟨#[{ kind := .schema }]⟩ }
  desk? := some ⟨Registry.create "#/components/schemas/" none [], {}⟩

/-- The schema of the empty site is blank. -/
theorem blank_emptySchemaSite : emptySchemaSite.draft.forest.Blank 0 .schema :=
  ⟨by decide, by decide, .fresh (fun _ h => absurd h List.not_mem_nil) _, fun _ _ => rfl⟩

/-- The schema with a property that holds nothing yet. -/
def oneProperty : Draft where
  forest := ⟨#[{ kind := .schema, values := [("properties", .list [.node 1] 0)] },
    { kind := .property, parent := .node 0, values := [("property", .str "corners")] }]⟩

/-- The class of points leaves the standard classes as they are. -/
theorem pointClasses_keepsStandard : pointClasses.KeepsStandard := by
  have hall : ∀ c ∈ standardClasses, (pointClasses.find? c.1).isNone = true := by decide +kernel
  intro name hname
  obtain ⟨order, horder⟩ := Option.isSome_iff_exists.1 hname
  exact Option.isNone_iff_eq_none.1 (hall _ (mem_of_lookup horder))

theorem pointClasses_knows : ({ classes := pointClasses } : World).Knows [] pointName where
  dotted := by decide
  resolve_eq := by rfl
  isDate_eq := by decide +kernel
  enumeration?_eq := by rfl

/-- A property with lists of points under texts is described alike. -/
theorem describers_agree_points : ∃ draft met,
    MetadataDescriber.describeProperty { classes := pointClasses } ⟨{}, none⟩ ⟨true, none⟩
      (.ofClass "shop.Shape" .null) cornersMetadata 0 emptySchemaSite
      = .ok () (emptySchemaSite.done ⟨Registry.create "#/components/schemas/" none [], {}⟩ draft
        [.ofClass pointName.text .null]) ∧
    ObjectDescriber.describeProperty { classes := pointClasses } ⟨true, none⟩
      (.ofClass "shop.Shape" .null) "shop.Shape" "corners" 0 emptySchemaSite
      = .ok () { emptySchemaSite.done ⟨Registry.create "#/components/schemas/" none [], {}⟩ draft
        [.ofClass pointName.text .null] with met := met } := by
  let w : World := { classes := pointClasses }
  let m : Model := .ofClass "shop.Shape" .null
  let x : Reflection := ⟨"shop.Shape", "corners", some pointLists.annotation, none⟩
  -- All that the general theorem asks about the class, the property and its node is computed.
  have hdesk : emptySchemaSite.desk? = some ⟨Registry.create "#/components/schemas/" none [], {}⟩ :=
    rfl
  have hknown : pointLists.Known w emptySchemaSite.met := pointClasses_knows
  have hprevious : (({} : Cache).previous m.hash).truthy = false := by decide +kernel
  have hname : MetadataDescriber.exposedName ⟨{}, none⟩ cornersMetadata = .ok (.str "corners") := rfl
  have href : MetadataDescriber.reflection? w cornersMetadata emptySchemaSite
      = .ok (some x) emptySchemaSite := rfl
  have hof : Reflection.ofClass pointClasses "shop.Shape" "corners" = .ok x := rfl
  have hhint : (pointClasses.hints "shop.Shape").lookup "corners" = some pointLists.annotation := rfl
  have hnode : Edit.indexedItem 0 .property (.str "corners") emptySchemaSite.draft
      = .ok 1 oneProperty := rfl
  obtain ⟨hwritten, hagree⟩ := describers_agree pointClasses_keepsStandard hdesk rfl hprevious
    hknown hname href (fun y hy => by cases hy; rfl) hhint
    (fun y hy => by cases hof.symm.trans hy; rfl) hnode (.of_values (by decide) rfl rfl rfl)
    ⟨true, none⟩ ⟨true, none⟩
  obtain ⟨draft, met, hmetadata, hobject, -⟩ := hagree _ hwritten
    (Metadata.declaredType?_of_parse (TypeExpr.Derivation.parse_text _))
  exact ⟨draft, met, hmetadata, hobject⟩

end ApiDoc
