import ApiDoc.Generator
import ApiDoc.Proofs.Describe.Lockstep

namespace ApiDoc

/-!
# What a generation depends on

Two generations that start in step end in step:

* `Lockstep.registerSchemas` — models described in rounds;
* `Lockstep.external`, `Lockstep.run` — describers of documents, and a whole generation;
* `Generator.generate_isolated` — with settings of its own a generation does not depend on the
  ambient ones, but for the title and the version that a describer of defaults takes when it is made;
* `Generator.generate_again` — a generation after another one makes the same document, where every
  class that the first one met is found by its name.
-/

/-! ### Models -/

namespace ModelDescriber

/-- Whether a describer takes a model, whatever it looks up. -/
def takes (m : Model) : ModelDescriber → Bool
  | metadata d => d.supports m
  | object => ObjectDescriber.supports m
  | outline o => o.supports m

/-- Which models a describer takes does not depend on the world. -/
theorem supports_toDescriber (w : World) (x : ModelDescriber) (m : Model) :
    (x.toDescriber w).supports m = x.takes m := by
  cases x <;> rfl

/-- The first describer that takes a model does not either. -/
theorem find?_toDescriber (w : World) (xs : List ModelDescriber) (m : Model) :
    ((xs.map (·.toDescriber w)).find? fun d => d.supports m)
      = (xs.find? (takes m)).map (·.toDescriber w) := by
  have htakes : ((fun d => d.supports m) ∘ fun x : ModelDescriber => x.toDescriber w) = takes m :=
    funext fun x => supports_toDescriber w x m
  rw [List.find?_map, htakes]

end ModelDescriber

namespace Lockstep

variable {t : ClassTable} {a a' : Ambient}

/-- One model described by the first describer that takes it. -/
theorem describeModel (xs : List ModelDescriber) (document : NodeId) (name : String) (m : Model) :
    Lockstep t (Describe.describeModel (xs.map (·.toDescriber ⟨t, a⟩)) document name m)
      (Describe.describeModel (xs.map (·.toDescriber ⟨t, a'⟩)) document name m) := by
  unfold Describe.describeModel
  rw [ModelDescriber.find?_toDescriber, ModelDescriber.find?_toDescriber]
  refine .bind (.edit _) fun schema => ?_
  cases xs.find? (ModelDescriber.takes m) with
  | none => exact .throw _
  | some x => exact .describer x m schema

/-- The model under a key, described under its name. -/
theorem describeKey (xs : List ModelDescriber) (document : NodeId) (key : String) :
    Lockstep t (Describe.describeKey (xs.map (·.toDescriber ⟨t, a⟩)) document key)
      (Describe.describeKey (xs.map (·.toDescriber ⟨t, a'⟩)) document key) := by
  refine .desk_bind _ fun d _ => ?_
  cases d.registry.models.lookup key with
  | none => exact .pure _
  | some m =>
    cases d.registry.nameOf? key with
    | none => exact .pure _
    | some name => exact .describeModel xs document name m

/-- Both runs have the same pending models. -/
theorem takePending : Lockstep t Describe.takePending Describe.takePending :=
  .desk_bind _ fun _ hpolicy => .bind (.setRegistry hpolicy) fun _ => .pure _

/-- Both runs have the same alternative names. -/
theorem takeAlternatives : Lockstep t Describe.takeAlternatives Describe.takeAlternatives :=
  .desk_bind _ fun _ hpolicy => .bind (.setRegistry hpolicy) fun _ =>
    .forM fun _ _ => .bind (.register _ _) fun _ => .pure _

/-- One round over all pending models. -/
theorem round (xs : List ModelDescriber) (document : NodeId) :
    Lockstep t (Describe.round (xs.map (·.toDescriber ⟨t, a⟩)) document)
      (Describe.round (xs.map (·.toDescriber ⟨t, a'⟩)) document) := by
  refine .desk_bind _ fun d _ => .ite ?_ (.ite ?_ (.pure _))
  · exact .bind .takePending fun pending =>
      .bind (.forM fun key _ => .describeKey xs document key) fun _ => .pure _
  · exact .bind .takeAlternatives fun _ => .pure _

/-- Models described in any number of rounds. -/
theorem registerSchemas (xs : List ModelDescriber) (document : NodeId) (fuel : Nat) :
    Lockstep t (Describe.registerSchemas (xs.map (·.toDescriber ⟨t, a⟩)) document fuel)
      (Describe.registerSchemas (xs.map (·.toDescriber ⟨t, a'⟩)) document fuel) := by
  induction fuel with
  | zero => exact .throw _
  | succ fuel ih => exact .bind (.round xs document) fun _ => .ite ih (.pure _)

/-! ### Documents -/

/-- A text is read alike. -/
theorem readText (yaml : String) :
    Lockstep t (ExternalDoc.readText yaml) (ExternalDoc.readText yaml) := by
  intro s s' hs
  -- The read depends on the next mark alone, whatever else is at the site.
  have hread : ∀ {u : Site} (v : Data) (next : Nat),
      Yaml.read yaml u.draft.nextMark = .ok (v, next) → ExternalDoc.readText yaml u
        = .ok v { u with draft := { u.draft with nextMark := next } } := by
    intro u v next hu
    show (Describe.ofExcept (Yaml.read yaml u.draft.nextMark) >>= _) u = _
    rw [hu]
    rfl
  have hfail : ∀ {u : Site} (e : Failure), Yaml.read yaml u.draft.nextMark = .error e →
      ExternalDoc.readText yaml u = .error e u := by
    intro u e hu
    show (Describe.ofExcept (Yaml.read yaml u.draft.nextMark) >>= _) u = _
    rw [hu]
    rfl
  have hsame := congrArg (fun d : Draft => Yaml.read yaml d.nextMark) hs.draft
  cases h : Yaml.read yaml s.draft.nextMark with
  | ok r =>
    obtain ⟨v, next⟩ := r
    rw [hread v next h, hread v next (hsame.trans h)]
    exact .ok v ⟨by rw [hs.draft], hs.desk, hs.policy, hs.met⟩ fun _ => id
  | error e =>
    rw [hfail e h, hfail e (hsame.trans h)]
    exact .error e hs fun _ => id

/-- The content of a fragment is read alike. -/
theorem content? (f : Fragment) :
    Lockstep t (ExternalDoc.content? f) (ExternalDoc.content? f) := by
  cases f with
  | value v => exact .ofExcept _
  | text yaml => exact .bind (.readText yaml) fun _ => .ite (.ofExcept _) (.pure _)

/-- External documentation is merged with a policy of its own or that of the registry. -/
theorem external (doc : ExternalDoc) (i : NodeId) :
    Lockstep t (doc.describe ⟨t, a⟩ i) (doc.describe ⟨t, a'⟩ i) := by
  refine .bind (.content? doc.fragment) fun es? => ?_
  cases es? with
  | none => exact .pure _
  | some es =>
    intro s s' hs
    obtain ⟨desk, hdesk, hpolicy⟩ := hs.policy
    obtain ⟨p, hp⟩ := Option.isSome_iff_exists.1 hpolicy
    -- The policy is the same at both desks, and never the ambient one.
    obtain ⟨q, hq⟩ : ∃ q, ∀ b : Ambient, doc.policy ⟨t, b⟩ (some desk) = .ok q := by
      unfold ExternalDoc.policy
      rw [Option.bind_some, hp]
      cases doc.policy? with
      | none => exact ⟨p, fun _ => rfl⟩
      | some own => exact ⟨own, fun _ => rfl⟩
    show Alike t s.met ((Describe.ofExcept (doc.policy ⟨t, a⟩ s.desk?) >>= _) s)
      ((Describe.ofExcept (doc.policy ⟨t, a'⟩ s'.desk?) >>= _) s')
    rw [hs.desk, hdesk, hq, hq]
    exact (Lockstep.edit _) s s' hs

end Lockstep

namespace DocumentDescriber

/-- Describers of documents that write the same: one fragment, or one title and one version. -/
def Writes : DocumentDescriber → DocumentDescriber → Prop
  | defaults c, defaults c' => c.infoTitle = c'.infoTitle ∧ c.infoVersion = c'.infoVersion
  | external doc, external doc' => doc = doc'
  | _, _ => False

/-- A describer of documents writes what it writes. -/
theorem Writes.refl (x : DocumentDescriber) : Writes x x := by
  cases x with
  | defaults c => exact ⟨rfl, rfl⟩
  | external doc => exact rfl

/-- Describers of documents stay in step, whatever the ambient settings are. -/
theorem Writes.lockstep {t : ClassTable} {a a' : Ambient} {x y : DocumentDescriber}
    (h : Writes x y) (i : NodeId) :
    Lockstep t (x.describe ⟨t, a⟩ i) (y.describe ⟨t, a'⟩ i) := by
  cases x with
  | defaults c =>
    cases y with
    | external doc => exact h.elim
    | defaults c' =>
      have hfill : Edit.fillDefaults c i = Edit.fillDefaults c' i := by
        unfold Edit.fillDefaults
        rw [h.1, h.2]
      show Lockstep t (Describe.edit (Edit.fillDefaults c i))
        (Describe.edit (Edit.fillDefaults c' i))
      rw [hfill]
      exact .edit _
  | external doc =>
    cases y with
    | defaults c' => exact h.elim
    | external doc' =>
      obtain rfl : doc = doc' := h
      exact .external doc i

end DocumentDescriber

/-! ### Generations -/

namespace Generator

variable {t : ClassTable} {a a' : Ambient}

/-- Describers of documents that write the same, one after the other. -/
theorem lockstep_describers {xs ys : List DocumentDescriber}
    (h : List.Forall₂ DocumentDescriber.Writes xs ys) (i : NodeId) :
    Lockstep t (xs.forM (·.describe ⟨t, a⟩ i)) (ys.forM (·.describe ⟨t, a'⟩ i)) := by
  induction h with
  | nil => exact .pure ()
  | cons hxy _ ih => exact .bind (hxy.lockstep i) fun _ => ih

/-- A whole generation. -/
theorem lockstep_run (g : Generator) {xs ys : List DocumentDescriber}
    (h : List.Forall₂ DocumentDescriber.Writes xs ys) (fuel : Nat) :
    Lockstep t ({ g with describers := xs }.run ⟨t, a⟩ fuel)
      ({ g with describers := ys }.run ⟨t, a'⟩ fuel) := by
  refine .bind (lockstep_describers h document) fun _ => ?_
  refine .bind (.forM fun m _ => .bind (.register _ _) fun _ => .pure _) fun _ => ?_
  exact .registerSchemas g.modelDescribers document fuel

/-- Generations start from twins. -/
theorem twins_start (g : Generator) (c : Config) {met met' : List String} (h : t.Agree met met')
    (nextMark : Nat) : Twins t (g.start c met nextMark) (g.start c met' nextMark) where
  draft := rfl
  desk := rfl
  policy := ⟨_, rfl, rfl⟩
  met := h.meet g.classes

/-- The site that a generation leaves if it succeeds. -/
def built? : Except Failure (EStateM.Result Failure Site Unit) → Option Site
  | .ok (.ok _ s) => some s
  | _ => none

/-- Only a generation that succeeds leaves a site. -/
theorem built?_eq_some {r : EStateM.Result Failure Site Unit} {s : Site} :
    built? (.ok r) = some s ↔ r = .ok () s := by
  cases r <;> simp [built?]

/-- The document that a generation leaves, or the failure. -/
def document? : Except Failure (EStateM.Result Failure Site Unit) → Except Failure Draft
  | .ok (.ok _ s) => .ok s.draft
  | .ok (.error e _) => .error e
  | .error e => .error e

end Generator

/-! ### Ambient settings -/

/-- What a describer of documents is made from: settings of its own if it has any, or a fragment. -/
inductive DocumentDescriber.Source where
  | defaults (own? : Option Config)
  | external (doc : ExternalDoc)

/-- The describer that is made under ambient settings. -/
def DocumentDescriber.Source.describer (ambient : Ambient) :
    Source → Except Failure DocumentDescriber
  | defaults own? => DocumentDescriber.ofConfig? ambient own?
  | external doc => .ok (.external doc)

/-- The title and the version that ambient settings hold. -/
def Ambient.info (ambient : Ambient) : Except Failure (String × String) :=
  ambient.map fun c => (c.infoTitle, c.infoVersion)

namespace Generator

variable {t : ClassTable} {a a' : Ambient}

/-- A document generated under ambient settings by describers that are made under them. -/
def documentUnder (t : ClassTable) (ambient : Ambient) (g : Generator)
    (sources : List DocumentDescriber.Source) (fuel : Nat) (met : List String) (nextMark : Nat) :
    Except Failure Draft := do
  let describers ← sources.mapM (·.describer ambient)
  document? ({ g with describers := describers }.generate ⟨t, ambient⟩ fuel met nextMark)

/-- A describer made under two ambient settings writes the same, or cannot be made. -/
theorem describer_writes {x : DocumentDescriber.Source}
    (h : x = .defaults none → a.info = a'.info) :
    (∃ e, x.describer a = .error e ∧ x.describer a' = .error e) ∨
      ∃ d d', x.describer a = .ok d ∧ x.describer a' = .ok d' ∧ d.Writes d' := by
  cases x with
  | external doc => exact .inr ⟨_, _, rfl, rfl, .refl _⟩
  | defaults own? =>
    cases own? with
    | some c => exact .inr ⟨_, _, rfl, rfl, .refl _⟩
    | none =>
      have hinfo := h rfl
      cases a with
      | error e =>
        cases a' with
        | error e' => exact .inl ⟨e, rfl, congrArg _ (Except.error.inj hinfo).symm⟩
        | ok c' => exact nomatch hinfo
      | ok c =>
        cases a' with
        | error e' => exact nomatch hinfo
        | ok c' => exact .inr ⟨_, _, rfl, rfl, Prod.mk.inj (Except.ok.inj hinfo)⟩

/-- Sources make the same describers under two ambient settings, or fail alike, if the defaults have
    the same information. -/
theorem describers_write {sources : List DocumentDescriber.Source}
    (h : .defaults none ∈ sources → a.info = a'.info) :
    (∃ e, sources.mapM (·.describer a) = .error e ∧ sources.mapM (·.describer a') = .error e) ∨
      ∃ xs ys, sources.mapM (·.describer a) = .ok xs ∧ sources.mapM (·.describer a') = .ok ys ∧
        List.Forall₂ DocumentDescriber.Writes xs ys := by
  induction sources with
  | nil => exact .inr ⟨[], [], rfl, rfl, .nil⟩
  | cons x sources ih =>
    rw [List.mapM_cons, List.mapM_cons]
    have hrest := ih fun hmem => h (List.mem_cons_of_mem _ hmem)
    rcases describer_writes fun hx => h (hx ▸ List.mem_cons_self) with
      ⟨e, he, he'⟩ | ⟨d, d', hd, hd', hwrites⟩
    · exact .inl ⟨e, by rw [he]; rfl, by rw [he']; rfl⟩
    rw [hd, hd']
    rcases hrest with ⟨e, he, he'⟩ | ⟨xs, ys, hxs, hys, hall⟩
    · exact .inl ⟨e, by rw [he]; rfl, by rw [he']; rfl⟩
    · exact .inr ⟨d :: xs, d' :: ys, by rw [hxs]; rfl, by rw [hys]; rfl, .cons hwrites hall⟩

/-- With its settings known a generation is the run from its start. -/
theorem generate_of_settings {w : World} {g : Generator} {c : Config}
    (h : g.config w.ambient = .ok c) (fuel : Nat) (met : List String) (nextMark : Nat) :
    g.generate w fuel met nextMark = .ok (g.run w fuel (g.start c met nextMark)) := by
  rw [generate, h]
  rfl

/-- With settings of its own a generation takes no others for itself. -/
theorem generate_of_config {g : Generator} {c : Config} (hconfig : g.config? = some c) (w : World)
    (fuel : Nat) (met : List String) (nextMark : Nat) :
    g.generate w fuel met nextMark = .ok (g.run w fuel (g.start c met nextMark)) := by
  refine generate_of_settings ?_ fuel met nextMark
  unfold config
  rw [hconfig]

/-- Results that are alike show the same document. -/
theorem document?_eq_of_alike {r r' : EStateM.Result Failure Site Unit} {met : List String}
    (h : Alike t met r r') : document? (.ok r) = document? (.ok r') := by
  cases h with
  | ok _ hs _ => exact congrArg Except.ok hs.draft.symm
  | error e _ _ => rfl

/-- With settings of its own a generation makes one document, or fails in one way, under any two
    ambient settings, if no describer of defaults is made without settings or they hold one title
    and one version. -/
theorem generate_isolated {g : Generator} {c : Config} (hconfig : g.config? = some c)
    {sources : List DocumentDescriber.Source}
    (hdefaults : .defaults none ∈ sources → a.info = a'.info) (fuel : Nat) (met : List String)
    (nextMark : Nat) : documentUnder t a g sources fuel met nextMark
      = documentUnder t a' g sources fuel met nextMark := by
  -- Stated for any computation: two whole generations are too large to be compared by unfolding.
  have herror : ∀ (e : Failure) (f : List DocumentDescriber → Except Failure Draft),
      (Except.error e >>= f) = .error e := fun _ _ => rfl
  have hok : ∀ (zs : List DocumentDescriber) (f : List DocumentDescriber → Except Failure Draft),
      (Except.ok zs >>= f) = f zs := fun _ _ => rfl
  unfold documentUnder
  rcases describers_write hdefaults with ⟨e, he, he'⟩ | ⟨xs, ys, hxs, hys, hwrite⟩
  · rw [he, he', herror, herror]
  · rw [hxs, hys, hok, hok, generate_of_config (g := { g with describers := xs }) hconfig,
      generate_of_config (g := { g with describers := ys }) hconfig]
    have hstart : Twins t ({ g with describers := xs }.start c met nextMark)
        ({ g with describers := ys }.start c met nextMark) :=
      twins_start g c (ClassTable.Agree.refl t met) nextMark
    exact document?_eq_of_alike (lockstep_run g hwrite fuel _ _ hstart)

/-- Under two ambient settings, with one title and one version for what they are asked for. -/
theorem generate_isolated_shop :
    let c : Config := { infoTitle := "Shop" }
    let g : Generator := { config? := some c }
    let tags : ExternalDoc := ⟨.value (.ofEntries [(.str "tags", .ofList [])]), false, none⟩
    let document (ambient : Ambient) :=
      documentUnder [] ambient g [.defaults (some c), .external tags] 1 [] 1
    document (.ok {}) = document (.ok { infoTitle := "Elsewhere", unknownFieldPolicy := .warn }) := by
  intro c g tags document
  exact generate_isolated (c := c) rfl (fun h => by simp at h) 1 [] 1

/-- Where one computation after another makes something else. -/
theorem exists_apart {α β : Type} [DecidableEq β] {x : Option α} {y : α → Option α} {f : α → β}
    (h : (x.bind fun a => (y a).map fun b => decide (f a = f b)) = some false) :
    ∃ a b, x = some a ∧ y a = some b ∧ f a ≠ f b := by
  obtain ⟨a, ha, h⟩ := Option.bind_eq_some_iff.1 h
  obtain ⟨b, hb, hne⟩ := Option.map_eq_some_iff.1 h
  exact ⟨a, b, ha, hb, of_decide_eq_false hne⟩

/-- A describer of defaults that is made without settings writes the ambient title, whatever
    settings the generation has of its own. -/
theorem generate_not_isolated :
    let g : Generator := { config? := some { infoTitle := "Shop" } }
    let document (ambient : Ambient) := documentUnder [] ambient g [.defaults none] 1 [] 1
    ∃ d d', (document (.ok {})).toOption = some d ∧
      (document (.ok { infoTitle := "Elsewhere" })).toOption = some d' ∧
      (d.forest.json {} 0).toOption ≠ (d'.forest.json {} 0).toOption := by
  intro g document
  exact exists_apart (y := fun _ => (document _).toOption) (by decide +kernel)

/-! ### The classes met before -/

/-- A generation after another one, from the classes that it has met, succeeds too and makes the
    same document, if every class that was not met before is found by its name. -/
theorem generate_again {w : World} {g : Generator} {fuel : Nat} {met : List String} {nextMark : Nat}
    {s : Site} (h : built? (g.generate w fuel met nextMark) = some s)
    (hfound : ∀ name ∈ s.met, name ∉ met → w.classes.resolve [] name = .ok (some name)) :
    ∃ s', built? (g.generate w fuel s.met nextMark) = some s' ∧ s'.draft = s.draft := by
  obtain ⟨t, a⟩ := w
  have hwrite : List.Forall₂ DocumentDescriber.Writes g.describers g.describers :=
    List.forall₂_same.2 fun x _ => .refl x
  cases hconfig : g.config a with
  | error e =>
    rw [generate, hconfig] at h
    exact nomatch h
  | ok c =>
    rw [generate_of_settings hconfig, built?_eq_some] at h
    rw [generate_of_settings hconfig]
    have hstep : ∀ {met met' : List String}, t.Agree met met' → Alike t (g.start c met nextMark).met
        (g.run ⟨t, a⟩ fuel (g.start c met nextMark)) (g.run ⟨t, a⟩ fuel (g.start c met' nextMark)) :=
      fun h => lockstep_run g hwrite fuel _ _ (twins_start g c h nextMark)
    -- No class that was met before is forgotten.
    have hkept : met ⊆ s.met := by
      have hself := hstep (ClassTable.Agree.refl t met)
      rw [h] at hself
      cases hself with
      | ok _ _ hmet => exact fun _ hn => hmet (List.mem_append_left _ hn)
    have hagree : t.Agree met s.met := by
      intro name
      by_cases hold : name ∈ met
      · exact .inr (iff_of_true hold (hkept hold))
      by_cases hnew : name ∈ s.met
      · exact .inl (hfound name hnew hold)
      · exact .inr (iff_of_false hold hnew)
    have hagain := hstep hagree
    rw [h] at hagain
    revert hagain
    generalize g.run ⟨t, a⟩ fuel (g.start c s.met nextMark) = r
    intro hagain
    cases hagain with
    | @ok _ _ s' hs _ => exact ⟨s', rfl, hs.draft⟩

/-- A class, attached to its module or not, and another one with a property of that class. -/
def cornerClasses (isLocal : Bool) : ClassTable :=
  [{ decl := { module := "shop", name := "Point", kind := .plain, isLocal := isLocal,
               fields := [⟨"x", .builtin "int", .null, none⟩] }
     order := ["shop.Point", rootClass], recordFields? := none },
   { decl := { module := "shop", name := "Shape", kind := .plain,
               fields := [⟨"corner", .object "shop.Point", .null, none⟩] }
     order := ["shop.Shape", rootClass], recordFields? := none }]

/-- Metadata of a property of that class. -/
def cornerMetadata : Metadata where
  classes := [⟨.str "shop.Mark", [{ className := .str "shop.Mark", name := .str "at",
                                    type? := some (.mk "shop.Point" []) }]⟩]

/-- The model with metadata, and then the model of the other class. -/
def cornerGenerator : Generator where
  modelDescribers := [.metadata ⟨cornerMetadata, none⟩, .object]
  models := [.ofModel (.ofClass "shop.Mark" .null), .ofModel (.ofClass "shop.Shape" .null)]
  config? := some {}

/-- The first generation meets the class, which is found by its name. -/
theorem generate_again_corner :
    let w : World := { classes := cornerClasses false }
    ∃ s, built? (cornerGenerator.generate w 5 [] 1) = some s ∧ s.met = ["shop.Point"] ∧
      ∃ s', built? (cornerGenerator.generate w 5 s.met 1) = some s' ∧ s'.draft = s.draft := by
  intro w
  have hmet : (built? (cornerGenerator.generate w 5 [] 1)).map (·.met) = some ["shop.Point"] := by
    decide +kernel
  obtain ⟨s, hs, hmet⟩ := Option.map_eq_some_iff.1 hmet
  refine ⟨s, hs, hmet, generate_again hs fun name hname _ => ?_⟩
  rw [hmet, List.mem_singleton] at hname
  subst hname
  rfl

/-- A class that is attached to nothing is known by its name in the second generation only. -/
theorem generate_again_apart :
    let w : World := { classes := cornerClasses true }
    ∃ s s', built? (cornerGenerator.generate w 5 [] 1) = some s ∧
      built? (cornerGenerator.generate w 5 s.met 1) = some s' ∧
      (s.draft.forest.json {} 0).toOption ≠ (s'.draft.forest.json {} 0).toOption := by
  intro w
  exact exists_apart (by decide +kernel)

end Generator

end ApiDoc
