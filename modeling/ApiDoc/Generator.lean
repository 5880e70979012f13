import ApiDoc.Describe.Components
import ApiDoc.Describe.Defaults
import ApiDoc.Describe.External

namespace ApiDoc

/-!
# Generating a document

* `DocumentDescriber` — what describes a document as a whole: external documentation or
  defaults;
* `ModelRequest` — a model asked for by class or by type;
* `Generator` — the describers, the models to describe in any case, and the models with fixed
  names;
* `Generator.generate` — an empty document, described by each describer in turn; then the
  models are registered, and the schemas of all registered models written.
-/

/-- What describes a document as a whole. -/
inductive DocumentDescriber where
  | defaults (config : Config)
  | external (doc : ExternalDoc)
deriving Repr

namespace DocumentDescriber

/-- A describer of defaults, by settings of its own or else the ambient ones. -/
def ofConfig? (ambient : Ambient) (own? : Option Config) : Except Failure DocumentDescriber :=
  match own? with
  | some c => .ok (defaults c)
  | none => return defaults (← ambient)

/-- A document described. -/
def describe (w : World) (document : NodeId) : DocumentDescriber → Describe Unit
  | defaults c => Describe.edit (Edit.fillDefaults c document)
  | external d => d.describe w document

end DocumentDescriber

/-- A model asked for: a class through groups, or a type through groups. -/
inductive ModelRequest where
  | ofTarget (target : Target) (groups : Data)
  | ofModel (m : Model)
deriving Repr

namespace ModelRequest

/-- The model. -/
def model : ModelRequest → Model
  | ofTarget (.named name) groups => .ofClass name groups
  | ofTarget (.itself name) groups => .ofClass name groups
  | ofModel m => m

/-- The classes that are met by asking. -/
def classes : ModelRequest → List String
  | ofTarget (.itself name) _ => [name]
  | _ => []

end ModelRequest

/-- What a document is generated from. -/
structure Generator where
  describers : List DocumentDescriber := []
  modelDescribers : List ModelDescriber := []
  models : List ModelRequest := []
  alternatives : List (String × ModelRequest) := []
  config? : Option Config := none

namespace Generator

/-- The settings of the generation. -/
def config (g : Generator) (ambient : Ambient) : Ambient :=
  match g.config? with
  | some c => .ok c
  | none => ambient

/-- The classes that are met by asking for the models. -/
def classes (g : Generator) : List String :=
  g.models.flatMap ModelRequest.classes ++ g.alternatives.flatMap fun a => a.2.classes

/-- The registry before anything is described. -/
def registry (g : Generator) (c : Config) : Registry :=
  Registry.create c.refPrefix (some c.unknownFieldPolicy)
    (g.alternatives.map fun a => (a.1, a.2.model))

/-- A document before anything is described. -/
def emptyDocument (version : Data) : Node :=
  ({ kind := .openApi } : Node).putValue "openapi" version

/-- The number of the document. -/
def document : NodeId := 0

/-- The site before anything is described: the document alone, with some classes met and the
    marks before one given. -/
def start (g : Generator) (c : Config) (met : List String) (nextMark : Nat) : Site where
  draft :=
    { forest := (Forest.add {} (emptyDocument (.str c.openapiVersion))).2, nextMark := nextMark }
  desk? := some ⟨g.registry c, {}⟩
  met := met ++ g.classes.filter fun n => !met.contains n

/-- The document described, in at most so many rounds of describing models. -/
def run (w : World) (g : Generator) (fuel : Nat) : Describe Unit := do
  g.describers.forM (·.describe w document)
  g.models.forM fun m => do let _ ← Describe.register .noRegistry m.model
  Describe.registerSchemas (g.modelDescribers.map (·.toDescriber w)) document fuel

/-- A document generated: the site that it leaves, whether it succeeds or fails. Settings that
    do not hold are a failure before there is a site. -/
def generate (w : World) (g : Generator) (fuel : Nat) (met : List String) (nextMark : Nat) :
    Except Failure (EStateM.Result Failure Site Unit) := do
  return g.run w fuel (g.start (← g.config w.ambient) met nextMark)

end Generator

end ApiDoc
