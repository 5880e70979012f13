import ApiDoc.Override
import ApiDoc.Text.Path

namespace ApiDoc

/-!
# Configuration

* `Config` — the settings of document generation;
* `Config.load` — settings from explicit arguments, then from the environment, then defaults;
* `Ambient` — the settings that hold where none are given, or why there are none.
-/

/-- The settings of document generation. -/
structure Config where
  openapiVersion : String := "3.0.0"
  infoTitle : String := ""
  infoVersion : String := "0.0.0"
  refPrefix : String := "#/components/schemas/"
  unknownFieldPolicy : Policy := .error
  logLevel : String := "INFO"
  homeDir : String := "."
deriving Repr

/-- The settings that hold where none are given, or why there are none. -/
abbrev Ambient := Except Failure Config

namespace Policy

/-- The name of a policy. -/
def name : Policy → String
  | error => "error"
  | warn => "warn"

/-- The policy of a name. -/
def ofName? : String → Option Policy
  | "error" => some error
  | "warn" => some warn
  | _ => none

/-- The policy given, or the one that the settings hold. -/
def orAmbient (ambient : Ambient) : Option Policy → Except Failure Policy
  | some p => .ok p
  | none => return (← ambient).unknownFieldPolicy

end Policy

namespace Config

/-- What the names of environment variables start with. -/
def environmentPrefix : String := "apidescriber_"

/-- The value given for a setting: an argument, or else an environment variable, whose name
    may be in any case. Of several variables the last counts. -/
def given? (args : List (String × Data)) (environment : List (String × String)) (name : String) :
    Option Data :=
  match args.lookup name with
  | some v => some v
  | none =>
    let ofName (e : String × String) : Bool := Text.lower e.1 == environmentPrefix ++ name
    (environment.reverse.find? ofName).map fun e => .str e.2

/-- A setting that is a text. -/
def textSetting (given : Option Data) (default : String) : Except String String :=
  match given with
  | none => .ok default
  | some v => FieldType.text? v

/-- A setting that is a policy. -/
def policySetting (given : Option Data) (default : Policy) : Except String Policy :=
  match given with
  | none => .ok default
  | some v => match v.str?.bind Policy.ofName? with
    | some p => .ok p
    | none => .error "literal_error"

/-- A setting that is a path. -/
def pathSetting (given : Option Data) (default : String) : Except String String :=
  match given with
  | none => .ok default
  | some v => match FieldType.text? v with
    | .ok s => .ok (Text.normalPath s)
    | .error _ => .error "path_type"

/-- The reason why a setting does not take its value, under its name. -/
def complaint {α : Type} (name : String) : Except String α → Option (String × String)
  | .ok _ => none
  | .error e => some (name, e)

/-- The settings that arguments and environment give, the default `home` for the directory.
    All settings that do not take their values are named together. -/
def load (args : List (String × Data)) (environment : List (String × String))
    (home : String := ".") : Ambient :=
  let given := given? args environment
  let base : Config := {}
  let version := textSetting (given "openapi_version") base.openapiVersion
  let title := textSetting (given "info_title") base.infoTitle
  let infoVersion := textSetting (given "info_version") base.infoVersion
  let refPrefix := textSetting (given "ref_prefix") base.refPrefix
  let policy := policySetting (given "unknown_field_policy") base.unknownFieldPolicy
  let level := textSetting (given "log_level") base.logLevel
  let homeDir := pathSetting (given "home_dir") home
  match version, title, infoVersion, refPrefix, policy, level, homeDir with
  | .ok a, .ok b, .ok c, .ok d, .ok e, .ok f, .ok g => .ok ⟨a, b, c, d, e, f, g⟩
  | _, _, _, _, _, _, _ =>
    .error (.invalid ([complaint "openapi_version" version, complaint "info_title" title,
      complaint "info_version" infoVersion, complaint "ref_prefix" refPrefix,
      complaint "unknown_field_policy" policy, complaint "log_level" level,
      complaint "home_dir" homeDir].filterMap id))

/-- The directory for log files. -/
def logDir (c : Config) : String := Text.childPath c.homeDir "logs"

end Config

end ApiDoc
