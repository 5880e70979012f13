import ApiDoc.Failure
import ApiDoc.Text.Case

namespace ApiDoc

/-!
# Levels of log records

* `Level` — the levels in the order of their weight;
* `Level.ofName?` — the level of a name, synonyms included;
* `Level.ofSetting` — the level of a setting in any case.
-/

/-- How grave a record is; `unset` stands below all. -/
inductive Level where
  | unset
  | debug
  | info
  | warning
  | error
  | critical
deriving DecidableEq, Repr

namespace Level

/-- The weight of a level. -/
def weight : Level → Nat
  | unset => 0
  | debug => 10
  | info => 20
  | warning => 30
  | error => 40
  | critical => 50

/-- The name of a level. -/
def name : Level → String
  | unset => "NOTSET"
  | debug => "DEBUG"
  | info => "INFO"
  | warning => "WARNING"
  | error => "ERROR"
  | critical => "CRITICAL"

/-- Other names of levels. -/
def synonyms : List (String × Level) := [("WARN", warning), ("FATAL", critical)]

/-- All levels. -/
def all : List Level := [unset, debug, info, warning, error, critical]

/-- The level of a name. -/
def ofName? (s : String) : Option Level :=
  all.find? (·.name == s) <|> synonyms.lookup s

/-- Whether a record of a level passes a threshold. -/
def passes (threshold level : Level) : Bool := threshold.weight ≤ level.weight

/-- What the name of the basic format stands for. -/
def basicFormat : String := "%(levelname)s:%(name)s:%(message)s"

/-- What the name of the styles of formats stands for, as messages show it. -/
def styles : String :=
  "\x7b'%': (<class 'logging.PercentStyle'>, '" ++ basicFormat ++ "'), "
    ++ "'\x7b': (<class 'logging.StrFormatStyle'>, "
    ++ "'\x7blevelname\x7d:\x7bname\x7d:\x7bmessage\x7d'), "
    ++ "'$': (<class 'logging.StringTemplateStyle'>, "
    ++ "'$\x7blevelname\x7d:$\x7bname\x7d:$\x7bmessage\x7d')\x7d"

/-- The level that a setting in upper case names. An unknown name is that of `info`; the name
    of the basic format stands for a text and that of the styles for a table, which are no
    levels. -/
def ofSetting (s : String) : Except Failure Level :=
  if s == "BASIC_FORMAT" then .error (.unknownLevel basicFormat)
  else if s == "_STYLES" then .error (.notLevel styles)
  else .ok ((ofName? s).getD info)

end Level

end ApiDoc
