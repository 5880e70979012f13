import ApiDoc.Config
import ApiDoc.Log.Level
import ApiDoc.Text.Lines

namespace ApiDoc

/-!
# Log sessions

Records of the library go to the file of the current session and, on demand, to the console.

* `LogRecord`, `LogRecord.fileLine`, `LogRecord.consoleLine` — a record and its text;
* `LogSession` — where records go;
* `Log` — the current session, and what has been written;
* `Log.setup` — a new session in place of the current one;
* `Log.write` — a record written to all places that take it.

The time of a record, the name of a session and the line of code that a record comes from are
given as texts.
-/

/-- A record. -/
structure LogRecord where
  logger : String
  level : Level
  message : String
  line : String := ""
deriving Repr

/-- A session: its file, the level that it takes, and whether it writes to the console. -/
structure LogSession where
  name : String
  directory : String
  file : String
  level : Level
  console : Bool
deriving Repr

/-- The state of logging. The threshold is that of the loggers of the library. -/
structure Log where
  threshold : Level := .unset
  session? : Option LogSession := none
  name? : Option String := none
  path? : Option String := none
  fileLines : List String := []
  consoleLines : List String := []
deriving Repr

/-! ### Texts -/

/-- The logger of the library, above all its loggers. -/
def libraryLogger : String := "apidescriber"

/-- Whether a logger is one of the library. -/
def isLibraryLogger (logger : String) : Bool :=
  logger == libraryLogger || logger.startsWith (libraryLogger ++ ".")

/-- The name of the file of a session. -/
def logFileName (stamp session : String) : String :=
  "apidescriber_" ++ stamp ++ "_" ++ session ++ ".log"

namespace LogRecord

/-- The name of a level, filled up to the width of its column. -/
def levelColumn (l : Level) : String := String.ofList (l.name.toList.rightpad 8 ' ')

/-- The text of a record from a given source. -/
def lineFrom (source stamp session : String) (r : LogRecord) : String :=
  " | ".intercalate [stamp, levelColumn r.level, session, source, r.message]

/-- The text of a record on the console. -/
def consoleLine (stamp session : String) (r : LogRecord) : String :=
  r.lineFrom r.logger stamp session

/-- The text of a record in a file. -/
def fileLine (stamp session : String) (r : LogRecord) : String :=
  r.lineFrom (r.logger ++ ":" ++ r.line) stamp session

end LogRecord

namespace Log

/-- The name of the current session as records show it. -/
def sessionName (l : Log) : String := l.name?.getD "N/A"

/-! ### Writing -/

/-- The level that a record of a logger has to reach. -/
def required (l : Log) (logger : String) : Level :=
  if isLibraryLogger logger && l.threshold != .unset then l.threshold else .warning

/-- The lines of a text that is written with a line end after it. -/
def writtenLines (text : String) : List String := Text.lines (text ++ "\n")

/-- A text added to the file. -/
def addFile (text : String) (l : Log) : Log :=
  { l with fileLines := l.fileLines ++ writtenLines text }

/-- A text added to the console. -/
def addConsole (text : String) (l : Log) : Log :=
  { l with consoleLines := l.consoleLines ++ writtenLines text }

/-- A record taken by a session. -/
def writeTo (s : LogSession) (stamp : String) (r : LogRecord) (l : Log) : Log :=
  if Level.passes s.level r.level then
    let l := l.addFile (r.fileLine stamp l.sessionName)
    if s.console then l.addConsole (r.consoleLine stamp l.sessionName) else l
  else l

/-- A record without a session: warnings and graver records show their message. -/
def writeBare (r : LogRecord) (l : Log) : Log :=
  if Level.passes .warning r.level then l.addConsole r.message else l

/-- A record written. -/
def write (stamp : String) (r : LogRecord) (l : Log) : Log :=
  if Level.passes (l.required r.logger) r.level then
    match l.session? with
    | some s => if isLibraryLogger r.logger then writeTo s stamp r l else writeBare r l
    | none => writeBare r l
  else l

/-! ### Sessions -/

/-- What is asked of a new session. -/
structure Setup where
  level? : Option String := none
  directory? : Option String := none
  console : Bool := false
  quiet : Bool := false
deriving Repr

/-- The name of the level of a new session. -/
def Setup.levelName (s : Setup) (c : Config) : String :=
  let level := s.level?.getD ""
  Text.upper (if level.isEmpty then c.logLevel else level)

/-- The record about a new session. -/
def openingRecord (s : LogSession) (levelName line : String) : LogRecord where
  logger := libraryLogger
  level := .info
  message := "Logging session " ++ s.name ++ " started (level " ++ levelName ++ ", file "
    ++ Text.childPath s.directory s.file ++ ")"
  line := line

/-- A new session. Where its level is refused, it is current all the same, but nothing takes
    records any more. -/
def setup (ambient : Ambient) (s : Setup) (stamp name line : String) :
    EStateM Failure Log LogSession := do
  let c ← match ambient with
    | .ok c => pure c
    | .error e => throw e
  let directory := s.directory?.getD c.logDir
  let file := logFileName stamp name
  modify fun l =>
    { l with session? := none, name? := some name, path? := some (Text.childPath directory file) }
  let level ← match Level.ofSetting (s.levelName c) with
    | .ok level => pure level
    | .error e => throw e
  let session : LogSession := ⟨name, directory, file, level, s.console && !s.quiet⟩
  modify fun l => { l with threshold := level, session? := some session, fileLines := [] }
  modify (write stamp (openingRecord session (s.levelName c) line))
  return session

end Log

end ApiDoc
