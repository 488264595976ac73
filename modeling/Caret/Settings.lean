import Caret.Error
import Caret.File.Access
import Caret.Json.Samples

/-!
# Settings

What a host can configure: where diagnostics go, and the file with the runtime
samples.  Everything has a default.  Paths are texts here, so a path that is not
UTF-8 is not among the settings.

A file that is read but does not hold what it should is refused with a fixed
text in the error.  It stands for the message of the JSON reader, which is not
modelled.
-/

namespace Caret

/-- Where diagnostics go. -/
structure LogSettings where
  level : String := "info"
  toStderr : Bool := true
  /-- The directory for log files, if its path is UTF-8. -/
  directory : Option String := none
deriving DecidableEq, Repr, Inhabited

/-- The settings of a host. -/
structure Settings where
  log : LogSettings := {}
  /-- The file with the samples, if its path is UTF-8. -/
  runtimeSamples : Option String := none
deriving DecidableEq, Repr, Inhabited

def LogSettings.toJson (l : LogSettings) : Json :=
  .object
    [("level", .string l.level), ("to_stderr", .bool l.toStderr),
      ("log_dir", .ofOption .string l.directory)]

def Settings.toJson (s : Settings) : Json :=
  .object
    [("log", s.log.toJson), ("runtime_samples", .ofOption .string s.runtimeSamples)]

def LogSettings.ofJson? (j : Json) : Option LogSettings := do
  let [level, toStderr, directory] ←
    j.fieldsOrDefaults? ["level", "to_stderr", "log_dir"] | none
  let defaults : LogSettings := {}
  some
    { level := ← Json.default? Json.string? defaults.level level
      toStderr := ← Json.default? Json.bool? defaults.toStderr toStderr
      directory := ← Json.optional? Json.string? directory }

def Settings.ofJson? (j : Json) : Option Settings := do
  let [log, runtimeSamples] ← j.fieldsOrDefaults? ["log", "runtime_samples"] | none
  some
    { log := ← Json.default? LogSettings.ofJson? {} log
      runtimeSamples := ← Json.optional? Json.string? runtimeSamples }

/-- The directory that log files go to: the configured one, or one below the
home directory if the caller asks for files. -/
def Settings.logDirectory? (s : Settings) (logToFile : Bool) (home : String) : Option String :=
  s.log.directory.or (if logToFile then some (home ++ "/.rubyscope/logs") else none)

/-- The settings in a file.  What the reader objects to is not told in detail. -/
def Settings.load {m : Type → Type} [Monad m] (read : FileReader m) (path : String) :
    m (Except Error Settings) := do
  match ← read path with
  | .error e => pure (.error (.io e.message))
  | .ok text =>
    match (Json.parse? text).bind Settings.ofJson? with
    | some settings => pure (.ok settings)
    | none => pure (.error (.config s!"{path}: not a configuration"))

/-- The table of samples in a file.  Here too no detail is told of what the reader
objects to. -/
def Samples.load {m : Type → Type} [Monad m] (read : FileReader m) (path : String) :
    m (Except Error Samples) := do
  match ← read path with
  | .error e => pure (.error (.io e.message))
  | .ok text =>
    match Samples.parse? text with
    | some samples => pure (.ok samples)
    | none => pure (.error (.json "not a table of samples"))

/-- The configured table of samples, or an empty one if none is configured. -/
def Settings.loadSamples {m : Type → Type} [Monad m] (read : FileReader m) (s : Settings) :
    m (Except Error Samples) :=
  match s.runtimeSamples with
  | some path => Samples.load read path
  | none => pure (.ok Samples.empty)

end Caret
