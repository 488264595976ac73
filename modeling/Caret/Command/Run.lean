import Caret.Command.Arguments
import Caret.Command.Report
import Caret.Command.Schema
import Caret.Settings

/-!
# Running commands

A command reads its settings first and makes the directory for log files if
there is to be one.  Then come the runtime samples if it needs them, and the
source.  The first thing that goes wrong decides the answer.  Files and grammar
are parameters, so the same definitions run on real files and on a workspace
held in memory.
-/

namespace Caret.Command

/-- Why a command failed. -/
inductive Failure where
  | failed (e : Error)
  | refused (e : ServiceError)
  | unreadableSource (file : String)
  | unreadableSamples (file : String)
  | noSuchLine (line : Nat)
  | notVisible (name : String) (offset : Nat)
deriving DecidableEq, Repr

def Failure.message : Failure → String
  | .failed e => e.message
  | .refused e => e.message
  | .unreadableSource file => s!"reading {file}"
  | .unreadableSamples file => s!"loading runtime samples from {file}"
  | .noSuchLine line => s!"line {line} is past the end of the file"
  | .notVisible name offset =>
    "no local variable `" ++ name ++ "` is visible at offset " ++ toString offset

/-- How a command line ends.  It is aborted when there is no place for the log
files that it is to write. -/
inductive Outcome where
  | printed (text : String)
  | failed (failure : Failure)
  | misused
  | aborted
deriving DecidableEq, Repr

def Outcome.exitCode : Outcome → Nat
  | .printed _ => 0
  | .failed _ => 1
  | .misused => 2
  | .aborted => 101

/-- The byte offset that a place means in a text. -/
def Place.offsetIn (text : List Char) : Place → Except Failure Nat
  | .endOfText => .ok (Text.byteLength text)
  | .offset n => .ok n
  | .lineColumn p =>
    match Text.offsetAt? text p with
    | some n => .ok n
    | none => .error (.noSuchLine p.line)

def parseSource (grammar : Grammar) (text : String) : Except Failure Source :=
  match Source.parse? grammar text with
  | some source => .ok source
  | none => .error (.failed (.parsing "parser produced no tree"))

/-- The list of local variables at an offset, or of all. -/
def listLocals
    (grammar : Grammar) (source : Source) (offset : Nat) (samples : Samples) (all : Bool) :
    Except Failure (List LocalReport) :=
  let infer (p : LocalPin) := p.assignedType grammar
  if all then
    .ok (source.allLocals samples infer)
  else
    (source.visibleLocals offset samples infer).mapError .failed

/-- The last declared of the visible local variables of a name. -/
def findLocal
    (grammar : Grammar) (source : Source) (offset : Nat) (samples : Samples) (name : String) :
    Except Failure LocalReport :=
  let infer (p : LocalPin) := p.assignedType grammar
  match source.localNamed? offset name samples infer with
  | .ok (some report) => .ok report
  | .ok none => .error (.notVisible name offset)
  | .error e => .error (.failed e)

section Files

variable {m : Type → Type} [Monad m]

def loadSettings (read : FileReader m) : Option String → ExceptT Failure m Settings
  | none => pure {}
  | some path => ExceptT.mk do
    return (← Settings.load read path).mapError .failed

/-- The samples of an invocation: those named by it, or the configured ones. -/
def loadSamples (read : FileReader m) (settings : Settings) :
    Option String → ExceptT Failure m Samples
  | some path => ExceptT.mk do
    return (← Samples.load read path).mapError fun _ => .unreadableSamples path
  | none => ExceptT.mk do
    return (← settings.loadSamples read).mapError .failed

def loadText (read : FileReader m) (file : String) : ExceptT Failure m String :=
  ExceptT.mk do
    return (← read file).mapError fun _ => .unreadableSource file

/-- The source and the offset that a target means. -/
def loadTarget (read : FileReader m) (grammar : Grammar) (target : Target) :
    ExceptT Failure m (Source × Nat) := do
  let text ← loadText read target.file
  let offset ← liftExcept (target.place.offsetIn text.toList)
  let source ← liftExcept (parseSource grammar text)
  return (source, offset)
where
  /-- A result that needs no files. -/
  liftExcept {α : Type} (result : Except Failure α) : ExceptT Failure m α :=
    ExceptT.mk (pure result)

/-- The answer of an action. -/
def perform (read : FileReader m) (grammar : Grammar) (settings : Settings) :
    Action → ExceptT Failure m Json
  | .fragment target => do
    let (source, offset) ← loadTarget read grammar target
    let fragment ← ExceptT.mk (pure ((source.toBuffer.snapshot offset).mapError .refused))
    return fragment.toJson
  | .locals target samples all => do
    let samples ← loadSamples read settings samples
    let (source, offset) ← loadTarget read grammar target
    let reports ← ExceptT.mk (pure (listLocals grammar source offset samples all))
    return .array (reports.map LocalReport.toJson)
  | .type target name samples => do
    let samples ← loadSamples read settings samples
    let (source, offset) ← loadTarget read grammar target
    let report ← ExceptT.mk (pure (findLocal grammar source offset samples name))
    return report.toJson
  | .symbols file => do
    let text ← loadText read file
    let source ← ExceptT.mk (pure (parseSource grammar text))
    return .array (source.symbols.map SymbolReport.toJson)
  | .schema => return Schema.fragment

/-- Opens a log file if there is to be one, and tells whether the command can go
on. -/
def openLog (files : FileAccess m) (settings : Settings) (logToFile : Bool) : m Bool := do
  match settings.logDirectory? logToFile (← files.home) with
  | some directory => files.openLog directory
  | none => return true

/-- The outcome of a command with its answer. -/
def Outcome.ofResult : Except Failure Json → Outcome
  | .ok answer => .printed (answer.pretty ++ "\n")
  | .error failure => .failed failure

def invoke (files : FileAccess m) (grammar : Grammar) (invocation : Invocation) : m Outcome := do
  match ← (loadSettings files.read invocation.config).run with
  | .error failure => return .failed failure
  | .ok settings =>
    if ← openLog files settings invocation.logToFile then
      return .ofResult (← (perform files.read grammar settings invocation.action).run)
    else
      return .aborted

/-- The line that a request for the version gets. -/
def versionLine : String := "rubyscope 0.1.0\n"

def run (files : FileAccess m) (grammar : Grammar) (args : List String) : m Outcome :=
  match parse? args with
  | none => pure .misused
  | some .version => pure (.printed versionLine)
  | some (.invoke invocation) => invoke files grammar invocation

end Files

end Caret.Command
