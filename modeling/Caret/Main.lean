import Caret.Command.Run
import Caret.Json.Tree

/-!
# The command line

Runs commands on real files.  Ruby is parsed outside of this library, by a
grammar that leaves its trees in a file: an object from source texts to their
listings.  The environment variable `CARET_TREES` names that file.
-/

namespace Caret

/-- The number that the system gives an error.  Some calls report it with its
sign changed. -/
def systemCode? : IO.Error → Option Nat
  | .noFileOrDirectory _ code _ | .inappropriateType _ code _ | .invalidArgument _ code _ =>
    some code.toInt32.toInt.natAbs
  | _ => none

def FileError.ofSystem (e : IO.Error) : FileError :=
  match systemCode? e with
  | some 20 => .notDirectory
  | some 21 => .isDirectory
  | some 22 => .nulInPath
  | some 36 => .nameTooLong
  | _ => .missing

def readTextFile : FileReader BaseIO := fun path => do
  match ← (IO.FS.readBinFile path).toBaseIO with
  | .error e => return .error (.ofSystem e)
  | .ok bytes =>
    match String.fromUTF8? bytes with
    | some text => return .ok text
    | none => return .error .notUtf8

def systemFiles : FileAccess BaseIO where
  read := readTextFile
  openLog directory := do
    match ← (IO.FS.createDirAll directory).toBaseIO with
    | .ok _ => return true
    | .error _ => return directory == ""
  home := do
    return (← IO.getEnv "HOME").getD "."

/-- The grammar that the environment provides.  Without one no text has a
tree. -/
def providedGrammar : BaseIO Grammar := do
  let some path ← IO.getEnv "CARET_TREES" | return fun _ => none
  let .ok text ← readTextFile path | return fun _ => none
  match (Json.parse? text).bind treesOfJson? with
  | some trees => return .ofTrees trees
  | none => return fun _ => none

end Caret

/-- Runs the command line and reports how it ended. -/
def main (args : List String) : IO UInt32 := do
  let grammar ← Caret.providedGrammar
  let outcome ← (Caret.Command.run Caret.systemFiles grammar args : BaseIO _)
  match outcome with
  | .printed text => IO.print text
  | .failed failure => IO.eprintln ("Error: " ++ failure.message)
  | .aborted => IO.eprintln "no place for log files"
  | .misused => IO.eprintln "usage: rubyscope [OPTIONS] COMMAND"
  return outcome.exitCode.toUInt32
