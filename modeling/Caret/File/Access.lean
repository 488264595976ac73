/-!
# Access to files

What commands ask of a file system.  They run in any monad, so the same
definitions serve real files and files held in memory.
-/

namespace Caret

/-- Why a file could not be read as a text. -/
inductive FileError where
  | missing
  | isDirectory
  | notDirectory
  | nameTooLong
  | nulInPath
  | notUtf8
deriving DecidableEq, Repr

/-- The message of the system about a file. -/
def FileError.message : FileError → String
  | .missing => "No such file or directory (os error 2)"
  | .isDirectory => "Is a directory (os error 21)"
  | .notDirectory => "Not a directory (os error 20)"
  | .nameTooLong => "File name too long (os error 36)"
  | .nulInPath => "file name contained an unexpected NUL byte"
  | .notUtf8 => "stream did not contain valid UTF-8"

/-- A way to read files as texts, in any monad. -/
abbrev FileReader (m : Type → Type) := String → m (Except FileError String)

/-- What commands need of a file system, in any monad. -/
structure FileAccess (m : Type → Type) where
  /-- Reads a file as a text. -/
  read : FileReader m
  /-- Makes a directory for log files, with all those above it that are missing,
  and tells whether a file can be opened in it. -/
  openLog : String → m Bool
  /-- The home directory. -/
  home : m String

end Caret
