import Caret.File.Access

/-!
# Workspaces

A file system held in memory, with a current directory.  A place in it is the
list of names on the way down from the root.  Paths are resolved component by
component as systems do it: each component needs a directory to start from, a
dot stays there, two dots go up, and a slash at the end asks for a directory.
-/

namespace Caret

/-- What a file holds: a text, or bytes that may not be one. -/
inductive FileContent where
  | text (s : String)
  | bytes (b : List UInt8)

def FileContent.text? : FileContent → Option String
  | .text s => some s
  | .bytes b => String.fromUTF8? ⟨b.toArray⟩

/-- What stands at a place. -/
inductive FileEntry where
  | directory
  | file (content : FileContent)

/-- Places with what stands there, and the place that paths start from.  The
root is a directory without being listed. -/
structure Workspace where
  entries : List (List String × FileEntry)
  current : List String

namespace Workspace

/-- The directories at the top of every system, and its empty device. -/
def standardEntries : List (List String × FileEntry) :=
  (["dev", "null"], .file (.text "")) ::
    ["bin", "boot", "dev", "etc", "home", "lib", "media", "mnt", "opt", "proc", "root", "run",
      "sbin", "srv", "sys", "tmp", "usr", "var"].map fun name => ([name], .directory)

def entry? (w : Workspace) (place : List String) : Option FileEntry :=
  if place = [] then some .directory else w.entries.lookup place

/-- The longest name of a file, in bytes. -/
def nameLimit : Nat := 255

/-- The longest path, in bytes. -/
def pathLimit : Nat := 4095

/-- The place that one component of a path leads to. -/
def step (w : Workspace) (place : List String) (name : String) :
    Except FileError (List String) :=
  match w.entry? place with
  | some .directory =>
    if name = "." then .ok place
    else if name = ".." then .ok place.dropLast
    else if nameLimit < name.utf8ByteSize then .error .nameTooLong
    else if (w.entry? (place ++ [name])).isSome then .ok (place ++ [name])
    else .error .missing
  | _ => .error .notDirectory

def components (path : String) : List String :=
  let names := (path.splitOn "/").filter (· ≠ "")
  if path.endsWith "/" then names ++ ["."] else names

/-- The place where the components of a path start from. -/
def origin (w : Workspace) (path : String) : List String :=
  if path.startsWith "/" then [] else w.current

/-- What is wrong with a path before any of it is looked up. -/
def pathFault? (path : String) : Option FileError :=
  if '\x00' ∈ path.toList then some .nulInPath
  else if path = "" then some .missing
  else if pathLimit < path.utf8ByteSize then some .nameTooLong
  else none

/-- The place that a path leads to. -/
def resolve (w : Workspace) (path : String) : Except FileError (List String) :=
  match pathFault? path with
  | some e => .error e
  | none => (components path).foldlM w.step (w.origin path)

def read (w : Workspace) (path : String) : Except FileError String := do
  match w.entry? (← w.resolve path) with
  | none => .error .missing
  | some .directory => .error .isDirectory
  | some (.file content) =>
    match content.text? with
    | some text => .ok text
    | none => .error .notUtf8

def put (w : Workspace) (place : List String) (entry : FileEntry) : Workspace :=
  { w with entries := (place, entry) :: w.entries }

/-- Goes on by one component of a path, and makes it a directory if nothing is
there. -/
def stepMaking (state : Workspace × List String) (name : String) :
    Except FileError (Workspace × List String) :=
  let (w, place) := state
  match w.step place name with
  | .ok next => .ok (w, next)
  | .error .missing => .ok (w.put (place ++ [name]) .directory, place ++ [name])
  | .error e => .error e

/-- The workspace with a directory and those above it, if nothing is in their
way.  The empty path means the current directory, which is there. -/
def withDirectory? (w : Workspace) (path : String) : Option Workspace :=
  if path = "" then
    some w
  else
    match pathFault? path with
    | some _ => none
    | none =>
      match (components path ++ ["."]).foldlM stepMaking (w, w.origin path) with
      | .ok (w, _) => some w
      | .error _ => none

/-- The path of a log file in a directory.  Log files are named for the program
and the day. -/
def logFile (directory : String) : String :=
  let name := "cli.2000-01-01"
  if directory = "" || directory.endsWith "/" then directory ++ name
  else directory ++ "/" ++ name

/-- The workspace with a directory for log files, if a file can be opened in
it. -/
def withLog? (w : Workspace) (directory : String) : Option Workspace :=
  match pathFault? (logFile directory) with
  | some _ => none
  | none => w.withDirectory? directory

/-- The workspace with a file in the current directory or below it, and the
directories on the way. -/
def withFile (w : Workspace) (name : String) (content : FileContent) : Workspace :=
  let names := name.splitOn "/"
  match names.dropLast.foldlM stepMaking (w, w.current) with
  | .ok (w, place) => w.put (place ++ names.getLast?.toList) (.file content)
  | .error _ => w

/-- A system with nothing but its standard entries and an empty current
directory. -/
def fresh : Workspace :=
  { entries := (["tmp", "work"], .directory) :: standardEntries
    current := ["tmp", "work"] }

/-- A fresh system with files in the current directory. -/
def ofFiles (files : List (String × FileContent)) : Workspace :=
  files.foldl (fun w (name, content) => w.withFile name content) fresh

/-- Access to the files of a workspace, with the current directory as home. -/
def access : FileAccess (StateM Workspace) where
  read path := do
    return (← get).read path
  openLog directory := do
    match (← get).withLog? directory with
    | some w => set w; return true
    | none => return false
  home := do
    return "/" ++ "/".intercalate (← get).current

end Workspace

end Caret
