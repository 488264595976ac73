import Caret.Text.Position

/-!
# Command line arguments

The arguments are read in two levels: options that hold for every command, the
name of a command, and then the options and operands of that command, among
which the options of the first level may stand again.  Reading fails on
anything out of place; no argument is ignored.
-/

namespace Caret.Command

/-- The options that a level of the command line knows: those that take a value
and those that do not. -/
structure Options where
  valued : List String
  flags : List String

/-- What was read on one level. -/
structure Parsed where
  values : List (String × String) := []
  flags : List String := []
  operands : List String := []
deriving DecidableEq, Repr

namespace Parsed

/-- Adds an option with its value.  An option may be given once. -/
def withValue? (p : Parsed) (option value : String) : Option Parsed :=
  match p.values.lookup option with
  | some _ => none
  | none => some { p with values := p.values ++ [(option, value)] }

/-- Adds an option without a value.  An option may be given once. -/
def withFlag? (p : Parsed) (option : String) : Option Parsed :=
  if option ∈ p.flags then none else some { p with flags := p.flags ++ [option] }

def withOperands (p : Parsed) (operands : List String) : Parsed :=
  { p with operands := p.operands ++ operands }

end Parsed

/-- The name of an option and the value attached to it by an equals sign. -/
def splitAttached (arg : String) : String × Option String :=
  let cs := arg.toList
  match cs.dropWhile (· ≠ '=') with
  | [] => (arg, none)
  | _ :: value => (String.ofList (cs.takeWhile (· ≠ '=')), some (String.ofList value))

/-- Whether an argument has the form of an option.  A lone hyphen has not. -/
def looksLikeOption (arg : String) : Bool :=
  match arg.toList with
  | ['-'] => false
  | '-' :: _ => true
  | _ => false

def Options.knows (o : Options) (name : String) : Bool :=
  name ∈ o.valued || name ∈ o.flags

/-- Reads an option that stands alone in its argument: a flag, or an option
with its value attached. -/
def readOption? (o : Options) (p : Parsed) (name : String) (attached : Option String) :
    Option Parsed :=
  match attached with
  | some value => if name ∈ o.valued then p.withValue? name value else none
  | none => if name ∈ o.flags then p.withFlag? name else none

/-- Whether an argument is an option whose value is the next argument. -/
def takesNext (o : Options) (arg : String) : Bool :=
  let (name, attached) := splitAttached arg
  attached.isNone && name ∈ o.valued

/-- Reads the options and operands of a command.  Behind a double hyphen
everything is an operand. -/
def readOperands? (o : Options) (p : Parsed) : List String → Option Parsed
  | [] => some p
  | [arg] =>
    if arg = "--" then some p
    else if looksLikeOption arg then
      let (name, attached) := splitAttached arg
      readOption? o p name attached
    else some (p.withOperands [arg])
  | arg :: next :: rest =>
    if arg = "--" then some (p.withOperands (next :: rest))
    else if takesNext o arg then
      if looksLikeOption next then none
      else (p.withValue? arg next).bind fun p => readOperands? o p rest
    else if looksLikeOption arg then
      let (name, attached) := splitAttached arg
      (readOption? o p name attached).bind fun p => readOperands? o p (next :: rest)
    else readOperands? o (p.withOperands [arg]) (next :: rest)

/-- What the first level ends in: a request for the version, or the name of a
command with the arguments behind it. -/
inductive Opening where
  | version
  | command (p : Parsed) (name : String) (rest : List String)

def globalOptions : Options := ⟨["--config"], ["--log-to-file"]⟩

def asksForVersion (arg : String) : Bool :=
  arg == "--version" || "-V".toList.isPrefixOf arg.toList

def readOpening? (p : Parsed) : List String → Option Opening
  | [] => none
  | [arg] =>
    if asksForVersion arg then some .version
    else if looksLikeOption arg then none
    else some (.command p arg [])
  | arg :: next :: rest =>
    if asksForVersion arg then some .version
    else if takesNext globalOptions arg then
      if looksLikeOption next || next = "" then none
      else (p.withValue? arg next).bind fun p => readOpening? p rest
    else if looksLikeOption arg then
      let (name, attached) := splitAttached arg
      if attached = some "" then none
      else
        (readOption? globalOptions p name attached).bind fun p => readOpening? p (next :: rest)
    else some (.command p arg (next :: rest))

/-- A count as an argument: decimal digits, possibly behind a plus sign, with a
value that fits in 64 bits. -/
def count? (arg : String) : Option Nat :=
  let digits :=
    match arg.toList with
    | '+' :: cs => cs
    | cs => cs
  if digits = [] ∨ ¬ digits.all Char.isDigit then none
  else
    let n := Nat.ofDigitChars 10 digits 0
    if n < Nat.pow 2 64 then some n else none

/-- The place of a cursor as the arguments give it. -/
inductive Place where
  | endOfText
  | offset (n : Nat)
  | lineColumn (p : Position)
deriving DecidableEq, Repr

/-- A file and a cursor in it. -/
structure Target where
  file : String
  place : Place
deriving DecidableEq, Repr

/-- What to do. -/
inductive Action where
  /-- Tell everything about a cursor. -/
  | fragment (target : Target)
  /-- List local variables with their types, all of them or those visible. -/
  | locals (target : Target) (samples : Option String) (all : Bool)
  /-- Tell the type of one visible local variable. -/
  | type (target : Target) (name : String) (samples : Option String)
  /-- List what a file defines. -/
  | symbols (file : String)
  /-- Describe the answers of `fragment`. -/
  | schema
deriving DecidableEq, Repr

/-- An action with the options that hold for every command. -/
structure Invocation where
  config : Option String
  logToFile : Bool
  action : Action
deriving DecidableEq, Repr

/-- What a command line asks for. -/
inductive Request where
  | version
  | invoke (invocation : Invocation)
deriving DecidableEq, Repr

/-- A path, which may not be empty. -/
def path? (arg : String) : Option String :=
  if arg = "" then none else some arg

/-- The value of an option, decoded if it was given. -/
def Parsed.value? {α : Type} (p : Parsed) (option : String) (decode : String → Option α) :
    Option (Option α) :=
  match p.values.lookup option with
  | none => some none
  | some arg => (decode arg).map some

/-- The place of a cursor.  An offset excludes a line and a column, and those
two go together. -/
def place? (p : Parsed) : Option Place := do
  let offset ← p.value? "--offset" count?
  let line ← p.value? "--line" count?
  let col ← p.value? "--col" count?
  match offset, line, col with
  | none, none, none => some .endOfText
  | some n, none, none => some (.offset n)
  | none, some l, some c => some (.lineColumn ⟨l, c⟩)
  | _, _, _ => none

def optionsOf (command : String) : Option Options :=
  let cursor := ["--config", "--offset", "--line", "--col"]
  match command with
  | "fragment" => some ⟨cursor, ["--log-to-file"]⟩
  | "locals" => some ⟨cursor ++ ["--samples"], ["--log-to-file", "--all"]⟩
  | "type" => some ⟨cursor ++ ["--samples"], ["--log-to-file"]⟩
  | "symbols" => some ⟨["--config"], ["--log-to-file"]⟩
  | "schema" => some ⟨["--config"], ["--log-to-file"]⟩
  | _ => none

def action? (command : String) (p : Parsed) : Option Action := do
  let place ← place? p
  let samples ← p.value? "--samples" path?
  match command, p.operands with
  | "fragment", [file] => some (.fragment ⟨← path? file, place⟩)
  | "locals", [file] => some (.locals ⟨← path? file, place⟩ samples ("--all" ∈ p.flags))
  | "type", [file, name] => some (.type ⟨← path? file, place⟩ name samples)
  | "symbols", [file] => some (.symbols (← path? file))
  | "schema", [] => some .schema
  | _, _ => none

/-- What the arguments ask for.  An option of the first level counts as given
behind the command if it stands on both levels. -/
def parse? (args : List String) : Option Request := do
  match ← readOpening? {} args with
  | .version => some .version
  | .command first name rest =>
    let options ← optionsOf name
    let second ← readOperands? options {} rest
    let before ← first.value? "--config" path?
    let behind ← second.value? "--config" path?
    some <| .invoke
      { config := behind.or before
        logToFile := "--log-to-file" ∈ first.flags || "--log-to-file" ∈ second.flags
        action := ← action? name second }

end Caret.Command
