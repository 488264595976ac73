import Caret.Json.Basic

/-!
# Writing JSON

Two layouts: the compact one without any blanks, with members in their order,
and the indented one, with members sorted by key.  Strings are written raw
except for quotes, backslashes and the characters below the blank.
-/

namespace Caret.Json

def hexDigit (n : Nat) : Char :=
  if n < 10 then Char.ofNat ('0'.toNat + n) else Char.ofNat ('a'.toNat + (n - 10))

/-- A character as it stands inside a quoted string. -/
def escapeChar (c : Char) : List Char :=
  if c = '"' then ['\\', '"']
  else if c = '\\' then ['\\', '\\']
  else if c = '\n' then ['\\', 'n']
  else if c = '\r' then ['\\', 'r']
  else if c = '\t' then ['\\', 't']
  else if c.toNat = 0x08 then ['\\', 'b']
  else if c.toNat = 0x0C then ['\\', 'f']
  else if c.toNat < 0x20 then
    ['\\', 'u', '0', '0', hexDigit (c.toNat / 16), hexDigit (c.toNat % 16)]
  else [c]

def quote (s : String) : List Char :=
  '"' :: s.toList.flatMap escapeChar ++ ['"']

/-- A value without inner structure.  What is not a value of its own is written
as `null`. -/
def renderScalar : Json → List Char
  | .bool true => "true".toList
  | .bool false => "false".toList
  | .count n => (toString n).toList
  | .string s => quote s
  | _ => "null".toList

mutual

/-- The compact layout. -/
def render (j : Json) : List Char :=
  match j with
  | .array items => '[' :: renderItems items ++ [']']
  | .object members => '\x7b' :: renderMembers members ++ ['\x7d']
  | j => renderScalar j
termination_by structural j

def renderItems (items : List Json) : List Char :=
  match items with
  | [] => []
  | [j] => j.render
  | j :: k :: rest => j.render ++ ',' :: renderItems (k :: rest)
termination_by structural items

def renderMembers (members : List (String × Json)) : List Char :=
  match members with
  | [] => []
  | [(key, j)] => quote key ++ ':' :: j.render
  | (key, j) :: m :: rest => quote key ++ ':' :: j.render ++ ',' :: renderMembers (m :: rest)
termination_by structural members

end

def compact (j : Json) : String :=
  String.ofList j.render

mutual

/-- The value with the members of every object sorted by key. -/
def sorted (j : Json) : Json :=
  match j with
  | .array items => .array (sortedItems items)
  | .object members => .object ((sortedMembers members).mergeSort fun m n => !(n.1 < m.1))
  | j => j
termination_by structural j

def sortedItems (items : List Json) : List Json :=
  match items with
  | [] => []
  | j :: rest => j.sorted :: sortedItems rest
termination_by structural items

def sortedMembers (members : List (String × Json)) : List (String × Json) :=
  match members with
  | [] => []
  | (key, j) :: rest => (key, j.sorted) :: sortedMembers rest
termination_by structural members

end

/-- A line break and the blanks that begin a line on a level. -/
def newLine (level : Nat) : List Char :=
  '\n' :: List.replicate (2 * level) ' '

mutual

/-- The indented layout of a value that stands on a level. -/
def renderAt (level : Nat) (j : Json) : List Char :=
  match j with
  | .array [] => ['[', ']']
  | .array (i :: items) => '[' :: renderItemsAt (level + 1) (i :: items) ++ newLine level ++ [']']
  | .object [] => ['\x7b', '\x7d']
  | .object (m :: members) =>
    '\x7b' :: renderMembersAt (level + 1) (m :: members) ++ newLine level ++ ['\x7d']
  | j => renderScalar j
termination_by structural j

def renderItemsAt (level : Nat) (items : List Json) : List Char :=
  match items with
  | [] => []
  | [j] => newLine level ++ j.renderAt level
  | j :: k :: rest => newLine level ++ j.renderAt level ++ ',' :: renderItemsAt level (k :: rest)
termination_by structural items

def renderMembersAt (level : Nat) (members : List (String × Json)) : List Char :=
  match members with
  | [] => []
  | [(key, j)] => newLine level ++ quote key ++ ':' :: ' ' :: j.renderAt level
  | (key, j) :: m :: rest =>
    newLine level ++ quote key ++ ':' :: ' ' :: j.renderAt level ++
      ',' :: renderMembersAt level (m :: rest)
termination_by structural members

end

/-- The indented layout with sorted members as a text. -/
def pretty (j : Json) : String :=
  String.ofList (j.sorted.renderAt 0)

end Caret.Json
