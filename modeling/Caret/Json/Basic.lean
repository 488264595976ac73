/-!
# JSON values

Values as the library stores and exchanges them.  All numbers it deals in are
counts, so any other number is only remembered as a number.

A value can be well formed and still say nothing that could be kept: a string
may name half of a surrogate pair, a number may lie past every float, or a
container may be nested too deep.  Such a value is `unreadable`; it can be
skipped but not read.
-/

namespace Caret

/-- A JSON value.  Objects keep their members in order, repeated keys too. -/
inductive Json where
  | null
  | bool (b : Bool)
  | count (n : Nat)
  | otherNumber
  | string (s : String)
  | array (items : List Json)
  | object (members : List (String × Json))
  | unreadable

namespace Json

instance : Inhabited Json := ⟨.null⟩

mutual

/-- Whether nothing in a value is unreadable. -/
def isReadable : Json → Bool
  | .unreadable => false
  | .array items => allReadable items
  | .object members => allMembersReadable members
  | _ => true

def allReadable : List Json → Bool
  | [] => true
  | j :: rest => j.isReadable && allReadable rest

def allMembersReadable : List (String × Json) → Bool
  | [] => true
  | (_, j) :: rest => j.isReadable && allMembersReadable rest

end

mutual

/-- The number of containers inside one another, the value itself included. -/
def depth : Json → Nat
  | .array items => depthOfItems items + 1
  | .object members => depthOfMembers members + 1
  | _ => 0

def depthOfItems : List Json → Nat
  | [] => 0
  | j :: rest => max j.depth (depthOfItems rest)

def depthOfMembers : List (String × Json) → Nat
  | [] => 0
  | (_, j) :: rest => max j.depth (depthOfMembers rest)

end

def ofStrings (ss : List String) : Json :=
  .array (ss.map .string)

/-- A value that may be absent; `null` stands for absence. -/
def ofOption {α : Type} (encode : α → Json) : Option α → Json
  | none => .null
  | some a => encode a

end Json

end Caret
