import Caret.Json.Decode
import Caret.TypeExpr.Basic

/-!
# Type expressions as JSON

Types and parameters are variants, alternatives are records.  Decoding follows
the value: each member of an object is decoded where it stands.
-/

namespace Caret.TypeExpr

mutual

def toJson : TypeExpr → Json
  | .undefined => .string "Undefined"
  | .union items => .object [("Union", .array (itemsToJson items))]

def Alternative.toJson : Alternative → Json
  | .mk name parameters => .object [("name", .string name), ("parameters", parameters.toJson)]

def Parameters.toJson : Parameters → Json
  | .plain => .string "None"
  | .list element => .object [("List", element.toJson)]
  | .hash key value => .object [("Hash", .array [key.toJson, value.toJson])]

def itemsToJson : List Alternative → List Json
  | [] => []
  | a :: rest => a.toJson :: itemsToJson rest

end

/-- The two fields of an alternative, as far as they have been met. -/
structure Slots where
  name : Option String := none
  parameters : Option Parameters := none

/-- Fills the slot for the name, which may be met only once. -/
def Slots.withName (s : Slots) (name : Option String) : Option Slots :=
  match s.name, name with
  | none, some name => some { s with name := some name }
  | _, _ => none

/-- Fills the slot for the parameters, which may be met only once. -/
def Slots.withParameters (s : Slots) (parameters : Option Parameters) : Option Slots :=
  match s.parameters, parameters with
  | none, some parameters => some { s with parameters := some parameters }
  | _, _ => none

/-- The alternative, if both of its fields were met. -/
def Slots.alternative? (s : Slots) : Option Alternative :=
  match s.name, s.parameters with
  | some name, some parameters => some (.mk name parameters)
  | _, _ => none

/-- Whether a value is what a variant without content has as its content. -/
def isNoContent (heldBack : Bool) : Json → Bool
  | .null => true
  | .object [] => heldBack
  | _ => false

mutual

def ofJson? (heldBack : Bool) (j : Json) : Option TypeExpr :=
  match j with
  | .string name => if name = "Undefined" then some .undefined else none
  | .object [(name, content)] =>
    if name = "Undefined" then
      if isNoContent heldBack content then some .undefined else none
    else if name = "Union" then
      match content with
      | .array items => (itemsOfJson? heldBack items).map .union
      | _ => none
    else
      none
  | _ => none
termination_by structural j

def Alternative.ofJson? (heldBack : Bool) (j : Json) : Option Alternative :=
  match j with
  | .object members => (slotsOfJson? heldBack members).bind Slots.alternative?
  | .array [name, parameters] =>
    match name.string?, Parameters.ofJson? heldBack parameters with
    | some name, some parameters => some (.mk name parameters)
    | _, _ => none
  | _ => none
termination_by structural j

def Parameters.ofJson? (heldBack : Bool) (j : Json) : Option Parameters :=
  match j with
  | .string name => if name = "None" then some .plain else none
  | .object [(name, content)] =>
    if name = "None" then
      if isNoContent heldBack content then some .plain else none
    else if name = "List" then
      (TypeExpr.ofJson? heldBack content).map .list
    else if name = "Hash" then
      match content with
      | .array [key, value] =>
        match TypeExpr.ofJson? heldBack key, TypeExpr.ofJson? heldBack value with
        | some key, some value => some (.hash key value)
        | _, _ => none
      | _ => none
    else
      none
  | _ => none
termination_by structural j

def itemsOfJson? (heldBack : Bool) (items : List Json) : Option (List Alternative) :=
  match items with
  | [] => some []
  | j :: rest =>
    match Alternative.ofJson? heldBack j, itemsOfJson? heldBack rest with
    | some a, some as => some (a :: as)
    | _, _ => none
termination_by structural items

/-- The slots that members fill.  Members of other names are ignored. -/
def slotsOfJson? (heldBack : Bool) (members : List (String × Json)) : Option Slots :=
  match members with
  | [] => some {}
  | (key, j) :: rest =>
    match slotsOfJson? heldBack rest with
    | none => none
    | some slots =>
      if key = "name" then slots.withName j.string?
      else if key = "parameters" then slots.withParameters (Parameters.ofJson? heldBack j)
      else some slots
termination_by structural members

end

end Caret.TypeExpr
