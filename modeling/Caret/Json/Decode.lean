import Caret.Json.Basic

/-!
# Decoding JSON values

The rules by which records and variants are read back.  A record is an object
with its fields, in any order and among others, or an array of all its fields
in their order.  A variant goes by its name, either as a plain string or as the
only key of an object.
-/

namespace Caret.Json

def string? : Json → Option String
  | .string s => some s
  | _ => none

def count? : Json → Option Nat
  | .count n => some n
  | _ => none

def bool? : Json → Option Bool
  | .bool b => some b
  | _ => none

def list? {α : Type} (decode : Json → Option α) : Json → Option (List α)
  | .array items => items.mapM decode
  | _ => none

def strings? : Json → Option (List String) :=
  list? string?

/-- The only value of a key among the members of an object: an error if the key
is repeated, and possibly absent. -/
def field? (key : String) (members : List (String × Json)) : Option (Option Json) :=
  match members.filter (·.1 == key) with
  | [] => some none
  | [(_, j)] => some (some j)
  | _ => none

/-- The values of a record, one for each name, where absent ones are `none`. -/
def fields? (names : List String) : Json → Option (List (Option Json))
  | .object members => names.mapM fun name => field? name members
  | .array items => if items.length = names.length then some (items.map some) else none
  | _ => none

/-- The values of a record whose fields have defaults, so that an array may
stop early. -/
def fieldsOrDefaults? (names : List String) : Json → Option (List (Option Json))
  | .object members => names.mapM fun name => field? name members
  | .array items =>
    if items.length ≤ names.length then
      some (items.map some ++ List.replicate (names.length - items.length) none)
    else
      none
  | _ => none

/-- A field that may be absent or `null`. -/
def optional? {α : Type} (decode : Json → Option α) : Option Json → Option (Option α)
  | none => some none
  | some .null => some none
  | some j => (decode j).map some

/-- A field that takes a default when it is absent, but may not be `null`. -/
def default? {α : Type} (decode : Json → Option α) (value : α) : Option Json → Option α
  | none => some value
  | some j => decode j

/-- The name of a variant without content.  Inside a pin, which is held back
until its kind is known, an empty object counts as no content. -/
def variantName? (heldBack : Bool) : Json → Option String
  | .string s => some s
  | .object [(s, .null)] => some s
  | .object [(s, .object [])] => if heldBack then some s else none
  | _ => none

end Caret.Json
