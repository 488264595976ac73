import Caret.Json.Range
import Caret.Json.TypeExpr
import Caret.Pin.Basic

/-!
# Pins as JSON

A pin is an object whose member `pin` names its kind and whose other members
are the fields of a record of that kind.  The kind may come last, so the whole
object has to be readable before any of it is decoded.
-/

namespace Caret

/-- The word for a scope in stored values. -/
def Scope.toJson : Scope → Json
  | .classLevel => .string "class_level"
  | .instanceLevel => .string "instance_level"

def Scope.ofJson? (heldBack : Bool) (j : Json) : Option Scope :=
  match j.variantName? heldBack with
  | some "class_level" => some .classLevel
  | some "instance_level" => some .instanceLevel
  | _ => none

def ContainerKind.toJson : ContainerKind → Json
  | .classDef => .string "class"
  | .moduleDef => .string "module"

def ContainerKind.ofJson? (heldBack : Bool) (j : Json) : Option ContainerKind :=
  match j.variantName? heldBack with
  | some "class" => some .classDef
  | some "module" => some .moduleDef
  | _ => none

/-- The members of the record for a class or module. -/
def ContainerPin.members (p : ContainerPin) : List (String × Json) :=
  [("name", .string p.name), ("closure_path", .string p.closurePath),
    ("location", .ofOption Range.toJson p.location), ("kind", p.kind.toJson)]

def MethodPin.members (p : MethodPin) : List (String × Json) :=
  [("name", .string p.name), ("closure_path", .string p.closurePath),
    ("location", .ofOption Range.toJson p.location), ("scope", p.scope.toJson),
    ("parameters", .ofStrings p.parameters)]

def VariablePin.members (v : VariablePin) : List (String × Json) :=
  [("name", .string v.name), ("closure_path", .string v.closurePath),
    ("location", .ofOption Range.toJson v.location),
    ("assignment", .ofOption .string v.assignment), ("static_type", v.staticType.toJson)]

def LocalPin.members (p : LocalPin) : List (String × Json) :=
  [("variable", .object p.declaration.members), ("presence", p.presence.toJson)]

/-- The members of a pin besides its kind. -/
def Pin.members : Pin → List (String × Json)
  | .container p => p.members
  | .method p => p.members
  | .localVariable p => p.members
  | .instanceVariable v | .classVariable v | .globalVariable v | .constant v => v.members

def Pin.toJson (p : Pin) : Json :=
  .object (("pin", .string p.kind.word) :: p.members)

def ContainerPin.ofJson? (j : Json) : Option ContainerPin := do
  let [name, closurePath, location, kind] ←
    j.fields? ["name", "closure_path", "location", "kind"] | none
  some
    { name := ← (← name).string?
      closurePath := ← (← closurePath).string?
      location := ← Json.optional? Range.ofJson? location
      kind := ← ContainerKind.ofJson? true (← kind) }

def MethodPin.ofJson? (j : Json) : Option MethodPin := do
  let [name, closurePath, location, scope, parameters] ←
    j.fields? ["name", "closure_path", "location", "scope", "parameters"] | none
  some
    { name := ← (← name).string?
      closurePath := ← (← closurePath).string?
      location := ← Json.optional? Range.ofJson? location
      scope := ← Scope.ofJson? true (← scope)
      parameters := ← (← parameters).strings? }

def VariablePin.ofJson? (j : Json) : Option VariablePin := do
  let [name, closurePath, location, assignment, staticType] ←
    j.fields? ["name", "closure_path", "location", "assignment", "static_type"] | none
  some
    { name := ← (← name).string?
      closurePath := ← (← closurePath).string?
      location := ← Json.optional? Range.ofJson? location
      assignment := ← Json.optional? Json.string? assignment
      staticType := ← TypeExpr.ofJson? true (← staticType) }

def LocalPin.ofJson? (j : Json) : Option LocalPin := do
  let [declaration, presence] ← j.fields? ["variable", "presence"] | none
  some
    { declaration := ← VariablePin.ofJson? (← declaration)
      presence := ← Range.ofJson? (← presence) }

/-- The pin of a kind whose fields a record holds. -/
def Pin.ofRecord? (kind : String) (j : Json) : Option Pin :=
  match kind with
  | "namespace" => (ContainerPin.ofJson? j).map .container
  | "method" => (MethodPin.ofJson? j).map .method
  | "local_variable" => (LocalPin.ofJson? j).map .localVariable
  | "instance_variable" => (VariablePin.ofJson? j).map .instanceVariable
  | "class_variable" => (VariablePin.ofJson? j).map .classVariable
  | "global_variable" => (VariablePin.ofJson? j).map .globalVariable
  | "constant" => (VariablePin.ofJson? j).map .constant
  | _ => none

def Pin.ofJson? (j : Json) : Option Pin :=
  match j with
  | .object members =>
    if j.isReadable then do
      let kind ← (← Json.field? "pin" members).bind Json.string?
      Pin.ofRecord? kind (.object (members.filter (·.1 != "pin")))
    else
      none
  | _ => none

end Caret
