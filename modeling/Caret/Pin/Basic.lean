import Caret.Construct
import Caret.Text.Position
import Caret.TypeExpr.Basic

/-!
# Pins

A pin records one declaration: a class or module, a method, or a variable of
some kind.  It says what is declared, in which construct and where.  Only local
variables have a presence, the range from which they can be seen.
-/

namespace Caret

/-- Whether a container of definitions is a class or a module. -/
inductive ContainerKind where
  | classDef
  | moduleDef
deriving DecidableEq, Repr

/-- The declaration of a class or module. -/
structure ContainerPin where
  name : String
  closurePath : String
  location : Option Range
  kind : ContainerKind
deriving DecidableEq

/-- The definition of a method, with the names of its parameters. -/
structure MethodPin where
  name : String
  closurePath : String
  location : Option Range
  scope : Scope
  parameters : List String
deriving DecidableEq

/-- What all declarations of variables have: a name, the path of the construct
they belong to, a location, the text assigned, and the type known without
running the program. -/
structure VariablePin where
  name : String
  closurePath : String
  location : Option Range
  assignment : Option String
  staticType : TypeExpr
deriving DecidableEq

/-- The declaration of a local variable and the range it is visible from. -/
structure LocalPin where
  declaration : VariablePin
  presence : Range
deriving DecidableEq

namespace LocalPin

def name (p : LocalPin) : String := p.declaration.name

def closurePath (p : LocalPin) : String := p.declaration.closurePath

def visibleFrom (p : LocalPin) (position : Position) : Bool :=
  p.presence.contains position

end LocalPin

/-- A declaration of any kind. -/
inductive Pin where
  | container (pin : ContainerPin)
  | method (pin : MethodPin)
  | localVariable (pin : LocalPin)
  | instanceVariable (pin : VariablePin)
  | classVariable (pin : VariablePin)
  | globalVariable (pin : VariablePin)
  | constant (pin : VariablePin)
deriving DecidableEq

inductive PinKind where
  | container
  | method
  | localVariable
  | instanceVariable
  | classVariable
  | globalVariable
  | constant
deriving DecidableEq, Repr

def PinKind.word : PinKind → String
  | .container => "namespace"
  | .method => "method"
  | .localVariable => "local_variable"
  | .instanceVariable => "instance_variable"
  | .classVariable => "class_variable"
  | .globalVariable => "global_variable"
  | .constant => "constant"

namespace Pin

def kind : Pin → PinKind
  | .container _ => .container
  | .method _ => .method
  | .localVariable _ => .localVariable
  | .instanceVariable _ => .instanceVariable
  | .classVariable _ => .classVariable
  | .globalVariable _ => .globalVariable
  | .constant _ => .constant

def name : Pin → String
  | .container p => p.name
  | .method p => p.name
  | .localVariable p => p.name
  | .instanceVariable v | .classVariable v | .globalVariable v | .constant v => v.name

def closurePath : Pin → String
  | .container p => p.closurePath
  | .method p => p.closurePath
  | .localVariable p => p.closurePath
  | .instanceVariable v | .classVariable v | .globalVariable v | .constant v => v.closurePath

def location : Pin → Option Range
  | .container p => p.location
  | .method p => p.location
  | .localVariable p => p.declaration.location
  | .instanceVariable v | .classVariable v | .globalVariable v | .constant v => v.location

/-- The path under which a declaration is known: containers are joined to the
one around them by a double colon, methods by a hash sign or, at class level, a
dot, and variables go by their name. -/
def path : Pin → String
  | .container p => if p.closurePath = "" then p.name else p.closurePath ++ "::" ++ p.name
  | .method p =>
    match p.scope with
    | .instanceLevel => p.closurePath ++ "#" ++ p.name
    | .classLevel => p.closurePath ++ "." ++ p.name
  | p => p.name

def localPin? : Pin → Option LocalPin
  | .localVariable p => some p
  | _ => none

/-- A local variable is visible from its presence, all else from everywhere. -/
def visibleFrom (p : Pin) (position : Position) : Bool :=
  match p with
  | .localVariable l => l.visibleFrom position
  | _ => true

end Pin

end Caret
