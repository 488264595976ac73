import Caret.Json.Fragment
import Caret.Pin.Typing
import Caret.Tree.Source
import Caret.TypeExpr.Printer

/-!
# Reports on a source

What the commands list: local variables with their types, and the definitions
of a file.
-/

namespace Caret

/-- A local variable and its type. -/
structure LocalReport where
  name : String
  closurePath : String
  assignment : Option String
  presence : Range
  effectiveType : String
deriving DecidableEq, Repr

/-- A definition and the path under which it is known. -/
structure SymbolReport where
  kind : PinKind
  path : String
  closurePath : String
  location : Option Range
deriving DecidableEq, Repr

def LocalReport.toJson (r : LocalReport) : Json :=
  .object
    [("name", .string r.name), ("closure_path", .string r.closurePath),
      ("assignment", .ofOption .string r.assignment), ("presence", r.presence.toJson),
      ("effective_type", .string r.effectiveType)]

def SymbolReport.toJson (r : SymbolReport) : Json :=
  .object
    [("kind", .string r.kind.word), ("path", .string r.path),
      ("closure_path", .string r.closurePath), ("location", .ofOption Range.toJson r.location)]

def LocalPin.report (p : LocalPin) (samples : Samples) (infer : LocalPin → TypeExpr) :
    LocalReport where
  name := p.name
  closurePath := p.closurePath
  assignment := p.declaration.assignment
  presence := p.presence
  effectiveType := (p.effectiveType samples infer).text

def Pin.symbolReport (p : Pin) : SymbolReport :=
  ⟨p.kind, p.path, p.closurePath, p.location⟩

namespace Source

def allLocals (s : Source) (samples : Samples) (infer : LocalPin → TypeExpr) :
    List LocalReport :=
  s.localPins.map fun p => p.report samples infer

def visibleLocals
    (s : Source) (offset : Nat) (samples : Samples) (infer : LocalPin → TypeExpr) :
    Except Error (List LocalReport) :=
  (s.toBuffer.cursor offset).map fun _ =>
    ((s.toBuffer.visibleLocals offset).filterMap Pin.localPin?).map fun p =>
      p.report samples infer

/-- The report on the visible local variable of a name that was declared
last. -/
def localNamed?
    (s : Source) (offset : Nat) (name : String) (samples : Samples)
    (infer : LocalPin → TypeExpr) : Except Error (Option LocalReport) :=
  (s.visibleLocals offset samples infer).map fun reports =>
    reports.reverse.find? (·.name == name)

def symbols (s : Source) : List SymbolReport :=
  s.definitions.map Pin.symbolReport

end Source

end Caret
