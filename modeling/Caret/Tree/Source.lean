import Caret.Buffer.Basic
import Caret.Tree.Outline
import Caret.Tree.Regions

/-!
# Parsed sources

A source with its tree gives a buffer, the pins of everything it defines, and
an inference of types from the text that is assigned.
-/

namespace Caret

/-- A parsed source. -/
structure Source where
  text : List Char
  root : Node

namespace Source

def entries (s : Source) : List OutlineEntry :=
  s.root.outline s.text (s.root.topFrame s.text)

/-- The local variables, in the order of the outline. -/
def localPins (s : Source) : List LocalPin :=
  s.entries.filterMap OutlineEntry.localPin?

/-- Everything else that the source declares, in the order of the outline. -/
def definitions (s : Source) : List Pin :=
  s.entries.filterMap OutlineEntry.definitionPin?

def toBuffer (s : Source) : Buffer where
  text := s.text
  comments := s.root.comments
  strings := s.root.strings
  constructs := s.entries.filterMap OutlineEntry.construct?
  locals := s.localPins.map .localVariable
  literalBefore offset := s.root.literalBefore s.text offset
  tokenStart offset := s.root.tokenStart offset

/-- The source that a grammar makes of a text. -/
def parse? (grammar : Grammar) (text : String) : Option Source :=
  (grammar text).map (⟨text.toList, ·⟩)

end Source

/-- The type that an assigned text gives away when it is a single expression
whose shape does. -/
def Grammar.assignedType? (grammar : Grammar) (assignment : String) : Option String := do
  let root ← grammar assignment
  let expression ← root.soleNamedChild?
  expression.expressionType assignment.toList

/-- The inference that reads the assigned text again, and takes the declared
type where there is none or nothing comes of it. -/
def LocalPin.assignedType (p : LocalPin) (grammar : Grammar) : TypeExpr :=
  match p.declaration.assignment.bind grammar.assignedType? with
  | some type => TypeExpr.ofName type
  | none => p.declaration.staticType

end Caret
