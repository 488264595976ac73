import Caret.Construct
import Caret.Pin.Basic
import Caret.Text.Offset

/-!
# Buffers

What the cursor analyses know of one state of a file: its text, where comments
and strings lie, the constructs and local variables in it, and two questions
that depend on how the file was read.
-/

namespace Caret

/-- One state of a file. -/
structure Buffer where
  text : List Char
  /-- The comments. -/
  comments : SpanSet
  /-- The string literals, without the code interpolated into them. -/
  strings : SpanSet
  /-- The classes, modules and methods with the spans they take. -/
  constructs : List (Span × Construct)
  /-- The declarations of local variables, in the order in which the source lists
  them. -/
  locals : List Pin
  /-- The type of the literal that ends right before an offset, white space
  between them left aside. -/
  literalBefore : Nat → Option String
  /-- Where the token at an offset begins. -/
  tokenStart : Nat → Nat

namespace Buffer

/-- The length of the text in bytes. -/
def length (b : Buffer) : Nat :=
  Text.byteLength b.text

def constructAt (b : Buffer) (offset : Nat) : Construct :=
  Construct.innermost b.constructs offset

def positionAt (b : Buffer) (offset : Nat) : Position :=
  Text.positionAt b.text offset

/-- The local variables of the construct around a cursor whose presence covers
the token there. -/
def visibleLocals (b : Buffer) (offset : Nat) : List Pin :=
  let here := b.positionAt (b.tokenStart offset)
  b.locals.filter fun pin =>
    pin.closurePath == (b.constructAt offset).closurePath && pin.visibleFrom here

end Buffer

end Caret
