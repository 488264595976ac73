import Caret.Buffer.Basic
import Caret.Text.Blank

/-!
# Sketched buffers

A buffer described by hand, for a host that has no syntax tree: the caller
says where comments, strings, constructs and literals lie.
-/

namespace Caret

/-- The hand-made description of a buffer. -/
structure Sketch where
  text : List Char
  comments : List Span := []
  strings : List Span := []
  constructs : List (Span × Construct) := []
  /-- Offsets at which a literal ends, with its type. -/
  literals : List (Nat × String) := []
  locals : List Pin := []

namespace Sketch

/-- The type of the first literal said to end where the text before an offset
ends, white space left aside.  An offset that is not valid stands for the end
of the text. -/
def literalBefore (s : Sketch) (offset : Nat) : Option String :=
  let before :=
    match Text.splitAt? s.text offset with
    | some (before, _) => before
    | none => s.text
  s.literals.lookup (Text.byteLength (Text.trimEnd before))

/-- The buffer that a sketch describes.  Without a tree every offset counts as
the beginning of its token. -/
def toBuffer (s : Sketch) : Buffer where
  text := s.text
  comments := SpanSet.ofList s.comments
  strings := SpanSet.ofList s.strings
  constructs := s.constructs
  locals := s.locals
  literalBefore := s.literalBefore
  tokenStart offset := offset

end Sketch

/-- The buffer as it appears to a host that recognizes no literals. -/
def Buffer.withoutLiterals (b : Buffer) : Buffer :=
  { b with literalBefore := fun _ => none, tokenStart := fun offset => offset }

end Caret
