import Caret.Json.Decode
import Caret.Span
import Caret.Text.Position

/-!
# Places as JSON

Positions, ranges and spans.  A range is written flat, with the lines and
columns of both ends side by side.
-/

namespace Caret

def Position.toJson (p : Position) : Json :=
  .object [("line", .count p.line), ("col", .count p.col)]

def Range.toJson (r : Range) : Json :=
  .object
    [("start_line", .count r.start.line), ("start_col", .count r.start.col),
      ("end_line", .count r.stop.line), ("end_col", .count r.stop.col)]

def Span.toJson (s : Span) : Json :=
  .object [("begin", .count s.start), ("end", .count s.stop)]

def Position.ofJson? (j : Json) : Option Position := do
  let [line, col] ← j.fields? ["line", "col"] | none
  some ⟨← (← line).count?, ← (← col).count?⟩

def Range.ofJson? (j : Json) : Option Range := do
  let [startLine, startCol, stopLine, stopCol] ←
    j.fields? ["start_line", "start_col", "end_line", "end_col"] | none
  some
    ⟨⟨← (← startLine).count?, ← (← startCol).count?⟩,
      ⟨← (← stopLine).count?, ← (← stopCol).count?⟩⟩

/-- A span is taken as written, even when it stops before it starts. -/
def Span.ofJson? (j : Json) : Option Span := do
  let [start, stop] ← j.fields? ["begin", "end"] | none
  some ⟨← (← start).count?, ← (← stop).count?⟩

end Caret
