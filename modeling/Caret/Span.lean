/-!
# Byte spans

`Span` is a half-open stretch of byte offsets, and `SpanSet` a set of offsets
given by disjoint spans in order.  Spans that overlap or touch are joined when
a set is built, so each run of covered offsets is one span.
-/

namespace Caret

/-- The byte offsets from `start` up to, and without, `stop`. -/
structure Span where
  start : Nat
  stop : Nat
deriving DecidableEq, Repr

namespace Span

/-- The span between two offsets, empty at the first if the second lies
before it. -/
def between (start stop : Nat) : Span :=
  ⟨start, max stop start⟩

def length (s : Span) : Nat :=
  s.stop - s.start

def isEmpty (s : Span) : Bool :=
  s.start == s.stop

/-- Whether an offset belongs to the span. -/
def covers (s : Span) (i : Nat) : Bool :=
  s.start ≤ i && i < s.stop

/-- Whether a cursor stands between two offsets of the span. -/
def surrounds (s : Span) (o : Nat) : Bool :=
  s.start < o && o < s.stop

/-- Whether a cursor stands after an offset of the span. -/
def trails (s : Span) (o : Nat) : Bool :=
  s.start < o && o ≤ s.stop

/-- Order by start, then by stop. -/
def le (s t : Span) : Bool :=
  s.start < t.start || (s.start == t.start && s.stop ≤ t.stop)

/-- Joins the spans of a list in ascending order to the span `s` before them
as long as they overlap or touch it. -/
def join (s : Span) : List Span → List Span
  | [] => [s]
  | t :: ts =>
    if t.start ≤ s.stop then join ⟨s.start, max s.stop t.stop⟩ ts else s :: join t ts

end Span

/-- Disjoint spans in ascending order. -/
structure SpanSet where
  spans : List Span
deriving DecidableEq, Repr

namespace SpanSet

/-- The offsets that belong to some span of a list. -/
def ofList (spans : List Span) : SpanSet :=
  match (spans.filter (!·.isEmpty)).mergeSort Span.le with
  | [] => ⟨[]⟩
  | s :: rest => ⟨s.join rest⟩

def empty : SpanSet := ⟨[]⟩

def isEmpty (set : SpanSet) : Bool :=
  set.spans.isEmpty

/-- Whether an offset belongs to the set. -/
def covers (set : SpanSet) (i : Nat) : Bool :=
  set.spans.any (·.covers i)

/-- Whether a cursor stands between two offsets of one span. -/
def surrounds (set : SpanSet) (o : Nat) : Bool :=
  set.spans.any (·.surrounds o)

/-- Whether a cursor stands after an offset of the set. -/
def trails (set : SpanSet) (o : Nat) : Bool :=
  set.spans.any (·.trails o)

end SpanSet

end Caret
