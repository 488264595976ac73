import Caret.Text.Offset

/-!
# Lines and columns

Editors name a place by a zero-based line and a column counted in UTF-16 code
units.  This module converts such positions to byte offsets and back, and
holds the ranges between two of them.
-/

namespace Caret

/-- A zero-based line and UTF-16 column. -/
structure Position where
  line : Nat
  col : Nat
deriving DecidableEq, Repr, Inhabited

namespace Position

/-- Positions are ordered by line, then by column. -/
instance : LT Position where
  lt p q := p.line < q.line ∨ p.line = q.line ∧ p.col < q.col

instance : LE Position where
  le p q := p.line < q.line ∨ p.line = q.line ∧ p.col ≤ q.col

instance (p q : Position) : Decidable (p < q) :=
  inferInstanceAs (Decidable (p.line < q.line ∨ p.line = q.line ∧ p.col < q.col))

instance (p q : Position) : Decidable (p ≤ q) :=
  inferInstanceAs (Decidable (p.line < q.line ∨ p.line = q.line ∧ p.col ≤ q.col))

/-- The positions in ascending order, equal ones side by side. -/
def sort (ps : List Position) : List Position :=
  ps.mergeSort fun p q => decide (p ≤ q)

end Position

/-- From a start position to a stop position, both included. -/
structure Range where
  start : Position
  stop : Position
deriving DecidableEq, Repr, Inhabited

/-- A position is in a range when its line is, and its column neither comes
before the start on the first line nor after the stop on the last. -/
def Range.contains (r : Range) (p : Position) : Bool :=
  !(p.line < r.start.line || r.stop.line < p.line) &&
    !(p.line == r.start.line && p.col < r.start.col) &&
    !(p.line == r.stop.line && r.stop.col < p.col)

namespace Text

/-- The number of UTF-16 code units of a character. -/
def units16 (c : Char) : Nat :=
  if c.toNat ≤ 0xFFFF then 1 else 2

theorem units16_pos (c : Char) : 0 < units16 c := by
  unfold units16
  split <;> omega

/-- The position right after a character that stands at `p`. -/
def advance (p : Position) (c : Char) : Position :=
  if c = '\n' then ⟨p.line + 1, 0⟩ else ⟨p.line, p.col + units16 c⟩

/-- The position `n` bytes further on in a text that begins at `p`.  A
character counts once it has begun, and no position lies past the end. -/
def positionFrom (p : Position) : List Char → Nat → Position
  | _, 0 => p
  | [], _ + 1 => p
  | c :: cs, n + 1 => positionFrom (advance p c) cs (n + 1 - c.utf8Size)

def positionAt (cs : List Char) (offset : Nat) : Position :=
  positionFrom ⟨0, 0⟩ cs offset

/-- The text from the beginning of the line with the given number, and the
bytes before it. -/
def dropLines : Nat → List Char → Option (Nat × List Char)
  | 0, cs => some (0, cs)
  | _ + 1, [] => none
  | n + 1, c :: cs =>
    (dropLines (if c = '\n' then n else n + 1) cs).map fun (k, rest) => (c.utf8Size + k, rest)

/-- The bytes of the characters that begin before a UTF-16 column. -/
def columnBytes : Nat → List Char → Nat
  | 0, _ => 0
  | _ + 1, [] => 0
  | n + 1, c :: cs => c.utf8Size + columnBytes (n + 1 - units16 c) cs

def firstLine (cs : List Char) : List Char :=
  cs.takeWhile (· ≠ '\n')

/-- The byte offset of a position.  A column past the end of its line means
the end of the line, and a line past the last one has no offset. -/
def offsetAt? (cs : List Char) (p : Position) : Option Nat :=
  (dropLines p.line cs).map fun (k, rest) => k + columnBytes p.col (firstLine rest)

def rangeBetween (cs : List Char) (start stop : Nat) : Range :=
  ⟨positionAt cs start, positionAt cs stop⟩

end Text

end Caret
