import Caret.Buffer.Basic
import Caret.Text.Blank

/-!
# The signature before a cursor

The signature is the chain of calls and constants that ends at the cursor, such
as `Foo::Bar.new.ba`.  It is found by walking backward over the bytes before
the cursor with three counters for the brackets crossed.  Bracketed arguments
leave no trace except that an index such as `[1]` reads as the member `.[]`;
strings are passed over, and a comment ends the walk.

The walk never fails.  It ends at the beginning of the text or at a byte that
cannot belong to the chain, and reports where the chain starts.
-/

namespace Caret.Signature

/-- One byte of a text, read as a character of its own, and the regions that
cover it. -/
structure Cell where
  char : Char
  inComment : Bool
  inString : Bool
deriving DecidableEq, Repr

/-- The bytes of a buffer with their regions. -/
def cells (b : Buffer) : List Cell :=
  (Text.encode b.text).zipIdx.map fun (byte, i) =>
    ⟨Char.ofNat byte.toNat, b.comments.covers i, b.strings.covers i⟩

/-- Openers crossed less closers crossed, for each kind of bracket. -/
structure Nesting where
  round : Int := 0
  square : Int := 0
  curly : Int := 0
deriving DecidableEq, Repr

namespace Nesting

def balanced (n : Nesting) : Bool :=
  n.round == 0 && n.square == 0 && n.curly == 0

/-- An opener was crossed without its closer. -/
def unclosed (n : Nesting) : Bool :=
  0 < n.round || 0 < n.square || 0 < n.curly

/-- The counters after a character is crossed from right to left. -/
def cross (n : Nesting) : Char → Nesting
  | ')' => { n with round := n.round - 1 }
  | ']' => { n with square := n.square - 1 }
  | '\x7d' => { n with curly := n.curly - 1 }
  | '(' => { n with round := n.round + 1 }
  | '[' => { n with square := n.square + 1 }
  | '\x7b' => { n with curly := n.curly + 1 }
  | _ => n

end Nesting

/-- Characters of which signatures are made. -/
def isMember (c : Char) : Bool :=
  c.isAlphanum || c == ':' || c == '.' || c == '_' || c == '@' || c == '$'

/-- Characters that cannot stand inside a chain. -/
def isTerminator (c : Char) : Bool :=
  c == '"' || c == '\'' || c == ',' || c == ';' || c == '%'

/-- Whether the bytes left of an opening square bracket, nearest first, make it
open a percent literal such as `%w[` or `%[`. -/
def opensPercentLiteral : List Cell → Bool
  | [] => false
  | [c] => c.char == '%'
  | c :: d :: _ => c.char == '%' || (d.char == '%' && c.char.isAlpha)

def followsPercent : List Cell → Bool
  | [] => false
  | c :: _ => c.char == '%'

def followsAt : List Cell → Bool
  | [] => false
  | c :: _ => c.char == '@'

/-- The number of blanks at the beginning of the bytes to the right. -/
def leadingBlanks (right : List Cell) : Nat :=
  (right.takeWhile (Text.isBlank ·.char)).length

/-- Whether the bytes to the right go on with a dot after any blanks. -/
def continuesChain (right : List Cell) : Bool :=
  match right.dropWhile (Text.isBlank ·.char) with
  | [] => false
  | c :: _ => c.char == '.'

/-- What the walk knows on its way. -/
structure State where
  nesting : Nesting := {}
  /-- Whether blanks outside of all brackets were just crossed. -/
  inBlanks : Bool := false
  /-- The chain found so far. -/
  members : List Char := []
  /-- The bytes left of the leftmost one that is in the chain. -/
  leftOfHead : Option (List Cell) := none

/-- The state with text added to the front of the chain, found right after the
bytes `left`. -/
def State.prepend (s : State) (text : List Char) (left : List Cell) : State :=
  { s with members := text ++ s.members, leftOfHead := some left }

/-- The outcome of crossing one byte: the walk goes on, or it ends and the
chain starts at a byte offset. -/
inductive Step where
  | next (s : State)
  | done (start : Nat) (s : State)

/-- Crosses a byte of code, where neither strings nor blanks decide.

The counters change first.  Outside of all brackets the byte then ends the
walk, joins the chain, or is passed over; a sigil does the first two at once.
Inside an opener without its closer the chain starts right after the opener. -/
def crossCode (c : Cell) (left : List Cell) (s : State) : Step :=
  let nesting := s.nesting.cross c.char
  let s := { s with nesting := nesting }
  let s :=
    if c.char == '[' && nesting.square == 0 && !opensPercentLiteral left then
      s.prepend ['.', '[', ']'] left
    else
      s
  if nesting.balanced then
    if isTerminator c.char then
      .done (left.length + 1) s
    else
      let s := if isMember c.char && !followsPercent left then s.prepend [c.char] left else s
      if c.char == '$' then
        .done left.length s
      else if c.char == '@' then
        if followsAt left then
          .done (left.length - 1) { s with members := '@' :: s.members }
        else
          .done left.length s
      else
        .next { s with inBlanks := false }
  else if nesting.unclosed then
    .done (left.length + 1) s
  else
    .next { s with inBlanks := false }

/-- Crosses the byte `c` between the bytes `left` and `right`, both nearest
first.  Outside of all brackets blanks are skipped, and what stands before them
joins the chain only if a dot stands on one side of them. -/
def step (c : Cell) (left right : List Cell) (s : State) : Step :=
  if c.inComment then
    .done (left.length + 1) s
  else if c.inString && !s.inBlanks then
    .next s
  else if s.nesting.balanced && Text.isBlank c.char then
    .next { s with inBlanks := true }
  else if s.nesting.balanced && s.inBlanks && c.char != '.' && !continuesChain right then
    .done (left.length + 1 + leadingBlanks right) s
  else if c.inString then
    .next { s with inBlanks := false }
  else
    crossCode c left s

/-- Where a chain starts, as a byte offset, and what is in it. -/
structure Outcome where
  start : Nat
  members : List Char
  leftOfHead : Option (List Cell)

/-- Walks backward over the bytes `left`, nearest first, with the bytes `right`
behind it.  At the beginning of the text the chain starts there. -/
def walk (s : State) : List Cell → List Cell → Outcome
  | [], _ => ⟨0, s.members, s.leftOfHead⟩
  | c :: left, right =>
    match step c left right s with
    | .next s => walk s left (c :: right)
    | .done start s => ⟨start, s.members, s.leftOfHead⟩

/-- The bytes left of a cursor, the nearest one exempt from being in a
comment: a cursor right behind a comment is not yet outside of it. -/
def exemptNearest : List Cell → List Cell
  | [] => []
  | c :: left => { c with inComment := false } :: left

def walkFrom (b : Buffer) (offset : Nat) : Outcome :=
  let cs := cells b
  walk {} (exemptNearest (cs.take offset).reverse) (cs.drop offset)

/-- The chain of an outcome, with a literal receiver in front of a chain that
begins with a dot: a call on a string reads as a call on `String.new`. -/
def withReceiver (b : Buffer) (o : Outcome) : List Char :=
  match o.members, o.leftOfHead.bind fun left => b.literalBefore left.length with
  | '.' :: _, some literal => literal.toList ++ ".new".toList ++ o.members
  | _, _ => o.members

end Caret.Signature
