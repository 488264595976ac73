import Caret.Tree.Node

/-!
# Finding the node at an offset

A search for the smallest node around a byte range goes down from the root.
On each level it passes over the children that end too early and enters the
first other child, unless that child begins too late.
-/

namespace Caret.Node

/-- Whether a search for the range from `lo` to `hi` passes over a node.  Nodes
without width are passed over only if they end before the range. -/
def endsBefore (n : Node) (lo hi : Nat) : Bool :=
  n.stop < hi || (n.start == n.stop && n.stop < lo) || (n.start != n.stop && n.stop ≤ lo)

mutual

/-- The nodes that a search enters, from this one down. -/
def spine (lo hi : Nat) (n : Node) : List Node :=
  match n with
  | ⟨kind, start, stop, named, field, children⟩ =>
    ⟨kind, start, stop, named, field, children⟩ :: spineBelow lo hi children
termination_by structural n

/-- The nodes that a search enters, starting with one of these siblings. -/
def spineBelow (lo hi : Nat) (children : List Node) : List Node :=
  match children with
  | [] => []
  | c :: rest =>
    if c.endsBefore lo hi then
      spineBelow lo hi rest
    else if lo < c.start then
      []
    else
      c.spine lo hi
termination_by structural children

end

/-- The nodes around a range, the smallest first and the root last. -/
def enclosing (n : Node) (lo hi : Nat) : List Node :=
  (n.spine lo hi).reverse

/-- The smallest node around a range, the root if no other is. -/
def descendant (n : Node) (lo hi : Nat) : Node :=
  (n.enclosing lo hi).headD n

/-- Where the token at an offset begins: at the start of the childless node
that the search ends in, if that does not lie behind the offset, or else at the
offset itself. -/
def tokenStart (root : Node) (offset : Nat) : Nat :=
  let n := root.descendant offset offset
  if n.children.isEmpty && n.start ≤ offset then n.start else offset

end Caret.Node
