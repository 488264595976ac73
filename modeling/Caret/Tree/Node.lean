import Caret.Text.Offset

/-!
# Syntax trees

Trees as an incremental Ruby grammar produces them.  A node has a kind, the
byte offsets it takes, and possibly a field that says which part of its parent
it is.  Named nodes stand for rules of the grammar, the others for punctuation
and keywords.
-/

namespace Caret

/-- A node of a syntax tree with everything below it. -/
structure Node where
  kind : String
  start : Nat
  stop : Nat
  named : Bool
  field : Option String
  children : List Node

/-- How a source text becomes a tree, where a tree is to be had. -/
abbrev Grammar := String → Option Node

namespace Node

def childByField (n : Node) (field : String) : Option Node :=
  n.children.find? (·.field == some field)

def namedChildren (n : Node) : List Node :=
  n.children.filter (·.named)

def soleNamedChild? (n : Node) : Option Node :=
  match n.namedChildren with
  | [c] => some c
  | _ => none

def text (source : List Char) (n : Node) : List Char :=
  Text.slice source n.start n.stop

/-- One line of the preorder listing of a tree. -/
structure Row where
  kind : String
  start : Nat
  stop : Nat
  named : Bool
  field : Option String
  childCount : Nat
deriving DecidableEq, Repr

/-- Puts a row in front of complete trees, of which it takes as many as it has
children. -/
def adopt (row : Row) (trees : List Node) : Option (List Node) :=
  if row.childCount ≤ trees.length then
    let node : Node :=
      ⟨row.kind, row.start, row.stop, row.named, row.field, trees.take row.childCount⟩
    some (node :: trees.drop row.childCount)
  else
    none

/-- The trees that a preorder listing describes, one after the other. -/
def forestOfRows : List Row → Option (List Node)
  | [] => some []
  | row :: rows => (forestOfRows rows).bind (adopt row)

/-- The tree that a preorder listing describes. -/
def ofRows (rows : List Row) : Option Node :=
  match forestOfRows rows with
  | some [root] => some root
  | _ => none

end Node

end Caret
