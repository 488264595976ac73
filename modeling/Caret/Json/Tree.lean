import Caret.Json.Decode
import Caret.Tree.Node

/-!
# Tree listings as JSON

A tree is written as the list of its nodes in preorder, each as an array of its
kind, the offsets where it starts and stops, whether it is named, its field and
the number of its children.  A grammar can be given as the trees of the texts
it is asked about.
-/

namespace Caret

/-- A mark that is one for yes and zero for no. -/
def Json.mark? : Json → Option Bool
  | .count 0 => some false
  | .count 1 => some true
  | _ => none

def Node.Row.ofJson? (j : Json) : Option Node.Row :=
  match j with
  | .array [kind, start, stop, named, field, childCount] => do
    some
      { kind := ← kind.string?
        start := ← start.count?
        stop := ← stop.count?
        named := ← named.mark?
        field := ← Json.optional? Json.string? field
        childCount := ← childCount.count? }
  | _ => none

/-- The tree that a listing describes. -/
def Node.ofJson? (j : Json) : Option Node := do
  Node.ofRows (← j.list? Node.Row.ofJson?)

/-- The trees that an object lists, by text. -/
def treesOfJson? : Json → Option (List (String × Node))
  | .object members => members.mapM fun (text, j) => (Node.ofJson? j).map (text, ·)
  | _ => none

/-- The grammar that knows the trees of certain texts and no others. -/
def Grammar.ofTrees (trees : List (String × Node)) : Grammar :=
  fun text => trees.lookup text

end Caret
