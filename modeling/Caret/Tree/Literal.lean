import Caret.Text.Blank
import Caret.Tree.Search

/-!
# Types that the text gives away

A literal shows its class, and `Const.new` shows the class it builds.  Nothing
else is guessed.
-/

namespace Caret.Node

/-- The class of a literal, by the kind of its node. -/
def literalType (kind : String) : Option String :=
  if kind ∈ ["string", "chained_string", "heredoc_beginning", "subshell"] then some "String"
  else if kind = "integer" then some "Integer"
  else if kind = "float" then some "Float"
  else if kind = "rational" then some "Rational"
  else if kind = "complex" then some "Complex"
  else if kind ∈ ["array", "string_array", "symbol_array"] then some "Array"
  else if kind = "hash" then some "Hash"
  else if kind ∈ ["simple_symbol", "delimited_symbol"] then some "Symbol"
  else if kind = "regex" then some "Regexp"
  else if kind = "range" then some "Range"
  else if kind ∈ ["true", "false"] then some "Boolean"
  else if kind = "nil" then some "NilClass"
  else if kind = "lambda" then some "Proc"
  else none

/-- The class that a call builds, when it calls `new` on a constant. -/
def constructedType (source : List Char) (n : Node) : Option String := do
  let method ← n.childByField "method"
  let receiver ← n.childByField "receiver"
  if method.text source = "new".toList ∧ receiver.kind ∈ ["constant", "scope_resolution"] then
    some (String.ofList (receiver.text source))
  else
    none

mutual

/-- The type of an expression, if its shape gives it away.  Parentheses around
a single expression do not hide its type. -/
def expressionType (source : List Char) (n : Node) : Option String :=
  match n with
  | ⟨kind, start, stop, named, field, children⟩ =>
    match literalType kind with
    | some type => some type
    | none =>
      if kind = "call" then
        constructedType source ⟨kind, start, stop, named, field, children⟩
      else if kind = "parenthesized_statements" then
        soleExpressionType source children
      else
        none
termination_by structural n

def soleExpressionType (source : List Char) (ns : List Node) : Option String :=
  match ns with
  | [] => none
  | n :: rest =>
    if n.named then
      if rest.any (·.named) then none else n.expressionType source
    else
      soleExpressionType source rest
termination_by structural ns

end

/-- The class of the literal that ends right before an offset, with only white
space in between.  Of the nodes that end there the smallest literal counts. -/
def literalBefore (root : Node) (source : List Char) (offset : Nat) : Option String :=
  match Text.splitAt? source offset with
  | none => none
  | some (before, _) =>
    let stop := Text.byteLength (Text.trimEnd before)
    if stop = 0 then
      none
    else
      ((root.enclosing (stop - 1) stop).takeWhile (·.stop == stop)).findSome?
        fun n => literalType n.kind

end Caret.Node
