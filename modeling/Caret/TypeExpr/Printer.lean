import Caret.TypeExpr.Basic

/-!
# Writing type expressions

The written form of a type separates alternatives by a comma and a blank, and
the sides of a hash by an arrow between blanks.
-/

namespace Caret.TypeExpr

mutual

/-- The written form of a type. -/
def render : TypeExpr → List Char
  | .undefined => "undefined".toList
  | .union items => renderAll items

def Alternative.render : Alternative → List Char
  | .mk name parameters => name.toList ++ parameters.render

def Parameters.render : Parameters → List Char
  | .plain => []
  | .list element => '<' :: element.render ++ ['>']
  | .hash key value => '\x7b' :: key.render ++ " => ".toList ++ value.render ++ ['\x7d']

/-- The written forms of alternatives, separated by a comma and a blank. -/
def renderAll : List Alternative → List Char
  | [] => []
  | [a] => a.render
  | a :: b :: rest => a.render ++ ", ".toList ++ renderAll (b :: rest)

end

theorem render_undefined : render .undefined = "undefined".toList := rfl

theorem render_union (items : List Alternative) : render (.union items) = renderAll items := rfl

def text (t : TypeExpr) : String :=
  String.ofList t.render

instance : ToString TypeExpr := ⟨text⟩

end Caret.TypeExpr
