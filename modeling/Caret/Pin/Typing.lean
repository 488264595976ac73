import Caret.Pin.Basic
import Caret.Samples
import Caret.TypeExpr.Parser

/-!
# Types of declarations

What was observed while the program ran is better evidence than what the text
gives away, so a runtime sample decides the type of a local variable wherever
one applies.  Static inference is a parameter: any function from local pins to
types will do.
-/

namespace Caret

/-- The type that the runtime samples give a local variable, undefined without
a sample or when a sample spells no type. -/
def LocalPin.sampledType (p : LocalPin) (samples : Samples) : TypeExpr :=
  match samples.typesFor? p.closurePath p.name with
  | some types => TypeExpr.merge types
  | none => .undefined

/-- The type of a local variable: the sampled one if defined, or else the one
inferred statically. -/
def LocalPin.effectiveType
    (p : LocalPin) (samples : Samples) (infer : LocalPin → TypeExpr) : TypeExpr :=
  if (p.sampledType samples).isDefined then p.sampledType samples else infer p

/-- The inference that takes the declared type at its word. -/
def LocalPin.declaredType (p : LocalPin) : TypeExpr :=
  p.declaration.staticType

/-- The type of what a pin declares.  Containers and methods have none. -/
def Pin.typify (p : Pin) (samples : Samples) (infer : LocalPin → TypeExpr) : TypeExpr :=
  match p with
  | .localVariable l => l.effectiveType samples infer
  | .instanceVariable v | .classVariable v | .globalVariable v | .constant v => v.staticType
  | .container _ | .method _ => .undefined

end Caret
