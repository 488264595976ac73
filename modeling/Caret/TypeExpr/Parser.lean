import Caret.TypeExpr.Basic
import Caret.TypeExpr.Token

/-!
# Reading type expressions

A type string is read from its tokens: alternatives separated by commas, each a
name and what stands behind it.  Every name consumes a token, so the number of
tokens bounds the depth of the recursion.
-/

namespace Caret.TypeExpr

/-- Reads what stands behind a name, with `union?` for the types inside. -/
def Parameters.read?
    (union? : List Token → Option (List Alternative × List Token)) :
    List Token → Option (Parameters × List Token)
  | .openList :: ts => do
    let (element, ts) ← union? ts
    match ts with
    | .closeList :: ts => some (.list (.union element), ts)
    | _ => none
  | .openHash :: ts => do
    let (key, ts) ← union? ts
    match ts with
    | .arrow :: ts => do
      let (value, ts) ← union? ts
      match ts with
      | .closeHash :: ts => some (.hash (.union key) (.union value), ts)
      | _ => none
    | _ => none
  | ts => some (.plain, ts)

/-- Reads alternatives separated by commas, as many as follow one another.
The first argument bounds the number of names on the way down. -/
def readAll? : Nat → List Token → Option (List Alternative × List Token)
  | fuel + 1, .name name :: ts => do
    let (parameters, ts) ← Parameters.read? (readAll? fuel) ts
    match ts with
    | .comma :: ts => do
      let (rest, ts) ← readAll? fuel ts
      some (.mk name parameters :: rest, ts)
    | _ => some ([.mk name parameters], ts)
  | _, _ => none

def ofTokens? (ts : List Token) : Option (List Alternative) :=
  match readAll? ts.length ts with
  | some (items, []) => some items
  | _ => none

def alternatives? (cs : List Char) : Option (List Alternative) :=
  (tokens? cs).bind ofTokens?

/-- The type that a text spells, undefined when it spells none. -/
def parse (text : String) : TypeExpr :=
  match alternatives? text.toList with
  | some items => .union items
  | none => .undefined

/-- The alternatives of all texts, each once and in the order of their first
appearance, if every text spells a type. -/
def mergeAlternatives? (seen : List Alternative) : List String → Option (List Alternative)
  | [] => some seen
  | text :: texts =>
    match parse text with
    | .undefined => none
    | .union items => mergeAlternatives? (addNew seen items) texts

/-- The union of the types that several texts spell.  A text that spells none
makes the union undefined, and so does an empty list. -/
def merge (texts : List String) : TypeExpr :=
  match mergeAlternatives? [] texts with
  | none => .undefined
  | some [] => .undefined
  | some items => .union items

end Caret.TypeExpr
