import Caret.Pin.Basic

/-!
# Merging observations of declarations

A source is read again after each edit, and the declarations found then are
matched with the known ones.  Two pins observe the same declaration when they
agree on everything that identifies it; the known pin then moves to the newer
place and keeps the rest.
-/

namespace Caret

/-- Observations of a variable agree on name, construct and assigned text. -/
def VariablePin.matches (v w : VariablePin) : Bool :=
  v.name == w.name && v.closurePath == w.closurePath && v.assignment == w.assignment

namespace Pin

/-- Whether two pins observe the same declaration: they are of one kind and
agree on what identifies a declaration of that kind. -/
def sameDeclaration : Pin → Pin → Bool
  | .container p, .container q =>
    p.name == q.name && p.closurePath == q.closurePath && p.kind == q.kind
  | .method p, .method q =>
    p.name == q.name && p.closurePath == q.closurePath && p.scope == q.scope &&
      p.parameters == q.parameters
  | .localVariable p, .localVariable q => p.declaration.matches q.declaration
  | .instanceVariable v, .instanceVariable w => v.matches w
  | .classVariable v, .classVariable w => v.matches w
  | .globalVariable v, .globalVariable w => v.matches w
  | .constant v, .constant w => v.matches w
  | _, _ => false

/-- The first pin moved to the place of the second, which is of its kind. -/
def movedTo : Pin → Pin → Pin
  | .container p, .container q => .container { p with location := q.location }
  | .method p, .method q => .method { p with location := q.location }
  | .localVariable p, .localVariable q =>
    .localVariable
      { p with
        declaration := { p.declaration with location := q.declaration.location }
        presence := q.presence }
  | .instanceVariable v, .instanceVariable w =>
    .instanceVariable { v with location := w.location }
  | .classVariable v, .classVariable w => .classVariable { v with location := w.location }
  | .globalVariable v, .globalVariable w => .globalVariable { v with location := w.location }
  | .constant v, .constant w => .constant { v with location := w.location }
  | p, _ => p

/-- An attempt to merge a newer observation into a pin: the pin afterwards, and
whether the observation is one of its declaration. -/
def tryMerge (p q : Pin) : Pin × Bool :=
  if p.sameDeclaration q then (p.movedTo q, true) else (p, false)

/-- The pin after an attempt that succeeds. -/
def merge? (p q : Pin) : Option Pin :=
  match p.tryMerge q with
  | (p', true) => some p'
  | (_, false) => none

/-- What became of an observed pin: a known pin took it, or it is new. -/
inductive Observation where
  | merged (index : Nat) (pin : Pin)
  | added (index : Nat)
deriving DecidableEq

/-- Adds an observation to the known pins: the first that merges with it takes
it, and otherwise it goes to the end.  `index` counts the pins passed over. -/
def observe (index : Nat) (q : Pin) : List Pin → List Pin × Observation
  | [] => ([q], .added index)
  | p :: ps =>
    match p.tryMerge q with
    | (p', true) => (p' :: ps, .merged index p')
    | (p', false) =>
      let (ps', seen) := observe (index + 1) q ps
      (p' :: ps', seen)

def observeAll (known : List Pin) : List Pin → List Pin × List Observation
  | [] => (known, [])
  | q :: qs =>
    let (known, seen) := observe 0 q known
    let (known, rest) := observeAll known qs
    (known, seen :: rest)

end Pin

end Caret
