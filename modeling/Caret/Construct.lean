import Caret.Span

/-!
# Constructs around a cursor

Classes, modules and methods, each with the namespace it runs in and the path
that its local variables belong to.
-/

namespace Caret

/-- Whether code runs against a type itself or against an instance of it. -/
inductive Scope where
  | classLevel
  | instanceLevel
deriving DecidableEq, Repr

/-- The word for a scope in answers to people. -/
def Scope.word : Scope → String
  | .classLevel => "class"
  | .instanceLevel => "instance"

/-- Kinds of construct.  The root is the top level of a file, and a singleton
method is one that belongs to a type and not to its instances. -/
inductive ConstructKind where
  | root
  | classDef
  | moduleDef
  | method
  | singletonMethod
deriving DecidableEq, Repr

/-- Only the body of an instance method runs against an instance. -/
def ConstructKind.scope : ConstructKind → Scope
  | .method => .instanceLevel
  | _ => .classLevel

/-- A construct, with the qualified name of its namespace (empty at the top
level) and the path of the local variables declared in it. -/
structure Construct where
  kind : ConstructKind
  namespaceName : String
  closurePath : String
deriving DecidableEq, Repr

namespace Construct

def root : Construct := ⟨.root, "", ""⟩

/-- A class or module, whose locals belong to the namespace itself. -/
def ofNamespace (kind : ConstructKind) (name : String) : Construct :=
  ⟨kind, name, name⟩

def scope (c : Construct) : Scope :=
  c.kind.scope

/-- The shorter of two spans with what they carry, the first in a tie. -/
def shorter (a b : Span × Construct) : Span × Construct :=
  if b.1.length < a.1.length then b else a

/-- The construct with the shortest span around a cursor, the earliest in a
tie, or else the root.  A cursor on either edge of a construct is outside it. -/
def innermost (constructs : List (Span × Construct)) (offset : Nat) : Construct :=
  match constructs.filter (·.1.surrounds offset) with
  | [] => root
  | c :: cs => (cs.foldl shorter c).2

end Construct

end Caret
