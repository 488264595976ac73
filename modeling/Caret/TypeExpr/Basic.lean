/-!
# Type expressions

The types that documentation comments and runtime samples write down:
`Integer`, `Array<String>`, `Hash{Symbol => Integer}`, or several alternatives
`String, nil`.  A text that is none of these stands for the undefined type.

The types form a nested family, so equality is decided by a function written
along the data; `TypeExpr.same_iff` says that it decides equality.
-/

namespace Caret

mutual

/-- A type: nothing known, or a list of alternatives. -/
inductive TypeExpr where
  | undefined
  | union (items : List TypeExpr.Alternative)

/-- One alternative of a union: a name with its parameters. -/
inductive TypeExpr.Alternative where
  | mk (name : String) (parameters : TypeExpr.Parameters)

/-- What stands behind a name: nothing, the element type of `Array<String>`,
or the key and value types of `Hash{Symbol => Integer}`. -/
inductive TypeExpr.Parameters where
  | plain
  | list (element : TypeExpr)
  | hash (key value : TypeExpr)

end

namespace TypeExpr

/-- An alternative without parameters. -/
def Alternative.ofName (name : String) : Alternative :=
  .mk name .plain

def ofName (name : String) : TypeExpr :=
  .union [.ofName name]

def items : TypeExpr → List Alternative
  | .undefined => []
  | .union items => items

def isDefined : TypeExpr → Bool
  | .undefined => false
  | .union _ => true

instance : Inhabited TypeExpr := ⟨.undefined⟩

mutual

/-- Structural equality of types. -/
def same (s t : TypeExpr) : Bool :=
  match s, t with
  | .undefined, .undefined => true
  | .union as, .union bs => sameAll as bs
  | _, _ => false
termination_by structural s

def Alternative.same (a b : Alternative) : Bool :=
  match a, b with
  | .mk m p, .mk n q => m == n && p.same q
termination_by structural a

def Parameters.same (p q : Parameters) : Bool :=
  match p, q with
  | .plain, .plain => true
  | .list s, .list t => s.same t
  | .hash k v, .hash l w => k.same l && v.same w
  | _, _ => false
termination_by structural p

def sameAll (as bs : List Alternative) : Bool :=
  match as, bs with
  | [], [] => true
  | a :: as, b :: bs => a.same b && sameAll as bs
  | _, _ => false
termination_by structural as

end

mutual

theorem same_iff : ∀ s t : TypeExpr, s.same t = true ↔ s = t
  | .undefined, t => by cases t <;> simp [same]
  | .union as, t => by cases t <;> simp [same, sameAll_iff as]

theorem Alternative.same_iff : ∀ a b : Alternative, a.same b = true ↔ a = b
  | .mk m p, .mk n q => by simp [Alternative.same, Parameters.same_iff p q]

theorem Parameters.same_iff : ∀ p q : Parameters, p.same q = true ↔ p = q
  | .plain, q => by cases q <;> simp [Parameters.same]
  | .list s, q => by cases q <;> simp [Parameters.same, TypeExpr.same_iff s]
  | .hash k v, q => by
      cases q <;> simp [Parameters.same, TypeExpr.same_iff k, TypeExpr.same_iff v]

theorem sameAll_iff : ∀ as bs : List Alternative, sameAll as bs = true ↔ as = bs
  | [], bs => by cases bs <;> simp [sameAll]
  | a :: as, bs => by
      cases bs with
      | nil => simp [sameAll]
      | cons b bs => simp [sameAll, Alternative.same_iff a b, sameAll_iff as bs]

end

instance : DecidableEq TypeExpr := fun s t =>
  decidable_of_iff (s.same t = true) (same_iff s t)

instance : DecidableEq Alternative := fun a b =>
  decidable_of_iff (a.same b = true) (Alternative.same_iff a b)

/-- Appends to `seen` the alternatives of a list that it does not hold yet,
each once and in order. -/
def addNew (seen : List Alternative) : List Alternative → List Alternative
  | [] => seen
  | a :: as => addNew (if a ∈ seen then seen else seen ++ [a]) as

end TypeExpr

end Caret
