/-!
# Rounding to doubles

A double holds 53 binary digits.  `nearestDouble` rounds a natural number to
that many, and an exact half goes to the even neighbour.  The largest double
lies just below two to the power 1024, so a number is past every double when it
rounds to that power or beyond.
-/

namespace Caret.Decimal

/-- The multiple of a unit nearest to a number, the even one of two that are
equally near. -/
def nearestMultiple (unit n : Nat) : Nat :=
  let below := n / unit
  let rest := n % unit
  if 2 * rest < unit ∨ (2 * rest = unit ∧ below % 2 = 0) then
    unit * below
  else
    unit * (below + 1)

/-- A number rounded to its 53 leading binary digits. -/
def nearestDouble (n : Nat) : Nat :=
  nearestMultiple (Nat.pow 2 (n.log2 + 1 - 53)) n

/-- Whether a number rounds past every double. -/
def isPastDoubles (n : Nat) : Bool :=
  Nat.pow 2 1024 ≤ nearestDouble n

end Caret.Decimal
