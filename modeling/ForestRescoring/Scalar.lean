/-
# Numbers to score with

Scores, weights and feature values are of one number type.  The library needs its operations and no
law of them: programs run it on 64-bit binary numbers, whose addition is not associative, and
a statement that needs laws names those that it needs.

Two points are kept apart that exact arithmetic identifies.  A sum of no terms (`emptySum`) is not
the number zero: in binary arithmetic it is minus zero, the only number that leaves every other
unchanged when added to it.
-/
namespace ForestRescoring

/-- The operations of a number type for scores. -/
class Scalar (K : Type) extends Add K, Sub K, Mul K, Div K where
  /-- The number that a count is. -/
  ofNat : Nat → K
  /-- What a sum of no terms is. -/
  emptySum : K
  /-- The natural logarithm. -/
  ln : K → K
  /-- The exponential. -/
  exp : K → K
  /-- `atLeast a b`: the first number is not below the second, and both can be compared. -/
  atLeast : K → K → Bool
  /-- `above a b`: the first number exceeds the second. -/
  above : K → K → Bool
  /-- Equality of numbers, in which signs of zero do not count. -/
  same : K → K → Bool

namespace Scalar

variable {K : Type} [Scalar K]

/-- Zero, the value of all that is absent. -/
def zero : K := ofNat 0

/-- One. -/
def one : K := ofNat 1

/-- The number equals zero, whatever its sign. -/
def isZero (x : K) : Bool := same x zero

/-- The terms added from left to right. -/
def sum (terms : List K) : K := terms.foldl (· + ·) emptySum

/-- No terms, no addition. -/
@[simp] theorem sum_nil : sum ([] : List K) = emptySum := rfl

end Scalar

/-- 64-bit binary numbers. -/
instance : Scalar Float where
  ofNat := Float.ofNat
  emptySum := -0.0
  ln := Float.log
  exp := Float.exp
  atLeast a b := decide (b ≤ a)
  above a b := decide (b < a)
  same a b := a == b

end ForestRescoring
