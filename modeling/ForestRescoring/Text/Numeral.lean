/-
# Counts and their numerals

A count is written in decimal digits, at least one, with an optional plus sign in front, and is
below two to the sixty-fourth, so that a machine word holds it.
-/
namespace ForestRescoring.Text

/-- The value of a decimal digit. -/
def digitValue (c : Char) : Nat := c.toNat - '0'.toNat

/-- The number that a row of digits writes, the most significant first. -/
def digitsValue (ds : List Char) : Nat := ds.foldl (fun n d => 10 * n + digitValue d) 0

/-- The first number that is too large for a count. -/
def countBound : Nat := Nat.pow 2 64

/-- The sum of two counts, if it is not too large for a count. -/
def addCounts? (a b : Nat) : Option Nat := if a + b < countBound then some (a + b) else none

/-- The count that a row of digits writes: nothing else but digits, and not too large. -/
def digits? (ds : List Char) : Option Nat :=
  if ds ≠ [] ∧ ds.all Char.isDigit ∧ digitsValue ds < countBound then some (digitsValue ds)
  else none

/-- The count that a word writes. -/
def count? : List Char → Option Nat
  | '+' :: ds => digits? ds
  | ds => digits? ds

end ForestRescoring.Text
