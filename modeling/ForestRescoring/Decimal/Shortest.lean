/-
# The shortest decimal that reads back

A decimal reads back as a binary number if it lies in the interval of reals that round to that
number: halfway to the neighbour below and halfway to the neighbour above, the ends included iff
the mantissa is even.  `shortest` goes down the grids of powers of ten and stops at the first one
with a point in the interval.  If a grid has a point there, one of the value's two neighbours on
the grid is in the interval as well, so only these two are tried; of two hits the nearer is taken,
and where both are equally near the printed format decides.
-/
import ForestRescoring.Decimal.Binary

namespace ForestRescoring.Decimal

/-- Which of two equally near decimals is taken. -/
inductive Tie where
  /-- The larger one. -/
  | up
  /-- The one with the even last digit. -/
  | even
  deriving DecidableEq, Repr

/-- A decimal `digits * 10 ^ power`. -/
structure Digits where
  digits : Nat
  power : Int
  deriving DecidableEq, Repr

/-- Four times the mantissa lies between these bounds after halving the step to each neighbour;
below a power of two the step is half as wide. -/
def lowerQuarters (mantissa : Nat) (exponent : Int) : Nat :=
  if mantissa = leadingBit ∧ leastExponent < exponent then 4 * mantissa - 1 else 4 * mantissa - 2

/-- The upper bound of the interval, in quarters of the last binary place. -/
def upperQuarters (mantissa : Nat) : Nat := 4 * mantissa + 2

/-- `c * 10 ^ power` reads back as `mantissa * 2 ^ exponent`. -/
def readsBack (mantissa : Nat) (exponent power : Int) (c : Nat) : Bool :=
  let low := quotient (lowerQuarters mantissa exponent) (exponent - 2) power
  let high := quotient (upperQuarters mantissa) (exponent - 2) power
  if mantissa % 2 = 0 then decide (low.1 ≤ c * low.2 ∧ c * high.2 ≤ high.1)
  else decide (low.1 < c * low.2 ∧ c * high.2 < high.1)

/-- The grid neighbour of `num / den` that is nearer, with the tie decided by the format. -/
def nearer (tie : Tie) (num den : Nat) : Nat :=
  let below := num / den
  let rest := 2 * (num % den)
  if rest < den then below
  else if den < rest then below + 1
  else match tie with
    | .up => below + 1
    | .even => below + below % 2

/-- A decimal of the grid `10 ^ power` that reads back, if there is one, and the nearest such. -/
def onGrid (tie : Tie) (mantissa : Nat) (exponent power : Int) : Option Nat :=
  let value := quotient mantissa exponent power
  let below := value.1 / value.2
  match readsBack mantissa exponent power below, readsBack mantissa exponent power (below + 1) with
  | true, true => some (nearer tie value.1 value.2)
  | true, false => some below
  | false, true => some (below + 1)
  | false, false => none

/-- The first grid from `power` downwards that holds a decimal which reads back. -/
def shortestFrom (tie : Tie) (mantissa : Nat) (exponent : Int) : Nat → Int → Digits
  | 0, power =>
    let value := quotient mantissa exponent power
    ⟨value.1 / value.2, power⟩
  | fuel + 1, power =>
    match onGrid tie mantissa exponent power with
    | some c => ⟨c, power⟩
    | none => shortestFrom tie mantissa exponent fuel (power - 1)

/-- The fewest digits that read back as `mantissa * 2 ^ exponent`, for a positive mantissa.
Seventeen digits always do, and the search starts at most two grids above the first of them. -/
def shortest (tie : Tie) (mantissa : Nat) (exponent : Int) : Digits :=
  shortestFrom tie mantissa exponent 24 (decadeAbove mantissa exponent)

end ForestRescoring.Decimal
