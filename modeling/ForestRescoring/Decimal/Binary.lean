/-
# Binary numbers taken apart

A finite 64-bit binary number is a whole multiple of a power of two.  Everything that the library
prints about numbers is decided on that multiple and that power, in exact arithmetic on natural
numbers, so no printed digit depends on a rounded operation.
-/
namespace ForestRescoring.Decimal

/-! ## 1. The parts of a number -/

/-- What the 64 bits of a number say. -/
inductive Binary where
  /-- Not a number. -/
  | nan
  /-- An infinity. -/
  | infinite (negative : Bool)
  /-- `mantissa * 2 ^ exponent`, with the sign that zero has too. -/
  | finite (negative : Bool) (mantissa : Nat) (exponent : Int)
  deriving DecidableEq, Repr

/-- The exponent of the smallest positive number, which all numbers below the normal range have. -/
def leastExponent : Int := -1074

/-- The mantissa of a power of two in the normal range; all normal mantissas are below its
double. -/
def leadingBit : Nat := Nat.pow 2 52

/-- Takes 64 bits apart: a sign, eleven bits of exponent and fifty-two of mantissa. -/
def Binary.ofBits (bits : Nat) : Binary :=
  let negative := decide (Nat.pow 2 63 ≤ bits)
  let exponent := bits / leadingBit % 2048
  let fraction := bits % leadingBit
  if exponent = 2047 then (if fraction = 0 then .infinite negative else .nan)
  else if exponent = 0 then .finite negative fraction leastExponent
  else .finite negative (leadingBit + fraction) (leastExponent + exponent - 1)

/-- The parts of a number. -/
def Binary.ofFloat (x : Float) : Binary := .ofBits x.toBits.toNat

/-! ## 2. Exact quotients -/

/-- `mantissa * 2 ^ exponent` over `10 ^ power`, as numerator and denominator. -/
def quotient (mantissa : Nat) (exponent power : Int) : Nat × Nat :=
  (mantissa * Nat.pow 2 exponent.toNat * Nat.pow 10 (-power).toNat,
    Nat.pow 2 (-exponent).toNat * Nat.pow 10 power.toNat)

/-- The quotient rounded to a natural number, a half to the even neighbour. -/
def roundHalfEven (num den : Nat) : Nat :=
  let whole := num / den
  let rest := 2 * (num % den)
  if rest < den then whole else if den < rest then whole + 1 else whole + whole % 2

/-! ## 3. The decade of a number -/

/-- A power of ten that is above `mantissa * 2 ^ exponent`, by less than two decades: a binary
digit is worth a little more than 1233 parts in 4096 of a decimal one. -/
def decadeAbove (mantissa : Nat) (exponent : Int) : Int :=
  ((mantissa.log2 : Int) + exponent + 1) * 1233 / 4096 + 1

/-- The first power of ten, from `power` downwards, that does not exceed
`mantissa * 2 ^ exponent`. -/
def decadeFrom (mantissa : Nat) (exponent : Int) : Nat → Int → Int
  | 0, power => power
  | fuel + 1, power =>
    let q := quotient mantissa exponent power
    if q.2 ≤ q.1 then power else decadeFrom mantissa exponent fuel (power - 1)

/-- The power of ten of the leading decimal digit of `mantissa * 2 ^ exponent`. -/
def decade (mantissa : Nat) (exponent : Int) : Int :=
  decadeFrom mantissa exponent 4 (decadeAbove mantissa exponent)

end ForestRescoring.Decimal
