/-
# Reading decimals

A decimal has an optional sign, digits with at most one point among or beside them, and an
optional exponent.  The names of infinity and of not-a-number are read too, in either case of
letters.  The value is the binary number nearest to the decimal.
-/
import ForestRescoring.Decimal.Binary
import ForestRescoring.Text.Numeral

namespace ForestRescoring.Decimal

open ForestRescoring.Text

/-! ## 1. The grammar -/

/-- A sign, which a number need not have: whether it is a minus, and the text behind it. -/
def splitSign : List Char → Bool × List Char
  | '-' :: s => (true, s)
  | '+' :: s => (false, s)
  | s => (false, s)

/-- The digits a text starts with, and the rest. -/
def spanDigits (s : List Char) : List Char × List Char :=
  (s.takeWhile Char.isDigit, s.dropWhile Char.isDigit)

/-- The letter in front of an exponent, in either case. -/
def isExponentMark (c : Char) : Bool := c == 'e' || c == 'E'

/-- The exponent part: nothing, or a letter `e` with an optional sign and digits. -/
def exponent? : List Char → Option Int
  | [] => some 0
  | e :: s =>
    if isExponentMark e then
      let signed := splitSign s
      if signed.2 ≠ [] ∧ signed.2.all Char.isDigit then
        let size : Int := digitsValue signed.2
        some (if signed.1 then -size else size)
      else none
    else none

/-- The fraction digits behind a point, if there is one, and the rest. -/
def splitFraction : List Char → List Char × List Char
  | '.' :: s => spanDigits s
  | s => ([], s)

/-- A numeral without a sign: all its digits, and the power of ten that the last one stands for. -/
def numeral? (s : List Char) : Option (List Char × Int) :=
  let whole := spanDigits s
  let fraction := splitFraction whole.2
  let digits := whole.1 ++ fraction.1
  if digits = [] then none
  else (exponent? fraction.2).map fun e => (digits, e - fraction.1.length)

/-! ## 2. The value -/

/-- Every power of ten from here on exceeds all finite numbers. -/
def hugePower : Int := 310

/-- Below this power of ten everything rounds to zero. -/
def tinyPower : Int := -330

/-- A power that gives the same value and is no larger than the value needs: beyond `hugePower`
a positive number is infinite anyway, and below `tinyPower` it is zero anyway. -/
def boundedPower (digitCount : Nat) (power : Int) : Int :=
  max (tinyPower - digitCount) (min hugePower power)

/-- The number nearest to the digits taken times a power of ten. -/
def nearest (digits : List Char) (power : Int) : Float :=
  let value := digitsValue digits
  let bounded := boundedPower digits.length power
  Float.ofScientific value (decide (bounded < 0)) bounded.natAbs

/-- Infinity. -/
def infinity : Float := Float.ofBits 0x7FF0000000000000

/-- Not a number. -/
def notANumber : Float := Float.ofBits 0x7FF8000000000000

/-- The names of values that are not finite, in small letters. -/
def named? (s : List Char) : Option Float :=
  let small := String.ofList (s.map Char.toLower)
  if small = "inf" ∨ small = "infinity" then some infinity
  else if small = "nan" then some notANumber
  else none

/-- A number without its sign. -/
def magnitude? (s : List Char) : Option Float :=
  (numeral? s).elim (named? s) fun n => some (nearest n.1 n.2)

/-- The number that a word writes. -/
def number? (s : List Char) : Option Float :=
  let parts := splitSign s
  (magnitude? parts.2).map fun x => if parts.1 then -x else x

/-- The number that a word writes, if it is finite. -/
def finite? (s : List Char) : Option Float := (number? s).filter Float.isFinite

end ForestRescoring.Decimal
