/-
# How numbers are written

Three formats of the reports and one of the data files, all decided on the exact value:

* `exact`: the shortest digits that read back, without an exponent, and without a point where the
  value is whole;
* `significant`: a given number of significant digits and an exponent;
* `places`: a given number of digits after the point;
* `dataNumber`: the shortest digits with a point in every positional form, and an exponent
  outside the range in which a reader counts zeros easily.
-/
import ForestRescoring.Decimal.Shortest

namespace ForestRescoring.Decimal

/-! ## 1. Digits as text -/

/-- A row of zeros. -/
def zeros (n : Nat) : String := String.ofList (List.replicate n '0')

/-- A minus sign where the number is negative, minus zero included. -/
def signed (negative : Bool) (body : String) : String := if negative then "-" ++ body else body

/-- The text with a point before its last `count` characters. -/
def pointBeforeLast (count : Nat) (digits : String) : String :=
  let cs := digits.toList
  String.ofList (cs.take (cs.length - count)) ++ "." ++ String.ofList (cs.drop (cs.length - count))

/-- `digits * 10 ^ power` written out in full; a whole number ends in `wholeEnd`. -/
def positional (wholeEnd : String) (d : Digits) : String :=
  let text := toString d.digits
  if 0 ≤ d.power then text ++ zeros d.power.toNat ++ wholeEnd
  else
    let after := (-d.power).toNat
    if after < text.length then pointBeforeLast after text
    else "0." ++ zeros (after - text.length) ++ text

/-- The digits with a point after the first of them, if there are more. -/
def pointAfterFirst (digits : String) : String :=
  if digits.length = 1 then digits else pointBeforeLast (digits.length - 1) digits

/-! ## 2. The exact form -/

/-- Of two equally near shortest decimals the exact form takes the larger. -/
def exactTie : Tie := .up

/-- The shortest digits that read back, never with an exponent. -/
def exact (x : Float) : String :=
  match Binary.ofFloat x with
  | .nan => "NaN"
  | .infinite negative => signed negative "inf"
  | .finite negative mantissa exponent =>
    signed negative <|
      if mantissa = 0 then "0" else positional "" (shortest exactTie mantissa exponent)

/-! ## 3. Rounded forms -/

/-- The first `count` significant digits of a positive number and the power of ten of the leading
one, a half going to the even neighbour. -/
def significantDigits (count mantissa : Nat) (exponent : Int) : Nat × Int :=
  let power := decade mantissa exponent
  let q := quotient mantissa exponent (power - (count - 1 : Nat))
  let digits := roundHalfEven q.1 q.2
  if digits = Nat.pow 10 count then (Nat.pow 10 (count - 1), power + 1) else (digits, power)

/-- One digit before the point, `after` digits behind it, and the exponent. -/
def significant (after : Nat) (x : Float) : String :=
  match Binary.ofFloat x with
  | .nan => "NaN"
  | .infinite negative => signed negative "inf"
  | .finite negative mantissa exponent =>
    let parts := if mantissa = 0 then (0, 0) else significantDigits (after + 1) mantissa exponent
    let text := toString parts.1
    let padded := zeros (after + 1 - text.length) ++ text
    signed negative (pointAfterFirst padded ++ "e" ++ toString parts.2)

/-- `after` digits behind the point, a half going to the even neighbour. -/
def places (after : Nat) (x : Float) : String :=
  match Binary.ofFloat x with
  | .nan => "NaN"
  | .infinite negative => signed negative "inf"
  | .finite negative mantissa exponent =>
    let q := quotient mantissa exponent (-(after : Int))
    let text := toString (roundHalfEven q.1 q.2)
    signed negative (pointBeforeLast after (zeros (after + 1 - text.length) ++ text))

/-! ## 4. Numbers in data -/

/-- Of two equally near shortest decimals the data format takes the one with the even last digit. -/
def dataTie : Tie := .even

/-- The powers of ten of the leading digit for which the data format needs no exponent. -/
def isPositionalPower (power : Int) : Bool := -5 ≤ power && power ≤ 15

/-- An exponent with its sign. -/
def signedExponent (power : Int) : String :=
  if 0 ≤ power then "+" ++ toString power else toString power

/-- A finite number as data; there is no form for the others. -/
def dataNumber (x : Float) : Option String :=
  match Binary.ofFloat x with
  | .nan => none
  | .infinite _ => none
  | .finite negative mantissa exponent =>
    some <| signed negative <|
      if mantissa = 0 then "0.0"
      else
        let d := shortest dataTie mantissa exponent
        let text := toString d.digits
        let power := d.power + (text.length - 1 : Nat)
        if isPositionalPower power then positional ".0" d
        else pointAfterFirst text ++ "e" ++ signedExponent power

end ForestRescoring.Decimal
