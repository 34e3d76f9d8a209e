/-
# Settings documents: numbers and dates

Numbers and dates are made of characters that nothing else is made of outside strings and keys, so
the whole run of such characters is taken first and then has to be one of them.  A date may go on
behind a space with a time.
-/
import ForestRescoring.Toml.Lexical
import ForestRescoring.Decimal.Reading
import ForestRescoring.Scalar

namespace ForestRescoring.Toml

/-- A value that has no parts, as far as settings can tell values apart. -/
inductive Atom where
  | text (s : String)
  | integer (n : Int)
  | real (x : Float)
  | boolean (b : Bool)
  | moment

/-! ## 1. Integers -/

/-- Digits with single underscores between them; `digit` tells which characters are digits. -/
def grouped (digit : Char → Bool) : List Char → Bool
  | [] => false
  | [c] => digit c
  | c :: '_' :: d :: s => digit c && grouped digit (d :: s)
  | c :: d :: s => digit c && grouped digit (d :: s)

/-- The characters other than underscores. -/
def ungrouped (s : List Char) : List Char := s.filter (· != '_')

/-- The number that digits to a base write. -/
def valueInBase (base : Nat) (s : List Char) : Nat :=
  (ungrouped s).foldl (fun n c => base * n + (hexDigit? c).getD 0) 0

/-- The character is a digit to a base, of at most sixteen. -/
def isDigitInBase (base : Nat) (c : Char) : Bool := (hexDigit? c).any (· < base)

/-- Grouped decimal digits that do not start with a zero, or one zero. -/
def isWhole (s : List Char) : Bool :=
  grouped Char.isDigit s && (s.head? != some '0' || s.length == 1)

/-- An integer has to fit into 64 bits with its sign. -/
def bounded? (n : Int) : Option Int :=
  if -(Int.pow 2 63) ≤ n ∧ n < Int.pow 2 63 then some n else none

/-- Digits behind the mark of a base. -/
def basedInteger? (base : Nat) (s : List Char) : Option Int :=
  if grouped (isDigitInBase base) s then bounded? (valueInBase base s) else none

/-- An integer. -/
def integer? : List Char → Option Int
  | '0' :: 'x' :: s => basedInteger? 16 s
  | '0' :: 'o' :: s => basedInteger? 8 s
  | '0' :: 'b' :: s => basedInteger? 2 s
  | s =>
    let parts := Decimal.splitSign s
    if isWhole parts.2 then
      let size : Int := valueInBase 10 parts.2
      bounded? (if parts.1 then -size else size)
    else none

/-! ## 2. Numbers with a fraction or an exponent -/

/-- A digit or an underscore. -/
def isGroupChar (c : Char) : Bool := c.isDigit || c == '_'

/-- The exponent of a number. -/
def isExponent : List Char → Bool
  | e :: s => Decimal.isExponentMark e && grouped Char.isDigit (Decimal.splitSign s).2
  | [] => false

/-- What follows the whole part of a number that is not an integer. -/
def isFractional : List Char → Bool
  | '.' :: s =>
    let rest := s.dropWhile isGroupChar
    grouped Char.isDigit (s.takeWhile isGroupChar) && (rest.isEmpty || isExponent rest)
  | s => isExponent s

/-- A number that may be infinite or none.  Digits must not write a number that is too large, but
may write one that is too small in the other direction. -/
def real? (s : List Char) : Option Float :=
  let body := (Decimal.splitSign s).2
  if body = ['i', 'n', 'f'] ∨ body = ['n', 'a', 'n'] then Decimal.number? s
  else if isWhole (body.takeWhile isGroupChar) && isFractional (body.dropWhile isGroupChar) then
    (Decimal.number? (ungrouped s)).filter fun x => !(Scalar.same x Decimal.infinity)
  else none

/-! ## 3. Dates and times -/

/-- The number that two decimal digits write, if it lies between the bounds. -/
def twoDigits? (low high : Nat) (a b : Char) : Option Nat :=
  let n := Text.digitsValue [a, b]
  if a.isDigit ∧ b.isDigit ∧ low ≤ n ∧ n ≤ high then some n else none

/-- The year has a twenty-ninth of February. -/
def isLeapYear (year : Nat) : Bool := year % 4 == 0 && (year % 100 != 0 || year % 400 == 0)

/-- The number of days of a month. -/
def daysInMonth (year month : Nat) : Nat :=
  if month = 2 then (if isLeapYear year then 29 else 28)
  else if month = 4 ∨ month = 6 ∨ month = 9 ∨ month = 11 then 30
  else 31

/-- The text behind a date. -/
def date? : List Char → Option (List Char)
  | a :: b :: c :: d :: '-' :: e :: f :: '-' :: g :: h :: s =>
    if [a, b, c, d].all Char.isDigit then do
      let month ← twoDigits? 1 12 e f
      let _ ← twoDigits? 1 (daysInMonth (Text.digitsValue [a, b, c, d]) month) g h
      return s
    else none
  | _ => none

/-- The text behind a time of day; the last second of a day may be a sixty-first. -/
def time? : List Char → Option (List Char)
  | a :: b :: ':' :: c :: d :: ':' :: e :: f :: s => do
    let _ ← twoDigits? 0 23 a b
    let _ ← twoDigits? 0 59 c d
    let _ ← twoDigits? 0 60 e f
    match s with
    | '.' :: fraction =>
      if (fraction.takeWhile Char.isDigit).isEmpty then none
      else some (fraction.dropWhile Char.isDigit)
    | _ => some s
  | _ => none

/-- A distance from universal time, or none. -/
def isOffset : List Char → Bool
  | [] => true
  | ['Z'] => true
  | ['z'] => true
  | [sign, a, b, ':', c, d] =>
    (sign == '+' || sign == '-') && (twoDigits? 0 23 a b).isSome && (twoDigits? 0 59 c d).isSome
  | _ => false

/-- A time of day with a distance from universal time, or without. -/
def isOffsetTime (s : List Char) : Bool := (time? s).any isOffset

/-- A date, a time, or both with the letter between them. -/
def isMoment (s : List Char) : Bool :=
  match date? s with
  | some [] => true
  | some (t :: rest) => (t == 'T' || t == 't') && isOffsetTime rest
  | none => (time? s).any List.isEmpty

/-! ## 4. Reading -/

/-- A character of numbers and dates. -/
def isNumeric (c : Char) : Bool :=
  c.isAlphanum || c == '+' || c == '-' || c == '_' || c == '.' || c == ':'

/-- What a run of such characters is. -/
def numericAtom? (s : List Char) : Option Atom :=
  ((integer? s).map Atom.integer).or
    (((real? s).map Atom.real).or (if isMoment s then some .moment else none))

/-- The text behind a time that follows a date and a space. -/
def skipTime (run rest : List Char) : List Char :=
  match rest with
  | ' ' :: s =>
    if date? run = some [] ∧ isOffsetTime (s.takeWhile isNumeric) then s.dropWhile isNumeric
    else rest
  | _ => rest

/-- A value without parts. -/
def atom : Reader Atom := fun s =>
  match s with
  | '"' :: _ => (string s).map fun r => (.text r.1, r.2)
  | '\'' :: _ => (string s).map fun r => (.text r.1, r.2)
  | _ =>
    let run := s.takeWhile isNumeric
    let rest := s.dropWhile isNumeric
    if run = ['t', 'r', 'u', 'e'] then some (.boolean true, rest)
    else if run = ['f', 'a', 'l', 's', 'e'] then some (.boolean false, rest)
    else (numericAtom? run).map fun a => (a, skipTime run rest)

end ForestRescoring.Toml
