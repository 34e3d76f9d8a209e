/-
# JSON values

Reports can be written as JSON.  A value is put together from counts, numbers and strings
(`JsonValue`), and its text has no blanks between the parts (`JsonValue.text`).  A string has escapes
for quotes, backslashes and control characters only, so what is written for it never holds a line break
(`newline_notMem_escape`).
-/
import ForestRescoring.Decimal.Notation

namespace ForestRescoring

/-- What is written as JSON. -/
inductive JsonValue where
  | count (n : Nat)
  | real (x : Float)
  | string (s : String)
  | list (items : List JsonValue)
  | object (members : List (String × JsonValue))

namespace JsonValue

/-- The hexadecimal digit for a number below sixteen. -/
def hexDigit (n : Nat) : Char := Char.ofNat (if n < 10 then '0'.toNat + n else 'a'.toNat + (n - 10))

/-- A character as it stands in a string. -/
def escape (c : Char) : List Char :=
  if c = '"' then ['\\', '"']
  else if c = '\\' then ['\\', '\\']
  else if c = '\n' then ['\\', 'n']
  else if c = '\r' then ['\\', 'r']
  else if c = '\t' then ['\\', 't']
  else if c.toNat = 8 then ['\\', 'b']
  else if c.toNat = 12 then ['\\', 'f']
  else if c.toNat < 32 then ['\\', 'u', '0', '0', hexDigit (c.toNat / 16), hexDigit (c.toNat % 16)]
  else [c]

/-- No character is written with a line break in it. -/
theorem newline_notMem_escape (c : Char) : '\n' ∉ escape c := by
  unfold escape
  repeat' split
  · decide
  · decide
  · decide
  · decide
  · decide
  · decide
  · decide
  · next h =>
    have hd : ∀ n < 16, hexDigit n ≠ '\n' := by decide
    simp [Ne.symm (hd (c.toNat / 16) (by omega)), Ne.symm (hd (c.toNat % 16) (by omega))]
  · next h _ _ _ _ _ => simpa [eq_comm] using h

/-- The text of a string. -/
def quoted (s : String) : String := "\"" ++ String.ofList (s.toList.flatMap escape) ++ "\""

mutual

/-- The text of a value.  A number that is not finite has no JSON form and is written as nothing
known. -/
def text : JsonValue → String
  | .count n => toString n
  | .real x => (Decimal.dataNumber x).getD "null"
  | .string s => quoted s
  | .list items => "[" ++ ",".intercalate (itemTexts items) ++ "]"
  | .object members => "\x7b" ++ ",".intercalate (memberTexts members) ++ "\x7d"

/-- The texts of several values. -/
def itemTexts : List JsonValue → List String
  | [] => []
  | v :: rest => v.text :: itemTexts rest

/-- The texts of several names with their values. -/
def memberTexts : List (String × JsonValue) → List String
  | [] => []
  | (name, v) :: rest => (quoted name ++ ":" ++ v.text) :: memberTexts rest

end

end JsonValue

end ForestRescoring
