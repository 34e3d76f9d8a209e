/-
# Settings documents: blanks, keys and strings

A settings document is in the TOML format, version 1.0.  This module has what stands below values:
blanks, comments and line ends, keys, and the four kinds of strings.

A reader takes a text and gives what it read and the rest of the text, or nothing if the text does
not begin that way.  Nothing is said of the reason, as no message tells it.
-/
namespace ForestRescoring.Toml

/-- What was read at the start of a text, and the rest. -/
abbrev Reader (α : Type) := List Char → Option (α × List Char)

/-! ## 1. Blanks, comments and line ends -/

/-- A space or a tab. -/
def isSpace (c : Char) : Bool := c == ' ' || c == '\t'

/-- The text behind its leading spaces and tabs. -/
def skipSpaces (s : List Char) : List Char := s.dropWhile isSpace

/-- A tab or a character that is not a control character. -/
def isPlain (c : Char) : Bool := c == '\t' || (0x20 ≤ c.toNat && c.toNat ≤ 0x7E) || 0x80 ≤ c.toNat

/-- The text behind a newline, with or without a carriage return in front. -/
def newline? : List Char → Option (List Char)
  | '\n' :: s => some s
  | '\r' :: '\n' :: s => some s
  | _ => none

/-- The text behind a comment, if it starts with one. -/
def skipComment : List Char → List Char
  | '#' :: s => s.dropWhile isPlain
  | s => s

/-- The text behind the end of a line: spaces, a comment, and a newline unless the text ends. -/
def lineEnd? (s : List Char) : Option (List Char) :=
  match skipComment (skipSpaces s) with
  | [] => some []
  | rest => newline? rest

/-- The text behind spaces, newlines and whole comments; inside a comment only plain characters may
stand. -/
def skipBlank (inComment : Bool) : List Char → Option (List Char)
  | [] => some []
  | '\n' :: s => skipBlank false s
  | '\r' :: '\n' :: s => skipBlank false s
  | c :: s =>
    if inComment then (if isPlain c then skipBlank true s else none)
    else if isSpace c then skipBlank false s
    else if c = '#' then skipBlank true s
    else some (c :: s)

/-! ## 2. Escapes -/

/-- The value of a hexadecimal digit. -/
def hexDigit? (c : Char) : Option Nat :=
  if c.isDigit then some (c.toNat - '0'.toNat)
  else if 'a' ≤ c ∧ c ≤ 'f' then some (c.toNat - 'a'.toNat + 10)
  else if 'A' ≤ c ∧ c ≤ 'F' then some (c.toNat - 'A'.toNat + 10)
  else none

/-- The character whose code point hexadecimal digits write. -/
def unicode? (digits : List Char) : Option Char := do
  let n ← digits.foldlM (fun n c => return 16 * n + (← hexDigit? c)) 0
  if n.isValidChar then some (Char.ofNat n) else none

/-- The character that a letter behind a backslash stands for. -/
def escape? : Char → Option Char
  | 'b' => some (Char.ofNat 8)
  | 't' => some '\t'
  | 'n' => some '\n'
  | 'f' => some (Char.ofNat 12)
  | 'r' => some '\r'
  | '"' => some '"'
  | '\\' => some '\\'
  | _ => none

/-- Puts a character in front of what was read. -/
def before (c : Char) : Option (List Char × List Char) → Option (List Char × List Char) :=
  Option.map fun r => (c :: r.1, r.2)

/-! ## 3. Strings -/

/-- A string with escapes, behind its opening quote. -/
def basicBody : Reader (List Char)
  | '"' :: s => some ([], s)
  | '\\' :: 'u' :: a :: b :: c :: d :: s =>
    (unicode? [a, b, c, d]).bind fun x => before x (basicBody s)
  | '\\' :: 'U' :: a :: b :: c :: d :: e :: f :: g :: h :: s =>
    (unicode? [a, b, c, d, e, f, g, h]).bind fun x => before x (basicBody s)
  | '\\' :: e :: s => (escape? e).bind fun x => before x (basicBody s)
  | c :: s => if isPlain c && c != '\\' then before c (basicBody s) else none
  | [] => none

/-- A string without escapes, behind its opening quote. -/
def literalBody : Reader (List Char)
  | '\'' :: s => some ([], s)
  | c :: s => if isPlain c then before c (literalBody s) else none
  | [] => none

/-- The text goes on, behind spaces, on the next line. -/
def breaksLine (s : List Char) : Bool := (newline? (skipSpaces s)).isSome

/-- A string with escapes over several lines, behind its opening quotes.  One or two quotes may
stand inside, also right before the closing three.  A backslash at the end of a line drops the
line break and all blanks behind it; `skipping` says that such blanks are being dropped. -/
def multilineBody (skipping : Bool) : Reader (List Char)
  | '"' :: '"' :: '"' :: '"' :: '"' :: s => some (['"', '"'], s)
  | '"' :: '"' :: '"' :: '"' :: s => some (['"'], s)
  | '"' :: '"' :: '"' :: s => some ([], s)
  | '\\' :: 'u' :: a :: b :: c :: d :: s =>
    (unicode? [a, b, c, d]).bind fun x => before x (multilineBody false s)
  | '\\' :: 'U' :: a :: b :: c :: d :: e :: f :: g :: h :: s =>
    (unicode? [a, b, c, d, e, f, g, h]).bind fun x => before x (multilineBody false s)
  | '\\' :: e :: s =>
    match escape? e with
    | some x => before x (multilineBody false s)
    | none => if breaksLine (e :: s) then multilineBody true (e :: s) else none
  | '\r' :: '\n' :: s =>
    if skipping then multilineBody true s else before '\n' (multilineBody false s)
  | c :: s =>
    if skipping && (isSpace c || c == '\n') then multilineBody true s
    else if c == '\n' || (isPlain c && c != '\\') then before c (multilineBody false s)
    else none
  | [] => none

/-- A string without escapes over several lines, behind its opening quotes. -/
def multilineLiteralBody : Reader (List Char)
  | '\'' :: '\'' :: '\'' :: '\'' :: '\'' :: s => some (['\'', '\''], s)
  | '\'' :: '\'' :: '\'' :: '\'' :: s => some (['\''], s)
  | '\'' :: '\'' :: '\'' :: s => some ([], s)
  | '\r' :: '\n' :: s => before '\n' (multilineLiteralBody s)
  | c :: s => if c == '\n' || isPlain c then before c (multilineLiteralBody s) else none
  | [] => none

/-- The text behind a newline right after opening quotes, which does not count. -/
def skipFirstNewline (s : List Char) : List Char := (newline? s).getD s

/-- A string of any kind. -/
def string : Reader String := fun s =>
  let body := match s with
    | '"' :: '"' :: '"' :: rest => multilineBody false (skipFirstNewline rest)
    | '"' :: rest => basicBody rest
    | '\'' :: '\'' :: '\'' :: rest => multilineLiteralBody (skipFirstNewline rest)
    | '\'' :: rest => literalBody rest
    | _ => none
  body.map fun r => (String.ofList r.1, r.2)

/-! ## 4. Keys -/

/-- A character of a key without quotes. -/
def isKeyChar (c : Char) : Bool := c.isAlphanum || c == '-' || c == '_'

/-- One key, with or without quotes. -/
def simpleKey : Reader String := fun s =>
  match s with
  | '"' :: rest => (basicBody rest).map fun r => (String.ofList r.1, r.2)
  | '\'' :: rest => (literalBody rest).map fun r => (String.ofList r.1, r.2)
  | _ =>
    match s.takeWhile isKeyChar with
    | [] => none
    | key => some (String.ofList key, s.dropWhile isKeyChar)

/-- Keys with dots between them and spaces around them, at most `room`. -/
def keys : Nat → Reader (List String)
  | 0 => fun _ => none
  | room + 1 => fun s => do
    let first ← simpleKey (skipSpaces s)
    match skipSpaces first.2 with
    | '.' :: rest =>
      let later ← keys room rest
      return (first.1 :: later.1, later.2)
    | rest => return ([first.1], rest)

end ForestRescoring.Toml
