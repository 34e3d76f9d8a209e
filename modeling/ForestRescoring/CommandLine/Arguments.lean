/-
# Arguments

A command takes options and positional arguments in any order.  An option has a long name and
perhaps a one-letter one; it is a switch or takes one value, which is attached to it or is the next
argument.  Behind a lone `--` every argument is positional.

What starts with a dash is an option and no value, with two exceptions: a lone dash, and a negative
number where the option that waits for a value takes such numbers.

`Reading.scan` walks over the arguments once.  It stops at a request for help, at the first argument
that does not fit, and, if asked to, at the first positional argument, which is how the name of a
command is found.
-/
import ForestRescoring.Decimal.Reading

namespace ForestRescoring.CommandLine

open Text

/-! ## 1. Options -/

/-- What an option is about. -/
inductive Topic where
  | help
  | config
  | references
  | weights
  | bleuWeight
  | sentence
  | json
  deriving DecidableEq, Repr

/-- What an option takes. -/
inductive Value where
  /-- Nothing. -/
  | none
  /-- Any text. -/
  | text
  /-- A count. -/
  | count
  /-- A number, which may be negative. -/
  | number
  deriving DecidableEq, Repr

/-- An option: its names, its value, and whether it may be given more than once. -/
structure Choice where
  topic : Topic
  short : Option Char
  long : String
  value : Value
  repeats : Bool

/-- The text is a value of this kind. -/
def Value.accepts (v : Value) (s : String) : Bool :=
  match v with
  | .none => false
  | .text => true
  | .count => (count? s.toList).isSome
  | .number => (Decimal.number? s.toList).isSome

/-- What a command takes. -/
structure Form where
  choices : List Choice
  /-- How many positional arguments there may be; without a bound the last one repeats. -/
  capacity : Option Nat

/-! ## 2. Arguments that were read -/

/-- The arguments so far. -/
structure Reading where
  /-- The options given, with their values, in order. -/
  options : List (Topic × String)
  /-- The positional arguments, in order. -/
  positionals : List String
  /-- The option that waits for its value. -/
  awaiting : Option Choice
  /-- A lone `--` was given. -/
  closed : Bool

/-- Why no command can be run. -/
inductive Stop where
  /-- Help was asked for. -/
  | help
  /-- The arguments make no sense. -/
  | usage
  deriving DecidableEq, Repr

namespace Reading

/-- No arguments yet. -/
def start : Reading := ⟨[], [], none, false⟩

/-- The option was given. -/
def has (r : Reading) (t : Topic) : Bool := r.options.any fun o => o.1 == t

/-- The values of an option, in the order in which they were given. -/
def values (r : Reading) (t : Topic) : List String :=
  (r.options.filter fun o => o.1 == t).map Prod.snd

/-- Enters an option, unless it was given before and does not repeat. -/
def enter (r : Reading) (c : Choice) (value : String) : Except Stop Reading :=
  if r.has c.topic && !c.repeats then .error .usage
  else .ok { r with options := r.options ++ [(c.topic, value)], awaiting := none }

/-- Enters the value of an option. -/
def enterValue (r : Reading) (c : Choice) (value : String) : Except Stop Reading :=
  if c.value.accepts value then r.enter c value else .error .usage

/-- Enters a switch. -/
def enterSwitch (r : Reading) (c : Choice) : Except Stop Reading :=
  if c.topic = .help then .error .help else r.enter c ""

/-- Enters a positional argument. -/
def enterPositional (f : Form) (r : Reading) (a : String) : Except Stop Reading :=
  if f.capacity.all fun n => decide (r.positionals.length < n) then
    .ok { r with positionals := r.positionals ++ [a] }
  else .error .usage

/-! ## 3. One argument -/

/-- The text behind a dash looks like a number: digits, a point behind the first of them, and the
letter of an exponent behind the first and before the last. -/
def looksNumeric (s : List Char) : Bool :=
  let mantissa := s.takeWhile fun c => !Decimal.isExponentMark c
  let exponent := s.dropWhile fun c => !Decimal.isExponentMark c
  let whole := mantissa.takeWhile Char.isDigit
  let fraction := mantissa.dropWhile Char.isDigit
  let mantissaFits := match fraction with
    | [] => true
    | c :: rest => c == '.' && !whole.isEmpty && rest.all Char.isDigit
  let exponentFits := match exponent with
    | [] => true
    | _ :: rest => !mantissa.isEmpty && !rest.isEmpty && rest.all Char.isDigit
  mantissaFits && exponentFits

/-- Reads an option by its long name, with the value attached to it if there is one. -/
def long (f : Form) (r : Reading) (s : List Char) : Except Stop Reading :=
  let name := String.ofList (s.takeWhile (· != '='))
  match f.choices.find? fun c => c.long == name, s.dropWhile (· != '=') with
  | none, _ => .error .usage
  | some c, [] => if c.value = .none then r.enterSwitch c else .ok { r with awaiting := some c }
  | some c, _ :: value =>
    if c.value = .none then .error .usage else r.enterValue c (String.ofList value)

/-- Reads options by their short names; what follows one that takes a value is its value. -/
def short (f : Form) (r : Reading) : List Char → Except Stop Reading
  | [] => .ok r
  | c :: rest =>
    match f.choices.find? fun o => o.short == some c with
    | none => .error .usage
    | some o =>
      if o.value = .none then (r.enterSwitch o).bind fun r => short f r rest
      else match rest with
        | [] => .ok { r with awaiting := some o }
        | '=' :: value => r.enterValue o (String.ofList value)
        | value => r.enterValue o (String.ofList value)

/-- Reads an argument that is no option. -/
def plain (f : Form) (r : Reading) (a : String) : Except Stop Reading :=
  match r.awaiting with
  | some c => r.enterValue c a
  | none => enterPositional f r a

/-- Reads the next argument. -/
def step (f : Form) (r : Reading) (a : String) : Except Stop Reading :=
  if r.closed then enterPositional f r a
  else match a.toList with
    | ['-', '-'] => if r.awaiting.isSome then .error .usage else .ok { r with closed := true }
    | '-' :: '-' :: s => if r.awaiting.isSome then .error .usage else long f r s
    | '-' :: c :: s =>
      match r.awaiting with
      | some o =>
        if o.value = .number && looksNumeric (c :: s) then r.enterValue o a else .error .usage
      | none => short f r (c :: s)
    | _ => plain f r a

/-! ## 4. All arguments -/

/-- Reads all arguments. -/
def scan (f : Form) (r : Reading) : List String → Except Stop Reading
  | [] => if r.awaiting.isSome then .error .usage else .ok r
  | a :: rest => (r.step f a).bind fun r => scan f r rest

/-- Reads options up to the first argument that is none, which names a command.  Behind a lone `--`
no command can be named. -/
def scanToName (f : Form) (r : Reading) : List String → Except Stop (Reading × String × List String)
  | [] => .error .usage
  | a :: rest =>
    let isName := r.awaiting.isNone && !r.closed && (a.toList.head? != some '-' || a == "-")
    if isName then .ok (r, a, rest)
    else (r.step f a).bind fun r => scanToName f r rest

end Reading

end ForestRescoring.CommandLine
