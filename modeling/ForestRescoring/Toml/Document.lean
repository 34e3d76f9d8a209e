/-
# Settings documents: values and lines

Values nest, and so do dotted keys, but only so far (`maxDepth`): that bounds the recursion of the
reader for values, and deeper documents are refused.  The loops over the elements of a list, the
pairs of a table and the lines of a document are bounded by the length of the text, as every round
uses up some of it.
-/
import ForestRescoring.Toml.Item

namespace ForestRescoring.Toml

/-- The most keys in a dotted key, and the most lists and tables that are values one inside the
other. -/
def maxDepth : Nat := 79

/-! ## 1. Lists and tables as values -/

/-- The elements of a list, behind its opening bracket or a comma. -/
def elements (value : Reader Item) : Nat → Reader (List Item)
  | 0 => fun _ => none
  | fuel + 1 => fun s => do
    let start ← skipBlank false s
    match start with
    | ']' :: rest => return ([], rest)
    | _ =>
      let first ← value start
      let behind ← skipBlank false first.2
      match behind with
      | ']' :: rest => return ([first.1], rest)
      | ',' :: rest =>
        let later ← elements value fuel rest
        return (first.1 :: later.1, later.2)
      | _ => none

/-- A key, an equals sign and a value. -/
def pair (value : Reader Item) : Reader (List String × Item) := fun s => do
  let path ← keys maxDepth s
  match path.2 with
  | '=' :: rest =>
    let found ← value (skipSpaces rest)
    return ((path.1, found.1), found.2)
  | _ => none

/-- Enters an item under dotted keys. -/
def insertPath (path : List String) (item : Item) (t : Table) : Option Members := do
  let key ← path.getLast?
  insertDotted path.dropLast key item t

/-- The pairs of a table that is a value, behind its opening brace or a comma. -/
def pairs (value : Reader Item) : Nat → Members → Reader Members
  | 0, _ => fun _ => none
  | fuel + 1, members => fun s => do
    let found ← pair value s
    let entered ← insertPath found.1.1 found.1.2 (.header, members)
    match skipSpaces found.2 with
    | '\x7d' :: rest => return (entered, rest)
    | ',' :: rest => pairs value fuel entered rest
    | _ => none

/-- A table that is a value, behind its opening brace. -/
def inlineTable (value : Reader Item) : Reader Item := fun s =>
  match skipSpaces s with
  | '\x7d' :: rest => some (.table .inline [], rest)
  | _ => (pairs value (s.length + 1) [] s).map fun r => (.table .inline r.1, r.2)

/-- A value inside which others may nest so deep. -/
def value : Nat → Reader Item
  | 0 => fun s => (atom s).map fun r => (.atom r.1, r.2)
  | depth + 1 => fun s =>
    match s with
    | '[' :: rest =>
      (elements (value depth) (rest.length + 1) rest).map fun r => (.array r.1, r.2)
    | '\x7b' :: rest => inlineTable (value depth) rest
    | _ => (atom s).map fun r => (.atom r.1, r.2)

/-! ## 2. Lines -/

/-- The tables so far, and the path of the one that is open. -/
structure State where
  root : Members
  current : List String

/-- Enters a pair into the open table. -/
def State.enter (t : State) (path : List String) (item : Item) : Option State := do
  let root ← modifyAt .toHeader (insertPath path item) t.current (.header, t.root)
  return { t with root := root }

/-- A header in double brackets, behind the brackets. -/
def elementHeader (t : State) : Reader State := fun s => do
  let path ← keys maxDepth s
  match path.2 with
  | ']' :: ']' :: rest =>
    let key ← path.1.getLast?
    let root ← openElement path.1.dropLast key t.root
    return (⟨root, path.1⟩, rest)
  | _ => none

/-- A header in single brackets, behind the bracket. -/
def tableHeader (t : State) : Reader State := fun s => do
  let path ← keys maxDepth s
  match path.2 with
  | ']' :: rest =>
    let key ← path.1.getLast?
    let root ← openTable path.1.dropLast key t.root
    return (⟨root, path.1⟩, rest)
  | _ => none

/-- A line, up to its end: nothing, a comment, a header or a pair. -/
def line (t : State) : Reader State := fun s =>
  match skipSpaces s with
  | [] => some (t, [])
  | '#' :: rest => some (t, '#' :: rest)
  | '\n' :: rest => some (t, '\n' :: rest)
  | '\r' :: rest => some (t, '\r' :: rest)
  | '[' :: '[' :: rest => elementHeader t rest
  | '[' :: rest => tableHeader t rest
  | start => do
    let found ← pair (value maxDepth) start
    let entered ← t.enter found.1.1 found.1.2
    return (entered, found.2)

/-- The lines of a document. -/
def document (t : State) : Nat → List Char → Option Members
  | 0, _ => none
  | _ + 1, [] => some t.root
  | fuel + 1, s => do
    let read ← line t s
    let rest ← lineEnd? read.2
    document read.1 fuel rest

/-- The text without the mark of its encoding, if it starts with one. -/
def skipMark : List Char → List Char
  | '\uFEFF' :: s => s
  | s => s

/-- The root table of a document. -/
def parse? (text : String) : Option Members :=
  let s := skipMark text.toList
  document ⟨[], []⟩ (s.length + 1) s

end ForestRescoring.Toml
