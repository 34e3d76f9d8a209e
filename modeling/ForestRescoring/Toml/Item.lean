/-
# Settings documents: tables

A document is a tree of tables.  How a table came about decides how it may grow: one that a header
names grows only under that header, one that was only on the way to a header may still get a header
of its own, one that a dotted key made grows by dotted keys, and one that is written as a value does
not grow at all.

All growth is by walking a path of keys from some table and changing what is at its end
(`modifyAt`); the walk makes the tables that are missing.
-/
import ForestRescoring.Toml.Number

namespace ForestRescoring.Toml

/-- How a table came about. -/
inductive Origin where
  /-- By a header of its own, or as the root. -/
  | header
  /-- On the way to a header. -/
  | implied
  /-- By a dotted key. -/
  | dotted
  /-- As a value. -/
  | inline
  deriving DecidableEq, Repr

/-- What a key stands for. -/
inductive Item where
  /-- A value without parts. -/
  | atom (a : Atom)
  /-- A list of values. -/
  | array (items : List Item)
  /-- A list of tables with headers. -/
  | tables (elements : List Item)
  /-- A table. -/
  | table (origin : Origin) (members : List (String × Item))

/-- Keys and what they stand for, each key once. -/
abbrev Members := List (String × Item)

/-- Gives a key a new item, or its first. -/
def put (key : String) (item : Item) : Members → Members
  | [] => [(key, item)]
  | m :: rest => if m.1 = key then (key, item) :: rest else m :: put key item rest

/-- A table and its origin. -/
abbrev Table := Origin × Members

/-- How a path is walked: to a header, or along a dotted key. -/
inductive Walk where
  | toHeader
  | alongKey
  deriving DecidableEq, Repr

/-- The origin of the tables that a walk makes. -/
def Walk.origin : Walk → Origin
  | .toHeader => .implied
  | .alongKey => .dotted

/-- The walk may enter a table of this origin. -/
def Walk.mayEnter : Walk → Origin → Bool
  | _, .inline => false
  | .toHeader, _ => true
  | .alongKey, .header => false
  | .alongKey, _ => true

/-- Changes the table at the end of a path; a list of tables is entered at its last element. -/
def modifyAt (walk : Walk) (change : Table → Option Members) : List String → Table → Option Members
  | [], t => change t
  | key :: path, t =>
    match t.2.lookup key with
    | none => do
      let inner ← modifyAt walk change path (walk.origin, [])
      return put key (.table walk.origin inner) t.2
    | some (.table origin members) =>
      if walk.mayEnter origin then do
        let inner ← modifyAt walk change path (origin, members)
        return put key (.table origin inner) t.2
      else none
    | some (.tables elements) =>
      match elements.reverse with
      | .table origin members :: earlier => do
        let inner ← modifyAt walk change path (origin, members)
        return put key (.tables (earlier.reverse ++ [.table origin inner])) t.2
      | _ => none
    | some _ => none

/-- Enters an item under a key that a table does not have yet. -/
def insertNew (key : String) (item : Item) (t : Table) : Option Members :=
  if (t.2.lookup key).isSome then none else some (put key item t.2)

/-- Enters an item under the last of some dotted keys.  The table that gets it has to be one that
dotted keys made, unless there are no keys but one. -/
def insertDotted (path : List String) (key : String) (item : Item) (t : Table) : Option Members :=
  modifyAt .alongKey
    (fun inner =>
      if path.isEmpty || inner.1 == .dotted then insertNew key item inner else none)
    path t

/-- Opens the table that a header names: a new one, or one that was only on the way to others. -/
def openTable (path : List String) (key : String) (root : Members) : Option Members :=
  modifyAt .toHeader
    (fun t =>
      match t.2.lookup key with
      | none => some (put key (.table .header []) t.2)
      | some (.table .implied members) => some (put key (.table .header members) t.2)
      | some _ => none)
    path (.header, root)

/-- Opens a new last element of the list of tables that a header names. -/
def openElement (path : List String) (key : String) (root : Members) : Option Members :=
  modifyAt .toHeader
    (fun t =>
      match t.2.lookup key with
      | none => some (put key (.tables [.table .header []]) t.2)
      | some (.tables elements) =>
        some (put key (.tables (elements ++ [.table .header []])) t.2)
      | some _ => none)
    path (.header, root)

end ForestRescoring.Toml
