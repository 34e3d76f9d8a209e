/-
# Forest files

A forest file has a header, the numbers of vertices and edges, and then for each vertex the number
of its edges and a line for each of them, bottom up.  From the second line on, a line that begins
with `#` is a comment.

Reading is a walk over the numbered lines with the comments left out.  A `Draft` is the part of the
forest that is complete and the vertex that is still open; each line moves it one step
(`Draft.step`), and the walk stops as soon as the declared number of vertices is there, or at the
first line that does not fit.  So every outcome is settled by the lines up to the one where the
walk stops (`ForestReading.linesRead`), and no declared number makes it read on behind the last
line.
-/
import ForestRescoring.Forest.EdgeLine

namespace ForestRescoring

open Text

/-- Why there is no forest. -/
inductive ForestError where
  /-- The file could not be read, or a line encodes no text. -/
  | unreadable (cause : FileError)
  /-- A line is wrong. -/
  | format (line : Nat) (cause : FormatError)
  /-- There are more edges than were declared. -/
  | capacity (cause : PoolExhausted)
  deriving DecidableEq, Repr

/-- The words for a failure to read a forest. -/
def ForestError.message : ForestError → String
  | .unreadable cause => "IO error: " ++ cause.message
  | .format line cause => "line " ++ toString line ++ ": " ++ cause.message
  | .capacity cause => cause.message

/-! ## 1. Lines -/

/-- A line with its number, counted from one; `none` stands for bytes that encode no text. -/
abbrev NumberedLine := Option String × Nat

/-- The header of a file without coverages. -/
def plainHeader : String := "# target ||| features"

/-- The header of a file with coverages. -/
def coverageHeader : String := "# target ||| features ||| source-covered"

/-- The line is a comment. -/
def isComment (line : String) : Bool := line.toList.head? = some '#'

/-- The line is not a comment; one that encodes no text is kept, to be found out when it is
reached. -/
def isContent (l : NumberedLine) : Bool := l.1.all fun line => !isComment line

/-- The characters of a line without the carriage returns at its end. -/
def lineBody (line : String) : List Char :=
  dropTrailing (fun c => c == '\r' || c == '\n') line.toList

/-! ## 2. A forest in the making -/

/-- A vertex whose edges are being read. -/
structure OpenVertex where
  /-- Edges still to come. -/
  remaining : Nat
  /-- The edges that have come. -/
  incoming : List EdgeId
  /-- The largest coverage of an edge so far. -/
  covered : Nat

/-- The vertices that are complete, and the one that is open, if one is. -/
structure Draft where
  forest : Forest Float
  current : Option OpenVertex

namespace Draft

/-- All declared vertices are there. -/
def isComplete (d : Draft) : Bool :=
  d.current.isNone && d.forest.vertices.size == d.forest.vertexCapacity

/-- Closes a vertex that has all its edges, and keeps one that has not open. -/
def settle (f : Forest Float) (v : OpenVertex) : Except ForestError Draft :=
  if v.remaining = 0 then
    match f.addVertex ⟨v.incoming, v.covered⟩ with
    | .error e => .error (.capacity e)
    | .ok added => .ok ⟨added.2, none⟩
  else .ok ⟨f, some v⟩

/-- Reads the number of edges of the next vertex. -/
def openVertex (f : Forest Float) (number : Nat) (line : List Char) : Except ForestError Draft :=
  match count? (trim line) with
  | none => .error (.format number (.badEdgeCount (String.ofList line)))
  | some n => settle f ⟨n, [], 0⟩

/-- Adds an edge that was read to the open vertex. -/
def addEdge (f : Forest Float) (v : OpenVertex) (e : Edge Float) (covered : Nat) :
    Except ForestError Draft :=
  match f.addEdge e with
  | .error e => .error (.capacity e)
  | .ok added =>
    settle added.2 ⟨v.remaining - 1, v.incoming ++ [added.1], max v.covered covered⟩

/-- What the next line makes of the draft, and of the lexicon. -/
def step (d : Draft) (x : Lexicon) (number : Nat) (line : List Char) :
    Except ForestError Draft × Lexicon :=
  match d.current with
  | none => (openVertex d.forest number line, x)
  | some v =>
    let read := EdgeLine.read d.forest.vertices.size x line
    match read.1 with
    | .error e => (.error (.format number e), read.2)
    | .ok e => (addEdge d.forest v e.1 e.2, read.2)

/-- The forest of a complete draft; `number` is that of the last line read. -/
def finish (d : Draft) (number : Nat) : Except ForestError (Forest Float) :=
  if d.forest.edges.size = d.forest.edgeCapacity then .ok d.forest
  else .error (.format number (.edgeCountMismatch d.forest.edgeCapacity d.forest.edges.size))

end Draft

/-! ## 3. The walk -/

/-- What reading a file came to. -/
structure ForestReading where
  outcome : Except ForestError (Forest Float)
  /-- The lexicon with all words that were reached. -/
  lexicon : Lexicon
  /-- The number of the last line that was read. -/
  linesRead : Nat

namespace ForestReading

/-- Reads lines until the draft is complete.  `number` is that of the last line read, and `total`
the number of all lines. -/
def readBody (total : Nat) (d : Draft) (x : Lexicon) (number : Nat) :
    List NumberedLine → ForestReading
  | [] =>
    if d.isComplete then ⟨d.finish number, x, number⟩
    else ⟨.error (.format total .unexpectedEnd), x, total⟩
  | (line, n) :: rest =>
    if d.isComplete then ⟨d.finish number, x, number⟩
    else
      match line with
      | none => ⟨.error (.unreadable .invalidText), x, n⟩
      | some text =>
        let stepped := d.step x n (lineBody text)
        match stepped.1 with
        | .error e => ⟨.error e, stepped.2, n⟩
        | .ok next => readBody total next stepped.2 n rest

/-- The two numbers of the second line. -/
def counts? (line : List Char) : Option (Nat × Nat) :=
  match words line with
  | [v, e] => (count? v).bind fun v => (count? e).map fun e => (v, e)
  | _ => none

/-- Reads the numbers of vertices and edges, and then the vertices. -/
def readCounts (total : Nat) (x : Lexicon) : List NumberedLine → ForestReading
  | [] => ⟨.error (.format total .unexpectedEnd), x, total⟩
  | (none, n) :: _ => ⟨.error (.unreadable .invalidText), x, n⟩
  | (some text, n) :: rest =>
    match counts? (lineBody text) with
    | none => ⟨.error (.format n (.badCounts (String.ofList (lineBody text)))), x, n⟩
    | some (v, e) => readBody total ⟨.withCapacity v e, none⟩ x n rest

/-- Reads a whole file, given as its lines. -/
def ofLines (x : Lexicon) : List (Option String) → ForestReading
  | [] => ⟨.error (.format 1 .emptyInput), x, 0⟩
  | none :: _ => ⟨.error (.unreadable .invalidText), x, 1⟩
  | some first :: rest =>
    let header := String.ofList (trimEnd first.toList)
    if header = plainHeader ∨ header = coverageHeader then
      readCounts (rest.length + 1) x ((rest.zipIdx 2).filter isContent)
    else ⟨.error (.format 1 (.incorrectHeader header)), x, 1⟩

/-- Reads the bytes of a file. -/
def ofBytes (x : Lexicon) (bytes : ByteArray) : ForestReading := ofLines x (decodedLines bytes)

/-- Reads what was opened. -/
def ofOpened (x : Lexicon) (opened : Opened) : ForestReading :=
  match Files.contents opened with
  | .error cause => ⟨.error (.unreadable cause), x, 0⟩
  | .ok bytes => ofBytes x bytes

end ForestReading

end ForestRescoring
