/-
# The line of an edge

An edge line is a row of words, cut by the word `|||` into at most three fields: the target side,
the features and the coverage.  On the target side a word in brackets is a gap for a vertex that is
already defined and every other word is itself; a feature is a name and a finite number with an
equals sign between them, the last one if there are several; the coverage is one count, or absent.

The words of the target side enter the lexicon from left to right, and those in front of an error
have entered it when the error is found.
-/
import ForestRescoring.Forest.Basic
import ForestRescoring.Decimal.Reading
import ForestRescoring.Text.Blank
import ForestRescoring.Text.Lines
import ForestRescoring.Text.Numeral
import ForestRescoring.Files.Basic

namespace ForestRescoring

open Text

/-! ## 1. What can be wrong with a forest file -/

/-- What is wrong with a line, or with the lines as a whole. -/
inductive FormatError where
  /-- There is no line at all. -/
  | emptyInput
  /-- The first line is not one of the two headers. -/
  | incorrectHeader (line : String)
  /-- The lines end before the forest does. -/
  | unexpectedEnd
  /-- Not the two numbers of vertices and edges. -/
  | badCounts (line : String)
  /-- Not the number of edges of a vertex. -/
  | badEdgeCount (line : String)
  /-- More than three fields in an edge. -/
  | tooManyFields (line : String)
  /-- A word in brackets that names no vertex. -/
  | badGap (token : String)
  /-- A gap for a vertex that is not defined yet. -/
  | undefinedVertex (child defined : Nat)
  /-- A feature without an equals sign. -/
  | badFeature (token : String)
  /-- A feature whose value is not a finite number. -/
  | badValue (value : String)
  /-- A coverage that is not a count. -/
  | badCoverage (token : String)
  /-- More than one coverage. -/
  | severalCoverages (line : String)
  /-- The edges are not as many as the second line says. -/
  | edgeCountMismatch (declared read : Nat)
  deriving DecidableEq, Repr

/-- The words for what is wrong. -/
def FormatError.message : FormatError → String
  | .emptyInput => "empty input"
  | .incorrectHeader line => "incorrect header on first line: '" ++ line ++ "'"
  | .unexpectedEnd => "unexpected end of input"
  | .badCounts line => "expected '<vertices> <edges>', got '" ++ line ++ "'"
  | .badEdgeCount line => "expected an edge count, got '" ++ line ++ "'"
  | .tooManyFields line => "too many fields in edge '" ++ line ++ "'"
  | .badGap token => "bad non-terminal " ++ token
  | .undefinedVertex child defined =>
    "reference to vertex " ++ toString child ++ " but only " ++ toString defined
      ++ " vertices are defined; is the file in bottom-up order?"
  | .badFeature token => "failed to parse feature '" ++ token ++ "'"
  | .badValue value => "failed to parse weight '" ++ value ++ "'"
  | .badCoverage token => "failed to parse source coverage '" ++ token ++ "'"
  | .severalCoverages line => "expected a single source coverage count in '" ++ line ++ "'"
  | .edgeCountMismatch declared read =>
    "header declares " ++ toString declared ++ " edges but " ++ toString read ++ " were read"

namespace EdgeLine

/-! ## 2. Fields -/

/-- The word between two fields. -/
def fieldSeparator : List Char := ['|', '|', '|']

/-- The fields of a row of words; there is always a first one. -/
def fields : List (List Char) → List (List (List Char))
  | [] => [[]]
  | t :: ts => if t = fieldSeparator then [] :: fields ts else consFirst t (fields ts)

/-- The target side, the features and the coverage; fields that are missing are empty. -/
def threeFields? :
    List (List (List Char)) → Option (List (List Char) × List (List Char) × List (List Char))
  | [] => some ([], [], [])
  | [a] => some (a, [], [])
  | [a, b] => some (a, b, [])
  | [a, b, c] => some (a, b, c)
  | _ => none

/-! ## 3. The target side -/

/-- What stands in brackets, if the word is in brackets. -/
def bracketed? : List Char → Option (List Char)
  | '[' :: rest => if rest.getLast? = some ']' then some rest.dropLast else none
  | _ => none

/-- The gap that brackets around `inner` make in an edge of the vertex `head`. -/
def gap (head : VertexId) (token inner : List Char) : Except FormatError Slot :=
  match digits? inner with
  | none => .error (.badGap (String.ofList token))
  | some child => if child < head then .ok (.gap child) else .error (.undefinedVertex child head)

/-- The slots of a target side in an edge of the vertex `head`. -/
def readSlots (head : VertexId) (x : Lexicon) :
    List (List Char) → Except FormatError (List Slot) × Lexicon
  | [] => (.ok [], x)
  | t :: ts =>
    match bracketed? t with
    | some inner =>
      match gap head t inner with
      | .error e => (.error e, x)
      | .ok slot =>
        let rest := readSlots head x ts
        (rest.1.map (slot :: ·), rest.2)
    | none =>
      let entered := x.intern (String.ofList t)
      let rest := readSlots head entered.2 ts
      (rest.1.map (.word entered.1 :: ·), rest.2)

/-! ## 4. Features and coverage -/

/-- The text before and behind the last equals sign. -/
def splitLastEquals (s : List Char) : Option (List Char × List Char) :=
  match s.reverse.dropWhile (· != '=') with
  | [] => none
  | _ :: front => some (front.reverse, (s.reverse.takeWhile (· != '=')).reverse)

/-- A feature's name and value. -/
def readFeature (token : List Char) : Except FormatError (String × Float) :=
  match splitLastEquals token with
  | none => .error (.badFeature (String.ofList token))
  | some (name, value) =>
    match Decimal.finite? value with
    | none => .error (.badValue (String.ofList value))
    | some x => .ok (String.ofList name, x)

/-- The features that are given, added to those that are there. -/
def readFeatures (v : FeatureVector Float) :
    List (List Char) → Except FormatError (FeatureVector Float)
  | [] => .ok v
  | t :: ts =>
    match readFeature t with
    | .error e => .error e
    | .ok f => readFeatures (v.set f.1 f.2) ts

/-- The number of source words covered, zero where nothing is said. -/
def readCoverage (line : List Char) : List (List Char) → Except FormatError Nat
  | [] => .ok 0
  | [t] =>
    match count? t with
    | none => .error (.badCoverage (String.ofList t))
    | some n => .ok n
  | _ => .error (.severalCoverages (String.ofList line))

/-! ## 5. The whole line -/

/-- An edge of the vertex `head`, and the number of source words it covers. -/
def read (head : VertexId) (x : Lexicon) (line : List Char) :
    Except FormatError (Edge Float × Nat) × Lexicon :=
  match threeFields? (fields (words line)) with
  | none => (.error (.tooManyFields (String.ofList line)), x)
  | some (target, features, coverage) =>
    let slots := readSlots head x target
    (do
      let s ← slots.1
      let v ← readFeatures .empty features
      let n ← readCoverage line coverage
      return (.ofSlots s v, n), slots.2)

end EdgeLine

end ForestRescoring
