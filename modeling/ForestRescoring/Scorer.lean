/-
# Scoring edges against references

The BLEU of a derivation needs the n-grams of its text, and an edge adds only those that end at one
of its own words or that cross into the text of a child.  So the text of a vertex is summed up,
once its derivation is fixed, by its first and last three words, its statistics and its length
(`Summary`), and an edge is scored from the summaries of its children.

A scorer holds the summaries of one sentence's forest.  Each is written once (`Scorer.fix`, and
`Scorer.summary_fix` for what that changes); asking for one that is not fixed yet, and fixing one a
second time, are errors.

The statistics and the length of an edge are gathered over its children (`Scorer.gather`).  Texts that
share their parts grow with each vertex that uses another one twice, and so do these numbers, up to
where a machine word does not hold them any more; there the addition overflows and the program stops.

Where the n-grams come from:

* a word of the edge closes n-grams with the words in front of it, and all of them are new;
* a word of a child's left context closes n-grams too, but only those longer than its place in the
  child's text are new, as the others lie inside the child;
* behind a child with a full left context the window starts afresh from the right context, whose
  own n-grams lie inside the child.
-/
import ForestRescoring.Forest.Basic
import ForestRescoring.References

namespace ForestRescoring

/-! ## 1. What can go wrong -/

/-- Why a search has no result. -/
inductive SearchError where
  /-- There is no vertex to start from. -/
  | emptyForest
  /-- An edge has a gap for a vertex that does not come before its own. -/
  | notBottomUp (vertex child : VertexId)
  /-- A vertex has an edge that does not exist. -/
  | unknownEdge (edge : EdgeId)
  /-- The summary of a vertex is fixed a second time. -/
  | alreadyFixed (vertex : VertexId)
  /-- The summary of a vertex is asked for before it is fixed. -/
  | notFixed (vertex : VertexId)
  /-- A sum is too large for a machine word.  The program has no such answer, but stops. -/
  | overflow
  deriving DecidableEq, Repr

/-- The words for what went wrong. -/
def SearchError.message : SearchError → String
  | .emptyForest => "graph has no vertices"
  | .notBottomUp vertex child =>
    "graph was not topologically sorted: vertex " ++ toString vertex ++ " uses unvisited vertex "
      ++ toString child
  | .unknownEdge edge => "vertex refers to unknown edge " ++ toString edge
  | .alreadyFixed vertex => "state of vertex " ++ toString vertex ++ " was already finalized"
  | .notFixed vertex => "state of vertex " ++ toString vertex ++ " read before it was finalized"
  | .overflow => "attempt to add with overflow"

/-- The program stops, and answers nothing at all. -/
def SearchError.stops (e : SearchError) : Bool := e == .overflow

/-! ## 2. Summaries -/

/-- What an edge needs to know of the text of a child. -/
structure Summary where
  /-- The first words, at most three. -/
  left : List WordId
  /-- The last words, at most three, in reading order. -/
  right : List WordId
  /-- The statistics of the derivation. -/
  statistics : Statistics
  /-- The number of words. -/
  length : Nat
  deriving DecidableEq, Repr

/-- The summary of an empty text. -/
def Summary.empty : Summary := ⟨[], [], .zero, 0⟩

/-- The summaries of a sentence's forest, and what its BLEU is measured against. -/
structure Scorer (K : Type) where
  references : SentenceReferences
  /-- The number of source words of the whole sentence. -/
  sourceLength : Nat
  smoothing : K
  /-- A place for each vertex. -/
  summaries : Array (Option Summary)

namespace Scorer

variable {K : Type}

/-- A scorer for a forest, with no summary fixed. -/
def start (references : SentenceReferences) (smoothing : K) (forest : Forest K) : Scorer K :=
  ⟨references, forest.sourceLength, smoothing, Array.replicate forest.vertices.size none⟩

/-- The summary of a vertex. -/
def summary (s : Scorer K) (v : VertexId) : Except SearchError Summary :=
  match s.summaries[v]? with
  | some (some found) => .ok found
  | _ => .error (.notFixed v)

/-! ## 3. New n-grams -/

/-- Reads words of which none closes a new n-gram. -/
def seed (win : Window) (ws : List WordId) : Window :=
  ws.foldl (fun win w => if w.isBoundary then win else win.push w) win

/-- The n-grams that cross into a child's left context, the word at hand being at `place` in the
child's text, and the window behind it. -/
def crossing (win : Window) (place : Nat) : List WordId → List Ngram × Window
  | [] => ([], win)
  | w :: ws =>
    if w.isBoundary then crossing win (place + 1) ws
    else
      let rest := crossing (win.push w) (place + 1) ws
      ((win.closing w).filter (fun g => place + 1 < g.length) ++ rest.1, rest.2)

/-- The n-grams that the slots of an edge add to those inside its children. -/
def newNgrams (s : Scorer K) (win : Window) : List Slot → Except SearchError (List Ngram)
  | [] => .ok []
  | .word w :: rest =>
    if w.isBoundary then s.newNgrams win rest
    else do
      let later ← s.newNgrams (win.push w) rest
      return win.closing w ++ later
  | .gap child :: rest => do
    let inner ← s.summary child
    let crossed := crossing win 0 inner.left
    let behind := if inner.left.length = contextSize then seed .fresh inner.right else crossed.2
    let later ← s.newNgrams behind rest
    return crossed.1 ++ later

/-- The counts of the n-grams that an edge adds. -/
def edgeNgrams (s : Scorer K) (e : Edge K) : Except SearchError NgramCounts := do
  let gs ← s.newNgrams .fresh e.slots
  return .ofList gs

/-! ## 4. Contexts and lengths -/

/-- The first words of a row of slots, at most `room`, where `side` gives those of a child.  No
child is asked for once the room is taken. -/
def context (s : Scorer K) (side : Summary → List WordId) :
    Nat → List Slot → Except SearchError (List WordId)
  | _, [] => .ok []
  | room, slot :: rest =>
    if room = 0 then .ok []
    else match slot with
      | .word w => do
        let later ← s.context side (room - 1) rest
        return w :: later
      | .gap child => do
        let inner ← s.summary child
        let taken := (side inner).take room
        let later ← s.context side (room - taken.length) rest
        return taken ++ later

/-- The first words of the text of an edge. -/
def leftContext (s : Scorer K) (e : Edge K) : Except SearchError (List WordId) :=
  s.context Summary.left contextSize e.slots

/-- The last words of the text of an edge, found from the right and put in reading order. -/
def rightContext (s : Scorer K) (e : Edge K) : Except SearchError (List WordId) := do
  let backwards ← s.context (fun inner => inner.right.reverse) contextSize e.slots.reverse
  return backwards.reverse

/-- Adds to a total what each of some vertices brings, one after the other, by an addition that has
no result where a machine word does not hold the sum. -/
def gather {α : Type} (s : Scorer K) (add? : α → α → Option α) (part : Summary → α) :
    α → List VertexId → Except SearchError α
  | total, [] => .ok total
  | total, v :: rest => do
    let inner ← s.summary v
    match add? total (part inner) with
    | none => .error .overflow
    | some sum => s.gather add? part sum rest

/-- The number of words in the text of an edge. -/
def targetLength (s : Scorer K) (e : Edge K) : Except SearchError Nat :=
  s.gather Text.addCounts? Summary.length e.literalCount e.children

/-! ## 5. Fixing summaries -/

/-- Fixes the summary of a vertex. -/
def fix (s : Scorer K) (v : VertexId) (found : Summary) : Except SearchError (Scorer K) :=
  match s.summaries[v]? with
  | none => .error (.notFixed v)
  | some (some _) => .error (.alreadyFixed v)
  | some none => .ok { s with summaries := s.summaries.setIfInBounds v (some found) }

/-- **Fixing writes one place.**  The fixed vertex has the new summary and every other vertex keeps
what it had. -/
theorem summary_fix {s t : Scorer K} {v : VertexId} {found : Summary} (h : s.fix v found = .ok t)
    (w : VertexId) : t.summary w = if w = v then .ok found else s.summary w := by
  unfold fix at h
  split at h
  · cases h
  · cases h
  · next hv =>
    cases h
    obtain ⟨hlt, -⟩ := Array.getElem?_eq_some_iff.1 hv
    by_cases hw : w = v
    · subst hw; simp [summary, Array.getElem?_setIfInBounds_self_of_lt hlt]
    · simp [summary, hw, Array.getElem?_setIfInBounds_ne (Ne.symm hw)]

/-- Fixes the summary of a vertex whose derivation ends in an edge. -/
def fixEdge (s : Scorer K) (v : VertexId) (e : Edge K) (statistics : Statistics) :
    Except SearchError (Scorer K) := do
  let left ← s.leftContext e
  let right ← s.rightContext e
  let length ← s.targetLength e
  s.fix v ⟨left, right, statistics, length⟩

/-- Fixes the summary of a leaf. -/
def fixLeaf (s : Scorer K) (v : VertexId) : Except SearchError (Scorer K) := s.fix v .empty

/-! ## 6. The score of an edge -/

variable [Scalar K]

/-- The length of the shortest reference, scaled by the share of the source that is covered. -/
def effectiveReference (s : Scorer K) (covered : Nat) : K :=
  if s.sourceLength = 0 then Scalar.zero
  else Scalar.ofNat covered / Scalar.ofNat s.sourceLength * Scalar.ofNat s.references.shortest

/-- The BLEU of a text with given statistics and length, for a part of the source for which
`effective` words are expected.  Too short a text is penalized, and an empty one where
words are expected has none. -/
def bleu (smoothing effective : K) (statistics : Statistics) (length : Nat) : K :=
  let precision := statistics.logPrecision smoothing
  if Scalar.above effective Scalar.zero then
    if length = 0 then Scalar.zero
    else
      let ratio := effective / Scalar.ofNat length
      if Scalar.above ratio Scalar.one then Scalar.exp (precision + (Scalar.one - ratio))
      else Scalar.exp precision
  else Scalar.exp precision

/-- The BLEU of an edge as a derivation that covers so many source words, and the statistics of
that derivation. -/
def score (s : Scorer K) (e : Edge K) (covered : Nat) : Except SearchError (K × Statistics) := do
  let counts ← s.edgeNgrams e
  let own := Statistics.ofCounts (fun g => (s.references.count g).total) counts
  let statistics ← s.gather Statistics.add? Summary.statistics own e.children
  let length ← s.targetLength e
  return (bleu s.smoothing (s.effectiveReference covered) statistics length, statistics)

end Scorer

end ForestRescoring
