/-
# References

A corpus has one or more reference files with a reference text of each sentence on the line of that
sentence.  For a sentence and an n-gram two counts are kept: the largest count in any one
reference (clipped), and the count in all references together (total).  The length of a sentence is
that of its shortest reference.

The index is a list with a place for each sentence.  A reference file is merged in line by line
(`merge`): a line beyond the last sentence opens a new place, and a file with fewer lines leaves
the places behind its end as they were.
-/
import ForestRescoring.Ngram.Statistics
import ForestRescoring.Text.Blank
import ForestRescoring.Text.Lines
import ForestRescoring.Files.Basic

namespace ForestRescoring

/-! ## 1. One sentence -/

/-- The counts of an n-gram in the references of a sentence. -/
structure ReferenceCount where
  clipped : Nat
  total : Nat
  deriving DecidableEq, Repr

namespace ReferenceCount

/-- The n-gram is in no reference. -/
def zero : ReferenceCount := ⟨0, 0⟩

/-- One more reference, with `n` occurrences. -/
def add (c : ReferenceCount) (n : Nat) : ReferenceCount := ⟨max c.clipped n, c.total + n⟩

end ReferenceCount

/-- What is known of a sentence from its references. -/
structure SentenceReferences where
  counts : Std.ExtTreeMap Ngram ReferenceCount
  /-- The length of the shortest reference, if there is a reference. -/
  length : Option Nat

namespace SentenceReferences

/-- A sentence without references. -/
def empty : SentenceReferences := ⟨∅, none⟩

/-- One more occurrence count for each of several n-grams. -/
def addEntries (index : Std.ExtTreeMap Ngram ReferenceCount) (entries : List (Ngram × Nat)) :
    Std.ExtTreeMap Ngram ReferenceCount :=
  entries.foldl (fun index g => index.alter g.1 fun c => some ((c.getD .zero).add g.2)) index

/-- One more occurrence count for each n-gram of a reference. -/
def addCounts (index : Std.ExtTreeMap Ngram ReferenceCount) (counts : NgramCounts) :
    Std.ExtTreeMap Ngram ReferenceCount :=
  addEntries index counts.toList

/-- One more reference. -/
def add (s : SentenceReferences) (ws : List WordId) : SentenceReferences where
  counts := addCounts s.counts (countNgrams ws)
  length := some ((s.length.map fun n => min n ws.length).getD ws.length)

/-- The counts of an n-gram; one that is in no reference has none. -/
def count (s : SentenceReferences) (g : Ngram) : ReferenceCount := s.counts.getD g .zero

/-- The length of the shortest reference, zero without references. -/
def shortest (s : SentenceReferences) : Nat := s.length.getD 0

/-- The statistics of a complete text, each n-gram matching at most as often as in any one
reference.  Sentence boundaries are no words of the text. -/
def statistics (s : SentenceReferences) (ws : List WordId) : Statistics :=
  .ofCounts (fun g => (s.count g).clipped) (countNgrams (ws.filter fun w => !w.isBoundary))

end SentenceReferences

/-! ## 2. All sentences -/

/-- The references of a corpus, sentence by sentence. -/
structure References where
  sentences : List SentenceReferences

namespace References

/-- No references. -/
def empty : References := ⟨[]⟩

/-- The number of sentences that have a reference. -/
def size (r : References) : Nat := r.sentences.length

/-- The references of a sentence; a sentence that no file has a line for has none. -/
def sentence (r : References) (id : Nat) : SentenceReferences := (r.sentences[id]?).getD .empty

/-- Adds a line to each sentence in turn. -/
def merge : List SentenceReferences → List (List WordId) → List SentenceReferences
  | ss, [] => ss
  | [], ws :: rest => SentenceReferences.empty.add ws :: merge [] rest
  | s :: ss, ws :: rest => s.add ws :: merge ss rest

/-- The words of each line, entered into the lexicon in reading order. -/
def internLines (x : Lexicon) : List String → List (List WordId) × Lexicon
  | [] => ([], x)
  | l :: ls =>
    let first := x.internAll (Text.tokens l)
    let rest := internLines first.2 ls
    (first.1 :: rest.1, rest.2)

/-- Adds the lines of one reference file. -/
def addLines (r : References) (x : Lexicon) (ls : List String) : References × Lexicon :=
  let read := internLines x ls
  (⟨merge r.sentences read.1⟩, read.2)

/-- Adds the texts of several reference files. -/
def addTexts (r : References) (x : Lexicon) : List String → References × Lexicon
  | [] => (r, x)
  | t :: ts =>
    let first := r.addLines x (Text.linesOf t)
    first.1.addTexts first.2 ts

/-- The references that several texts give. -/
def ofTexts (x : Lexicon) (texts : List String) : References × Lexicon := empty.addTexts x texts

/-- What is left of adding a file that may fail: the lines before the failure stay. -/
structure Added where
  references : References
  lexicon : Lexicon
  failure : Option FileError

/-- Adds the lines of one reference file up to the first that encodes no text. -/
def addBytes (r : References) (x : Lexicon) (bytes : ByteArray) : Added :=
  let ls := Text.decodedLines bytes
  let added := r.addLines x ((ls.takeWhile Option.isSome).filterMap id)
  ⟨added.1, added.2, if ls.all Option.isSome then none else some .invalidText⟩

/-! ## 3. Reference files -/

/-- A reference file could not be read. -/
structure ReferenceError where
  path : String
  cause : FileError
  deriving DecidableEq, Repr

/-- The words for a reference file that could not be read. -/
def ReferenceError.message (e : ReferenceError) : String :=
  "failed to read reference file " ++ e.path ++ ": " ++ e.cause.message

/-- Adds the reference files with the given paths. -/
def addFiles (files : Files) (r : References) (x : Lexicon) :
    List String → Except ReferenceError (References × Lexicon)
  | [] => .ok (r, x)
  | path :: paths =>
    match (files path).bind Files.contents with
    | .error cause => .error ⟨path, cause⟩
    | .ok bytes =>
      let added := r.addBytes x bytes
      match added.failure with
      | some cause => .error ⟨path, cause⟩
      | none => addFiles files added.references added.lexicon paths

/-- The references that the files with the given paths give. -/
def load (files : Files) (x : Lexicon) (paths : List String) :
    Except ReferenceError (References × Lexicon) :=
  addFiles files empty x paths

end References

end ForestRescoring
