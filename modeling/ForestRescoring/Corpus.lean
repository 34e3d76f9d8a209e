/-
# Corpora

A corpus has a forest for each sentence, the references of the sentences, and one lexicon for all of
them.  A sentence is decoded under an objective; comparing its hope, its fear and the model's own
choice means decoding it three times, with the three weights of BLEU from the settings.
-/
import ForestRescoring.Forest.Reading
import ForestRescoring.Search
import ForestRescoring.Settings.Basic

namespace ForestRescoring

/-- An empty lexicon under given settings: it holds the two boundaries. -/
def Settings.lexicon (s : Settings) : Lexicon := .withBoundaries s.sentenceStart s.sentenceEnd

/-- The objective with a given weight of BLEU, under given settings. -/
def Settings.objective (s : Settings) (weights : FeatureVector Float) (bleuWeight : Float) :
    Objective Float :=
  ⟨weights, bleuWeight, s.smoothing⟩

/-- Forests, references and the lexicon they share. -/
structure Corpus where
  lexicon : Lexicon
  forests : List (Forest Float)
  references : References

/-- Why a corpus was not loaded, or a sentence not decoded. -/
inductive CorpusError where
  /-- The file of a forest could not be opened. -/
  | unopened (path : String) (cause : FileError)
  /-- The file of a forest is not one. -/
  | badForest (path : String) (cause : ForestError)
  /-- A reference file could not be read. -/
  | badReferences (cause : References.ReferenceError)
  /-- The search failed. -/
  | search (cause : SearchError)
  /-- There is no forest for a sentence. -/
  | unknownSentence (sentence count : Nat)
  deriving DecidableEq, Repr

/-- The words for a failure. -/
def CorpusError.message : CorpusError → String
  | .unopened path cause => "failed to open graph " ++ path ++ ": " ++ cause.message
  | .badForest path cause => "invalid graph " ++ path ++ ": " ++ cause.message
  | .badReferences cause => cause.message
  | .search cause => cause.message
  | .unknownSentence sentence count =>
    "no graph for sentence " ++ toString sentence ++ " (" ++ toString count ++ " loaded)"

/-- The program stops, and answers nothing at all. -/
def CorpusError.stops : CorpusError → Bool
  | .search cause => cause.stops
  | _ => false

/-- Three derivations of one sentence. -/
structure Comparison where
  /-- The one that the model and BLEU both prefer. -/
  hope : Decoding Float
  /-- The one that the model prefers and BLEU does not. -/
  fear : Decoding Float
  /-- The one that the model prefers. -/
  model : Decoding Float

namespace Corpus

/-! ## 1. Loading -/

/-- Reads the forests of `count` sentences from `sentence` on, each from the file that is named by
its number. -/
def loadForests (files : Files) (directory : String) (x : Lexicon) (sentence : Nat) :
    Nat → Except CorpusError (List (Forest Float) × Lexicon)
  | 0 => .ok ([], x)
  | count + 1 =>
    let path := Files.join directory (toString sentence)
    match files path with
    | .error cause => .error (.unopened path cause)
    | .ok opened =>
      let reading := ForestReading.ofOpened x opened
      match reading.outcome with
      | .error cause => .error (.badForest path cause)
      | .ok forest => do
        let rest ← loadForests files directory reading.lexicon (sentence + 1) count
        return (forest :: rest.1, rest.2)

/-- Reads the references, and then the forest of each sentence that has a reference. -/
def load (settings : Settings) (files : Files) (directory : String) (references : List String) :
    Except CorpusError Corpus :=
  match References.load files settings.lexicon references with
  | .error cause => .error (.badReferences cause)
  | .ok (r, x) => do
    let read ← loadForests files directory x 0 r.size
    return ⟨read.2, read.1, r⟩

/-! ## 2. Decoding -/

/-- The number of sentences that have a forest. -/
def sentenceCount (c : Corpus) : Nat := c.forests.length

/-- The best derivation of a sentence. -/
def decode (c : Corpus) (o : Objective Float) (sentence : Nat) :
    Except CorpusError (Decoding Float) :=
  match c.forests[sentence]? with
  | none => .error (.unknownSentence sentence c.sentenceCount)
  | some forest =>
    match forest.best o (c.references.sentence sentence) with
    | .error cause => .error (.search cause)
    | .ok found => .ok found

/-- The hope, the fear and the model's choice of a sentence. -/
def compare (c : Corpus) (settings : Settings) (weights : FeatureVector Float) (sentence : Nat) :
    Except CorpusError Comparison := do
  let hope ← c.decode (settings.objective weights settings.hopeWeight) sentence
  let fear ← c.decode (settings.objective weights settings.fearWeight) sentence
  let model ← c.decode (settings.objective weights settings.modelWeight) sentence
  return ⟨hope, fear, model⟩

end Corpus

end ForestRescoring
