/-
# Reports on files

Three questions a user asks of files, each answered by a report with the words written out: the best
text in one forest (`search`), the comparison of the sentences of a corpus (`compareAll`), and
the counts of one n-gram in the references of a sentence (`probe`).
-/
import ForestRescoring.Corpus
import ForestRescoring.FeatureVector.Weights

namespace ForestRescoring

/-- A decoding with its words written out. -/
structure Report where
  text : String
  score : Float
  features : FeatureVector Float
  statistics : Statistics

/-- The three derivations of a sentence. -/
structure ComparisonReport where
  sentence : Nat
  hope : Report
  fear : Report
  model : Report

/-- The counts of an n-gram in the references of a sentence, and the length of the shortest. -/
structure Probe where
  ngram : String
  count : ReferenceCount
  length : Nat

/-- Why there is no report. -/
inductive ReportError where
  /-- The file of a forest could not be opened. -/
  | unopened (path : String) (cause : FileError)
  /-- The file of a forest is not one. -/
  | badForest (cause : ForestError)
  /-- A reference file could not be read. -/
  | badReferences (cause : References.ReferenceError)
  /-- The weights could not be read. -/
  | badWeights (cause : WeightsError)
  /-- The search failed. -/
  | search (cause : SearchError)
  /-- A corpus could not be loaded or decoded. -/
  | corpus (cause : CorpusError)
  /-- A sum is too large for a machine word.  The program has no such answer, but stops. -/
  | overflow
  deriving DecidableEq, Repr

/-- The words for a missing report. -/
def ReportError.message : ReportError → String
  | .unopened path cause => "failed to open " ++ path ++ ": " ++ cause.message
  | .badForest cause => "invalid graph: " ++ cause.message
  | .badReferences cause => cause.message
  | .badWeights cause => "invalid weights: " ++ cause.message
  | .search cause => cause.message
  | .corpus cause => cause.message
  | .overflow => SearchError.overflow.message

/-- The program stops, and answers nothing at all. -/
def ReportError.stops : ReportError → Bool
  | .search cause => cause.stops
  | .corpus cause => cause.stops
  | .overflow => true
  | _ => false

namespace Report

/-- A decoding with its words written out from a lexicon. -/
def ofDecoding (x : Lexicon) (d : Decoding Float) : Report :=
  ⟨x.render d.text, d.score, d.features, d.statistics⟩

/-- The files that a search reads besides forests. -/
structure Inputs where
  references : List String
  /-- The weights file; without one all weights are zero. -/
  weights : Option String

/-- The weights of a file, if one is given. -/
def loadWeights (files : Files) : Option String → Except ReportError (FeatureVector Float)
  | none => .ok .empty
  | some path =>
    match FeatureVector.load files path with
    | .error cause => .error (.badWeights cause)
    | .ok weights => .ok weights

/-- The forest of a file. -/
def loadForest (files : Files) (x : Lexicon) (path : String) :
    Except ReportError (Forest Float × Lexicon) :=
  match files path with
  | .error cause => .error (.unopened path cause)
  | .ok opened =>
    let reading := ForestReading.ofOpened x opened
    match reading.outcome with
    | .error cause => .error (.badForest cause)
    | .ok forest => .ok (forest, reading.lexicon)

/-- The references of a list of files. -/
def loadReferences (settings : Settings) (files : Files) (paths : List String) :
    Except ReportError (References × Lexicon) :=
  match References.load files settings.lexicon paths with
  | .error cause => .error (.badReferences cause)
  | .ok loaded => .ok loaded

/-- The best text in the forest of a file, measured against the references of a sentence.  The
references are read first, then the forest, then the weights. -/
def search (settings : Settings) (files : Files) (forestPath : String) (inputs : Inputs)
    (bleuWeight : Float) (sentence : Nat) : Except ReportError Report := do
  let references ← loadReferences settings files inputs.references
  let forest ← loadForest files references.2 forestPath
  let weights ← loadWeights files inputs.weights
  match forest.1.best (settings.objective weights bleuWeight) (references.1.sentence sentence) with
  | .error cause => .error (.search cause)
  | .ok found => .ok (ofDecoding forest.2 found)

end Report

namespace ComparisonReport

/-- The sentences that are asked for: all, or the one with the given number.  A range has an end,
which is behind its last number; the largest number that a machine word holds has none behind it, and
the addition overflows. -/
def selection (count : Nat) : Option Nat → Except ReportError (List Nat)
  | none => .ok (List.range count)
  | some id =>
    match Text.addCounts? id 1 with
    | none => .error .overflow
    | some stop => .ok (List.range' id (stop - id))

/-- The comparison of one sentence. -/
def ofSentence (settings : Settings) (c : Corpus) (weights : FeatureVector Float) (sentence : Nat) :
    Except ReportError ComparisonReport :=
  match c.compare settings weights sentence with
  | .error cause => .error (.corpus cause)
  | .ok found => .ok
    ⟨sentence, .ofDecoding c.lexicon found.hope, .ofDecoding c.lexicon found.fear,
      .ofDecoding c.lexicon found.model⟩

/-- The comparison of the sentences asked for, of the corpus in a directory.  There is none if any
of them fails. -/
def compareAll (settings : Settings) (files : Files) (directory : String) (inputs : Report.Inputs)
    (sentence : Option Nat) : Except ReportError (List ComparisonReport) := do
  let c ← match Corpus.load settings files directory inputs.references with
    | .error cause => .error (.corpus cause)
    | .ok c => .ok c
  let weights ← Report.loadWeights files inputs.weights
  let asked ← selection c.sentenceCount sentence
  asked.mapM (ofSentence settings c weights)

end ComparisonReport

/-- The counts of the n-gram that a text writes, in the references of a sentence. -/
def Probe.ofFiles (settings : Settings) (files : Files) (references : List String) (sentence : Nat)
    (text : String) : Except ReportError Probe := do
  let loaded ← Report.loadReferences settings files references
  let entered := loaded.2.internAll (Text.tokens text)
  let found := loaded.1.sentence sentence
  return ⟨entered.2.render entered.1, found.count entered.1, found.shortest⟩

end ForestRescoring
