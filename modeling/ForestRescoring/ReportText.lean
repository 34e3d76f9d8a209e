/-
# How reports are written

Each report is a JSON value, and has a form for readers.  In the latter a decoding takes four lines, a
comparison three lines of five fields with tabs between them, and a probe one line.
-/
import ForestRescoring.JsonValue
import ForestRescoring.Report

namespace ForestRescoring

/-! ## 1. Parts -/

/-- Matched over total for each n-gram length. -/
def Statistics.text (s : Statistics) : String :=
  " ".intercalate (s.tallies.map fun t => toString t.matched ++ "/" ++ toString t.total)

/-- The eight numbers as JSON. -/
def Statistics.json (s : Statistics) : JsonValue := .list (s.toList.map JsonValue.count)

namespace FeatureVector

/-- Names and numbers with equals signs. -/
def text (v : FeatureVector Float) : String :=
  " ".intercalate (v.entries.map fun e => e.1 ++ "=" ++ Decimal.exact e.2)

/-- Names and numbers as JSON. -/
def json (v : FeatureVector Float) : JsonValue :=
  .object (v.entries.map fun e => (e.1, .real e.2))

end FeatureVector

/-! ## 2. Decodings -/

/-- A decoding as JSON, its words as numbers. -/
def Decoding.json (d : Decoding Float) : JsonValue :=
  .object
    [("text", .list (d.text.map fun w => .count w.index)), ("score", .real d.score),
     ("features", d.features.json), ("bleu_stats", d.statistics.json)]

namespace Report

/-- A report as JSON. -/
def json (r : Report) : JsonValue :=
  .object
    [("text", .string r.text), ("score", .real r.score), ("features", r.features.json),
     ("bleu_stats", r.statistics.json)]

/-- The lines of a report. -/
def lines (r : Report) : List String :=
  [r.text,
   "score:    " ++ Decimal.exact r.score,
   "features: " ++ r.features.text,
   "bleu:     " ++ r.statistics.text]

/-- A report as one line of a comparison. -/
def row (r : Report) (sentence : Nat) (label : String) : String :=
  "\t".intercalate
    [toString sentence, label, Decimal.places 4 r.score, r.statistics.text, r.text]

end Report

/-! ## 3. Comparisons and probes -/

namespace ComparisonReport

/-- A comparison as JSON. -/
def json (r : ComparisonReport) : JsonValue :=
  .object
    [("sentence", .count r.sentence), ("hope", r.hope.json), ("fear", r.fear.json),
     ("model", r.model.json)]

/-- The lines of a comparison. -/
def lines (r : ComparisonReport) : List String :=
  [r.hope.row r.sentence "hope", r.fear.row r.sentence "fear", r.model.row r.sentence "model"]

end ComparisonReport

namespace Probe

/-- A probe as JSON. -/
def json (p : Probe) : JsonValue :=
  .object
    [("ngram", .string p.ngram), ("clipped", .count p.count.clipped),
     ("total", .count p.count.total), ("reference_length", .count p.length)]

/-- The line of a probe of a sentence. -/
def line (p : Probe) (sentence : Nat) : String :=
  "\"" ++ p.ngram ++ "\" in sentence " ++ toString sentence ++ ": clipped=" ++
    toString p.count.clipped ++ " total=" ++ toString p.count.total ++ " (shortest reference " ++
    toString p.length ++ " words)"

end Probe

end ForestRescoring
