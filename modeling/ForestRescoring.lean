import ForestRescoring.Files.Tree
import ForestRescoring.Main
import ForestRescoring.Proofs.Scoring.Calls
import ForestRescoring.Proofs.Ngram.Matching
import ForestRescoring.Proofs.Scoring.Counting
import ForestRescoring.Proofs.References.Loading
import ForestRescoring.Proofs.Scoring.Matches
import ForestRescoring.Proofs.Search.Derivation
import ForestRescoring.Proofs.Search.Sweep
import ForestRescoring.Proofs.Search.Assignment
import ForestRescoring.Proofs.Search.Walk
import ForestRescoring.Proofs.Search.BestDerivation
import ForestRescoring.Proofs.Scalar.Order
import ForestRescoring.Proofs.Search.Optimal
import ForestRescoring.Proofs.Search.Chosen
import ForestRescoring.Proofs.Scalar.Rounding
import ForestRescoring.Proofs.Scoring.Boundaries
import ForestRescoring.Proofs.Forest.Acceptance
import ForestRescoring.Proofs.Forest.Soundness
import ForestRescoring.Proofs.Scoring.Progress
import ForestRescoring.Proofs.Scoring.Fitting
import ForestRescoring.Proofs.Search.Offences
import ForestRescoring.Proofs.Decimal.Characters
import ForestRescoring.Proofs.Forest.Outline
import ForestRescoring.Proofs.Forest.WrittenLine
import ForestRescoring.Proofs.Forest.RoundTrip
import ForestRescoring.Proofs.Scoring.Requests
import ForestRescoring.Proofs.Lexicon.Stability
import ForestRescoring.Proofs.References.Counting
import ForestRescoring.Proofs.Report.Agreement
import ForestRescoring.Proofs.Lexicon.Entering
import ForestRescoring.Proofs.Lexicon.Spelling
import ForestRescoring.Proofs.Renumbering.Counting
import ForestRescoring.Proofs.Renumbering.Scoring
import ForestRescoring.Proofs.Renumbering.Search
import ForestRescoring.Proofs.Renumbering.Lexicons
import ForestRescoring.Proofs.Settings.InForce
import ForestRescoring.Proofs.CommandLine.Output
import ForestRescoring.Proofs.Scoring.Neutral
import ForestRescoring.Proofs.FeatureVector.Linear
import ForestRescoring.Proofs.Search.Consistent
import ForestRescoring.Proofs.Report.Selection
import ForestRescoring.Proofs.Forest.Comments
import ForestRescoring.Proofs.Forest.LinesRead
import ForestRescoring.Proofs.References.WholeText
import ForestRescoring.Proofs.References.Factors
import ForestRescoring.Proofs.Search.Steering
import ForestRescoring.Proofs.Scoring.Range
import ForestRescoring.Proofs.Search.Incomparable
import ForestRescoring.Proofs.Visiting.Counting
import ForestRescoring.Proofs.Visiting.Searching
import ForestRescoring.Proofs.Search.Reachable
import ForestRescoring.Proofs.Scalar.Zeros
import ForestRescoring.Proofs.Text.ByteOrder
import ForestRescoring.Proofs.FeatureVector.CommonNames
import ForestRescoring.Proofs.Ngram.OpenNgrams
import ForestRescoring.Proofs.FeatureVector.WeightLines
