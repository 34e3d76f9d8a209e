/-
# The statistics of BLEU

For each n-gram length from one to four: how many n-grams a text has, and how many of them a
reference has too.  These eight numbers add up over the parts of a text, and the precision that
BLEU is made of is a function of them.

The numbers are natural numbers here and machine words in the program, which is built to check its
additions and stops where one overflows.  So an addition is defined twice: as the exact sum
(`Statistics.add`), and as the sum that is there only if machine words hold it (`Statistics.add?`).
What is counted in a row of n-grams that is held in memory fits in any case; what is added up over the
children of an edge need not.
-/
import ForestRescoring.Ngram.Counts
import ForestRescoring.Scalar
import ForestRescoring.Text.Numeral

namespace ForestRescoring

/-- The n-grams of one length: those that matched, and all. -/
structure Tally where
  matched : Nat
  total : Nat
  deriving DecidableEq, Repr

namespace Tally

/-- Nothing counted. -/
def zero : Tally := ⟨0, 0⟩

/-- Both counts together. -/
def add (a b : Tally) : Tally := ⟨a.matched + b.matched, a.total + b.total⟩

instance : Add Tally := ⟨add⟩

end Tally

/-- A tally for each n-gram length. -/
@[ext] structure Statistics where
  unigrams : Tally
  bigrams : Tally
  trigrams : Tally
  fourgrams : Tally
  deriving DecidableEq, Repr

namespace Statistics

/-- Nothing counted. -/
def zero : Statistics := ⟨.zero, .zero, .zero, .zero⟩

/-- The counts of both together. -/
def add (a b : Statistics) : Statistics :=
  ⟨a.unigrams + b.unigrams, a.bigrams + b.bigrams, a.trigrams + b.trigrams,
    a.fourgrams + b.fourgrams⟩

instance : Add Statistics := ⟨add⟩

/-- The tally of the n-grams with `order` words, for an order from one to four.  The program has no
answer for any other order, as it looks behind the end of its row of numbers; here it is zero. -/
def tally (s : Statistics) : Nat → Tally
  | 1 => s.unigrams
  | 2 => s.bigrams
  | 3 => s.trigrams
  | 4 => s.fourgrams
  | _ => .zero

/-- The n-grams with `order` words that matched. -/
def matched (s : Statistics) (order : Nat) : Nat := (s.tally order).matched

/-- All n-grams with `order` words. -/
def total (s : Statistics) (order : Nat) : Nat := (s.tally order).total

/-- Adds a tally to those of the n-grams with `order` words, for an order from one to four.  The
program stops at any other order, which here changes nothing. -/
def record (s : Statistics) (t : Tally) : Nat → Statistics
  | 1 => { s with unigrams := s.unigrams + t }
  | 2 => { s with bigrams := s.bigrams + t }
  | 3 => { s with trigrams := s.trigrams + t }
  | 4 => { s with fourgrams := s.fourgrams + t }
  | _ => s

/-- Each length is added by itself. -/
theorem tally_add (s t : Statistics) (order : Nat) :
    (s + t).tally order = s.tally order + t.tally order := by
  match order with
  | 0 | 1 | 2 | 3 | 4 | _ + 5 => rfl

/-- A recorded tally is added to those of its own length. -/
theorem tally_record_self {order : Nat} (h1 : 1 ≤ order) (h4 : order ≤ maxOrder) (s : Statistics)
    (t : Tally) : (s.record t order).tally order = s.tally order + t := by
  match order with
  | 1 | 2 | 3 | 4 => rfl
  | 0 => exact absurd h1 (by decide)
  | n + 5 => exact absurd h4 (by simp [maxOrder])

/-- A recorded tally leaves the other lengths as they were. -/
theorem tally_record_of_ne {order other : Nat} (h : other ≠ order) (s : Statistics) (t : Tally) :
    (s.record t order).tally other = s.tally other := by
  match order, other with
  | 0, _ | _ + 5, _ => rfl
  | 1, 0 | 1, 2 | 1, 3 | 1, 4 | 1, _ + 5 => rfl
  | 2, 0 | 2, 1 | 2, 3 | 2, 4 | 2, _ + 5 => rfl
  | 3, 0 | 3, 1 | 3, 2 | 3, 4 | 3, _ + 5 => rfl
  | 4, 0 | 4, 1 | 4, 2 | 4, 3 | 4, _ + 5 => rfl
  | 1, 1 | 2, 2 | 3, 3 | 4, 4 => exact absurd rfl h

/-- The tallies by n-gram length, the shortest first. -/
def tallies (s : Statistics) : List Tally := [s.unigrams, s.bigrams, s.trigrams, s.fourgrams]

/-- The statistics with the given tallies, those that are missing being zero. -/
def ofTallies : List Tally → Statistics
  | [] => zero
  | [a] => ⟨a, .zero, .zero, .zero⟩
  | [a, b] => ⟨a, b, .zero, .zero⟩
  | [a, b, c] => ⟨a, b, c, .zero⟩
  | a :: b :: c :: d :: _ => ⟨a, b, c, d⟩

/-- The eight numbers: matched and total for each length, the shortest first. -/
def toList (s : Statistics) : List Nat := s.tallies.flatMap fun t => [t.matched, t.total]

/-! ## Machine words -/

/-- Each of the eight numbers is small enough for a machine word. -/
def Fits (s : Statistics) : Prop := ∀ n ∈ s.toList, n < Text.countBound

instance (s : Statistics) : Decidable s.Fits := inferInstanceAs (Decidable (∀ n ∈ s.toList, _))

/-- The counts of both together, if machine words hold them. -/
def add? (s t : Statistics) : Option Statistics := if (s + t).Fits then some (s + t) else none

/-- Adds a tally to those of the n-grams with `order` words, if machine words hold the sums. -/
def record? (s : Statistics) (t : Tally) (order : Nat) : Option Statistics :=
  if (s.record t order).Fits then some (s.record t order) else none

/-! ## Counted n-grams -/

/-- The statistics of n-grams with their counts, of which `limit` many of each may match. -/
def ofEntries (limit : Ngram → Nat) (entries : List (Ngram × Nat)) : Statistics :=
  entries.foldl (fun s g => s.record ⟨min g.2 (limit g.1), g.2⟩ g.1.length) zero

/-- The statistics of counted n-grams, of which `limit` many of each may match. -/
def ofCounts (limit : Ngram → Nat) (counts : NgramCounts) : Statistics :=
  ofEntries limit counts.toList

/-- The logarithm of one smoothed precision. -/
def logRatio {K : Type} [Scalar K] (smoothing : K) (t : Tally) : K :=
  Scalar.ln (Scalar.ofNat t.matched + smoothing) - Scalar.ln (Scalar.ofNat t.total + smoothing)

/-- The logarithm of the geometric mean of the four smoothed precisions. -/
def logPrecision {K : Type} [Scalar K] (smoothing : K) (s : Statistics) : K :=
  Scalar.sum (s.tallies.map (logRatio smoothing)) / Scalar.ofNat maxOrder

end Statistics

end ForestRescoring
