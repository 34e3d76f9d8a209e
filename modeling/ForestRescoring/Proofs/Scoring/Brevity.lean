/-
# BLEU in real numbers

The BLEU of a text is the exponential of its precision, unless the text is shorter than it should be.
A text without words has none where words are expected (`Scorer.bleu_of_length_eq_zero`), and one that
is as long as expected is not penalized (`Scorer.bleu_of_effective_le`).  If all its n-grams match,
its precision has the logarithm zero, however the counts are smoothed
(`Statistics.logPrecision_of_matched`).
-/
import Mathlib
import ForestRescoring.Proofs.Scalar.Real
import ForestRescoring.Scorer

namespace ForestRescoring

variable {smoothing effective : ExactReal} {statistics : Statistics} {length : ℕ}

/-- **Where all n-grams match**, precision is perfect. -/
theorem Statistics.logPrecision_of_matched (h : ∀ t ∈ statistics.tallies, t.matched = t.total) :
    (statistics.logPrecision smoothing).toReal = 0 := by
  have hratio : ∀ t ∈ statistics.tallies, (logRatio smoothing t).toReal = 0 := by
    intro t ht
    rw [logRatio, h t ht, ExactReal.toReal_sub, sub_self]
  simp only [tallies, List.forall_mem_cons] at hratio
  obtain ⟨h₁, h₂, h₃, h₄, -⟩ := hratio
  simp [logPrecision, tallies, Scalar.sum, h₁, h₂, h₃, h₄]

namespace Scorer

/-- **A text that is long enough is not penalized.** -/
theorem bleu_of_effective_le (h : effective.toReal ≤ length) :
    (bleu smoothing effective statistics length).toReal =
      Real.exp (statistics.logPrecision smoothing).toReal := by
  rw [bleu]
  by_cases hpos : 0 < effective.toReal
  · have hlength : 0 < (length : ℝ) := hpos.trans_le h
    have hne : length ≠ 0 := (Nat.cast_pos.mp hlength).ne'
    have hratio : ¬ Scalar.above (effective / Scalar.ofNat length) Scalar.one = true := by
      rw [ExactReal.above_iff, ExactReal.toReal_div, ExactReal.toReal_one, ExactReal.toReal_ofNat,
        not_lt]
      exact (div_le_one hlength).mpr h
    rw [if_pos (by simpa using hpos), if_neg hne, if_neg hratio, ExactReal.toReal_exp]
  · rw [if_neg (by simpa using hpos), ExactReal.toReal_exp]

/-- **No words where words are expected have no BLEU.** -/
theorem bleu_of_length_eq_zero (h : 0 < effective.toReal) :
    (bleu smoothing effective statistics 0).toReal = 0 := by
  rw [bleu, if_pos (by simpa using h), if_pos rfl, ExactReal.toReal_zero]

end Scorer

end ForestRescoring
