/-
# The BLEU of an edge lies between zero and one

The statistics of an edge never have more matches than n-grams, in any history in which only answers
of the scorer are passed as statistics.  So with a smoothing that is positive no smoothed precision
exceeds one, its logarithm is not positive, and the mean of the four logarithms is not positive either
(`Statistics.logPrecision_nonpos`).  The penalty for a short text only makes it smaller
(`Scorer.bleu_le_exp`).

The scorer divides by the number of source words, by the number of words of a text, and by the number
of n-gram lengths.  The first two may be zero, and then the scorer does not divide: whatever a
division by zero gives, its answers are the same (`Scorer.score_withDivision`).
-/
import Mathlib
import ForestRescoring.Proofs.Scoring.Brevity
import ForestRescoring.Proofs.Scoring.Counting

namespace ForestRescoring

/-! ## 1. Other divisions -/

section Division

variable {K : Type} [Scalar K]

/-- The same numbers with another division. -/
@[reducible] def Scalar.withDivision (div : K → K → K) : Scalar K :=
  { (inferInstance : Scalar K) with div := div }

/-- A division that gives the quotients by counts other than zero, and anything else by anything
else. -/
def Scalar.DividesByCounts (div : K → K → K) : Prop :=
  ∀ (x : K) (n : ℕ), n ≠ 0 → div x (Scalar.ofNat n) = x / Scalar.ofNat n

variable {div : K → K → K} (hdiv : Scalar.DividesByCounts div)

include hdiv

theorem Statistics.logPrecision_withDivision (smoothing : K) (statistics : Statistics) :
    @logPrecision K (Scalar.withDivision div) smoothing statistics =
      statistics.logPrecision smoothing :=
  hdiv _ maxOrder (by decide)

namespace Scorer

/-- Without source words there is no share of them. -/
theorem effectiveReference_withDivision (s : Scorer K) (covered : ℕ) :
    @effectiveReference K (Scalar.withDivision div) s covered = s.effectiveReference covered := by
  by_cases hsource : s.sourceLength = 0
  · simp only [effectiveReference, if_pos hsource]
    rfl
  · simp only [effectiveReference, if_neg hsource]
    exact congrArg (· * Scalar.ofNat s.references.shortest) (hdiv _ _ hsource)

/-- Without words there is no ratio of lengths. -/
theorem bleu_withDivision (smoothing effective : K) (statistics : Statistics) (length : ℕ) :
    @bleu K (Scalar.withDivision div) smoothing effective statistics length =
      bleu smoothing effective statistics length := by
  have hprecision := Statistics.logPrecision_withDivision hdiv smoothing statistics
  by_cases hlength : length = 0
  · simp only [bleu, hprecision, if_pos hlength]
    rfl
  · have hratio := hdiv effective length hlength
    simp only [bleu, hprecision, if_neg hlength]
    exact congrArg (fun ratio => if Scalar.above effective Scalar.zero then
      if Scalar.above ratio Scalar.one then
        Scalar.exp (statistics.logPrecision smoothing + (Scalar.one - ratio))
      else Scalar.exp (statistics.logPrecision smoothing)
      else Scalar.exp (statistics.logPrecision smoothing)) hratio

/-- **Division by zero does not matter**: with any other, an edge has the same score. -/
theorem score_withDivision (s : Scorer K) (e : Edge K) (covered : ℕ) :
    @score K (Scalar.withDivision div) s e covered = s.score e covered := by
  simp only [score, bleu_withDivision hdiv, effectiveReference_withDivision hdiv]

end Scorer

end Division

/-! ## 2. Precision and penalty -/

section Range

variable {smoothing effective : ExactReal} {statistics : Statistics} {length : ℕ}

/-- No smoothed precision exceeds one. -/
theorem Statistics.logRatio_nonpos (hpos : 0 < smoothing.toReal) {t : Tally}
    (ht : t.matched ≤ t.total) : (logRatio smoothing t).toReal ≤ 0 := by
  have hcast : (t.matched : ℝ) ≤ t.total := Nat.cast_le.mpr ht
  have hmatched : 0 < (t.matched : ℝ) + smoothing.toReal :=
    add_pos_of_nonneg_of_pos (Nat.cast_nonneg t.matched) hpos
  have hlog := Real.log_le_log hmatched (add_le_add_left hcast smoothing.toReal)
  simpa [logRatio] using hlog

/-- **Neither does their mean**, so its logarithm is not positive. -/
theorem Statistics.logPrecision_nonpos (hpos : 0 < smoothing.toReal)
    (hle : ∀ n, statistics.matched n ≤ statistics.total n) :
    (statistics.logPrecision smoothing).toReal ≤ 0 := by
  have h₁ : (logRatio smoothing statistics.unigrams).toReal ≤ 0 := logRatio_nonpos hpos (hle 1)
  have h₂ : (logRatio smoothing statistics.bigrams).toReal ≤ 0 := logRatio_nonpos hpos (hle 2)
  have h₃ : (logRatio smoothing statistics.trigrams).toReal ≤ 0 := logRatio_nonpos hpos (hle 3)
  have h₄ : (logRatio smoothing statistics.fourgrams).toReal ≤ 0 := logRatio_nonpos hpos (hle 4)
  have hsum : (Scalar.sum (statistics.tallies.map (logRatio smoothing))).toReal ≤ 0 := by
    simp only [tallies, Scalar.sum, List.map_cons, List.map_nil, List.foldl_cons, List.foldl_nil,
      ExactReal.toReal_add, ExactReal.toReal_emptySum]
    linarith
  rw [logPrecision, ExactReal.toReal_div, ExactReal.toReal_ofNat]
  exact div_nonpos_of_nonpos_of_nonneg hsum (Nat.cast_nonneg maxOrder)

namespace Scorer

/-- **A penalty lowers BLEU.**  What is not penalized has the precision for its BLEU. -/
theorem bleu_le_exp : (bleu smoothing effective statistics length).toReal ≤
    Real.exp (statistics.logPrecision smoothing).toReal := by
  rcases le_or_gt effective.toReal length with hlong | hshort
  · exact (bleu_of_effective_le hlong).le
  · have hpos : 0 < effective.toReal := (Nat.cast_nonneg length).trans_lt hshort
    by_cases hlength : length = 0
    · subst hlength
      rw [bleu_of_length_eq_zero hpos]
      exact Real.exp_nonneg _
    · have hratio : 1 < effective.toReal / length := by
        rw [one_lt_div (Nat.cast_pos.mpr (Nat.pos_of_ne_zero hlength))]
        exact hshort
      rw [bleu, if_pos (by simpa using hpos), if_neg hlength, if_pos (by simpa using hratio)]
      simp only [ExactReal.toReal_exp, ExactReal.toReal_add, ExactReal.toReal_sub,
        ExactReal.toReal_one, ExactReal.toReal_div, ExactReal.toReal_ofNat]
      exact Real.exp_le_exp.mpr (by linarith)

/-- No BLEU is negative. -/
theorem bleu_nonneg : 0 ≤ (bleu smoothing effective statistics length).toReal := by
  simp only [bleu]
  split
  · split
    · simp
    · split
      · simp [Real.exp_nonneg]
      · simp [Real.exp_nonneg]
  · simp [Real.exp_nonneg]

/-! ## 3. The main result -/

section Smoothing

variable {K : Type} [Scalar K] {s : Scorer K} {h h' : History K}

/-- No call changes the smoothing. -/
theorem Step.smoothing_eq {policy : Policy K} (hs : Step policy h h') :
    h'.scorer.smoothing = h.scorer.smoothing := by
  cases hs with
  | score hs => rfl
  | fixLeaf hv => exact (of_fix_eq_ok hv).2.2.2
  | fixEdge hp hv =>
    obtain ⟨left, right, length, -, -, -, hfix⟩ := fixEdge_eq_ok_iff.mp hv
    exact (of_fix_eq_ok hfix).2.2.2

theorem Reached.smoothing_eq {policy : Policy K} (hr : Reached policy s h) :
    h.scorer.smoothing = s.smoothing := by
  induction hr with
  | start => rfl
  | step _ hs ih => exact hs.smoothing_eq.trans ih

end Smoothing

variable {references : SentenceReferences} {f : Forest ExactReal} {h : History ExactReal}
  {e : Edge ExactReal} {covered : ℕ} {bleu : ExactReal}

/-- **The BLEU of an edge lies between zero and one**, in exact arithmetic.  Let the smoothing be
positive.  After any calls, each passing on an answer for the edge that it fixes, an edge that has a
score has no more matches than n-grams, of any length, and its BLEU

* is at least zero and at most one;
* is at most the precision of its statistics, and is that precision if the text is as long as expected;
* is zero if the text has no words where words are expected;
* is the same whatever a division by zero gives. -/
theorem Reached.bleu_edge (hpos : 0 < smoothing.toReal)
    (hr : Reached answered (Scorer.start references smoothing f) h)
    (hs : h.scorer.score e covered = .ok (bleu, statistics)) :
    (∀ n, statistics.matched n ≤ statistics.total n) ∧
    0 ≤ bleu.toReal ∧ bleu.toReal ≤ 1 ∧
    bleu.toReal ≤ Real.exp (statistics.logPrecision smoothing).toReal ∧
    (∃ length, h.scorer.targetLength e = .ok length ∧ length = (e.text h.texts).length ∧
      ((h.scorer.effectiveReference covered).toReal ≤ length →
        bleu.toReal = Real.exp (statistics.logPrecision smoothing).toReal) ∧
      (length = 0 → 0 < (h.scorer.effectiveReference covered).toReal → bleu.toReal = 0)) ∧
    ∀ div : ExactReal → ExactReal → ExactReal, Scalar.DividesByCounts div →
      @score ExactReal (Scalar.withDivision div) h.scorer e covered = .ok (bleu, statistics) := by
  have hstart := not_fixed_start references smoothing f
  have hsmoothing : h.scorer.smoothing = smoothing := hr.smoothing_eq
  have hmatched : ∀ n, statistics.matched n ≤ statistics.total n := fun n =>
    (hr.sound_score hstart withinText_zero (passedOn_withinText references) hs n).1
  have hprecision := Statistics.logPrecision_nonpos hpos hmatched
  have hk : ∀ c ∈ e.children, h.scorer.Knows h.texts c := fun c hc =>
    (hr.describes hstart).knows (fixed_of_score hs c hc)
  obtain ⟨gs, inner, length, -, -, hlength, -, hbleu, -⟩ := score_eq_ok_iff.mp hs
  rw [hsmoothing] at hbleu
  obtain ⟨rfl, -⟩ := (targetLength_eq_ok_iff hk).mp hlength
  have hexp : bleu.toReal ≤ Real.exp (statistics.logPrecision smoothing).toReal :=
    hbleu ▸ bleu_le_exp
  refine ⟨hmatched, hbleu ▸ bleu_nonneg, ?_, hexp, ⟨_, hlength, rfl, fun hlong => ?_,
    fun hempty hexpected => ?_⟩, fun div hdiv => ?_⟩
  · exact hexp.trans (Real.exp_le_one_iff.mpr hprecision)
  · rw [hbleu]
    exact bleu_of_effective_le hlong
  · rw [hbleu, hempty]
    exact bleu_of_length_eq_zero hexpected
  · rw [score_withDivision hdiv]
    exact hs

/-! ### A text without words -/

namespace Sample

/-- An edge with a gap for an empty text. -/
def silence : Edge ExactReal := .ofSlots [.gap 0] .empty

/-- A leaf, and a vertex that covers the one word of the source. -/
def silentForest : Forest ExactReal := ⟨2, 1, #[⟨[], 0⟩, ⟨[0], 1⟩], #[silence]⟩

/-- A reference of one word. -/
def spoken : SentenceReferences := SentenceReferences.empty.add [⟨2⟩]

/-- The leaf is fixed. -/
noncomputable def silentHistory : History ExactReal where
  scorer := { start spoken Scalar.one silentForest with summaries := #[some .empty, none] }
  texts := Function.update (fun _ => []) 0 []
  answers := []

theorem reached_silentHistory :
    Reached answered (start spoken Scalar.one silentForest) silentHistory :=
  Reached.start.step (Step.fixLeaf (v := 0) rfl)

/-- The one word of the reference is expected. -/
theorem effective_silentHistory :
    (silentHistory.scorer.effectiveReference 1).toReal = 1 := by
  have hshortest : spoken.shortest = 1 := by decide +kernel
  show ((Scalar.ofNat 1 : ExactReal) / Scalar.ofNat 1 * Scalar.ofNat spoken.shortest).toReal = 1
  simp [hshortest]

end Sample

/-- The text of the leaf has no word where one is expected, and so no BLEU, whatever a division by
its length gives. -/
theorem bleu_edge_silence :
    0 < (Scalar.one : ExactReal).toReal ∧
    Reached answered (start Sample.spoken Scalar.one Sample.silentForest) Sample.silentHistory ∧
    ∃ bleu found, Sample.silentHistory.scorer.score Sample.silence 1 = .ok (bleu, found) ∧
      (∀ n, found.matched n ≤ found.total n) ∧ bleu.toReal = 0 ∧
      ∀ div : ExactReal → ExactReal → ExactReal, Scalar.DividesByCounts div →
        @score ExactReal (Scalar.withDivision div) Sample.silentHistory.scorer Sample.silence 1 =
          .ok (bleu, found) := by
  have hpos : 0 < (Scalar.one : ExactReal).toReal := by simp
  have hscore : ∃ bleu found,
      Sample.silentHistory.scorer.score Sample.silence 1 = .ok (bleu, found) :=
    ⟨_, _, score_eq_ok_iff.mpr ⟨[], [.empty], 0, rfl, rfl, rfl, rfl, rfl, .inr (by decide)⟩⟩
  obtain ⟨bleu, found, hs⟩ := hscore
  obtain ⟨hmatched, -, -, -, ⟨length, -, hlength, -, hzero⟩, hdiv⟩ :=
    Reached.bleu_edge hpos Sample.reached_silentHistory hs
  refine ⟨hpos, Sample.reached_silentHistory, bleu, found, hs, hmatched, hzero ?_ ?_, hdiv⟩
  · rw [hlength]
    decide
  · rw [Sample.effective_silentHistory]
    exact one_pos

end Scorer

end Range

end ForestRescoring
