/-
# Matches of an edge and matches of its text

A scorer limits the matches of an n-gram at each edge by itself, and by its count in all references
together.  The statistics of a whole text limit them once, and by the count in one reference.  So
the scorer finds at least the matches of the text, and it finds no more than the n-grams of the
text that are in some reference (`HasMatches`).  Where the limit of the text lets all of these match,
the two agree.

Both bounds pass from the children to an edge, the lower one because parts match more than the
whole (`matching_append_le`).
-/
import Mathlib
import ForestRescoring.Proofs.References.Loading
import ForestRescoring.Proofs.Scoring.Counting

namespace ForestRescoring

namespace Scorer

variable {K : Type}

/-! ## 1. Matches of a text -/

/-- The n-grams of a length that some reference has. -/
def referenced (references : SentenceReferences) (n : ℕ) (gs : List Ngram) : ℕ :=
  gs.countP fun g => g.length = n ∧ (references.count g).total ≠ 0

theorem referenced_le_total (references : SentenceReferences) (n : ℕ) (gs : List Ngram) :
    referenced references n gs ≤ gs.countP fun g => g.length = n := by
  refine List.countP_mono_left fun g _ h => ?_
  rw [decide_eq_true_eq] at h ⊢
  exact h.1

/-- Statistics of a framed text have at least the matches of the text, and match no n-gram that no
reference has. -/
def HasMatches (references : SentenceReferences) (statistics : Statistics) (ws : List WordId) :
    Prop :=
  Framed ws → ∀ n, 1 ≤ n → n ≤ maxOrder →
    (references.statistics ws).matched n ≤ statistics.matched n ∧
      statistics.matched n ≤ referenced references n (ngrams (content ws))

theorem hasMatches_zero (references : SentenceReferences) : HasMatches references .zero [] :=
  fun _ _ _ _ => ⟨Nat.le_refl _, Nat.le_of_eq (Statistics.matched_zero _)⟩

/-! ## 2. The children and the edge -/

/-- Numbers on both sides of two lists that go together add up alike. -/
theorem sum_le_of_forall₂ {α β : Type} {R : α → β → Prop} {f : α → ℕ} {g : β → ℕ} {as : List α}
    {bs : List β} (h : List.Forall₂ R as bs) (hfg : ∀ a b, R a b → f a ≤ g b) :
    (as.map f).sum ≤ (bs.map g).sum := by
  induction h with
  | nil => exact Nat.le_refl 0
  | cons hab _ ih =>
    rw [List.map_cons, List.map_cons, List.sum_cons, List.sum_cons]
    exact Nat.add_le_add (hfg _ _ hab) ih

variable [Scalar K]

/-- **Matches are passed on**, if no reference has an n-gram more often than all together. -/
theorem passedOn_hasMatches {references : SentenceReferences}
    (hclip : ∀ g, (references.count g).clipped ≤ (references.count g).total) :
    PassedOn (K := K) references (HasMatches references) := by
  intro s texts e covered bleu statistics href hk hsum hs hf n h1 h4
  obtain ⟨gs, inner, length, hgs, hinner, -, rfl, -⟩ := score_eq_ok_iff.mp hs
  obtain ⟨gs', hgs', hperm⟩ := exists_newNgrams hk hf
  rw [hgs] at hgs'
  cases hgs'
  have hchild : ∀ c found, c ∈ e.children ∧ s.summary c = .ok found →
      (references.statistics (texts c)).matched n ≤ found.statistics.matched n ∧
        found.statistics.matched n ≤ referenced references n (ngrams (content (texts c))) :=
    fun c found hc => hsum c found hc.2 (hf.child hc.1) n h1 h4
  have hboth := forall₂_childSummaries hinner
  have hown : (s.ownStatistics gs).matched n =
      matching (fun g => (references.count g).total) n gs := by
    rw [ownStatistics, href, Statistics.matched_ofCounts h1 h4]
  have hwhole : ∀ ws, (references.statistics ws).matched n =
      matching (fun g => (references.count g).clipped) n (ngrams (content ws)) :=
    fun ws => Statistics.matched_ofCounts h1 h4 _ _
  rw [matched_joinStatistics, hown]
  constructor
  · calc (references.statistics (e.text texts)).matched n
        = matching (fun g => (references.count g).clipped) n
            (gs ++ e.children.flatMap fun c => ngrams (content (texts c))) := by
          rw [hwhole, matching_perm hperm]
      _ ≤ matching (fun g => (references.count g).clipped) n gs +
            (e.children.map fun c => matching (fun g => (references.count g).clipped) n
              (ngrams (content (texts c)))).sum :=
          (matching_append_le _ _).trans (Nat.add_le_add_left (matching_flatMap_le _ _) _)
      _ ≤ matching (fun g => (references.count g).total) n gs +
            (inner.map fun c => c.statistics.matched n).sum :=
          Nat.add_le_add (matching_mono hclip gs) (sum_le_of_forall₂ hboth fun c found hc =>
            hwhole (texts c) ▸ (hchild c found hc).1)
  · calc matching (fun g => (references.count g).total) n gs +
          (inner.map fun c => c.statistics.matched n).sum
        ≤ referenced references n gs +
            (e.children.map fun c => referenced references n (ngrams (content (texts c)))).sum :=
          Nat.add_le_add (matching_le_countP _ n gs)
            (sum_le_of_forall₂ hboth.flip fun found c hc => (hchild c found hc).2)
      _ = referenced references n (ngrams (content (e.text texts))) := by
          rw [referenced, referenced, ← hperm.countP_eq, List.countP_append, List.countP_flatMap]
          rfl

/-! ## 3. The main result -/

section Main

variable {references : References} {id : ℕ} {smoothing : K} {f : Forest K} {h : History K}
  {e : Edge K}

/-- **The matches of an edge bracket those of its text.**  After any calls, each passing on an answer
for the edge that it fixes, an edge with fixed children and a framed text has a score if the text can
be counted.  Every score has at least the matches of the text and at most its totals; and it has just
the matches of the text, for a length of which every n-gram is in no reference or stands in the text
at most as often as in one of them. -/
theorem Reached.matched_edge (hl : references.Loaded)
    (hr : Reached answered (Scorer.start (references.sentence id) smoothing f) h)
    (hc : ∀ c ∈ e.children, h.scorer.Fixed c) (hf : Framed (e.text h.texts)) (covered : ℕ) :
    (e.Countable h.texts → ∃ bleu statistics,
      h.scorer.score e covered = .ok (bleu, statistics)) ∧
    (¬ e.Countable h.texts → h.scorer.score e covered = .error .overflow) ∧
    ∀ bleu statistics, h.scorer.score e covered = .ok (bleu, statistics) →
      ∀ n, 1 ≤ n → n ≤ maxOrder →
        ((references.sentence id).statistics (e.text h.texts)).matched n ≤ statistics.matched n ∧
        statistics.matched n ≤ statistics.total n ∧
        ((∀ g ∈ ngrams (content (e.text h.texts)), g.length = n →
            ((references.sentence id).count g).total = 0 ∨
              occurrences g (content (e.text h.texts)) ≤
                ((references.sentence id).count g).clipped) →
          statistics.matched n =
            ((references.sentence id).statistics (e.text h.texts)).matched n) := by
  have hclip := hl.clipped_le_total id
  have hstart := not_fixed_start (references.sentence id) smoothing f
  obtain ⟨hscore, hover⟩ := hr.score_outcome hc covered
  refine ⟨hscore, hover, fun bleu statistics hs n h1 h4 => ?_⟩
  obtain ⟨hlow, hhigh⟩ :=
    hr.sound_score hstart (hasMatches_zero _) (passedOn_hasMatches hclip) hs hf n h1 h4
  have htotal := hr.sound_score hstart hasTotals_zero (passedOn_hasTotals _) hs hf n h1 h4
  refine ⟨hlow, ?_, fun hall => ?_⟩
  · rw [htotal]
    exact hhigh.trans (referenced_le_total _ _ _)
  · have hfull : ((references.sentence id).statistics (e.text h.texts)).matched n =
        referenced (references.sentence id) n (ngrams (content (e.text h.texts))) := by
      have hcounts : ((references.sentence id).statistics (e.text h.texts)).matched n =
          matching (fun g => ((references.sentence id).count g).clipped) n
            (ngrams (content (e.text h.texts))) := Statistics.matched_ofCounts h1 h4 _ _
      rw [hcounts]
      refine matching_eq_countP hclip fun g hg hlen => ?_
      rw [count_ngrams (hlen ▸ h1) (hlen ▸ h4)]
      exact hall g hg hlen
    exact Nat.le_antisymm (hhigh.trans (Nat.le_of_eq hfull.symm)) hlow

end Main

/-- The sentence with the phrase in it twice has four of its words in a reference, and is scored as
if it had more; of its trigrams, just the one that a reference has matches. -/
theorem matched_edge_sentence :
    Sample.corpus.Loaded ∧
    Reached answered (Scorer.start (Sample.corpus.sentence 0) 0 Sample.forest) Sample.history ∧
    (∀ c ∈ Sample.sentence.children, Sample.history.scorer.Fixed c) ∧
    Framed (Sample.sentence.text Sample.history.texts) ∧
    ∀ covered, ∃ bleu statistics,
      Sample.history.scorer.score Sample.sentence covered = .ok (bleu, statistics) ∧
        4 ≤ statistics.matched 1 ∧ statistics.matched 1 ≤ statistics.total 1 ∧
        statistics.matched 3 = 1 := by
  have hl : Sample.corpus.Loaded := References.Loaded.ofTexts _ _
  have hc := Sample.fixed_children
  have hf : Framed (Sample.sentence.text Sample.history.texts) := by decide
  refine ⟨hl, Sample.reached_history, hc, hf, fun covered => ?_⟩
  obtain ⟨hscore, -, hmatched⟩ :=
    Reached.matched_edge hl Sample.reached_history hc hf covered
  obtain ⟨bleu, statistics, hs⟩ := hscore Sample.countable_sentence
  obtain ⟨hlow, hhigh, -⟩ := hmatched bleu statistics hs 1 (by decide) (by decide)
  obtain ⟨-, -, htrigrams⟩ := hmatched bleu statistics hs 3 (by decide) (by decide)
  have hfour : ((Sample.corpus.sentence 0).statistics
      (Sample.sentence.text Sample.history.texts)).matched 1 = 4 := by decide +kernel
  have hone : ((Sample.corpus.sentence 0).statistics
      (Sample.sentence.text Sample.history.texts)).matched 3 = 1 := by decide +kernel
  have hall : ∀ g ∈ ngrams (content (Sample.sentence.text Sample.history.texts)), g.length = 3 →
      ((Sample.corpus.sentence 0).count g).total = 0 ∨
        occurrences g (content (Sample.sentence.text Sample.history.texts)) ≤
          ((Sample.corpus.sentence 0).count g).clipped := by decide +kernel
  exact ⟨bleu, statistics, hs, hfour ▸ hlow, hhigh, (htrigrams hall).trans hone⟩

end Scorer

end ForestRescoring
