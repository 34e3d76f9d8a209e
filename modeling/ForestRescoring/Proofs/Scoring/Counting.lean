/-
# Counting edge by edge is counting

A scorer never sees a whole text.  It counts what an edge adds to its children, and takes over what
was counted for them.  This module shows that nothing is missed and nothing is counted twice, in
every history in which only answers of the scorer are passed as statistics: an edge adds to each
n-gram the places that the n-gram has in the text of the edge beyond those in the texts of the
children, and the totals in its statistics are those of its text.

The text of the edge has to be framed.  With a boundary between two words of the content the count
is a different one, as the scorer tells n-grams inside a child from those that cross into it by
the place of a word, and boundaries take places.
-/
import Mathlib
import ForestRescoring.Proofs.Ngram.Matching
import ForestRescoring.Proofs.Scoring.Fitting

namespace ForestRescoring

/-! ## 1. Parts of a text -/

section Parts

variable {K : Type} {texts : VertexId → List WordId} {e : Edge K}

/-- The text of a child is a part of the text of the edge. -/
theorem Edge.exists_text_eq (texts : VertexId → List WordId) {c : VertexId}
    (hc : c ∈ e.children) : ∃ a b, e.text texts = a ++ texts c ++ b := by
  rw [← Edge.filterMap_child?_slots] at hc
  obtain ⟨slot, hslot, hchild⟩ := List.mem_filterMap.mp hc
  obtain ⟨front, rest, hslots⟩ := List.append_of_mem hslot
  have htext : slot.text texts = texts c := by
    cases slot with
    | word w => cases hchild
    | gap d =>
      cases hchild
      rfl
  refine ⟨slotsText texts front, slotsText texts rest, ?_⟩
  rw [Edge.text, hslots, slotsText, List.flatMap_append, List.flatMap_cons, htext,
    ← List.append_assoc]
  rfl

/-- The texts of the children of a framed text are framed. -/
theorem Framed.child (h : Framed (e.text texts)) {c : VertexId} (hc : c ∈ e.children) :
    Framed (texts c) := by
  obtain ⟨a, b, hab⟩ := Edge.exists_text_eq texts hc
  rw [hab] at h
  exact h.part

end Parts

namespace Scorer

variable {K : Type} {s : Scorer K} {texts : VertexId → List WordId} {e : Edge K}

/-! ## 2. Statistics of an edge -/

/-- The n-grams that an edge adds are those of its text beyond those of its children's, if boundaries
are out of the way. -/
theorem exists_newNgrams_of_clear (hk : ∀ c ∈ e.children, s.Knows texts c)
    (hclear : ClearSlots texts [] e.slots) :
    ∃ gs, s.newNgrams .fresh e.slots = .ok gs ∧
      (gs ++ e.children.flatMap fun c => ngrams (content (texts c))).Perm
        (ngrams (content (e.text texts))) :=
  e.filterMap_child?_slots ▸ newNgrams_perm (Edge.forall_gap_iff.mpr hk) hclear
    fun _ => (List.rtake_nil _).symm

/-- So they are in a framed text. -/
theorem exists_newNgrams (hk : ∀ c ∈ e.children, s.Knows texts c) (hf : Framed (e.text texts)) :
    ∃ gs, s.newNgrams .fresh e.slots = .ok gs ∧
      (gs ++ e.children.flatMap fun c => ngrams (content (texts c))).Perm
        (ngrams (content (e.text texts))) :=
  exists_newNgrams_of_clear hk (clearSlots_of_framed hf)

/-! ## 3. Totals -/

/-- The statistics of a framed text have its totals. -/
def HasTotals (statistics : Statistics) (ws : List WordId) : Prop :=
  Framed ws → ∀ n, 1 ≤ n → n ≤ maxOrder →
    statistics.total n = (ngrams (content ws)).countP fun g => g.length = n

/-- Each child has its place among the summaries that were read. -/
theorem forall₂_childSummaries {inner : List Summary} (h : s.childSummaries e = .ok inner) :
    List.Forall₂ (fun c found => c ∈ e.children ∧ s.summary c = .ok found) e.children inner :=
  (List.forall₂_and_left _ _).mpr ⟨fun _ hc => hc, mapM_eq_ok_iff.mp h⟩

theorem hasTotals_zero : HasTotals .zero [] := fun _ n _ _ => Statistics.total_zero n

variable [Scalar K]

/-- **Totals are passed on.**  What an edge adds and what its children have makes up its text. -/
theorem passedOn_hasTotals (references : SentenceReferences) :
    PassedOn (K := K) references HasTotals := by
  intro s texts e covered bleu statistics _ hk hsum hs hf n h1 h4
  obtain ⟨gs, inner, length, hgs, hinner, -, rfl, -⟩ := score_eq_ok_iff.mp hs
  obtain ⟨gs', hgs', hperm⟩ := exists_newNgrams hk hf
  rw [hgs] at hgs'
  cases hgs'
  have hchildren : inner.map (fun c => c.statistics.total n) =
      e.children.map fun c => (ngrams (content (texts c))).countP fun g => g.length = n := by
    refine map_eq_of_forall₂ (forall₂_childSummaries hinner) fun c found hc => ?_
    exact hsum c found hc.2 (hf.child hc.1) n h1 h4
  rw [total_joinStatistics, ownStatistics, Statistics.total_ofCounts h1 h4, hchildren,
    ← hperm.countP_eq, List.countP_append, List.countP_flatMap]
  rfl

/-- The statistics that references give a framed text have its totals. -/
theorem hasTotals_statistics (references : SentenceReferences) (ws : List WordId) :
    HasTotals (references.statistics ws) ws :=
  fun _ _ h1 h4 => Statistics.total_ofCounts h1 h4 _ _

/-! ## 4. The main result -/

section Main

variable {references : SentenceReferences} {smoothing : K} {f : Forest K} {h : History K}

/-- **Counting edge by edge is counting.**  After any calls, each passing on an answer for the edge
that it fixes, an edge with fixed children and a framed text counts each n-gram as often as it
stands in the text, less the places in the texts of the children.  It has a score if its text can be
counted, and overflows if not; and the totals of a score are those of the text. -/
theorem Reached.counts_edge (hr : Reached answered (Scorer.start references smoothing f) h)
    (hc : ∀ c ∈ e.children, h.scorer.Fixed c) (hf : Framed (e.text h.texts)) :
    (∃ counts, h.scorer.edgeNgrams e = .ok counts ∧
      ∀ g : Ngram, 1 ≤ g.length → g.length ≤ maxOrder →
        counts.count g + (e.children.map fun c => occurrences g (content (h.texts c))).sum =
          occurrences g (content (e.text h.texts))) ∧
    ∀ covered,
      (e.Countable h.texts → ∃ bleu statistics,
        h.scorer.score e covered = .ok (bleu, statistics)) ∧
      (¬ e.Countable h.texts → h.scorer.score e covered = .error .overflow) ∧
      ∀ bleu statistics, h.scorer.score e covered = .ok (bleu, statistics) →
        ∀ order, statistics.total order = (references.statistics (e.text h.texts)).total order := by
  have hstart := not_fixed_start references smoothing f
  have hd := hr.describes hstart
  have hk : ∀ c ∈ e.children, h.scorer.Knows h.texts c := fun c hmem => hd.knows (hc c hmem)
  constructor
  · obtain ⟨gs, hgs, hperm⟩ := exists_newNgrams hk hf
    refine ⟨.ofList gs, edgeNgrams_eq hgs, fun g h1 h4 => ?_⟩
    have hchildren : (e.children.map fun c => occurrences g (content (h.texts c))).sum =
        (e.children.flatMap fun c => ngrams (content (h.texts c))).count g := by
      rw [List.count_flatMap]
      exact congrArg List.sum (List.map_congr_left fun c _ => (count_ngrams h1 h4 _).symm)
    rw [NgramCounts.count_ofList, hchildren, ← List.count_append, hperm.count_eq,
      count_ngrams h1 h4]
  · intro covered
    obtain ⟨hscore, hover⟩ := hr.score_outcome hc covered
    refine ⟨hscore, hover, fun bleu statistics hs order => ?_⟩
    by_cases horder : 1 ≤ order ∧ order ≤ maxOrder
    · have htotals := hr.sound_score hstart hasTotals_zero (passedOn_hasTotals _) hs
      rw [htotals hf order horder.1 horder.2]
      exact (hasTotals_statistics references _ hf order horder.1 horder.2).symm
    · rw [Statistics.total_eq_zero horder, Statistics.total_eq_zero horder]

end Main

/-! ## 5. A sentence in which a phrase stands twice -/

namespace Sample

/-- The two boundaries, the word a and the word b. -/
def lexicon : Lexicon := ((Lexicon.withBoundaries "<s>" "</s>").internAll ["a", "b"]).2

/-- Two references of one sentence. -/
def corpus : References := (References.ofTexts lexicon ["b a b\n", "a a\n"]).1

/-- Three words, of which two are the same. -/
def phrase : Edge Float := .ofSlots [.word ⟨2⟩, .word ⟨3⟩, .word ⟨2⟩] .empty

/-- A whole sentence: a word, the phrase, an empty text, and the phrase again. -/
def sentence : Edge Float :=
  .ofSlots [.word .sentenceStart, .word ⟨3⟩, .gap 0, .gap 1, .gap 0, .word .sentenceEnd] .empty

def forest : Forest Float := ⟨3, 2, #[⟨[0], 1⟩, ⟨[], 0⟩, ⟨[1], 3⟩], #[phrase, sentence]⟩

/-- The n-grams that the phrase adds. -/
def phraseNgrams : List Ngram :=
  [[⟨2⟩], [⟨3⟩], [⟨2⟩, ⟨3⟩], [⟨2⟩], [⟨3⟩, ⟨2⟩], [⟨2⟩, ⟨3⟩, ⟨2⟩]]

/-- All n-grams of the phrase but the longest are in a reference. -/
def phraseStatistics : Statistics := ⟨⟨3, 3⟩, ⟨2, 2⟩, ⟨0, 1⟩, ⟨0, 0⟩⟩

/-- The phrase is scored and fixed, and then the empty text. -/
def history : History Float where
  scorer := { start (corpus.sentence 0) 0 forest with summaries :=
    #[some ⟨[⟨2⟩, ⟨3⟩, ⟨2⟩], [⟨2⟩, ⟨3⟩, ⟨2⟩], phraseStatistics, 3⟩, some .empty, none] }
  texts := Function.update (Function.update (fun _ => []) 0 [⟨2⟩, ⟨3⟩, ⟨2⟩]) 1 []
  answers := [(phrase, phraseStatistics)]

theorem score_phrase : ∃ bleu,
    (start (corpus.sentence 0) 0 forest).score phrase 1 = .ok (bleu, phraseStatistics) :=
  ⟨_, score_eq_ok_iff.mpr
    ⟨phraseNgrams, [], 3, rfl, rfl, rfl, by decide +kernel, rfl, .inl rfl⟩⟩

theorem reached_history : Reached answered (start (corpus.sentence 0) 0 forest) history := by
  obtain ⟨bleu, hs⟩ := score_phrase
  have hscored : Reached answered (start (corpus.sentence 0) 0 forest) _ :=
    Reached.start.step (Step.score hs)
  have hfixed := hscored.step (Step.fixEdge (v := 0) List.mem_cons_self rfl)
  exact hfixed.step (Step.fixLeaf (v := 1) rfl)

theorem fixed_children : ∀ c ∈ sentence.children, history.scorer.Fixed c := by
  intro c hmem
  have hchildren : sentence.children = [0, 1, 0] := rfl
  have hcases : c = 0 ∨ c = 1 ∨ c = 0 := by simpa [hchildren] using hmem
  rcases hcases with rfl | rfl | rfl
  · exact ⟨_, rfl⟩
  · exact ⟨_, rfl⟩
  · exact ⟨_, rfl⟩

/-- The sentence has nine words. -/
theorem countable_sentence : sentence.Countable history.texts := .inr (by decide)

end Sample

/-- Where the phrase follows itself, the last word of the one and the first of the other are counted
once; and the sentence has four n-grams of four words. -/
theorem counts_edge_sentence :
    Reached answered (Scorer.start (Sample.corpus.sentence 0) 0 Sample.forest) Sample.history ∧
    (∀ c ∈ Sample.sentence.children, Sample.history.scorer.Fixed c) ∧
    Framed (Sample.sentence.text Sample.history.texts) ∧
    (∃ counts, Sample.history.scorer.edgeNgrams Sample.sentence = .ok counts ∧
      counts.count [⟨2⟩, ⟨2⟩] = 1) ∧
    ∀ covered, ∃ bleu statistics,
      Sample.history.scorer.score Sample.sentence covered = .ok (bleu, statistics) ∧
        statistics.total 4 = 4 := by
  have hc := Sample.fixed_children
  have hf : Framed (Sample.sentence.text Sample.history.texts) := by decide
  obtain ⟨⟨counts, hcounts, hcount⟩, hscore⟩ :=
    Reached.counts_edge Sample.reached_history hc hf
  refine ⟨Sample.reached_history, hc, hf, ⟨counts, hcounts, ?_⟩, fun covered => ?_⟩
  · exact hcount [⟨2⟩, ⟨2⟩] (by decide) (by decide)
  · obtain ⟨hanswer, -, htotal⟩ := hscore covered
    obtain ⟨bleu, statistics, hs⟩ := hanswer Sample.countable_sentence
    refine ⟨bleu, statistics, hs, ?_⟩
    rw [htotal bleu statistics hs 4]
    decide +kernel

end Scorer

end ForestRescoring
