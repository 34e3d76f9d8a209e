/-
# The BLEU weight steers the choice

In a forest with one vertex whose edges are rows of words, a search picks one of several alternatives,
and each is rated by its model score and its weighted BLEU (`Forest.Picks.isBest`).  With a larger BLEU
weight, what is picked has no smaller BLEU.  Between two weights that are not negative it has no larger
model score either, and between two that are not positive no smaller one (`Forest.bleu_steers`).

Two searches are compared.  Each of them could have picked what the other picked, and did not do worse
by its own weight.  These are two inequalities, and their sum has the model scores on both sides
(`steer`).  Numbers are exact, as a difference of BLEU is to be seen through a sum.  Which of equally
good alternatives is picked does not matter, and neither does it that a search without a BLEU weight
has no scorer: its weight is zero, and so is the term that it leaves out
(`Search.rating_of_words`).
-/
import Mathlib
import ForestRescoring.Proofs.FeatureVector.Linear
import ForestRescoring.Proofs.Scalar.Real
import ForestRescoring.Proofs.Scoring.Brevity
import ForestRescoring.Proofs.Scoring.Progress
import ForestRescoring.Proofs.Search.Chosen
import ForestRescoring.Proofs.Search.Offences

namespace ForestRescoring

/-! ## 1. The exchange -/

/-- **Two choices by two weights.**  The first is at least as good as the second by the smaller weight,
and the second as good as the first by the larger one. -/
theorem steer {m₁ m₂ b₁ b₂ w₁ w₂ : ℝ} (hw : w₁ < w₂) (h₁ : m₂ + w₁ * b₂ ≤ m₁ + w₁ * b₁)
    (h₂ : m₁ + w₂ * b₁ ≤ m₂ + w₂ * b₂) :
    b₁ ≤ b₂ ∧ (0 ≤ w₁ → m₂ ≤ m₁) ∧ (w₂ ≤ 0 → m₁ ≤ m₂) := by
  have hgain : 0 ≤ (w₂ - w₁) * (b₂ - b₁) := by linarith
  have hb : 0 ≤ b₂ - b₁ := nonneg_of_mul_nonneg_right hgain (sub_pos.mpr hw)
  refine ⟨sub_nonneg.mp hb, fun hpos => ?_, fun hneg => ?_⟩
  · have hloss : 0 ≤ w₁ * (b₂ - b₁) := mul_nonneg hpos hb
    linarith
  · have hloss : w₂ * (b₂ - b₁) ≤ 0 := mul_nonpos_of_nonpos_of_nonneg hneg hb
    linarith

/-! ## 2. Alternatives -/

variable {K : Type}

/-- A forest with one vertex, whose edges are rows of words. -/
structure Forest.Alternatives (f : Forest K) (x : Vertex) : Prop where
  vertices : f.vertices = #[x]
  incoming : x.incoming ≠ []
  edges : ∀ id ∈ x.incoming, ∃ e, f.edge? id = some e ∧ e.children = []

namespace Forest.Alternatives

variable {f : Forest K} {x : Vertex} (hf : f.Alternatives x)

include hf

theorem vertex?_zero : f.vertex? 0 = some x := by
  rw [Forest.vertex?, hf.vertices]
  rfl

theorem root? : f.root? = some 0 := by
  rw [Forest.root?, hf.vertices]
  rfl

theorem children_eq_nil {id : EdgeId} {e : Edge K} (hid : id ∈ x.incoming)
    (he : f.edge? id = some e) : e.children = [] := by
  obtain ⟨e', he', hwords⟩ := hf.edges id hid
  cases he.symm.trans he'
  exact hwords

/-- There are no sums that could overflow. -/
theorem not_overlong : ¬ f.Overlong := by
  rintro ⟨v, id, features, target, e, hd, he, hparts, -⟩
  cases hd with
  | node hy hid _ _ =>
    rw [Forest.vertex?, hf.vertices] at hy
    obtain ⟨hv, rfl⟩ := Array.getElem?_eq_some_iff.mp hy
    obtain rfl : v = 0 := Nat.lt_one_iff.mp hv
    exact hparts (hf.children_eq_nil hid he)

theorem bottomUp : f.BottomUp := by
  intro v y hy id hid
  rw [Forest.vertex?, hf.vertices] at hy
  obtain ⟨hv, rfl⟩ := Array.getElem?_eq_some_iff.mp hy
  obtain rfl : v = 0 := Nat.lt_one_iff.mp hv
  obtain ⟨e, he, hwords⟩ := hf.edges id hid
  refine ⟨e, he, fun c hc => ?_⟩
  rw [hwords] at hc
  cases hc

end Forest.Alternatives

/-- A row of words is derived in one way, as it stands. -/
theorem Forest.UnfoldsSlots.map_yield {f : Forest K} {a : Assignment} {slots : List Slot}
    {target : Target K} (h : f.UnfoldsSlots a slots target)
    (hwords : slots.filterMap Slot.child? = []) : target.yield.map Slot.word = slots := by
  induction slots generalizing target with
  | nil =>
    cases h
    rfl
  | cons slot slots ih =>
    cases slot with
    | word w =>
      cases h with
      | word h => exact congrArg (Slot.word w :: ·) (ih h hwords)
    | gap c => cases hwords

variable [Scalar K] {f : Forest K} {a : Assignment} {o : Objective K}
  {references : SentenceReferences} {h : Decoding K} {id : EdgeId} {e : Edge K}

/-- A row of words has a score, whatever was fixed. -/
theorem Scorer.exists_score_of_words (s : Scorer K) (covered : ℕ) (hwords : e.children = []) :
    ∃ bleu statistics, s.score e covered = .ok (bleu, statistics) := by
  have hfixed : ∀ c ∈ e.children, s.Fixed c := by
    rw [hwords]
    exact List.forall_mem_nil _
  obtain ⟨⟨bleu, statistics⟩, hfound⟩ :=
    Scorer.exists_score_iff.mpr ⟨hfixed, .inl hwords, .inl hwords⟩
  exact ⟨bleu, statistics, hfound⟩

/-! ## 3. What is picked -/

/-- A search has a result, and the edge that its table has for the first vertex. -/
structure Forest.Picks (f : Forest K) (o : Objective K) (references : SentenceReferences)
    (h : Decoding K) (id : EdgeId) (e : Edge K) : Prop where
  best : f.best o references = .ok h
  chosen : ∃ s, Search.sweep o references f = .ok s ∧ s.table.chosen 0 = some id
  edge : f.edge? id = some e

/-- **One of the alternatives is picked**, and its words are the text of the result. -/
theorem Forest.Alternatives.exists_picks {x : Vertex} (hf : f.Alternatives x) (o : Objective K)
    (references : SentenceReferences) :
    ∃ h id e, f.Picks o references h id e ∧ id ∈ x.incoming ∧ h.text.map Slot.word = e.slots := by
  have hne : f.vertices ≠ #[] := by
    rw [hf.vertices]
    exact nofun
  have hok : failure? (f.best o references) = none := by
    rw [(Forest.failsFor_best f o references).resolve_right fun h => hf.not_overlong h.1.2,
      if_neg hne, Forest.offences_eq_nil_iff.mpr hf.bottomUp]
    rfl
  obtain ⟨h, hb⟩ := failure?_eq_none_iff.mp hok
  obtain ⟨root, s, hroot, hs⟩ := Forest.of_best_eq_ok hb
  obtain rfl : root = 0 := Option.some.inj (hroot.symm.trans hf.root?)
  obtain ⟨hw, hsize⟩ := Search.swept_of_sweep_eq_ok hs
  have ha := hw.assigns hsize
  obtain ⟨d, hd, hbest⟩ := Forest.best_eq_of_sweep hroot hs
  cases hbest.symm.trans hb
  cases hd with
  | leaf hnone => exact absurd ((ha.eq_none_iff 0 x hf.vertex?_zero).mp hnone) hf.incoming
  | @node _ id e target hid he ht =>
    have hmem := (ha.edge 0 x id hf.vertex?_zero hid).1
    have hwords := hf.children_eq_nil hmem he
    rw [← Edge.filterMap_child?_slots] at hwords
    exact ⟨_, id, e, ⟨hb, ⟨s, hs, hid⟩, he⟩, hmem, ht.map_yield hwords⟩

/-! ## 4. What is picked is best -/

section Exact

variable {f : Forest ExactReal} {x : Vertex} {o : Objective ExactReal} {h : Decoding ExactReal}
  {e : Edge ExactReal}

/-- **A row of words is rated by its model score and its weighted BLEU**, also by a search without a
scorer, where the weight is zero. -/
theorem Search.rating_of_words {a : Assignment} {scorer : Option (Scorer ExactReal)}
    {σ : VertexId → ExactReal} {covered : ℕ} {score : ExactReal} {statistics : Statistics}
    (hscorer : f.ScorerFor o references a scorer) (hwords : e.children = [])
    (hrates : Rates o scorer σ covered e score statistics) :
    ∃ bleu found, (Scorer.start references o.smoothing f).score e covered = .ok (bleu, found) ∧
      score.toReal = (e.score o.weights).toReal + o.bleuWeight.toReal * bleu.toReal := by
  have hedge : edgeScore o.weights σ e = e.score o.weights := by
    rw [edgeScore, hwords]
    rfl
  cases scorer with
  | none =>
    obtain ⟨rfl, -⟩ := hrates
    have hzero : o.bleuWeight.toReal = 0 := by
      rw [Forest.ScorerFor] at hscorer
      split at hscorer
      · next hzero => exact ExactReal.isZero_iff.mp hzero
      · obtain ⟨s, hs, -⟩ := hscorer
        cases hs
    obtain ⟨bleu, found, hfound⟩ :=
      (Scorer.start references o.smoothing f).exists_score_of_words covered hwords
    refine ⟨bleu, found, hfound, ?_⟩
    rw [hedge, hzero, zero_mul, add_zero]
  | some s =>
    obtain ⟨bleu, hbleu, rfl⟩ := hrates
    have hagree := hscorer.fixedBy.agreeOn_nil
    rw [← hwords] at hagree
    refine ⟨bleu, statistics, (hagree.score_eq covered).symm.trans hbleu, ?_⟩
    rw [hedge, ExactReal.toReal_add, ExactReal.toReal_mul]

/-- **What is picked is one of the alternatives, and none is better**, by its model score and its
weighted BLEU. -/
theorem Forest.Picks.isBest (hf : f.Alternatives x) (hp : f.Picks o references h id e) :
    id ∈ x.incoming ∧ ∃ bleu found,
      (Scorer.start references o.smoothing f).score e x.sourceCovered = .ok (bleu, found) ∧
      ∀ id' ∈ x.incoming, ∀ e' bleu' found', f.edge? id' = some e' →
        (Scorer.start references o.smoothing f).score e' x.sourceCovered = .ok (bleu', found') →
        (e'.score o.weights).toReal + o.bleuWeight.toReal * bleu'.toReal ≤
          (e.score o.weights).toReal + o.bleuWeight.toReal * bleu.toReal := by
  obtain ⟨s, hs, hchosen⟩ := hp.chosen
  obtain ⟨hw, hsize⟩ := Search.swept_of_sweep_eq_ok hs
  have hscorer := hw.scorerFor hsize
  obtain ⟨ratings, won, hrated, hwon, hedge, -⟩ :=
    (hw.settled_vertex hsize hf.vertex?_zero).exists_winner hf.incoming
  have hbest := Search.atLeast_of_winner_eq (fun r _ => ExactReal.comparable r.score) hwon
  obtain ⟨id', hid', hrate⟩ := exists_mem_of_forall₂ hrated (Search.mem_of_winner_eq hwon)
  obtain ⟨rfl, he, hrates⟩ := Search.rate_eq_some_iff.mp hrate
  cases hedge.symm.trans hchosen
  cases he.symm.trans hp.edge
  obtain ⟨bleu, found, hfound, hscore⟩ :=
    Search.rating_of_words hscorer (hf.children_eq_nil hid' he) hrates
  refine ⟨hid', bleu, found, hfound, fun id' hid' e' bleu' found' he' hfound' => ?_⟩
  obtain ⟨r, hr, hrate'⟩ := exists_mem_of_forall₂ hrated.flip hid'
  obtain ⟨-, her, hrates'⟩ := Search.rate_eq_some_iff.mp hrate'
  cases he'.symm.trans her
  obtain ⟨bleu'', found'', hfound'', hscore'⟩ :=
    Search.rating_of_words hscorer (hf.children_eq_nil hid' her) hrates'
  cases hfound'.symm.trans hfound''
  rw [← hscore, ← hscore']
  exact ExactReal.atLeast_iff.mp (hbest r hr)

/-! ## 5. The main result -/

/-- **The BLEU weight steers the choice**, in exact arithmetic.  In a forest whose only vertex has rows
of words for alternatives, a search with any BLEU weight picks one of them.  Let two searches differ in
their BLEU weights alone.  What the one with the larger weight picks

* has a BLEU that is at least that of what the other picks;
* has at most the model score of that, if the smaller weight is not negative;
* has at least the model score of that, if the larger weight is not positive. -/
theorem Forest.bleu_steers (hf : f.Alternatives x) (weights : FeatureVector ExactReal)
    (smoothing : ExactReal) (references : SentenceReferences) :
    (∀ w, ∃ h id e, f.Picks ⟨weights, w, smoothing⟩ references h id e ∧ id ∈ x.incoming ∧
      h.text.map Slot.word = e.slots) ∧
    ∀ w₁ w₂ : ExactReal, w₁.toReal < w₂.toReal → ∀ h₁ id₁ e₁ h₂ id₂ e₂,
      f.Picks ⟨weights, w₁, smoothing⟩ references h₁ id₁ e₁ →
      f.Picks ⟨weights, w₂, smoothing⟩ references h₂ id₂ e₂ →
      ∃ bleu₁ found₁ bleu₂ found₂,
        (Scorer.start references smoothing f).score e₁ x.sourceCovered = .ok (bleu₁, found₁) ∧
        (Scorer.start references smoothing f).score e₂ x.sourceCovered = .ok (bleu₂, found₂) ∧
        bleu₁.toReal ≤ bleu₂.toReal ∧
        (0 ≤ w₁.toReal → (e₂.score weights).toReal ≤ (e₁.score weights).toReal) ∧
        (w₂.toReal ≤ 0 → (e₁.score weights).toReal ≤ (e₂.score weights).toReal) := by
  refine ⟨fun w => hf.exists_picks _ references, ?_⟩
  intro w₁ w₂ hw h₁ id₁ e₁ h₂ id₂ e₂ hp₁ hp₂
  obtain ⟨hid₁, bleu₁, found₁, hfound₁, hbest₁⟩ := hp₁.isBest hf
  obtain ⟨hid₂, bleu₂, found₂, hfound₂, hbest₂⟩ := hp₂.isBest hf
  have hsecond := hbest₁ id₂ hid₂ e₂ bleu₂ found₂ hp₂.edge hfound₂
  have hfirst := hbest₂ id₁ hid₁ e₁ bleu₁ found₁ hp₁.edge hfound₁
  exact ⟨bleu₁, found₁, bleu₂, found₂, hfound₁, hfound₂, steer hw hsecond hfirst⟩

end Exact

/-! ### Two alternatives

A model would rather have no word than the word of the reference, and a search changes from the one to
the other as BLEU gets a weight. -/

namespace Sample

/-- An edge with a word. -/
noncomputable def word : Edge ExactReal := .ofSlots [.word ⟨2⟩] .empty

/-- An edge without words. -/
noncomputable def noWord : Edge ExactReal :=
  .ofSlots [] (FeatureVector.empty.set "model" Scalar.one)

/-- The word of the reference, or no word at all. -/
noncomputable def wordOrNone : Forest ExactReal := ⟨1, 2, #[⟨[0, 1], 1⟩], #[word, noWord]⟩

/-- A model that would rather have no word. -/
noncomputable def preference : FeatureVector ExactReal := FeatureVector.empty.set "model" Scalar.one

/-- A reference of one word. -/
def oneWord : SentenceReferences := SentenceReferences.empty.add [⟨2⟩]

theorem alternatives_wordOrNone : wordOrNone.Alternatives ⟨[0, 1], 1⟩ where
  vertices := rfl
  incoming := List.cons_ne_nil _ _
  edges := by
    intro id hid
    rcases List.mem_pair.mp hid with rfl | rfl
    · exact ⟨_, rfl, rfl⟩
    · exact ⟨_, rfl, rfl⟩

theorem score_word : (word.score preference).toReal = 0 := by
  rw [Edge.score, word, Edge.features_ofSlots, FeatureVector.empty_dot, ExactReal.toReal_zero]

theorem score_noWord : (noWord.score preference).toReal = 1 := by
  have hmodel : preference.get "model" = Scalar.one := by
    rw [FeatureVector.get, preference, FeatureVector.get?_set, if_pos rfl, Option.getD_some]
  show ((Scalar.emptySum : ExactReal) + Scalar.one * preference.get "model").toReal = 1
  rw [hmodel]
  simp

theorem effective_oneWord :
    ((Scorer.start oneWord (Scalar.one : ExactReal) wordOrNone).effectiveReference 1).toReal = 1 := by
  have hshortest : oneWord.shortest = 1 := by decide +kernel
  show ((Scalar.ofNat 1 : ExactReal) / Scalar.ofNat 1 * Scalar.ofNat oneWord.shortest).toReal = 1
  simp [hshortest]

theorem bleu_word : ∃ bleu found,
    (Scorer.start oneWord Scalar.one wordOrNone).score word 1 = .ok (bleu, found) ∧
      bleu.toReal = 1 := by
  have hstatistics : (Scorer.start oneWord (Scalar.one : ExactReal) wordOrNone).ownStatistics
      [[⟨2⟩]] = ⟨⟨1, 1⟩, .zero, .zero, .zero⟩ := by
    show Statistics.ofCounts (fun g => (oneWord.count g).total) (.ofList [[⟨2⟩]]) = _
    decide +kernel
  refine ⟨_, _, Scorer.score_eq_ok_iff.mpr ⟨[[⟨2⟩]], [], 1, rfl, rfl, rfl, rfl, rfl, .inl rfl⟩, ?_⟩
  rw [Scorer.bleu_of_effective_le, hstatistics, Scorer.joinStatistics, List.foldl_nil,
    Statistics.logPrecision_of_matched (by decide), Real.exp_zero]
  rw [effective_oneWord, Nat.cast_one]

theorem bleu_noWord : ∃ bleu found,
    (Scorer.start oneWord Scalar.one wordOrNone).score noWord 1 = .ok (bleu, found) ∧
      bleu.toReal = 0 := by
  refine ⟨_, _, Scorer.score_eq_ok_iff.mpr ⟨[], [], 0, rfl, rfl, rfl, rfl, rfl, .inl rfl⟩, ?_⟩
  refine Scorer.bleu_of_length_eq_zero ?_
  rw [effective_oneWord]
  exact one_pos

variable {h : Decoding ExactReal} {id : EdgeId} {e : Edge ExactReal}

/-- Without a BLEU weight, a search has no word. -/
theorem picks_noWord
    (hp : wordOrNone.Picks ⟨preference, Scalar.zero, Scalar.one⟩ oneWord h id e) : id = 1 := by
  obtain ⟨hid, bleu, found, -, hbest⟩ := hp.isBest alternatives_wordOrNone
  rcases List.mem_pair.mp hid with rfl | rfl
  · obtain rfl : e = word := (Option.some.inj hp.edge).symm
    obtain ⟨bleu', found', hfound', -⟩ := bleu_noWord
    have hle := hbest 1 (List.mem_pair.mpr (.inr rfl)) noWord bleu' found' rfl hfound'
    rw [score_word, score_noWord, ExactReal.toReal_zero] at hle
    linarith
  · rfl

/-- With a BLEU weight of two, it has the word. -/
theorem picks_word
    (hp : wordOrNone.Picks ⟨preference, Scalar.ofNat 2, Scalar.one⟩ oneWord h id e) : id = 0 := by
  obtain ⟨hid, bleu, found, hfound, hbest⟩ := hp.isBest alternatives_wordOrNone
  rcases List.mem_pair.mp hid with rfl | rfl
  · rfl
  · obtain rfl : e = noWord := (Option.some.inj hp.edge).symm
    obtain ⟨bleu', found', hfound', hone⟩ := bleu_word
    obtain ⟨bleu'', found'', hfound'', hzero⟩ := bleu_noWord
    have hle := hbest 0 (List.mem_pair.mpr (.inl rfl)) word bleu' found' rfl hfound'
    cases hfound.symm.trans hfound''
    rw [score_word, score_noWord, hone, hzero, ExactReal.toReal_ofNat] at hle
    norm_num at hle

end Sample

/-- The word has the higher BLEU and the lower model score. -/
theorem Forest.bleu_steers_wordOrNone :
    ∃ h₁ e₁ h₂ e₂,
      Sample.wordOrNone.Picks ⟨Sample.preference, Scalar.zero, Scalar.one⟩ Sample.oneWord h₁ 1 e₁ ∧
      Sample.wordOrNone.Picks ⟨Sample.preference, Scalar.ofNat 2, Scalar.one⟩ Sample.oneWord h₂ 0
        e₂ ∧
      ∃ bleu₁ found₁ bleu₂ found₂,
        (Scorer.start Sample.oneWord Scalar.one Sample.wordOrNone).score e₁ 1 =
          .ok (bleu₁, found₁) ∧
        (Scorer.start Sample.oneWord Scalar.one Sample.wordOrNone).score e₂ 1 =
          .ok (bleu₂, found₂) ∧
        bleu₁.toReal ≤ bleu₂.toReal ∧
        (e₂.score Sample.preference).toReal ≤ (e₁.score Sample.preference).toReal := by
  obtain ⟨hpicks, hsteers⟩ := Forest.bleu_steers Sample.alternatives_wordOrNone Sample.preference
    Scalar.one Sample.oneWord
  obtain ⟨h₁, id₁, e₁, hp₁, -⟩ := hpicks Scalar.zero
  obtain ⟨h₂, id₂, e₂, hp₂, -⟩ := hpicks (Scalar.ofNat 2)
  obtain rfl := Sample.picks_noWord hp₁
  obtain rfl := Sample.picks_word hp₂
  have hw : (Scalar.zero : ExactReal).toReal < (Scalar.ofNat 2 : ExactReal).toReal := by
    rw [ExactReal.toReal_zero, ExactReal.toReal_ofNat]
    exact two_pos
  obtain ⟨bleu₁, found₁, bleu₂, found₂, hfound₁, hfound₂, hbleu, hmodel, -⟩ :=
    hsteers _ _ hw _ _ _ _ _ _ hp₁ hp₂
  exact ⟨h₁, e₁, h₂, e₂, hp₁, hp₂, bleu₁, found₁, bleu₂, found₂, hfound₁, hfound₂, hbleu,
    hmodel ExactReal.toReal_zero.ge⟩

end ForestRescoring
