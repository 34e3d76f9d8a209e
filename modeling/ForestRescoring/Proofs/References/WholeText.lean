/-
# The statistics of a whole text

A complete text is counted by its content, so boundaries may stand in it anywhere
(`SentenceReferences.statistics_congr`).  Of each length, it has one n-gram for each place that has
room for one (`SentenceReferences.total_statistics`), and of these match, for each of the different
ones, as many as occur and the references allow (`SentenceReferences.matched_statistics`).

The references of a sentence allow what any one of their lines has.  Later lines do not take back
what a line allowed (`References.HasLine.count_le_clipped`), so a text with the words of a line
matches in all its n-grams.
-/
import Mathlib
import ForestRescoring.Proofs.Ngram.Framed
import ForestRescoring.Proofs.Ngram.Pieces
import ForestRescoring.Proofs.References.Counting

namespace ForestRescoring

/-! ## 1. Totals and matches -/

/-- With limits that all occurrences are within, all n-grams match. -/
theorem matching_of_count_le {n : ℕ} {limit : Ngram → ℕ} {gs : List Ngram}
    (h : ∀ g, gs.count g ≤ limit g) :
    matching limit n gs = gs.countP fun g => g.length = n := by
  have hcount := countP_eq_sum n (fun _ => True) gs
  simp only [and_true, if_true] at hcount
  rw [hcount, matching]
  exact Finset.sum_congr rfl fun g _ => Nat.min_eq_left (h g)

namespace SentenceReferences

variable {n : ℕ} (s : SentenceReferences) {vs ws : List WordId}

/-- **Boundaries do not count**, wherever they stand. -/
theorem statistics_congr (h : content vs = content ws) : s.statistics vs = s.statistics ws :=
  congrArg (fun text => Statistics.ofCounts (fun g => (s.count g).clipped) (countNgrams text)) h

variable (h1 : 1 ≤ n) (h4 : n ≤ maxOrder)

include h1 h4

/-- **There are as many n-grams as places** that have room for one. -/
theorem total_statistics (ws : List WordId) :
    (s.statistics ws).total n = (content ws).length + 1 - n :=
  (Statistics.total_ofCounts h1 h4 _ _).trans (countP_ngrams h1 h4 _)

/-- **Of each n-gram match as many as occur**, but no more than in any one reference. -/
theorem matched_statistics (ws : List WordId) :
    (s.statistics ws).matched n = ∑ g ∈ (pieces n (content ws)).toFinset,
      min (occurrences g (content ws)) (s.count g).clipped := by
  refine (Statistics.matched_ofCounts h1 h4 _ _).trans ?_
  rw [matching, ← content, ofOrder_ngrams h1 h4]
  refine Finset.sum_congr rfl fun g hg => ?_
  obtain ⟨rfl, -⟩ := mem_pieces.mp (List.mem_toFinset.mp hg)
  rw [count_ngrams h1 h4]

/-- A text whose n-grams are all allowed matches in all of them. -/
theorem matched_eq_total_statistics
    (h : ∀ g, (ngrams (content ws)).count g ≤ (s.count g).clipped) :
    (s.statistics ws).matched n = (s.statistics ws).total n :=
  calc (s.statistics ws).matched n
      = matching (fun g => (s.count g).clipped) n (ngrams (content ws)) :=
        Statistics.matched_ofCounts h1 h4 _ _
    _ = (ngrams (content ws)).countP fun g => g.length = n := matching_of_count_le h
    _ = (s.statistics ws).total n := (Statistics.total_ofCounts h1 h4 _ _).symm

end SentenceReferences

/-! ## 2. The lines of a sentence -/

namespace References

/-- Among the lines that were loaded for a sentence is one with these words. -/
inductive HasLine (id : ℕ) (ws : List WordId) : References → Prop
  /-- The words are the tokens of the line that a text has for the sentence. -/
  | line {r : References} {x z : Lexicon} {ls : List String} {l : String} (hl : ls[id]? = some l)
      (hz : (r.addLines x ls).2.Grows z) (hw : z.Spells ws (Text.tokens l)) :
      HasLine id ws (r.addLines x ls).1
  /-- It was loaded before. -/
  | later {r : References} (h : HasLine id ws r) (x : Lexicon) (ls : List String) :
      HasLine id ws (r.addLines x ls).1

variable {r : References} {x y z : Lexicon} {id : ℕ} {ws : List WordId} {texts : List String}
  {t l : String}

theorem HasLine.addTexts (h : HasLine id ws r) (x : Lexicon) (texts : List String) :
    HasLine id ws (r.addTexts x texts).1 := by
  induction texts generalizing r x with
  | nil => exact h
  | cons t texts ih => exact ih (h.later x _) _

/-- References from texts have the lines of each of them. -/
theorem hasLine_addTexts (ht : t ∈ texts) (hl : (Text.linesOf t)[id]? = some l)
    (hz : (r.addTexts x texts).2.Grows z) (hw : z.Spells ws (Text.tokens l)) :
    HasLine id ws (r.addTexts x texts).1 := by
  induction texts generalizing r x with
  | nil => cases ht
  | cons first texts ih =>
    rcases List.mem_cons.mp ht with rfl | ht
    · have hgrows := (enters_addTexts (r.addLines x (Text.linesOf t)).1
        (r.addLines x (Text.linesOf t)).2 texts).grows
      have hline : HasLine id ws (r.addLines x (Text.linesOf t)).1 :=
        .line hl (hgrows.trans hz) hw
      exact hline.addTexts _ texts
    · exact ih ht hz

/-- **What a line has is allowed**, whatever other lines there are. -/
theorem HasLine.count_le_clipped (h : HasLine id ws r) (g : Ngram) :
    (ngrams ws).count g ≤ ((r.sentence id).count g).clipped := by
  induction h with
  | @line r x z ls l hl hz hw =>
    have hplace := getElem?_of_forall₂ (spells_internLines x ls) id
    rw [sentence_addLines]
    rw [hl] at hplace
    generalize (internLines x ls).1[id]? = place at hplace ⊢
    cases hplace with
    | @some us _ hus =>
    -- both rows spell the line in the lexicon as it is later
    obtain rfl : us = ws := (hus.grow hz).eq hw
    show _ ≤ (((r.sentence id).add us).count g).clipped
    rw [SentenceReferences.count_add]
    exact Nat.le_max_right _ _
  | @later r _ x ls ih =>
    rw [sentence_addLines]
    cases (internLines x ls).1[id]? with
    | none => exact ih
    | some us =>
      show _ ≤ (((r.sentence id).add us).count g).clipped
      rw [SentenceReferences.count_add]
      exact ih.trans (Nat.le_max_left _ _)

/-! ## 3. The main result -/

/-- **The statistics of a whole text.**  For the references of a sentence and a text of any words,

* the total of each order is the number of places in the content that have room for it;
* what matches are, for each of the different n-grams, its occurrences up to the clipped count, and no
  more than there are in total;
* boundaries can be put in or taken out anywhere;
* and if the content is a line that was loaded for the sentence, everything matches. -/
theorem whole_text (r : References) (id : ℕ) (ws : List WordId) :
    (∀ n, 1 ≤ n → n ≤ maxOrder →
      ((r.sentence id).statistics ws).total n = (content ws).length + 1 - n ∧
      ((r.sentence id).statistics ws).matched n =
        ∑ g ∈ (pieces n (content ws)).toFinset,
          min (occurrences g (content ws)) ((r.sentence id).count g).clipped ∧
      ((r.sentence id).statistics ws).matched n ≤ ((r.sentence id).statistics ws).total n) ∧
    (∀ front boundary back, boundary.isBoundary = true →
      (r.sentence id).statistics (front ++ boundary :: back) =
        (r.sentence id).statistics (front ++ back)) ∧
    (∀ vs, content vs = content ws →
      (r.sentence id).statistics vs = (r.sentence id).statistics ws) ∧
    (HasLine id (content ws) r → ∀ n, 1 ≤ n → n ≤ maxOrder →
      ((r.sentence id).statistics ws).matched n = ((r.sentence id).statistics ws).total n) := by
  refine ⟨fun n h1 h4 => ⟨?_, ?_, ?_⟩, fun front boundary back hboundary => ?_, fun vs hvs => ?_,
    fun hline n h1 h4 => ?_⟩
  · exact (r.sentence id).total_statistics h1 h4 ws
  · exact (r.sentence id).matched_statistics h1 h4 ws
  · exact Statistics.matched_le_total_ofCounts _ _ n
  · refine (r.sentence id).statistics_congr ?_
    rw [content_append, content_append, content_cons_of_boundary hboundary]
  · exact (r.sentence id).statistics_congr hvs
  · exact (r.sentence id).matched_eq_total_statistics h1 h4 hline.count_le_clipped

/-- Two texts; the line of the first for the first sentence is `a b a b`. -/
def twoTexts : References × Lexicon :=
  ofTexts (.withBoundaries "<s>" "</s>") ["a b a b\nc", "b\n"]

/-- That line with boundaries in front of it, in its middle and behind it. -/
def framedLine : List WordId :=
  [.sentenceStart, ⟨2⟩, ⟨3⟩, .sentenceEnd, .sentenceStart, ⟨2⟩, ⟨3⟩, .sentenceEnd]

/-- The framed line has four words and three pairs, and all of them match. -/
theorem whole_text_framedLine :
    HasLine 0 (content framedLine) twoTexts.1 ∧
    ((twoTexts.1.sentence 0).statistics framedLine).total 2 = 3 ∧
    ∀ n, 1 ≤ n → n ≤ maxOrder →
      ((twoTexts.1.sentence 0).statistics framedLine).matched n =
        ((twoTexts.1.sentence 0).statistics framedLine).total n := by
  have hwords : (twoTexts.2.internAll (Text.tokens "a b a b")).1 = content framedLine := by
    decide +kernel
  have hspells := twoTexts.2.spells_internAll (Text.tokens "a b a b")
  rw [hwords] at hspells
  have hline : HasLine 0 (content framedLine) twoTexts.1 :=
    hasLine_addTexts List.mem_cons_self rfl (twoTexts.2.grows_internAll _) hspells
  obtain ⟨hcounts, -, -, hmatch⟩ := whole_text twoTexts.1 0 framedLine
  refine ⟨hline, ?_, hmatch hline⟩
  exact (hcounts 2 (by decide) (by decide)).1

end References

end ForestRescoring
