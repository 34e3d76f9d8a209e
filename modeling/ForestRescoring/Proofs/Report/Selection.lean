/-
# Sentences asked for

A comparison is asked for all sentences of a corpus, or for one by its number.  The corpus has as
many sentences as the longest reference file has lines.  One sentence is compared as it is among
all of them, and a number that no sentence has is refused (`ComparisonReport.sentences_asked_for`).

One number is not refused in this way.  The sentences asked for are taken as a range, and the end of a
range is the number behind its last one.  Behind the largest number of a machine word there is none, so
the addition overflows and the program stops (`ComparisonReport.largest_number_overflows`).
-/
import Mathlib
import ForestRescoring.Proofs.Report.Agreement

namespace ForestRescoring

/-! ## 1. The number of sentences -/

namespace References

variable {files : Files} {r t : References} {x y : Lexicon} {paths : List String}

/-- The number of lines in the longest of several files. -/
def mostLines (contents : List ByteArray) : ℕ :=
  (contents.map fun bytes => (Text.decodedLines bytes).length).foldr max 0

/-- Bytes that were added whole have a place for each of their lines. -/
theorem size_addBytes {bytes : ByteArray} (h : (r.addBytes x bytes).failure = none) :
    (r.addBytes x bytes).references.size = max r.size (Text.decodedLines bytes).length := by
  have hall : (Text.decodedLines bytes).all Option.isSome = true := by
    by_contra hnot
    rw [addBytes, if_neg hnot] at h
    cases h
  have hlength : (((Text.decodedLines bytes).takeWhile Option.isSome).filterMap id).length =
      (Text.decodedLines bytes).length := by
    rw [List.takeWhile_eq_self_iff.mpr (List.all_eq_true.mp hall), List.length_filterMap_eq_countP,
      List.countP_eq_length]
    exact List.all_eq_true.mp hall
  rw [addBytes, size_addLines, hlength]

/-- **There is a place for each line of the longest file.** -/
theorem size_of_addFiles (h : addFiles files r x paths = .ok (t, y)) :
    ∃ contents, List.Forall₂ (fun path bytes => (files path).bind Files.contents = .ok bytes) paths
      contents ∧ t.size = max r.size (mostLines contents) := by
  induction paths generalizing r x with
  | nil =>
    cases h
    exact ⟨[], .nil, (Nat.max_zero _).symm⟩
  | cons path paths ih =>
    rw [addFiles] at h
    split at h
    · cases h
    · next bytes hbytes =>
      dsimp only at h
      split at h
      · cases h
      · next hnone =>
        obtain ⟨contents, hcontents, hsize⟩ := ih h
        refine ⟨bytes :: contents, .cons hbytes hcontents, ?_⟩
        rw [hsize, size_addBytes hnone, max_assoc]
        rfl

end References

namespace Corpus

variable {settings : Settings} {files : Files} {directory : String} {c : Corpus}

/-- A forest was read for each sentence. -/
theorem length_of_loadForests {x z : Lexicon} {first count : ℕ} {forests : List (Forest Float)}
    (h : loadForests files directory x first count = .ok (forests, z)) :
    forests.length = count := by
  induction count generalizing x first forests with
  | zero =>
    cases h
    rfl
  | succ count ih =>
    rw [loadForests] at h
    dsimp only at h
    split at h
    · cases h
    · split at h
      · cases h
      · obtain ⟨rest, hrest, h⟩ := bind_eq_ok_iff.mp h
        cases h
        exact congrArg (· + 1) (ih hrest)

/-- **A corpus has as many sentences as the longest reference file has lines.** -/
theorem sentenceCount_of_load {references : List String}
    (h : load settings files directory references = .ok c) :
    ∃ contents, List.Forall₂ (fun path bytes => (files path).bind Files.contents = .ok bytes)
      references contents ∧ c.sentenceCount = References.mostLines contents := by
  obtain ⟨x, hreferences, hforests⟩ := of_load_eq_ok h
  obtain ⟨contents, hcontents, hsize⟩ := References.size_of_addFiles hreferences
  refine ⟨contents, hcontents, ?_⟩
  rw [sentenceCount, length_of_loadForests hforests, hsize]
  exact Nat.zero_max _

/-- A sentence without a forest is not compared. -/
theorem compare_eq_unknownSentence {i : ℕ} (h : c.sentenceCount ≤ i)
    (weights : FeatureVector Float) :
    c.compare settings weights i = .error (.unknownSentence i c.sentenceCount) := by
  have hdecode : ∀ o, c.decode o i = .error (.unknownSentence i c.sentenceCount) := by
    intro o
    rw [decode, List.getElem?_eq_none h]
  exact bind_eq_error_iff.mpr (.inl (hdecode _))

end Corpus

namespace ComparisonReport

variable {settings : Settings} {files : Files} {directory : String} {inputs : Report.Inputs}
  {c : Corpus} {weights : FeatureVector Float} {i : ℕ} {reports : List ComparisonReport}

/-! ## 2. Comparisons by number -/

section

variable (hc : Corpus.load settings files directory inputs.references = .ok c)
  (hweights : Report.loadWeights files inputs.weights = .ok weights)

include hc hweights

/-- **Where the files can be read**, only the sentences asked for make a difference. -/
theorem compareAll_of_load (sentence : Option ℕ) :
    compareAll settings files directory inputs sentence =
      (selection c.sentenceCount sentence >>= fun asked =>
        asked.mapM (ofSentence settings c weights)) := by
  rw [compareAll, hc, hweights]
  rfl

/-- The comparison of one sentence is the list of its report. -/
theorem compareAll_some_eq_ok_iff (h : i + 1 < Text.countBound) :
    compareAll settings files directory inputs (some i) = .ok reports ↔
      ∃ r, ofSentence settings c weights i = .ok r ∧ reports = [r] := by
  have hone : compareAll settings files directory inputs (some i) =
      [i].mapM (ofSentence settings c weights) := by
    rw [compareAll_of_load hc hweights, selection_some, if_pos h]
    rfl
  rw [hone, mapM_eq_ok_iff, List.forall₂_cons_left_iff]
  simp only [List.forall₂_nil_left_iff, exists_and_left, exists_eq_left]

/-- **Each sentence has the report on it at its place.** -/
theorem getElem?_of_compareAll (h : compareAll settings files directory inputs none = .ok reports)
    (hi : i < c.sentenceCount) :
    ∃ r, reports[i]? = some r ∧ ofSentence settings c weights i = .ok r := by
  rw [compareAll_of_load hc hweights] at h
  have hplace := getElem?_of_forall₂ (mapM_eq_ok_iff.mp h) i
  rw [List.getElem?_range hi] at hplace
  generalize reports[i]? = place at hplace
  cases hplace with
  | some hr => exact ⟨_, rfl, hr⟩

/-- The comparison of a sentence that there is not. -/
theorem compareAll_of_sentenceCount_le (hi : c.sentenceCount ≤ i) :
    compareAll settings files directory inputs (some i) =
      if i + 1 < Text.countBound then .error (.corpus (.unknownSentence i c.sentenceCount))
      else .error .overflow := by
  rw [compareAll_of_load hc hweights, selection_some]
  split
  · have hone : ofSentence settings c weights i =
        .error (.corpus (.unknownSentence i c.sentenceCount)) := by
      rw [ofSentence, Corpus.compare_eq_unknownSentence hi]
    exact bind_eq_error_iff.mpr (.inr ⟨[i], rfl, by rw [List.mapM_cons, hone]; rfl⟩)
  · rfl

end

/-! ## 3. The main result -/

/-- **Which sentences are compared.**  Let a corpus and the weights be read, of so many sentences that
they can be counted; the number of sentences is that of the lines in the longest reference file.
All sentences are compared in order, and any one of them has the same report when it is asked for
alone.  A number that no sentence has is refused, with itself and the number of sentences, if and only
if there is a number behind it.  The largest number, which has none behind it, overflows. -/
theorem sentences_asked_for
    (hc : Corpus.load settings files directory inputs.references = .ok c)
    (hweights : Report.loadWeights files inputs.weights = .ok weights)
    (hcount : c.sentenceCount < Text.countBound) :
    (∃ contents, List.Forall₂ (fun path bytes => (files path).bind Files.contents = .ok bytes)
      inputs.references contents ∧ c.sentenceCount = References.mostLines contents) ∧
    (∀ reports, compareAll settings files directory inputs none = .ok reports →
      reports.map sentence = List.range c.sentenceCount ∧
      ∀ i < c.sentenceCount, ∃ r, reports[i]? = some r ∧
        compareAll settings files directory inputs (some i) = .ok [r]) ∧
    (∀ i, c.sentenceCount ≤ i → i < Text.countBound →
      (compareAll settings files directory inputs (some i) =
        .error (.corpus (.unknownSentence i c.sentenceCount)) ↔ i + 1 < Text.countBound)) ∧
    compareAll settings files directory inputs (some (Text.countBound - 1)) =
      .error .overflow := by
  refine ⟨Corpus.sentenceCount_of_load hc, fun reports h => ⟨?_, fun i hi => ?_⟩,
    fun i hi hbound => ?_, ?_⟩
  · obtain ⟨c', found, hcompares, rfl⟩ := compares_of_compareAll h
    cases hcompares.corpus.symm.trans hc
    rw [List.map_map]
    exact (Except.ok.inj hcompares.sentences).symm
  · obtain ⟨r, hplace, hr⟩ := getElem?_of_compareAll hc hweights h hi
    refine ⟨r, hplace, (compareAll_some_eq_ok_iff hc hweights ?_).mpr ⟨r, hr, rfl⟩⟩
    exact Nat.lt_of_le_of_lt hi hcount
  · rw [compareAll_of_sentenceCount_le hc hweights hi]
    split
    · next h => exact ⟨fun _ => h, fun _ => rfl⟩
    · next h => exact ⟨fun h' => (nomatch h'), fun h' => absurd h' h⟩
  · have hlast : ¬ Text.countBound - 1 + 1 < Text.countBound := by decide
    rw [compareAll_of_sentenceCount_le hc hweights (Nat.le_sub_one_of_lt hcount), if_neg hlast]

/-- The reference file of the small corpus, and no weights. -/
def smallInputs : Report.Inputs := ⟨["refs"], none⟩

theorem exists_load_smallCorpus :
    ∃ c, Corpus.load .standard smallCorpus "" smallInputs.references = .ok c ∧
      c.sentenceCount = 2 := by
  have hload : (Corpus.load .standard smallCorpus "" smallInputs.references).toOption.map
      Corpus.sentenceCount = some 2 := by
    decide +kernel
  exact toOption_map_eq_some_iff.mp hload

/-- Of the small corpus both sentences are compared, the second also alone, and there is no third. -/
theorem sentences_asked_for_smallCorpus :
    ∃ c reports r, Corpus.load .standard smallCorpus "" smallInputs.references = .ok c ∧
      Report.loadWeights smallCorpus smallInputs.weights = .ok .empty ∧
      c.sentenceCount < Text.countBound ∧
      compareAll .standard smallCorpus "" smallInputs none = .ok reports ∧
      reports.map sentence = [0, 1] ∧ reports[1]? = some r ∧
      compareAll .standard smallCorpus "" smallInputs (some 1) = .ok [r] ∧
      compareAll .standard smallCorpus "" smallInputs (some 2) =
        .error (.corpus (.unknownSentence 2 2)) := by
  obtain ⟨c, hc, hcount⟩ := exists_load_smallCorpus
  have hbound : c.sentenceCount < Text.countBound := by
    rw [hcount]
    decide
  obtain ⟨-, hall, hnone, -⟩ := sentences_asked_for hc rfl hbound
  have hrun : (compareAll .standard smallCorpus "" smallInputs none).toOption.map
      (List.map sentence) = some [0, 1] := by
    decide +kernel
  obtain ⟨reports, hreports, hsentences⟩ := toOption_map_eq_some_iff.mp hrun
  obtain ⟨r, hplace, hone⟩ := (hall reports hreports).2 1 (by rw [hcount]; decide)
  have htwo := (hnone 2 (Nat.le_of_eq hcount) (by decide)).mpr (by decide)
  rw [hcount] at htwo
  exact ⟨c, reports, r, hc, rfl, hbound, hreports, hsentences, hplace, hone, htwo⟩

/-- **The largest number overflows**, and is not refused as one that no sentence has. -/
theorem largest_number_overflows :
    ∃ c, Corpus.load .standard smallCorpus "" smallInputs.references = .ok c ∧
      c.sentenceCount = 2 ∧
      compareAll .standard smallCorpus "" smallInputs (some 18446744073709551615) =
        .error .overflow ∧
      compareAll .standard smallCorpus "" smallInputs (some 18446744073709551615) ≠
        .error (.corpus (.unknownSentence 18446744073709551615 c.sentenceCount)) := by
  obtain ⟨c, hc, hcount⟩ := exists_load_smallCorpus
  have hover : compareAll .standard smallCorpus "" smallInputs (some 18446744073709551615) =
      .error .overflow := by
    rw [compareAll_of_sentenceCount_le hc rfl (by rw [hcount]; decide)]
    exact if_neg (by decide)
  refine ⟨c, hc, hcount, hover, ?_⟩
  rw [hover]
  exact nofun

end ComparisonReport

end ForestRescoring
