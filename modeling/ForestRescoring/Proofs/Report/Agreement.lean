/-
# One search, alone or in a corpus

The comparison of a sentence searches its forest three times, as part of a corpus; a search of the
forest file alone, with one of the three weights, gives the same report (`search_of_compareAll`): the
same text, the same score, the same features and statistics.

The two do not see the same numbers.  In a corpus the forests in front of the sentence's own were
read before, and their words took the numbers that the words of this forest have when it is read
alone.  But the references were read first in both cases, so their words and the boundaries have the
numbers that they have, and no search notices the others (`Forest.best_renumber`).
-/
import Mathlib
import ForestRescoring.Proofs.Ngram.Occurrences
import ForestRescoring.Proofs.References.Counting
import ForestRescoring.Proofs.Renumbering.Lexicons
import ForestRescoring.Report

namespace ForestRescoring

/-! ## 1. The words of references -/

/-- The words of the n-grams of a row are words of the row. -/
theorem mem_of_mem_ngrams {g : Ngram} {ws : List WordId} (hg : g ∈ ngrams ws) {w : WordId}
    (hw : w ∈ g) : w ∈ ws := by
  obtain ⟨h1, h4⟩ := length_of_mem_ngramsFrom hg
  have hplaces : 0 < occurrences g ws := by
    rw [← count_ngrams h1 h4]
    exact List.count_pos_iff.mpr hg
  obtain ⟨i, -, hi⟩ := List.countP_pos_iff.mp hplaces
  have hplace : g <+: ws.drop i := List.isPrefixOf_iff_prefix.mp hi
  exact List.mem_of_mem_drop (hplace.subset hw)

theorem Lexicon.Grows.size_le {x y : Lexicon} (h : x.Grows y) : x.size ≤ y.size := by
  refine le_of_forall_lt fun i hi => ?_
  obtain ⟨t, ht⟩ := (Lexicon.exists_word?_iff (w := ⟨i⟩)).mpr hi
  exact Lexicon.exists_word?_iff.mp ⟨t, h _ t ht⟩

namespace SentenceReferences

variable {s : SentenceReferences} {m n : ℕ}

theorem Within.mono (h : s.Within m) (hmn : m ≤ n) : s.Within n :=
  fun g hg w hw => (h g hg w hw).trans_le hmn

theorem within_empty (n : ℕ) : empty.Within n :=
  fun _ hg => absurd Std.ExtTreeMap.getD_empty hg

theorem Within.add (h : s.Within n) {ws : List WordId} (hws : ∀ w ∈ ws, w.index < n) :
    (s.add ws).Within n := by
  intro g hg w hw
  by_cases hmem : g ∈ ngrams ws
  · exact hws w (mem_of_mem_ngrams hmem hw)
  · rw [count_add, List.count_eq_zero_of_not_mem hmem] at hg
    refine h g (fun hzero => hg ?_) w hw
    rw [hzero]
    rfl

end SentenceReferences

namespace References

variable {files : Files} {r : References} {x y : Lexicon} {paths : List String}

/-- All n-grams of all sentences are made of words of the lexicon. -/
def Within (r : References) (x : Lexicon) : Prop := ∀ id, (r.sentence id).Within x.size

theorem Within.addLines (h : r.Within x) (ls : List String) :
    (r.addLines x ls).1.Within (r.addLines x ls).2 := by
  intro id
  have hgrows : x.Grows (internLines x ls).2 := (enters_internLines x ls).grows
  have hold : (r.sentence id).Within (internLines x ls).2.size := (h id).mono hgrows.size_le
  rw [sentence_addLines]
  have hline := getElem?_of_forall₂ (spells_internLines x ls) id
  generalize (internLines x ls).1[id]? = place at hline
  generalize ls[id]? = l at hline
  cases hline with
  | none => exact hold
  | some hspells => exact hold.add (Lexicon.exists_spells_iff.mp ⟨_, hspells⟩)

/-- **References that were loaded hold words of the lexicon only.** -/
theorem within_of_load (h : load files x paths = .ok (r, y)) : r.Within y := by
  have hempty : empty.Within x := fun id => SentenceReferences.within_empty x.size
  exact of_addFiles (fun _ _ ls hs => hs.addLines ls) hempty h

end References

/-! ## 2. The forests of a corpus -/

namespace Corpus

variable {files : Files} {directory : String} {x z : Lexicon} {first count : ℕ}
  {forests : List (Forest Float)}

/-- **Each forest is read from its own file**, with a lexicon to which the forests in front of it have
added their words. -/
theorem of_loadForests_eq_ok
    (h : loadForests files directory x first count = .ok (forests, z)) :
    x.Grows z ∧ ∀ i f, forests[i]? = some f → ∃ opened u,
      files (Files.join directory (toString (first + i))) = .ok opened ∧ x.Grows u ∧
      (ForestReading.ofOpened u opened).outcome = .ok f ∧
      (ForestReading.ofOpened u opened).lexicon.Grows z := by
  induction count generalizing x first forests with
  | zero =>
    cases h
    exact ⟨.refl z, fun i f hf => by cases hf⟩
  | succ count ih =>
    rw [loadForests] at h
    dsimp only at h
    split at h
    · cases h
    · next opened hopened =>
      split at h
      · cases h
      · next f hf =>
        obtain ⟨rest, hrest, h⟩ := bind_eq_ok_iff.mp h
        cases h
        obtain ⟨hgrows, hforests⟩ := ih hrest
        have hread : x.Grows (ForestReading.ofOpened x opened).lexicon :=
          (ForestReading.enters_ofOpened x opened).grows
        refine ⟨hread.trans hgrows, fun i g hg => ?_⟩
        cases i with
        | zero =>
          cases hg
          exact ⟨opened, x, hopened, .refl x, hf, hgrows⟩
        | succ i =>
          obtain ⟨opened', u, hopened', hu, hrest'⟩ := hforests i g hg
          rw [Nat.add_right_comm] at hopened'
          exact ⟨opened', u, hopened', hread.trans hu, hrest'⟩

/-- What a loaded corpus is made of. -/
theorem of_load_eq_ok {settings : Settings} {references : List String} {c : Corpus}
    (h : load settings files directory references = .ok c) :
    ∃ x, References.load files settings.lexicon references = .ok (c.references, x) ∧
      loadForests files directory x 0 c.references.size = .ok (c.forests, c.lexicon) := by
  unfold load at h
  split at h
  · cases h
  · next r x hr =>
    obtain ⟨read, hread, h⟩ := bind_eq_ok_iff.mp h
    cases h
    exact ⟨x, hr, hread⟩

/-- A sentence that was decoded has a forest, of which the result is the best derivation. -/
theorem of_decode_eq_ok {c : Corpus} {o : Objective Float} {i : ℕ} {found : Decoding Float}
    (h : c.decode o i = .ok found) :
    ∃ f, c.forests[i]? = some f ∧ f.best o (c.references.sentence i) = .ok found := by
  unfold decode at h
  split at h
  · cases h
  · next f hf =>
    split at h
    · cases h
    · next hbest =>
      cases h
      exact ⟨f, hf, hbest⟩

end Corpus

/-! ## 3. One forest, read twice -/

namespace Report

variable {x y : Lexicon} {f g : Forest Float} {o : Objective Float}
  {references : SentenceReferences}

/-- **Forests that say the same have the same report.** -/
theorem ofDecoding_of_alike (h : Forest.Alike x y f g)
    (hρ : Renumbering references (x.renumbering y)) {found : Decoding Float}
    (hg : g.best o references = .ok found) :
    ∃ found', f.best o references = .ok found' ∧ ofDecoding x found' = ofDecoding y found := by
  rw [h.eq_renumber, Forest.best_renumber hρ] at hg
  obtain ⟨found', hf, rfl⟩ := map_eq_ok_iff.mp hg
  refine ⟨found', hf, ?_⟩
  obtain ⟨root, s, hroot, hs⟩ := Forest.of_best_eq_ok hf
  obtain ⟨d, hd, hbest⟩ := Forest.best_eq_of_sweep hroot hs
  rw [hf] at hbest
  cases hbest
  have hcarries : ∀ w ∈ d.yield, x.Carries y w :=
    hd.forall_mem_yield fun id e he w hw => h.carries he hw
  rw [ofDecoding, ofDecoding, Decoding.renumber, Lexicon.render_renumbering hcarries]

/-- **A sentence decoded in a corpus is found by a search of its file**, whatever the weight of
BLEU. -/
theorem search_of_decode {settings : Settings} (hsettings : settings.fault? = none) {files : Files}
    {directory : String} {inputs : Inputs} {c : Corpus}
    (hc : Corpus.load settings files directory inputs.references = .ok c)
    {weights : FeatureVector Float} (hweights : loadWeights files inputs.weights = .ok weights)
    {bleuWeight : Float} {i : ℕ} {found : Decoding Float}
    (h : c.decode (settings.objective weights bleuWeight) i = .ok found) :
    search settings files (Files.join directory (toString i)) inputs bleuWeight i =
      .ok (ofDecoding c.lexicon found) := by
  obtain ⟨base, hload, hforests⟩ := Corpus.of_load_eq_ok hc
  obtain ⟨g, hg, hbest⟩ := Corpus.of_decode_eq_ok h
  obtain ⟨hbase, hread⟩ := Corpus.of_loadForests_eq_ok hforests
  obtain ⟨opened, u, hopened, -, hu, hz⟩ := hread i g hg
  rw [Nat.zero_add] at hopened
  -- the same file, read with nothing but the references in front of it
  obtain ⟨f, hf, -⟩ := ForestReading.ofOpened_alike hu base
  obtain ⟨g', hg', halike⟩ := ForestReading.ofOpened_alike hf u
  rw [hu] at hg'
  cases hg'
  obtain ⟨-, -, hne⟩ := Settings.boundaries_of_valid hsettings
  have hρ := Lexicon.renumbering_spec (ForestReading.enters_ofOpened base opened).grows hbase
    (Lexicon.two_le_size hne (References.enters_load hload).grows)
    (References.within_of_load hload i)
  obtain ⟨found', hfound, hreport⟩ := ofDecoding_of_alike (halike.grow (.refl _) hz) hρ hbest
  have hreferences : loadReferences settings files inputs.references = .ok (c.references, base) := by
    rw [loadReferences, hload]
  have hforest : loadForest files base (Files.join directory (toString i)) =
      .ok (f, (ForestReading.ofOpened base opened).lexicon) := by
    rw [loadForest, hopened]
    dsimp only
    rw [hf]
  refine bind_eq_ok_iff.mpr ⟨_, hreferences, bind_eq_ok_iff.mpr ⟨_, hforest, ?_⟩⟩
  refine bind_eq_ok_iff.mpr ⟨weights, hweights, ?_⟩
  dsimp only
  rw [hfound, ← hreport]

end Report

/-! ## 4. Comparisons that succeed -/

namespace ComparisonReport

/-- The sentences asked for were compared: the corpus and the weights could be read, and each sentence
was decoded three times, in increasing order. -/
structure Compares (settings : Settings) (files : Files) (directory : String)
    (inputs : Report.Inputs) (sentence : Option ℕ) (c : Corpus) (found : List (ℕ × Comparison)) :
    Prop where
  corpus : Corpus.load settings files directory inputs.references = .ok c
  weights : ∃ weights, Report.loadWeights files inputs.weights = .ok weights ∧
    ∀ p ∈ found, c.compare settings weights p.1 = .ok p.2
  sentences : selection c.sentenceCount sentence = .ok (found.map Prod.fst)
  increasing : (found.map Prod.fst).Pairwise (· < ·)

/-- The report on what was found for a sentence. -/
def ofFound (c : Corpus) (p : ℕ × Comparison) : ComparisonReport :=
  ⟨p.1, .ofDecoding c.lexicon p.2.hope, .ofDecoding c.lexicon p.2.fear,
    .ofDecoding c.lexicon p.2.model⟩

variable {settings : Settings} {files : Files} {directory : String} {inputs : Report.Inputs}
  {sentence : Option ℕ} {c : Corpus} {weights : FeatureVector Float} {i : ℕ}
  {report : ComparisonReport} {reports : List ComparisonReport}

theorem ofSentence_eq_ok_iff : ofSentence settings c weights i = .ok report ↔
    ∃ found, c.compare settings weights i = .ok found ∧ ofFound c (i, found) = report := by
  unfold ofSentence
  cases c.compare settings weights i with
  | error cause => simp
  | ok found => simp [ofFound]

/-- One number selects one sentence, unless the end of the range overflows. -/
theorem selection_some (count i : ℕ) : selection count (some i) =
    if i + 1 < Text.countBound then .ok [i] else .error .overflow := by
  rw [selection, Text.addCounts?]
  by_cases h : i + 1 < Text.countBound
  · rw [if_pos h, if_pos h]
    exact congrArg (fun n => Except.ok (List.range' i n)) (Nat.add_sub_cancel_left i 1)
  · rw [if_neg h, if_neg h]

theorem pairwise_selection {count : ℕ} {sentence : Option ℕ} {ids : List ℕ}
    (h : selection count sentence = .ok ids) : ids.Pairwise (· < ·) := by
  cases sentence with
  | none =>
    cases h
    exact List.pairwise_lt_range
  | some i =>
    rw [selection_some] at h
    split at h
    · cases h
      exact List.pairwise_singleton _ _
    · cases h

/-- Each report is on what was found for its sentence. -/
theorem exists_found {ids : List ℕ}
    (h : List.Forall₂ (fun i r => ofSentence settings c weights i = .ok r) ids reports) :
    ∃ found : List (ℕ × Comparison), found.map Prod.fst = ids ∧
      (∀ p ∈ found, c.compare settings weights p.1 = .ok p.2) ∧
      found.map (ofFound c) = reports := by
  induction h with
  | nil => exact ⟨[], rfl, List.forall_mem_nil _, rfl⟩
  | @cons i r ids rs hr _ ih =>
    obtain ⟨found, rfl, hall, rfl⟩ := ih
    obtain ⟨comparison, hcompare, rfl⟩ := ofSentence_eq_ok_iff.mp hr
    exact ⟨(i, comparison) :: found, rfl, List.forall_mem_cons.mpr ⟨hcompare, hall⟩, rfl⟩

/-- **There are reports only if nothing failed.** -/
theorem compares_of_compareAll
    (h : compareAll settings files directory inputs sentence = .ok reports) :
    ∃ c found, Compares settings files directory inputs sentence c found ∧
      found.map (ofFound c) = reports := by
  unfold compareAll at h
  dsimp only at h
  split at h
  · cases h
  · next c hc =>
    obtain ⟨c', hc', h⟩ := bind_eq_ok_iff.mp h
    cases hc'
    obtain ⟨weights, hweights, h⟩ := bind_eq_ok_iff.mp h
    obtain ⟨asked, hasked, h⟩ := bind_eq_ok_iff.mp h
    obtain ⟨found, rfl, hall, rfl⟩ := exists_found (mapM_eq_ok_iff.mp h)
    exact ⟨c, found, ⟨hc, ⟨weights, hweights, hall⟩, hasked, pairwise_selection hasked⟩, rfl⟩

/-- A comparison of one sentence that succeeds has decoded it three times. -/
theorem of_compareAll_eq_ok
    (h : compareAll settings files directory inputs (some i) = .ok [report]) :
    ∃ c weights found, Corpus.load settings files directory inputs.references = .ok c ∧
      Report.loadWeights files inputs.weights = .ok weights ∧
      c.compare settings weights i = .ok found ∧
      report = ⟨i, .ofDecoding c.lexicon found.hope, .ofDecoding c.lexicon found.fear,
        .ofDecoding c.lexicon found.model⟩ := by
  obtain ⟨c, found, hcompares, hreports⟩ := compares_of_compareAll h
  obtain ⟨p, rfl, rfl⟩ := List.map_eq_singleton_iff.mp hreports
  obtain ⟨weights, hweights, hall⟩ := hcompares.weights
  have hi : p.1 = i := by
    have hids := hcompares.sentences
    rw [selection_some] at hids
    split at hids
    · exact (List.cons.inj (Except.ok.inj hids)).1.symm
    · cases hids
  subst hi
  exact ⟨c, weights, p.2, hcompares.corpus, hweights, hall p List.mem_cons_self, rfl⟩

end ComparisonReport

/-! ## 5. The main result -/

/-- **A search alone and a comparison in a corpus agree.**  Where the comparison of a sentence
succeeds, a search of the sentence's file with the weight of one of its three searches succeeds, with
the report that the comparison has for it. -/
theorem search_of_compareAll {settings : Settings} (hsettings : settings.fault? = none)
    {files : Files} {directory : String} {inputs : Report.Inputs} {i : ℕ} {report : ComparisonReport}
    (h : ComparisonReport.compareAll settings files directory inputs (some i) = .ok [report]) :
    Report.search settings files (Files.join directory (toString i)) inputs settings.hopeWeight i =
      .ok report.hope ∧
    Report.search settings files (Files.join directory (toString i)) inputs settings.fearWeight i =
      .ok report.fear ∧
    Report.search settings files (Files.join directory (toString i)) inputs settings.modelWeight i =
      .ok report.model := by
  obtain ⟨c, weights, found, hc, hweights, hcompare, rfl⟩ := ComparisonReport.of_compareAll_eq_ok h
  obtain ⟨hope, hhope, hcompare⟩ := bind_eq_ok_iff.mp hcompare
  obtain ⟨fear, hfear, hcompare⟩ := bind_eq_ok_iff.mp hcompare
  obtain ⟨model, hmodel, hcompare⟩ := bind_eq_ok_iff.mp hcompare
  cases hcompare
  exact ⟨Report.search_of_decode hsettings hc hweights hhope,
    Report.search_of_decode hsettings hc hweights hfear,
    Report.search_of_decode hsettings hc hweights hmodel⟩

/-- A corpus of two sentences.  The forest of the first has words that are nowhere else. -/
def smallCorpus : Files := fun path =>
  if path = "refs" then .ok (.file "a b\nb a b\n".toUTF8)
  else if path = "0" then .ok (.file "# target ||| features\n1 1\n1\nx y a\n".toUTF8)
  else if path = "1" then .ok (.file "# target ||| features\n2 2\n1\nc a\n1\n[0] b [0]\n".toUTF8)
  else .error .notFound

/-- The second sentence has the same report alone, where its first word has the number that a word of
the first sentence has in the corpus. -/
theorem search_of_compareAll_smallCorpus :
    ∃ report, ComparisonReport.compareAll .standard smallCorpus "" ⟨["refs"], none⟩ (some 1) =
        .ok [report] ∧ report.hope.text = "c a b c a" ∧
      Report.search .standard smallCorpus "1" ⟨["refs"], none⟩ Settings.standard.hopeWeight 1 =
        .ok report.hope ∧
      Report.search .standard smallCorpus "1" ⟨["refs"], none⟩ Settings.standard.fearWeight 1 =
        .ok report.fear := by
  have htexts : (ComparisonReport.compareAll .standard smallCorpus "" ⟨["refs"], none⟩
      (some 1)).toOption.map (List.map fun report => report.hope.text) = some ["c a b c a"] := by
    decide +kernel
  cases hrun : ComparisonReport.compareAll .standard smallCorpus "" ⟨["refs"], none⟩ (some 1) with
  | error cause =>
    rw [hrun] at htexts
    cases htexts
  | ok reports =>
    rw [hrun] at htexts
    obtain ⟨report, rfl, htext⟩ := List.map_eq_singleton_iff.mp (Option.some.inj htexts)
    have hvalid : Settings.standard.fault? = none := by decide +kernel
    obtain ⟨hhope, hfear, -⟩ := search_of_compareAll hvalid hrun
    exact ⟨report, rfl, htext, hhope, hfear⟩

end ForestRescoring
