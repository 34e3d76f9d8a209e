/-
# What references count

A line of a reference file changes the counts of its own sentence, and of no other
(`References.sentence_merge`).  For an n-gram the clipped count becomes the larger of what it was and
the occurrences in the line, and the total grows by these (`SentenceReferences.count_add`).  So
however references were loaded, the clipped count is at most the total
(`References.Loaded.clipped_le_total`).
-/
import Mathlib
import ForestRescoring.Proofs.Ngram.Matching
import ForestRescoring.References

namespace ForestRescoring

/-! ## 1. One line -/

namespace SentenceReferences

/-- Entries leave an n-gram alone that they have no key for. -/
theorem getD_addEntries_of_notMem {g : Ngram} {entries : List (Ngram × ℕ)}
    (h : g ∉ entries.map Prod.fst) (index : Std.ExtTreeMap Ngram ReferenceCount) :
    (addEntries index entries).getD g .zero = index.getD g .zero := by
  induction entries generalizing index with
  | nil => rfl
  | cons a entries ih =>
    rw [List.map_cons, List.mem_cons, not_or] at h
    rw [addEntries, List.foldl_cons, ← addEntries, ih h.2, Std.ExtTreeMap.getD_alter,
      if_neg fun heq => h.1 (Std.LawfulEqCmp.compare_eq_iff_eq.mp heq).symm]

/-- An n-gram that has one entry gets the count of that entry. -/
theorem getD_addEntries_of_mem {g : Ngram} {k : ℕ} {entries : List (Ngram × ℕ)}
    (hnodup : (entries.map Prod.fst).Nodup) (h : (g, k) ∈ entries)
    (index : Std.ExtTreeMap Ngram ReferenceCount) :
    (addEntries index entries).getD g .zero = (index.getD g .zero).add k := by
  induction entries generalizing index with
  | nil => cases h
  | cons a entries ih =>
    rw [List.map_cons, List.nodup_cons] at hnodup
    rw [addEntries, List.foldl_cons, ← addEntries]
    rcases List.mem_cons.mp h with rfl | h
    · rw [getD_addEntries_of_notMem hnodup.1, Std.ExtTreeMap.getD_alter_self,
        Std.ExtTreeMap.getD_eq_getD_getElem?]
      rfl
    · have hne : a.1 ≠ g := fun heq => hnodup.1 (heq ▸ List.mem_map_of_mem h)
      rw [ih hnodup.2 h, Std.ExtTreeMap.getD_alter,
        if_neg fun heq => hne (Std.LawfulEqCmp.compare_eq_iff_eq.mp heq)]

/-- **A line adds its occurrences.**  One that does not have the n-gram adds none. -/
theorem count_add (s : SentenceReferences) (ws : List WordId) (g : Ngram) :
    (s.add ws).count g = (s.count g).add ((ngrams ws).count g) := by
  rw [count, add, addCounts, countNgrams]
  by_cases h : g ∈ (NgramCounts.ofList (ngrams ws)).toList.map Prod.fst
  · obtain ⟨entry, hentry, rfl⟩ := List.mem_map.mp h
    rw [← NgramCounts.eq_count_of_mem hentry]
    exact getD_addEntries_of_mem (NgramCounts.nodup_keys _) hentry _
  · have hnone : g ∉ ngrams ws := fun hmem => h (NgramCounts.mem_keys_of_mem hmem)
    rw [getD_addEntries_of_notMem h, List.count_eq_zero_of_not_mem hnone]
    show _ = ReferenceCount.mk (max (s.count g).clipped 0) ((s.count g).total + 0)
    rw [Nat.max_zero, Nat.add_zero]
    rfl

end SentenceReferences

/-! ## 2. All lines -/

namespace References

/-- **Each line goes to its own sentence**, and the sentences behind the last line stay as they
were. -/
theorem sentence_merge (ss : List SentenceReferences) (lines : List (List WordId)) (id : ℕ) :
    sentence ⟨merge ss lines⟩ id =
      ((lines[id]?).map (sentence ⟨ss⟩ id).add).getD (sentence ⟨ss⟩ id) := by
  induction lines generalizing ss id with
  | nil => rfl
  | cons ws lines ih =>
    cases ss with
    | nil =>
      cases id with
      | zero => rfl
      | succ id => exact ih [] id
    | cons s ss =>
      cases id with
      | zero => rfl
      | succ id => exact ih ss id

/-- So it is when the lines are taken from a text. -/
theorem sentence_addLines (r : References) (x : Lexicon) (ls : List String) (id : ℕ) :
    (r.addLines x ls).1.sentence id =
      (((internLines x ls).1[id]?).map (r.sentence id).add).getD (r.sentence id) :=
  sentence_merge r.sentences (internLines x ls).1 id

/-- References that were loaded, line by line. -/
inductive Loaded : References → Prop
  | empty : Loaded .empty
  | addLines {r : References} (h : Loaded r) (x : Lexicon) (ls : List String) :
      Loaded (r.addLines x ls).1

variable {r : References}

theorem Loaded.addTexts (h : r.Loaded) (x : Lexicon) (texts : List String) :
    (r.addTexts x texts).1.Loaded := by
  induction texts generalizing r x with
  | nil => exact h
  | cons t texts ih => exact ih (h.addLines x _) _

/-- References from texts are loaded. -/
theorem Loaded.ofTexts (x : Lexicon) (texts : List String) : (ofTexts x texts).1.Loaded :=
  Loaded.empty.addTexts x texts

/-- **What lines keep, files keep.**  Files that could be added have added nothing but lines. -/
theorem of_addFiles {P : References → Lexicon → Prop}
    (hline : ∀ r x ls, P r x → P (r.addLines x ls).1 (r.addLines x ls).2) {files : Files}
    {x y : Lexicon} {paths : List String} {t : References} (h : P r x)
    (ht : addFiles files r x paths = .ok (t, y)) : P t y := by
  induction paths generalizing r x with
  | nil =>
    cases ht
    exact h
  | cons path paths ih =>
    rw [addFiles] at ht
    split at ht
    · cases ht
    · next bytes hbytes =>
      dsimp only at ht
      split at ht
      · cases ht
      · exact ih (hline r x _ h) ht

/-- References from files are loaded. -/
theorem Loaded.load {files : Files} {x y : Lexicon} {paths : List String}
    (h : load files x paths = .ok (r, y)) : r.Loaded :=
  of_addFiles (P := fun s _ => s.Loaded) (fun _ x ls hs => hs.addLines x ls) .empty h

/-- **The clipped count is at most the total**, however references were loaded. -/
theorem Loaded.clipped_le_total (h : r.Loaded) (id : ℕ) (g : Ngram) :
    ((r.sentence id).count g).clipped ≤ ((r.sentence id).count g).total := by
  induction h with
  | empty => exact Nat.le_refl 0
  | @addLines r _ x ls ih =>
    rw [sentence_addLines]
    cases (internLines x ls).1[id]? with
    | none => exact ih
    | some ws =>
      show (((r.sentence id).add ws).count g).clipped ≤ (((r.sentence id).add ws).count g).total
      rw [SentenceReferences.count_add]
      exact max_le (ih.trans (Nat.le_add_right _ _)) (Nat.le_add_left _ _)

end References

end ForestRescoring
