/-
# Counting under other numbers

The number of a token depends on what was entered before it.  Where a text is read twice, with
lexicons that had a different past, its words have different numbers, and all that is counted is
counted for other n-grams.

What comes out is the same as long as three things hold (`Renumbering`): no two words become one,
boundaries stay boundaries, and the references have as many of each n-gram as of what becomes of it.
Under the new numbers a row of words closes what becomes of the n-grams that it closed before
(`ngrams_map`), so the statistics are the same eight numbers (`Statistics.ofCounts_map`).
-/
import Mathlib
import ForestRescoring.References
import ForestRescoring.Proofs.Ngram.Matching
import ForestRescoring.Proofs.Ngram.Occurrences

namespace ForestRescoring

/-- New numbers for words, of which neither the references of a sentence nor its boundaries show
anything. -/
structure Renumbering (references : SentenceReferences) (ρ : WordId → WordId) : Prop where
  injective : Function.Injective ρ
  isBoundary : ∀ w, (ρ w).isBoundary = w.isBoundary
  count : ∀ g : Ngram, references.count (g.map ρ) = references.count g

variable {ρ : WordId → WordId}

/-! ## 1. N-grams -/

/-- The suffixes of a row are changed word by word. -/
theorem Window.suffixes_map {α β : Type} (f : α → β) (s : List α) :
    suffixes (s.map f) = (suffixes s).map (List.map f) := by
  induction s with
  | nil => rfl
  | cons a s ih =>
    rw [List.map_cons, suffixes, ih, suffixes, List.map_append]
    rfl

/-- A window with other numbers. -/
def Window.renumber (ρ : WordId → WordId) (win : Window) : Window where
  recent := win.recent.map ρ
  length_le := by
    rw [List.length_map]
    exact win.length_le

namespace Window

@[simp] theorem recent_renumber (ρ : WordId → WordId) (win : Window) :
    (win.renumber ρ).recent = win.recent.map ρ := rfl

@[simp] theorem renumber_fresh (ρ : WordId → WordId) : fresh.renumber ρ = fresh := rfl

theorem closing_renumber (ρ : WordId → WordId) (win : Window) (w : WordId) :
    (win.renumber ρ).closing (ρ w) = (win.closing w).map (List.map ρ) := by
  rw [closing, closing, ← suffixes_map]
  simp

theorem push_renumber (ρ : WordId → WordId) (win : Window) (w : WordId) :
    (win.renumber ρ).push (ρ w) = (win.push w).renumber ρ := by
  apply eq_of_recent_eq
  simp [push, List.map_drop]

end Window

theorem ngramsFrom_map (ρ : WordId → WordId) (win : Window) (ws : List WordId) :
    ngramsFrom (win.renumber ρ) (ws.map ρ) = (ngramsFrom win ws).map (List.map ρ) := by
  induction ws generalizing win with
  | nil => rfl
  | cons w ws ih =>
    rw [List.map_cons, ngramsFrom_cons, ngramsFrom_cons, Window.closing_renumber,
      Window.push_renumber, ih, List.map_append]

/-- **What a row closes becomes what the new row closes.** -/
theorem ngrams_map (ρ : WordId → WordId) (ws : List WordId) :
    ngrams (ws.map ρ) = (ngrams ws).map (List.map ρ) := ngramsFrom_map ρ .fresh ws

/-! ## 2. Statistics -/

variable {limit : Ngram → ℕ} {n : ℕ}

/-- N-grams that stay apart and keep their limits match as often. -/
theorem matching_map (hρ : Function.Injective ρ) (hlimit : ∀ g : Ngram, limit (g.map ρ) = limit g)
    (n : ℕ) (gs : List Ngram) : matching limit n (gs.map (List.map ρ)) = matching limit n gs := by
  have hmap : Function.Injective (List.map ρ) := List.map_injective_iff.mpr hρ
  have hset : ofOrder n (gs.map (List.map ρ)) = (ofOrder n gs).image (List.map ρ) := by
    ext g
    simp only [mem_ofOrder, Finset.mem_image, List.mem_map]
    constructor
    · rintro ⟨⟨k, hk, rfl⟩, hlen⟩
      rw [List.length_map] at hlen
      exact ⟨k, ⟨hk, hlen⟩, rfl⟩
    · rintro ⟨k, ⟨hk, hlen⟩, rfl⟩
      exact ⟨⟨k, hk, rfl⟩, by rw [List.length_map, hlen]⟩
  rw [matching, hset, Finset.sum_image fun a _ b _ h => hmap h, matching]
  refine Finset.sum_congr rfl fun g _ => ?_
  rw [List.count_map_of_injective _ _ hmap, hlimit]

/-- **Statistics do not show the numbers.** -/
theorem Statistics.ofCounts_map (hρ : Function.Injective ρ)
    (hlimit : ∀ g : Ngram, limit (g.map ρ) = limit g) (gs : List Ngram) :
    ofCounts limit (.ofList (gs.map (List.map ρ))) = ofCounts limit (.ofList gs) := by
  refine eq_of_matched_eq_of_total_eq (fun n h1 h4 => ?_) fun n h1 h4 => ?_
  · rw [matched_ofCounts h1 h4, matched_ofCounts h1 h4, matching_map hρ hlimit]
  · rw [total_ofCounts h1 h4, total_ofCounts h1 h4, List.countP_map]
    refine List.countP_congr fun g _ => ?_
    simp

/-- A complete text has the statistics that it had. -/
theorem Renumbering.statistics_map {references : SentenceReferences}
    (h : Renumbering references ρ) (ws : List WordId) :
    references.statistics (ws.map ρ) = references.statistics ws := by
  have hwords : (ws.map ρ).filter (fun w => !w.isBoundary) =
      (ws.filter fun w => !w.isBoundary).map ρ := by
    rw [List.filter_map]
    refine congrArg (List.map ρ) (List.filter_congr fun w _ => ?_)
    rw [Function.comp_apply, h.isBoundary]
  rw [SentenceReferences.statistics, SentenceReferences.statistics, hwords, countNgrams, countNgrams,
    ngrams_map, Statistics.ofCounts_map h.injective fun g => by rw [h.count]]

end ForestRescoring
