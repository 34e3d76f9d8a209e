/-
# N-grams and their counts

An n-gram is a row of one to four words.  A window holds the words that the next n-grams can start
in: the last three, or fewer after a fresh start.  Reading a word closes the n-grams that end at
it, one of each length that the window allows, the shortest first (`Window.closing`).  So a row of
words read from the start closes every n-gram at each place where it occurs, and counting is
tallying what was closed (`NgramCounts.count_ofList`).
-/
import Std.Data.ExtTreeMap.Lemmas
import ForestRescoring.Lexicon

namespace ForestRescoring

/-- A row of words. -/
abbrev Ngram := List WordId

/-- The most words that an n-gram has. -/
def maxOrder : Nat := 4

/-- The words that a window or a context keeps: one fewer than the longest n-gram has. -/
def contextSize : Nat := maxOrder - 1

/-! ## 1. The window -/

/-- The words, in reading order, that an n-gram closing at the next word may start in. -/
structure Window where
  recent : List WordId
  length_le : recent.length ≤ contextSize

namespace Window

/-- A fresh start: nothing is open. -/
def fresh : Window := ⟨[], Nat.zero_le _⟩

/-- The non-empty suffixes of a row, the shortest first. -/
def suffixes {α : Type} : List α → List (List α)
  | [] => []
  | a :: s => suffixes s ++ [a :: s]

/-- They are the suffixes that are not empty. -/
theorem mem_suffixes {α : Type} {t s : List α} : t ∈ suffixes s ↔ t ≠ [] ∧ t <:+ s := by
  induction s with
  | nil => simp [suffixes]
  | cons a s ih =>
    rw [suffixes, List.mem_append, ih, List.mem_singleton, List.suffix_cons_iff]
    constructor
    · rintro (⟨hne, hs⟩ | rfl)
      · exact ⟨hne, .inr hs⟩
      · exact ⟨List.cons_ne_nil _ _, .inl rfl⟩
    · rintro ⟨hne, rfl | hs⟩
      · exact .inr rfl
      · exact .inl ⟨hne, hs⟩

/-- There is one of each length. -/
@[simp] theorem length_suffixes {α : Type} (s : List α) : (suffixes s).length = s.length := by
  induction s with
  | nil => rfl
  | cons a s ih => simp [suffixes, ih]

/-- The n-grams that end at the next word, the shortest first. -/
def closing (win : Window) (w : WordId) : List Ngram := suffixes (win.recent ++ [w])

/-- The window behind the next word. -/
def push (win : Window) (w : WordId) : Window where
  recent := (win.recent ++ [w]).drop ((win.recent ++ [w]).length - contextSize)
  length_le := by rw [List.length_drop]; omega

end Window

/-- The n-grams that a row of words closes, from a given window on. -/
def ngramsFrom (win : Window) : List WordId → List Ngram
  | [] => []
  | w :: ws => win.closing w ++ ngramsFrom (win.push w) ws

/-- Every occurrence of an n-gram in a row of words, ordered by its last word and then by length. -/
def ngrams (ws : List WordId) : List Ngram := ngramsFrom .fresh ws

/-! ## 2. Counts -/

/-- How often each n-gram occurs; n-grams that do not occur are absent.  The entries are ordered by
the words' numbers, an n-gram before those that it begins. -/
abbrev NgramCounts := Std.ExtTreeMap Ngram Nat

namespace NgramCounts

/-- One more occurrence. -/
def add (g : Ngram) (counts : NgramCounts) : NgramCounts :=
  counts.alter g fun n => some (n.getD 0 + 1)

/-- The counts of the n-grams of a list. -/
def ofList (gs : List Ngram) : NgramCounts := gs.foldl (fun counts g => counts.add g) ∅

/-- The count of an n-gram. -/
def count (g : Ngram) (counts : NgramCounts) : Nat := counts.getD g 0

/-- An occurrence counts for its own n-gram only. -/
theorem count_add (k g : Ngram) (counts : NgramCounts) :
    (counts.add g).count k = counts.count k + if k = g then 1 else 0 := by
  simp only [count, add, Std.ExtTreeMap.getD_eq_getD_getElem?, Std.ExtTreeMap.getElem?_alter,
    Std.LawfulEqCmp.compare_eq_iff_eq]
  by_cases h : k = g
  · subst h; simp
  · simp [h, Ne.symm h]

/-- Tallying a list on top of counts adds its occurrences to them. -/
theorem count_foldl_add (g : Ngram) (gs : List Ngram) (counts : NgramCounts) :
    (gs.foldl (fun counts g => counts.add g) counts).count g = counts.count g + gs.count g := by
  induction gs generalizing counts with
  | nil => rfl
  | cons h gs ih =>
    rw [List.foldl_cons, ih, count_add, List.count_cons]
    by_cases hg : g = h
    · subst hg; simp; omega
    · simp [hg, Ne.symm hg]

/-- **Counting is counting.**  The tally of a list has each n-gram as often as the list. -/
theorem count_ofList (g : Ngram) (gs : List Ngram) : (ofList gs).count g = gs.count g := by
  rw [ofList, count_foldl_add, count, Std.ExtTreeMap.getD_empty, Nat.zero_add]

end NgramCounts

/-- The counts of all n-grams in a row of words. -/
def countNgrams (ws : List WordId) : NgramCounts := .ofList (ngrams ws)

end ForestRescoring
