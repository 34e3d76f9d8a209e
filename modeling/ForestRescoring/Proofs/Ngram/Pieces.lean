/-
# The pieces of a row

A row of words has one piece of `n` words for each place that `n` words have room behind
(`pieces`).  For one to four words these are the n-grams that the window closes, in the order in which
it closes them (`filter_ngrams`): a word closes one piece of each length that the row up to there has
room for, and that piece is the end of the row (`pieces_concat`).

So there are as many n-grams as places, which is the number of words and one less `n`
(`countP_ngrams`), and the different ones among them are the different pieces
(`ofOrder_ngrams`).
-/
import Mathlib
import ForestRescoring.Proofs.Ngram.Matching
import ForestRescoring.Proofs.Ngram.Occurrences

namespace ForestRescoring

/-! ## 1. Pieces -/

/-- The pieces of `n` words of a row, from left to right. -/
def pieces {α : Type} (n : ℕ) (ws : List α) : List (List α) :=
  (List.range (ws.length + 1 - n)).map fun i => (ws.drop i).take n

variable {n : ℕ}

@[simp] theorem length_pieces {α : Type} (n : ℕ) (ws : List α) :
    (pieces n ws).length = ws.length + 1 - n := by
  rw [pieces, List.length_map, List.length_range]

/-- They are the parts of the row that have `n` words. -/
theorem mem_pieces {α : Type} {g ws : List α} : g ∈ pieces n ws ↔ g.length = n ∧ g <:+: ws := by
  rw [pieces, List.mem_map]
  constructor
  · rintro ⟨i, hi, rfl⟩
    rw [List.mem_range] at hi
    refine ⟨?_, (List.take_prefix _ _).isInfix.trans (List.drop_suffix _ _).isInfix⟩
    rw [List.length_take, List.length_drop]
    omega
  · rintro ⟨rfl, front, back, rfl⟩
    refine ⟨front.length, ?_, ?_⟩
    · rw [List.mem_range, List.length_append, List.length_append]
      omega
    · rw [List.append_assoc, List.drop_left, List.take_left]

/-- **One more word makes one more piece**, the end of the row, if there is room for it. -/
theorem pieces_concat {α : Type} (h1 : 1 ≤ n) (ws : List α) (w : α) :
    pieces n (ws ++ [w]) =
      pieces n ws ++ if n ≤ ws.length + 1 then [(ws ++ [w]).rtake n] else [] := by
  have hlength : (ws ++ [w]).length = ws.length + 1 := List.length_append
  have hold : ∀ i ∈ List.range (ws.length + 1 - n),
      ((ws ++ [w]).drop i).take n = (ws.drop i).take n := by
    intro i hi
    rw [List.mem_range] at hi
    rw [List.drop_append_of_le_length (by omega), List.take_append_of_le_length]
    rw [List.length_drop]
    omega
  by_cases hn : n ≤ ws.length + 1
  · have hrange : ws.length + 1 + 1 - n = ws.length + 1 - n + 1 := by omega
    have hend : ((ws ++ [w]).drop (ws.length + 1 - n)).take n = (ws ++ [w]).rtake n := by
      rw [List.rtake, hlength, List.take_of_length_le]
      rw [List.length_drop, hlength]
      omega
    rw [pieces, hlength, hrange, List.range_succ, List.map_append, List.map_congr_left hold,
      if_pos hn, List.map_singleton, hend, pieces]
  · have hrange : ws.length + 1 + 1 - n = ws.length + 1 - n := by omega
    rw [pieces, hlength, hrange, List.map_congr_left hold, if_neg hn, List.append_nil, pieces]

/-! ## 2. N-grams are pieces -/

/-- A row has one suffix of each length that it has room for. -/
theorem Window.filter_length_suffixes {α : Type} (h1 : 1 ≤ n) (s : List α) :
    (suffixes s).filter (fun t => t.length = n) = if n ≤ s.length then [s.rtake n] else [] := by
  induction s with
  | nil => rw [suffixes, List.filter_nil, if_neg (by rw [List.length_nil]; omega)]
  | cons a s ih =>
    rw [suffixes, List.filter_append, ih, List.filter_singleton, List.length_cons]
    by_cases hn : n ≤ s.length
    · have hend : (a :: s).rtake n = s.rtake n := by
        rw [← List.singleton_append, rtake_append, Nat.sub_eq_zero_of_le hn, List.rtake_zero,
          List.nil_append]
      have hlong : ¬ s.length + 1 = n := by omega
      rw [if_pos hn, if_pos (Nat.le_succ_of_le hn), hend, decide_eq_false hlong]
      rfl
    · rw [if_neg hn, List.nil_append]
      by_cases hall : s.length + 1 = n
      · have hend : (a :: s).rtake n = a :: s := rtake_of_length_le hall.le
        rw [if_pos hall.ge, hend, decide_eq_true hall]
        rfl
      · rw [if_neg (by omega), decide_eq_false hall]
        rfl

variable (h1 : 1 ≤ n) (h4 : n ≤ maxOrder)

include h1 h4

/-- A word closes the end of the row, if there is room for it. -/
theorem filter_closing (ws : List WordId) (w : WordId) :
    ((Window.fresh.pushAll ws).closing w).filter (fun g => g.length = n) =
      if n ≤ ws.length + 1 then [(ws ++ [w]).rtake n] else [] := by
  rw [Window.closing, Window.recent_pushAll_concat, Window.filter_length_suffixes h1, rtake_rtake, Nat.min_eq_left h4,
    length_rtake, List.length_append]
  have hroom : n ≤ min maxOrder (ws.length + [w].length) ↔ n ≤ ws.length + 1 := by
    rw [List.length_singleton]
    omega
  rw [if_congr hroom rfl rfl]

/-- **The n-grams of one length are the pieces of the row**, in the same order. -/
theorem filter_ngrams (ws : List WordId) :
    (ngrams ws).filter (fun g => g.length = n) = pieces n ws := by
  induction ws using List.reverseRecOn with
  | nil =>
    have hnone : pieces n ([] : List WordId) = [] := by
      rw [← List.length_eq_zero_iff, length_pieces, List.length_nil]
      omega
    exact hnone.symm
  | append_singleton ws w ih =>
    rw [ngrams_concat, List.filter_append, ih, filter_closing h1 h4, pieces_concat h1]

/-- There are as many n-grams as places. -/
theorem countP_ngrams (ws : List WordId) :
    (ngrams ws).countP (fun g => g.length = n) = ws.length + 1 - n := by
  rw [List.countP_eq_length_filter, filter_ngrams h1 h4, length_pieces]

theorem ofOrder_ngrams (ws : List WordId) : ofOrder n (ngrams ws) = (pieces n ws).toFinset := by
  ext g
  rw [mem_ofOrder, List.mem_toFinset, ← filter_ngrams h1 h4, List.mem_filter, decide_eq_true_iff]

end ForestRescoring
