/-
# N-grams that are open

Between two words a window holds the words that the next n-grams may start in.  Each of them opens an
n-gram that reaches up to here, and these are what the next word extends (`Window.opened`):

* the next word closes the open n-grams, each with the word behind it, and in front of them the n-gram
  that has no other word (`Window.closing_eq_extended`);
* what it closes is open behind it, but for the longest if that is complete
  (`Window.opened_push`).

So the open n-grams can be kept in place of the words, and extended word by word
(`Window.opened_pushAll`).  There are never more than three.  From a fresh start on, a word closes the ends of the row that it ends, one of each length from one to four that there
is room for, the shortest first (`Window.closing_eq_ends`).  An n-gram hence has an entry among the counts
if it has one to four words and stands somewhere in the row, and then the number of its places
(`countNgrams_enumerates`).
-/
import Mathlib
import ForestRescoring.Proofs.Ngram.Occurrences

namespace ForestRescoring

/-! ## 1. Open n-grams -/

namespace Window

/-- The n-grams that the next word extends, the shortest first. -/
def opened (win : Window) : List Ngram := suffixes win.recent

/-- Open n-grams and a new one, each with a word behind it. -/
def extended (opened : List Ngram) (w : WordId) : List Ngram := ([] :: opened).map (· ++ [w])

/-- N-grams, the shortest first, without the last one if it is complete. -/
def stillOpen (gs : List Ngram) : List Ngram := if maxOrder ≤ gs.length then gs.dropLast else gs

/-- There are never more than three. -/
theorem length_opened_le (win : Window) : win.opened.length ≤ contextSize := by
  rw [opened, length_suffixes]
  exact win.length_le

theorem suffixes_concat {α : Type} (s : List α) (a : α) :
    suffixes (s ++ [a]) = ([] :: suffixes s).map (· ++ [a]) := by
  induction s with
  | nil => rfl
  | cons b s ih =>
    rw [List.cons_append, suffixes, ih, suffixes, List.map_cons, List.map_cons, List.map_append]
    rfl

/-- **The next word extends what is open**, and opens an n-gram of its own. -/
theorem closing_eq_extended (win : Window) (w : WordId) :
    win.closing w = extended win.opened w := suffixes_concat win.recent w

/-- The longest suffix is the row itself. -/
theorem dropLast_suffixes {α : Type} (s : List α) : (suffixes s).dropLast = suffixes s.tail := by
  cases s with
  | nil => rfl
  | cons a s => rw [suffixes, List.dropLast_concat, List.tail_cons]

/-- **What is closed is open behind the word**, unless it is complete. -/
theorem opened_push (win : Window) (w : WordId) :
    (win.push w).opened = stillOpen (win.closing w) := by
  have hlength : (win.closing w).length = win.recent.length + 1 := by
    rw [closing, length_suffixes, List.length_append, List.length_singleton]
  have hrecent : (win.push w).recent = (win.recent ++ [w]).rtake contextSize := rfl
  have hle := win.length_le
  have hsize : maxOrder = contextSize + 1 := rfl
  rw [opened, hrecent, stillOpen, hlength]
  split_ifs with hfull
  · have hrest : (win.recent ++ [w]).length - contextSize = 1 := by
      rw [List.length_append, List.length_singleton]
      omega
    rw [closing, dropLast_suffixes, List.rtake, hrest, List.drop_one]
  · rw [rtake_of_length_le, closing]
    rw [List.length_append, List.length_singleton]
    omega

/-- The n-grams that are open behind a row, where they are kept in place of the words. -/
def openBehind (ws : List WordId) : List Ngram :=
  ws.foldl (fun gs w => stillOpen (extended gs w)) []

/-- **Open n-grams that are extended word by word** are those of the words that are kept. -/
theorem opened_pushAll (ws : List WordId) : (fresh.pushAll ws).opened = openBehind ws := by
  induction ws using List.reverseRecOn with
  | nil => rfl
  | append_singleton ws w ih =>
    have hbehind : openBehind (ws ++ [w]) = stillOpen (extended (openBehind ws) w) :=
      List.foldl_concat ..
    rw [← pushAll_push, opened_push, closing_eq_extended, ih, hbehind]

/-! ## 2. Ends of a row -/

/-- The suffixes of a row are its ends of each length. -/
theorem suffixes_eq_map {α : Type} (s : List α) :
    suffixes s = (List.range s.length).map fun i => s.rtake (i + 1) := by
  induction s with
  | nil => rfl
  | cons a s ih =>
    have hshort : ∀ i ∈ List.range s.length, s.rtake (i + 1) = (a :: s).rtake (i + 1) := by
      intro i hi
      have hle : i + 1 - s.length = 0 := by
        have hlt := List.mem_range.mp hi
        omega
      rw [← List.singleton_append, rtake_append, hle, List.rtake_zero, List.nil_append]
    have hall : (a :: s).rtake (s.length + 1) = a :: s := rtake_of_length_le le_rfl
    rw [suffixes, List.length_cons, List.range_succ, List.map_append, List.map_singleton, hall, ih,
      List.map_congr_left hshort]

/-- **A word closes the ends of the row that it ends**, of one to four words, the shortest first. -/
theorem closing_eq_ends (ws : List WordId) (w : WordId) :
    (fresh.pushAll ws).closing w =
      (List.range (min (ws.length + 1) maxOrder)).map fun i => (ws ++ [w]).rtake (i + 1) := by
  have hlength : ((ws ++ [w]).rtake maxOrder).length = min (ws.length + 1) maxOrder := by
    rw [length_rtake, List.length_append, List.length_singleton, Nat.min_comm]
  rw [closing, recent_pushAll_concat, suffixes_eq_map, hlength]
  refine List.map_congr_left fun i hi => ?_
  have hlt : i < maxOrder := (List.mem_range.mp hi).trans_le (Nat.min_le_right _ _)
  rw [rtake_rtake, Nat.min_eq_left hlt]

end Window

/-! ## 3. Entries -/

/-- **The tally of a list has an entry for what is in the list**, and for nothing else. -/
theorem NgramCounts.getElem?_ofList (gs : List Ngram) (g : Ngram) :
    (ofList gs)[g]? = if 0 < gs.count g then some (gs.count g) else none := by
  induction gs using List.reverseRecOn with
  | nil => rfl
  | append_singleton gs h ih =>
    have hadd : ofList (gs ++ [h]) = (ofList gs).add h := List.foldl_concat ..
    have hcount : ((ofList gs)[h]?).getD 0 = gs.count h := by
      rw [← count_ofList, count, Std.ExtTreeMap.getD_eq_getD_getElem?]
    rw [hadd, add, Std.ExtTreeMap.getElem?_alter, List.count_append]
    by_cases hg : g = h
    · subst hg
      rw [if_pos Std.ReflCmp.compare_self, hcount, List.count_singleton_self, if_pos (Nat.succ_pos _)]
    · have hother : [h].count g = 0 :=
        List.count_eq_zero_of_not_mem fun hmem => hg (List.mem_singleton.mp hmem)
      have hne : ¬ compare h g = .eq := fun heq => hg (Std.LawfulEqCmp.compare_eq_iff_eq.mp heq).symm
      rw [if_neg hne, ih, hother, Nat.add_zero]

/-- **The window enumerates the n-grams of a row.**  Reading a word behind a row closes the ends of the row
with that word, of one word, of two and so on to four, as far as there is room.  These are the n-grams that
are open behind the row, at most three, and a new one, each with the word behind it.  So an n-gram of one
to four words is counted as often as it stands in the row, and there are no counts but those. -/
theorem countNgrams_enumerates (ws : List WordId) :
    (∀ w, (Window.fresh.pushAll ws).closing w =
      (List.range (min (ws.length + 1) 4)).map fun i => (ws ++ [w]).rtake (i + 1)) ∧
    (∀ w, (Window.fresh.pushAll ws).closing w = Window.extended (Window.openBehind ws) w) ∧
    (Window.openBehind ws).length ≤ 3 ∧
    ∀ g : Ngram, (countNgrams ws)[g]? =
      if 1 ≤ g.length ∧ g.length ≤ 4 ∧ 0 < occurrences g ws then some (occurrences g ws)
      else none := by
  rw [← Window.opened_pushAll]
  refine ⟨Window.closing_eq_ends ws, Window.closing_eq_extended _, Window.length_opened_le _,
    fun g => ?_⟩
  rw [countNgrams, NgramCounts.getElem?_ofList]
  by_cases horder : 1 ≤ g.length ∧ g.length ≤ 4
  · rw [count_ngrams horder.1 horder.2]
    simp only [horder, true_and]
  · have hnone : (ngrams ws).count g = 0 :=
      List.count_eq_zero_of_not_mem fun hg => horder (length_of_mem_ngramsFrom hg)
    rw [hnone, if_neg (Nat.lt_irrefl 0), if_neg fun h => horder ⟨h.1, h.2.1⟩]

end ForestRescoring
