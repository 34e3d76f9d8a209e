/-
# Where n-grams occur

Counting reads a row of words once and closes n-grams as it goes, so what it counts is decided by
the window that it keeps.  This module says what it counts without a window: an n-gram of one to
four words has as many closings as there are places in the row where it stands
(`count_ngrams`), and n-grams of other lengths have none (`length_of_mem_ngramsFrom`).

The window behind a row of words holds the last three of them, or all if there are fewer
(`Window.recent_pushAll`).  So a word closes the suffixes, of at most four words, of the row that it
ends (`mem_closing`), each of them once, and a place of an n-gram is met where its last word
is read.
-/
import Mathlib
import ForestRescoring.Ngram.Counts

namespace ForestRescoring

/-! ## 1. The last words of a row -/

/-- The last words of two rows: the first row gives what the second leaves room for. -/
theorem rtake_append {α : Type} (a b : List α) (n : ℕ) :
    (a ++ b).rtake n = a.rtake (n - b.length) ++ b.rtake n := by
  simp [List.rtake_eq_reverse_take_reverse, List.take_append]

/-- Of the last words of the last words, the smaller number counts. -/
theorem rtake_rtake {α : Type} (l : List α) (m n : ℕ) :
    (l.rtake m).rtake n = l.rtake (min n m) := by
  simp [List.rtake_eq_reverse_take_reverse, List.take_take]

/-- The last words are found also if the first row was cut before. -/
theorem rtake_rtake_append {α : Type} (a b : List α) (n : ℕ) :
    (a.rtake n ++ b).rtake n = (a ++ b).rtake n := by
  rw [rtake_append, rtake_rtake, Nat.min_eq_left (Nat.sub_le _ _), ← rtake_append]

/-- A short row is its own end. -/
theorem rtake_of_length_le {α : Type} {l : List α} {n : ℕ} (h : l.length ≤ n) : l.rtake n = l := by
  rw [List.rtake, Nat.sub_eq_zero_of_le h, List.drop_zero]

/-- As many words as there are, up to the number asked for. -/
theorem length_rtake {α : Type} (l : List α) (n : ℕ) : (l.rtake n).length = min n l.length := by
  rw [List.rtake, List.length_drop]
  omega

/-- The last words are a suffix. -/
theorem rtake_suffix {α : Type} (l : List α) (n : ℕ) : l.rtake n <:+ l := List.drop_suffix _ _

/-! ## 2. The window behind a row of words -/

namespace Window

/-- A window is what it holds. -/
theorem eq_of_recent_eq {a b : Window} (h : a.recent = b.recent) : a = b := by
  obtain ⟨r, hr⟩ := a
  obtain ⟨q, hq⟩ := b
  have h : r = q := h
  subst h
  rfl

/-- The window behind a row of words. -/
def pushAll (win : Window) (ws : List WordId) : Window := ws.foldl push win

@[simp] theorem pushAll_nil (win : Window) : win.pushAll [] = win := rfl

@[simp] theorem pushAll_cons (win : Window) (w : WordId) (ws : List WordId) :
    win.pushAll (w :: ws) = (win.push w).pushAll ws := rfl

/-- Reading on from where a row ended. -/
theorem pushAll_append (win : Window) (a b : List WordId) :
    win.pushAll (a ++ b) = (win.pushAll a).pushAll b := List.foldl_append

/-- One more word. -/
theorem pushAll_push (win : Window) (ws : List WordId) (w : WordId) :
    (win.pushAll ws).push w = win.pushAll (ws ++ [w]) := by
  rw [pushAll_append]
  rfl

/-- A window holds at most three words. -/
theorem recent_rtake (win : Window) : win.recent.rtake contextSize = win.recent :=
  rtake_of_length_le win.length_le

/-- A word makes the window longer, as long as it is not full. -/
theorem length_push (win : Window) (w : WordId) :
    (win.push w).recent.length = min contextSize (win.recent.length + 1) := by
  have hpush : (win.push w).recent = (win.recent ++ [w]).rtake contextSize := rfl
  rw [hpush, length_rtake, List.length_append, List.length_singleton]

/-- **A window holds the last words that were read.** -/
theorem recent_pushAll (win : Window) (ws : List WordId) :
    (win.pushAll ws).recent = (win.recent ++ ws).rtake contextSize := by
  induction ws generalizing win with
  | nil => rw [pushAll_nil, List.append_nil, recent_rtake]
  | cons w ws ih =>
    have hpush : (win.push w).recent = (win.recent ++ [w]).rtake contextSize := rfl
    rw [pushAll_cons, ih, hpush, rtake_rtake_append, List.append_assoc, List.singleton_append]

/-- From a fresh start on, the window depends on the row alone. -/
theorem recent_pushAll_fresh (ws : List WordId) :
    (fresh.pushAll ws).recent = ws.rtake contextSize := by
  rw [recent_pushAll]
  rfl

/-- The window and the next word are the end of the row, as long as an n-gram may be. -/
theorem recent_pushAll_concat (ws : List WordId) (w : WordId) :
    (fresh.pushAll ws).recent ++ [w] = (ws ++ [w]).rtake maxOrder := by
  rw [recent_pushAll_fresh]
  exact (List.rtake_concat_succ ws contextSize w).symm

/-- **A word closes the suffixes of what the window holds with the word behind it.** -/
theorem mem_closing {win : Window} {w : WordId} {g : Ngram} :
    g ∈ win.closing w ↔ g ≠ [] ∧ g <:+ win.recent ++ [w] := mem_suffixes

/-- A closed n-gram is at most one word longer than the window. -/
theorem length_le_of_mem_closing {win : Window} {w : WordId} {g : Ngram}
    (h : g ∈ win.closing w) : g.length ≤ win.recent.length + 1 := by
  have hs := (mem_closing.mp h).2.length_le
  simpa using hs

/-- No suffix is listed twice, since no two have the same length. -/
theorem nodup_suffixes {α : Type} (s : List α) : (suffixes s).Nodup := by
  induction s with
  | nil => exact List.nodup_nil
  | cons a s ih =>
    rw [suffixes, List.nodup_append]
    refine ⟨ih, List.nodup_singleton _, ?_⟩
    intro t ht u hu
    rw [List.mem_singleton] at hu
    rintro rfl
    have hle := (mem_suffixes.mp ht).2.length_le
    rw [hu, List.length_cons] at hle
    omega

/-- The suffixes of a bounded length are those of the end of that length. -/
theorem filter_suffixes {α : Type} (s : List α) (n : ℕ) :
    (suffixes s).filter (fun t => t.length ≤ n) = suffixes (s.rtake n) := by
  induction s with
  | nil => rw [List.rtake_nil, suffixes, List.filter_nil]
  | cons a s ih =>
    rw [suffixes, List.filter_append, ih]
    by_cases h : (a :: s).length ≤ n
    · have hs : s.length ≤ n := Nat.le_of_succ_le h
      rw [rtake_of_length_le h, rtake_of_length_le hs, suffixes, List.filter_singleton]
      simp only [decide_eq_true h, cond_true]
    · have hs : n ≤ s.length := by
        rw [List.length_cons] at h
        omega
      have hr : (a :: s).rtake n = s.rtake n := by
        rw [← List.singleton_append, rtake_append, Nat.sub_eq_zero_of_le hs, List.rtake_zero,
          List.nil_append]
      rw [hr, List.filter_singleton]
      simp only [decide_eq_false h, cond_false, List.append_nil]

end Window

/-! ## 3. N-grams of rows put together -/

@[simp] theorem ngramsFrom_nil (win : Window) : ngramsFrom win [] = [] := rfl

theorem ngramsFrom_cons (win : Window) (w : WordId) (ws : List WordId) :
    ngramsFrom win (w :: ws) = win.closing w ++ ngramsFrom (win.push w) ws := rfl

/-- Reading on closes what the rest closes in the window behind the first row. -/
theorem ngramsFrom_append (win : Window) (a b : List WordId) :
    ngramsFrom win (a ++ b) = ngramsFrom win a ++ ngramsFrom (win.pushAll a) b := by
  induction a generalizing win with
  | nil => rfl
  | cons w a ih => rw [List.cons_append, ngramsFrom_cons, ngramsFrom_cons, ih, List.append_assoc,
      Window.pushAll_cons]

/-- The last word of a row closes n-grams on top of those of the row before. -/
theorem ngrams_concat (ws : List WordId) (w : WordId) :
    ngrams (ws ++ [w]) = ngrams ws ++ (Window.fresh.pushAll ws).closing w := by
  rw [ngrams, ngramsFrom_append, ngramsFrom_cons, ngramsFrom_nil, List.append_nil]
  rfl

/-- What is counted has one to four words. -/
theorem length_of_mem_ngramsFrom {win : Window} {ws : List WordId} {g : Ngram}
    (h : g ∈ ngramsFrom win ws) : 1 ≤ g.length ∧ g.length ≤ maxOrder := by
  induction ws generalizing win with
  | nil => cases h
  | cons w ws ih =>
    rcases List.mem_append.mp h with h | h
    · have hne := (Window.mem_closing.mp h).1
      have hle := Window.length_le_of_mem_closing h
      have hwin : win.recent.length + 1 ≤ maxOrder := Nat.succ_le_succ win.length_le
      exact ⟨List.length_pos_of_ne_nil hne, hle.trans hwin⟩
    · exact ih h

/-! ## 4. Places of an n-gram -/

/-- The number of places in a row of words where an n-gram stands. -/
def occurrences (g : Ngram) (ws : List WordId) : ℕ :=
  (List.range ws.length).countP fun i => g.isPrefixOf (ws.drop i)

theorem occurrences_nil (g : Ngram) : occurrences g [] = 0 := rfl

/-- The first place of a row, and those behind it. -/
theorem occurrences_cons (g : Ngram) (w : WordId) (ws : List WordId) :
    occurrences g (w :: ws) = occurrences g ws + if g <+: w :: ws then 1 else 0 := by
  rw [occurrences, List.length_cons, List.range_succ_eq_map, List.countP_cons, List.countP_map]
  simp [occurrences, Function.comp_def, List.isPrefixOf_iff_prefix]

/-- The places in a row that is one word longer: those before, and one if the n-gram ends the
row.  Both ends of the row are met in the induction, and a place that is both the first and
the last is the whole row. -/
theorem occurrences_concat {g : Ngram} (hg : g ≠ []) (ws : List WordId) (w : WordId) :
    occurrences g (ws ++ [w]) = occurrences g ws + if g <:+ ws ++ [w] then 1 else 0 := by
  induction ws with
  | nil =>
    have hiff : g <+: [w] ↔ g <:+ [w] := by
      rw [List.prefix_cons_iff, List.suffix_cons_iff]
      simp [hg]
    simp only [List.nil_append, occurrences_cons, occurrences_nil, hiff]
  | cons x ws ih =>
    rw [List.cons_append, occurrences_cons, occurrences_cons, ih]
    by_cases hall : g = x :: (ws ++ [w])
    · subst hall
      have hp : ¬ x :: (ws ++ [w]) <+: x :: ws := fun h => by simpa using h.length_le
      have hs : ¬ x :: (ws ++ [w]) <:+ ws ++ [w] := fun h => by simpa using h.length_le
      simp [hp, hs]
    · have hp : g <+: x :: (ws ++ [w]) ↔ g <+: x :: ws := by
        rw [← List.cons_append, List.prefix_concat_iff]
        exact or_iff_right hall
      have hs : g <:+ x :: (ws ++ [w]) ↔ g <:+ ws ++ [w] := by
        rw [List.suffix_cons_iff]
        exact or_iff_right hall
      simp only [hp, hs]
      omega

/-- A word closes an n-gram of one to four words once if the row that it ends does so with the
n-gram, and else not at all. -/
theorem count_closing {g : Ngram} (hg : g ≠ []) (hlen : g.length ≤ maxOrder) (ws : List WordId)
    (w : WordId) : ((Window.fresh.pushAll ws).closing w).count g =
      if g <:+ ws ++ [w] then 1 else 0 := by
  have hiff : g ∈ (Window.fresh.pushAll ws).closing w ↔ g <:+ ws ++ [w] := by
    rw [Window.mem_closing, Window.recent_pushAll_concat]
    constructor
    · rintro ⟨-, h⟩
      exact h.trans (rtake_suffix _ _)
    · intro h
      refine ⟨hg, List.suffix_of_suffix_length_le h (rtake_suffix _ _) ?_⟩
      rw [length_rtake]
      exact le_min hlen h.length_le
  by_cases h : g <:+ ws ++ [w]
  · rw [if_pos h]
    exact List.count_eq_one_of_mem (Window.nodup_suffixes _) (hiff.mpr h)
  · rw [if_neg h]
    exact List.count_eq_zero_of_not_mem (fun hm => h (hiff.mp hm))

/-- **Counting n-grams counts places.**  An n-gram of one to four words is closed as often as it
stands in the row. -/
theorem count_ngrams {g : Ngram} (h1 : 1 ≤ g.length) (h4 : g.length ≤ maxOrder)
    (ws : List WordId) : (ngrams ws).count g = occurrences g ws := by
  have hg : g ≠ [] := List.ne_nil_of_length_pos h1
  induction ws using List.reverseRecOn with
  | nil => rfl
  | append_singleton ws w ih =>
    rw [ngrams_concat, List.count_append, ih, count_closing hg h4, occurrences_concat hg]

end ForestRescoring
