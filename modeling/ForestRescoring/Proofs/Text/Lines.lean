/-
# Lines of texts put together

Behind a newline a new line begins, so the lines of a text that ends with one are followed by those of the
next text (`lines_append_of_getLast?`).  Where a newline is put between two texts, the first is as if it
ended with one.  It has then one line more than newlines (`length_lines_concat`), and these are its own
lines, with an empty line behind them or not (`lines_concat_newline`).
-/
import Mathlib
import ForestRescoring.Text.Lines

namespace ForestRescoring.Text

variable {α : Type} [DecidableEq α] {newline : α}

theorem lines_cons_ne_nil (a : α) (s : List α) : lines newline (a :: s) ≠ [] := by
  rw [lines_cons]
  split
  · exact List.cons_ne_nil _ _
  · cases lines newline s with
    | nil => exact List.cons_ne_nil _ _
    | cons l ls => exact List.cons_ne_nil _ _

/-- Behind a newline, a new line begins. -/
theorem lines_append_of_getLast? {l : List α} (h : ∀ a ∈ l.getLast?, a = newline) (s : List α) :
    lines newline (l ++ s) = lines newline l ++ lines newline s := by
  induction l with
  | nil => rfl
  | cons a l ih =>
    cases l with
    | nil =>
      have ha : a = newline := h a rfl
      rw [List.singleton_append, lines_cons, lines_cons, if_pos ha, if_pos ha]
      rfl
    | cons b l =>
      have hrest := ih h
      rw [List.cons_append, lines_cons, hrest, lines_cons newline a (b :: l)]
      split
      · rfl
      · obtain ⟨k, ks, hlines⟩ :=
          List.exists_cons_of_ne_nil (lines_cons_ne_nil b l : lines newline (b :: l) ≠ [])
        rw [hlines]
        rfl

/-- A newline ends the last line, or makes an empty line where there is none. -/
theorem lines_concat_newline (newline : α) (s : List α) :
    lines newline (s ++ [newline]) = lines newline s ∨
      lines newline (s ++ [newline]) = lines newline s ++ [[]] := by
  induction s with
  | nil =>
    rw [List.nil_append, lines_cons, if_pos rfl]
    exact .inr rfl
  | cons a s ih =>
    rw [List.cons_append, lines_cons, lines_cons]
    by_cases ha : a = newline
    · rw [if_pos ha, if_pos ha]
      exact ih.imp (congrArg ([] :: ·)) (congrArg ([] :: ·))
    · rw [if_neg ha, if_neg ha]
      cases s with
      | nil =>
        rw [List.nil_append, lines_cons, if_pos rfl]
        exact .inl rfl
      | cons b s =>
        obtain ⟨l, ls, hlines⟩ :=
          List.exists_cons_of_ne_nil (lines_cons_ne_nil b s : lines newline (b :: s) ≠ [])
        rw [hlines] at ih ⊢
        exact ih.imp (congrArg (consFirst a)) (congrArg (consFirst a))

/-- A text that ends with a newline has a line for each newline. -/
theorem length_lines_concat (newline : α) (s : List α) :
    (lines newline (s ++ [newline])).length = s.count newline + 1 := by
  induction s with
  | nil =>
    rw [List.nil_append, lines_cons, if_pos rfl]
    rfl
  | cons a s ih =>
    rw [List.cons_append, lines_cons]
    by_cases ha : a = newline
    · rw [if_pos ha, ha, List.length_cons, List.count_cons_self, ih]
    · rw [if_neg ha, List.count_cons_of_ne ha, ← ih]
      cases hlines : lines newline (s ++ [newline]) with
      | nil =>
        rw [hlines] at ih
        cases ih
      | cons l ls => rfl

/-- **The lines of two texts with a newline between them** are those of the first, as if it ended with the
newline, and then those of the second. -/
theorem linesOf_joined (t u : String) :
    linesOf (t ++ "\n" ++ u) = linesOf (t ++ "\n") ++ linesOf u := by
  have hlast : ∀ c ∈ (t ++ "\n").toList.getLast?, c = '\n' := by
    intro c hc
    rw [String.toList_append, List.getLast?_append] at hc
    exact (Option.some.inj hc).symm
  rw [linesOf, String.toList_append, lines_append_of_getLast? hlast, List.map_append]
  rfl

/-- A newline at the end adds no line, or an empty one. -/
theorem linesOf_terminated (t : String) :
    linesOf (t ++ "\n") = linesOf t ∨ linesOf (t ++ "\n") = linesOf t ++ [""] := by
  have hlist : (t ++ "\n").toList = t.toList ++ ['\n'] := String.toList_append
  rw [linesOf, linesOf, hlist]
  rcases lines_concat_newline '\n' t.toList with h | h
  · exact .inl (congrArg _ h)
  · exact .inr (by rw [h, List.map_append]; rfl)

theorem length_linesOf_terminated (t : String) :
    (linesOf (t ++ "\n")).length = t.toList.count '\n' + 1 := by
  have hlist : (t ++ "\n").toList = t.toList ++ ['\n'] := String.toList_append
  rw [linesOf, hlist, List.length_map, length_lines_concat]

end ForestRescoring.Text
