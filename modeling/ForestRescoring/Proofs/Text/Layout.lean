/-
# How a line is laid out

Lines are read by dropping the blanks around them and by cutting what is left into words.  What this
comes to is said here by the layout of the line alone, as pieces put together:

* `trim_eq_iff`: what is left of a line stands between blanks, and neither begins nor ends with one;
* `words_eq_pair_iff`: it has two words if it is a word, some blanks and another word.
-/
import Mathlib
import ForestRescoring.Proofs.Text.Written

namespace ForestRescoring.Text

/-! ## 1. Blanks around -/

/-- The text has no characters but blanks. -/
def Blanks (s : List Char) : Prop := ∀ c ∈ s, isBlank c = true

/-- The text neither begins nor ends with a blank. -/
structure Bare (t : List Char) : Prop where
  head : ∀ c ∈ t.head?, isBlank c = false
  last : ∀ c ∈ t.getLast?, isBlank c = false

variable {s t : List Char}

theorem blanks_nil : Blanks [] := fun c hc => by cases hc

theorem Bare.front_eq_nil {front : List Char} (h : Bare (front ++ t)) (hfront : Blanks front) :
    front = [] := by
  cases front with
  | nil => rfl
  | cons c front =>
    have hc : isBlank c = false := h.head c rfl
    rw [hfront c List.mem_cons_self] at hc
    cases hc

theorem Bare.back_eq_nil {back : List Char} (h : Bare (t ++ back)) (hback : Blanks back) :
    back = [] := by
  cases back using List.reverseRecOn with
  | nil => rfl
  | append_singleton back c =>
    have hc : isBlank c = false := h.last c (by rw [← List.append_assoc, List.getLast?_concat]; rfl)
    rw [hback c (List.mem_append_right _ List.mem_cons_self)] at hc
    cases hc

/-- Blanks in front are dropped as far as the first other character. -/
theorem trimStart_append {front : List Char} (hfront : Blanks front)
    (ht : ∀ c ∈ t.head?, isBlank c = false) : trimStart (front ++ t) = t := by
  rw [trimStart, List.dropWhile_append_of_pos hfront]
  cases t with
  | nil => rfl
  | cons c t => rw [List.dropWhile_cons_of_neg (by rw [ht c rfl]; exact Bool.false_ne_true)]

theorem exists_trimStart (s : List Char) :
    (∃ front, s = front ++ trimStart s ∧ Blanks front) ∧
      ∀ c ∈ (trimStart s).head?, isBlank c = false := by
  refine ⟨⟨s.takeWhile isBlank, List.takeWhile_append_dropWhile.symm,
    fun c hc => List.mem_takeWhile_imp hc⟩, fun c hc => ?_⟩
  have hhead := List.head?_dropWhile_not isBlank s
  have hc : (s.dropWhile isBlank).head? = some c := hc
  rw [hc] at hhead
  exact hhead

/-- The end of a text is trimmed as its beginning is, read backwards. -/
theorem trimEnd_eq (s : List Char) : trimEnd s = (trimStart s.reverse).reverse := rfl

theorem trimEnd_append {back : List Char} (hback : Blanks back)
    (ht : ∀ c ∈ t.getLast?, isBlank c = false) : trimEnd (t ++ back) = t := by
  have hreverse : Blanks back.reverse := fun c hc => hback c (List.mem_reverse.mp hc)
  have hhead : ∀ c ∈ t.reverse.head?, isBlank c = false := by rwa [List.head?_reverse]
  rw [trimEnd_eq, List.reverse_append, trimStart_append hreverse hhead, List.reverse_reverse]

theorem exists_trimEnd (s : List Char) :
    (∃ back, s = trimEnd s ++ back ∧ Blanks back) ∧
      ∀ c ∈ (trimEnd s).getLast?, isBlank c = false := by
  obtain ⟨⟨front, hs, hfront⟩, hhead⟩ := exists_trimStart s.reverse
  refine ⟨⟨front.reverse, ?_, fun c hc => hfront c (List.mem_reverse.mp hc)⟩, ?_⟩
  · rw [trimEnd_eq, ← List.reverse_append, ← hs, List.reverse_reverse]
  · rwa [trimEnd_eq, List.getLast?_reverse]

/-- The second text is what stands in the first between the blanks. -/
structure Trimmed (s t : List Char) : Prop where
  bare : Bare t
  between : ∃ front back, s = front ++ t ++ back ∧ Blanks front ∧ Blanks back

/-- **Trimming leaves what stands between the blanks.** -/
theorem trim_eq_iff : trim s = t ↔ Trimmed s t := by
  constructor
  · rintro rfl
    obtain ⟨⟨front, hs, hfront⟩, hhead⟩ := exists_trimStart s
    obtain ⟨⟨back, hrest, hback⟩, hlast⟩ := exists_trimEnd (trimStart s)
    refine ⟨⟨fun c hc => hhead c ?_, hlast⟩, front, back, ?_, hfront, hback⟩
    · have hc : (trimEnd (trimStart s)).head? = some c := hc
      rw [hrest, List.head?_append, hc]
      rfl
    · rw [List.append_assoc, trim, ← hrest]
      exact hs
  · rintro ⟨hbare, front, back, rfl, hfront, hback⟩
    by_cases ht : t = []
    · have hall : Blanks (front ++ back) :=
        fun c hc => (List.mem_append.mp hc).elim (hfront c) (hback c)
      have hnone : trimStart (front ++ back) = [] := by
        rw [← List.append_nil (front ++ back)]
        exact trimStart_append hall fun c hc => by cases hc
      rw [ht, List.append_nil, trim, hnone]
      rfl
    · have hhead : ∀ c ∈ (t ++ back).head?, isBlank c = false := by
        rw [List.head?_append_of_ne_nil _ ht]
        exact hbare.head
      rw [trim, List.append_assoc, trimStart_append hfront hhead, trimEnd_append hback hbare.last]

/-! ## 2. Two words -/

/-- Behind the run that is open at its left end a text goes on with a blank, and has the words that are
finished. -/
theorem exists_runs (s : List Char) :
    ∃ rest, s = (runs s).1 ++ rest ∧ words rest = (runs s).2 ∧
      ∀ c ∈ rest.head?, isBlank c = true := by
  induction s with
  | nil => exact ⟨[], rfl, rfl, fun c hc => by cases hc⟩
  | cons c s ih =>
    by_cases hc : isBlank c = true
    · refine ⟨c :: s, ?_, ?_, fun d hd => ?_⟩
      · simp [runs_cons, extend, hc]
      · rw [words_cons_of_blank hc, runs_cons, extend, if_pos hc]
        rfl
      · cases hd
        exact hc
    · have hc : isBlank c = false := by simpa using hc
      obtain ⟨rest, hs, hwords, hhead⟩ := ih
      rw [runs_cons_of_not_blank hc]
      exact ⟨rest, congrArg (c :: ·) hs, hwords, hhead⟩

/-- A text without words has no characters but blanks. -/
theorem blanks_of_words_eq_nil (h : words s = []) : Blanks s := by
  induction s with
  | nil => exact blanks_nil
  | cons c s ih =>
    by_cases hc : isBlank c = true
    · rw [words_cons_of_blank hc] at h
      exact List.forall_mem_cons.mpr ⟨hc, ih h⟩
    · have hc : isBlank c = false := by simpa using hc
      rw [words, runs_cons_of_not_blank hc] at h
      cases h

/-- The first word of a text stands behind blanks, and the text goes on with a blank behind it. -/
theorem exists_of_words_eq_cons {w : List Char} {ws : List (List Char)} (h : words s = w :: ws) :
    ∃ front rest, s = front ++ w ++ rest ∧ Blanks front ∧ words rest = ws ∧
      ∀ c ∈ rest.head?, isBlank c = true := by
  induction s with
  | nil => cases h
  | cons c s ih =>
    by_cases hc : isBlank c = true
    · rw [words_cons_of_blank hc] at h
      obtain ⟨front, rest, rfl, hfront, hrest⟩ := ih h
      exact ⟨c :: front, rest, rfl, List.forall_mem_cons.mpr ⟨hc, hfront⟩, hrest⟩
    · have hc : isBlank c = false := by simpa using hc
      obtain ⟨rest, hs, hwords, hhead⟩ := exists_runs s
      rw [words, runs_cons_of_not_blank hc] at h
      obtain ⟨rfl, rfl⟩ := List.cons.inj h
      exact ⟨[], rest, congrArg (c :: ·) hs, blanks_nil, hwords, hhead⟩

theorem words_append_of_blanks {front : List Char} (h : Blanks front) (s : List Char) :
    words (front ++ s) = words s := by
  induction front with
  | nil => rfl
  | cons c front ih =>
    obtain ⟨hc, hfront⟩ := List.forall_mem_cons.mp h
    rw [List.cons_append, words_cons_of_blank hc, ih hfront]

/-- **Two words are a word, some blanks and another word.** -/
theorem words_eq_pair_iff {a b : List Char} (ht : Bare t) : words t = [a, b] ↔
    IsWord a ∧ IsWord b ∧ ∃ gap, t = a ++ gap ++ b ∧ gap ≠ [] ∧ Blanks gap := by
  constructor
  · intro h
    have ha : IsWord a := isWord_of_mem_words (by rw [h]; exact List.mem_cons_self)
    have hb : IsWord b := isWord_of_mem_words (by rw [h]; simp)
    obtain ⟨front, rest, rfl, hfront, hrest, hhead⟩ := exists_of_words_eq_cons h
    obtain ⟨gap, back, rfl, hgap, hback, -⟩ := exists_of_words_eq_cons hrest
    have hback : Blanks back := blanks_of_words_eq_nil hback
    obtain rfl : front = [] := by
      rw [List.append_assoc] at ht
      exact ht.front_eq_nil hfront
    obtain rfl : back = [] := by
      rw [← List.append_assoc] at ht
      exact ht.back_eq_nil hback
    refine ⟨ha, hb, gap, by simp, ?_, hgap⟩
    -- without a gap the blank behind the first word would be the beginning of the second
    rintro rfl
    obtain ⟨c, b, rfl⟩ := List.exists_cons_of_ne_nil hb.ne_nil
    have hc : isBlank c = true := hhead c rfl
    rw [hb.unbroken c List.mem_cons_self] at hc
    cases hc
  · rintro ⟨ha, hb, gap, rfl, hne, hgap⟩
    obtain ⟨c, gap, rfl⟩ := List.exists_cons_of_ne_nil hne
    obtain ⟨hc, hgap⟩ := List.forall_mem_cons.mp hgap
    rw [List.append_assoc, List.cons_append, words_append_blank ha hc, words_append_of_blanks hgap,
      words_of_unbroken hb.ne_nil hb.unbroken]

end ForestRescoring.Text
