/-
# Blank characters and words

A blank is a character with the Unicode property White_Space.  Every reader of the library cuts
its lines into words at blanks, so the property and the cut stand here once.

`runs` reads a text from the right and keeps the run that is still open apart from the runs that
are finished; `words` closes the open run at the left end.  No word is empty and no word holds a
blank (`ne_nil_of_mem_words`, `not_blank_of_mem_words`), and a text without blanks is its own only
word (`words_of_unbroken`).
-/
namespace ForestRescoring.Text

/-! ## 1. The property -/

/-- The ranges of code points with the property White_Space, both ends included. -/
def blankRanges : List (Nat × Nat) :=
  [(0x09, 0x0D), (0x20, 0x20), (0x85, 0x85), (0xA0, 0xA0), (0x1680, 0x1680), (0x2000, 0x200A),
   (0x2028, 0x2029), (0x202F, 0x202F), (0x205F, 0x205F), (0x3000, 0x3000)]

/-- A character is blank if its code point lies in one of the ranges. -/
def isBlank (c : Char) : Bool :=
  blankRanges.any fun r => r.1 ≤ c.toNat && c.toNat ≤ r.2

/-! ## 2. Trimming -/

/-- The text without the blanks it starts with. -/
def trimStart (s : List Char) : List Char := s.dropWhile isBlank

/-- The text without the characters at its end that `p` holds of. -/
def dropTrailing (p : Char → Bool) (s : List Char) : List Char := (s.reverse.dropWhile p).reverse

/-- The text without the blanks it ends with. -/
def trimEnd (s : List Char) : List Char := dropTrailing isBlank s

/-- The text without blanks at either end. -/
def trim (s : List Char) : List Char := trimEnd (trimStart s)

/-! ## 3. Words -/

/-- A finished run joins the words unless it is empty. -/
def close (run : List Char) (ws : List (List Char)) : List (List Char) :=
  if run = [] then ws else run :: ws

/-- One character more on the left of an open run and the words behind it. -/
def extend (c : Char) (r : List Char × List (List Char)) : List Char × List (List Char) :=
  if isBlank c then ([], close r.1 r.2) else (c :: r.1, r.2)

/-- The run that is open at the left end of the text, and the words to the right of it. -/
def runs (s : List Char) : List Char × List (List Char) := s.foldr extend ([], [])

/-- Reading goes from right to left. -/
theorem runs_cons (c : Char) (s : List Char) : runs (c :: s) = extend c (runs s) := rfl

/-- The maximal runs of characters that are not blank, from left to right. -/
def words (s : List Char) : List (List Char) :=
  let whole := runs s
  close whole.1 whole.2

/-- The words of a string. -/
def tokens (s : String) : List String := (words s.toList).map String.ofList

@[simp] theorem words_nil : words [] = [] := rfl

/-- A blank in front opens no run. -/
theorem words_cons_of_blank {c : Char} (h : isBlank c = true) (s : List Char) :
    words (c :: s) = words s := by
  simp [words, runs_cons, extend, h, close]

/-- A character that is not blank joins the open run. -/
theorem runs_cons_of_not_blank {c : Char} (h : isBlank c = false) (s : List Char) :
    runs (c :: s) = (c :: (runs s).1, (runs s).2) := by
  simp [runs_cons, extend, h]

/-- What a closed run adds is that run, if there is one. -/
theorem mem_close {w run : List Char} {ws : List (List Char)} :
    w ∈ close run ws ↔ (w = run ∧ run ≠ []) ∨ w ∈ ws := by
  by_cases h : run = [] <;> simp [close, h]

/-- Characters of runs come from no blank, and finished runs are not empty. -/
theorem runs_sound (s : List Char) :
    (∀ c ∈ (runs s).1, isBlank c = false) ∧
      ∀ w ∈ (runs s).2, w ≠ [] ∧ ∀ c ∈ w, isBlank c = false := by
  induction s with
  | nil => simp [runs]
  | cons c s ih =>
    by_cases h : isBlank c = true
    · refine ⟨by simp [runs_cons, extend, h], fun w hw => ?_⟩
      simp only [runs_cons, extend, if_pos h] at hw
      rcases mem_close.1 hw with ⟨rfl, hne⟩ | hw
      · exact ⟨hne, ih.1⟩
      · exact ih.2 w hw
    · simp only [Bool.not_eq_true] at h
      rw [runs_cons_of_not_blank h]
      exact ⟨fun d hd => (List.mem_cons.1 hd).elim (· ▸ h) (ih.1 d), ih.2⟩

/-- No word is empty. -/
theorem ne_nil_of_mem_words {s w : List Char} (h : w ∈ words s) : w ≠ [] :=
  (mem_close.1 h).elim (fun hw => hw.1 ▸ hw.2) fun hw => ((runs_sound s).2 w hw).1

/-- No word holds a blank. -/
theorem not_blank_of_mem_words {s w : List Char} (h : w ∈ words s) : ∀ c ∈ w, isBlank c = false :=
  (mem_close.1 h).elim (fun hw => hw.1 ▸ (runs_sound s).1) fun hw => ((runs_sound s).2 w hw).2

/-- Without blanks the whole text is one open run. -/
theorem runs_of_unbroken {s : List Char} (h : ∀ c ∈ s, isBlank c = false) : runs s = (s, []) := by
  induction s with
  | nil => rfl
  | cons c s ih =>
    rw [runs_cons_of_not_blank (h c (by simp)), ih fun d hd => h d (by simp [hd])]

/-- A text without blanks is its own only word. -/
theorem words_of_unbroken {s : List Char} (hne : s ≠ []) (h : ∀ c ∈ s, isBlank c = false) :
    words s = [s] := by
  simp [words, runs_of_unbroken h, close, hne]

end ForestRescoring.Text
