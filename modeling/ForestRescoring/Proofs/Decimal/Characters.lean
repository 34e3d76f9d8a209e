/-
# The characters of decimals

A decimal that is read as a finite number has digits, signs, a point and the letter in front of an
exponent, and nothing else (`isDecimalChar_of_finite?`): the texts with other letters that are read
too are the names of infinity and of not-a-number, which are not finite.  So a decimal can stand at
the end of a word behind an equals sign, and be found there.
-/
import Mathlib
import ForestRescoring.Decimal.Reading
import ForestRescoring.Proofs.Text.Written

namespace ForestRescoring.Decimal

open ForestRescoring.Text

/-- The characters that decimals are made of. -/
def isDecimalChar (c : Char) : Bool := c.isDigit || ['+', '-', '.', 'e', 'E'].contains c

theorem isDecimalChar_of_isDigit {c : Char} (h : c.isDigit = true) : isDecimalChar c = true := by
  simp [isDecimalChar, h]

variable {s : List Char} {c : Char}

/-- A character is the sign, or stands behind it. -/
theorem mem_splitSign (h : c ∈ s) : isDecimalChar c = true ∨ c ∈ (splitSign s).2 := by
  unfold splitSign
  split
  · rcases List.mem_cons.mp h with rfl | h
    · exact .inl (by decide)
    · exact .inr h
  · rcases List.mem_cons.mp h with rfl | h
    · exact .inl (by decide)
    · exact .inr h
  · exact .inr h

/-- A character is one of the digits in front, or stands behind them. -/
theorem mem_spanDigits (h : c ∈ s) : isDecimalChar c = true ∨ c ∈ (spanDigits s).2 := by
  rw [← List.takeWhile_append_dropWhile (p := Char.isDigit) (l := s), List.mem_append] at h
  rcases h with h | h
  · exact .inl (isDecimalChar_of_isDigit (List.mem_takeWhile_imp h))
  · exact .inr h

/-- A character is the point, a digit of the fraction, or stands behind it. -/
theorem mem_splitFraction (h : c ∈ s) : isDecimalChar c = true ∨ c ∈ (splitFraction s).2 := by
  unfold splitFraction
  split
  · rcases List.mem_cons.mp h with rfl | h
    · exact .inl (by decide)
    · exact mem_spanDigits h
  · exact .inr h

theorem isDecimalChar_of_exponent? {e : ℤ} (hs : exponent? s = some e) (h : c ∈ s) :
    isDecimalChar c = true := by
  unfold exponent? at hs
  split at hs
  · simp at h
  · next mark s =>
    have hmark : isExponentMark mark = true := by
      by_contra hmark
      simp [hmark] at hs
    have hdigits : ∀ d ∈ (splitSign s).2, d.isDigit = true := by
      by_contra hdigits
      simp [hmark, hdigits] at hs
    rcases List.mem_cons.mp h with rfl | h
    · simp only [isExponentMark, Bool.or_eq_true, beq_iff_eq] at hmark
      rcases hmark with rfl | rfl <;> decide
    · rcases mem_splitSign h with h | h
      · exact h
      · exact isDecimalChar_of_isDigit (hdigits c h)

theorem isDecimalChar_of_numeral? {n : List Char × ℤ} (hs : numeral? s = some n) (h : c ∈ s) :
    isDecimalChar c = true := by
  unfold numeral? at hs
  dsimp only at hs
  split_ifs at hs
  obtain ⟨e, he, -⟩ := Option.map_eq_some_iff.mp hs
  rcases mem_spanDigits h with h | h
  · exact h
  · rcases mem_splitFraction h with h | h
    · exact h
    · exact isDecimalChar_of_exponent? he h

/-- What has a name is not finite, with either sign. -/
theorem not_isFinite_of_named? {x : Float} (hs : named? s = some x) :
    x.isFinite = false ∧ (-x).isFinite = false := by
  unfold named? at hs
  dsimp only at hs
  split_ifs at hs
  · cases hs
    decide +kernel
  · cases hs
    decide +kernel

/-- **A finite decimal has the characters of decimals only.** -/
theorem isDecimalChar_of_finite? {x : Float} (hs : finite? s = some x) (h : c ∈ s) :
    isDecimalChar c = true := by
  obtain ⟨hnumber, hfinite⟩ := Option.filter_eq_some_iff.mp hs
  obtain ⟨m, hm, rfl⟩ := Option.map_eq_some_iff.mp hnumber
  unfold magnitude? at hm
  cases hn : numeral? (splitSign s).2 with
  | none =>
    rw [hn] at hm
    obtain ⟨hpos, hneg⟩ := not_isFinite_of_named? hm
    split_ifs at hfinite
    · simp [hneg] at hfinite
    · simp [hpos] at hfinite
  | some n =>
    rcases mem_splitSign h with h | h
    · exact h
    · exact isDecimalChar_of_numeral? hn h

/-- No character of a decimal is blank, and none is an equals sign. -/
theorem not_blank_of_isDecimalChar (h : isDecimalChar c = true) : isBlank c = false ∧ c ≠ '=' := by
  rw [isDecimalChar, Bool.or_eq_true] at h
  rcases h with h | h
  · refine ⟨not_blank_of_isDigit h, ?_⟩
    rintro rfl
    cases h
  · simp only [List.contains_iff_mem, List.mem_cons, List.not_mem_nil, or_false] at h
    rcases h with rfl | rfl | rfl | rfl | rfl <;> decide

end ForestRescoring.Decimal
