/-
# Written numbers hold no blank

However a number is written, with a fixed number of digits behind the point or as data, its text is
made of digits, signs, points and letters.  So it holds no blank: it is a field of its own between
two tabs, and it breaks no line (`unbroken_places`, `unbroken_dataNumber`).
-/
import Mathlib
import ForestRescoring.Decimal.Notation
import ForestRescoring.Proofs.Text.Written

namespace ForestRescoring

open Text

/-! ## 1. Texts without blanks -/

namespace Text

theorem Unbroken.append {s t : List Char} (hs : Unbroken s) (ht : Unbroken t) :
    Unbroken (s ++ t) := List.forall_mem_append.mpr ⟨hs, ht⟩

/-- Two texts without blanks are one. -/
theorem unbroken_append {s t : String} (hs : Unbroken s.toList) (ht : Unbroken t.toList) :
    Unbroken (s ++ t).toList := by
  rw [String.toList_append]
  exact hs.append ht

/-- A part of a text without blanks is one. -/
theorem Unbroken.subset {s t : List Char} (h : Unbroken t) (hst : s ⊆ t) : Unbroken s :=
  fun c hc => h c (hst hc)

theorem unbroken_toString_nat (n : ℕ) : Unbroken (toString n).toList := by
  rw [Nat.toString_eq_ofList_toDigits, String.toList_ofList]
  exact (isWord_numeral n).unbroken

theorem unbroken_toString_int (n : ℤ) : Unbroken (toString n).toList := by
  cases n with
  | ofNat n => exact unbroken_toString_nat n
  | negSucc n => exact unbroken_append (by decide) (unbroken_toString_nat (n + 1))

end Text

/-! ## 2. Digits as text -/

namespace Decimal

variable {s : String}

theorem unbroken_zeros (n : ℕ) : Unbroken (zeros n).toList := by
  rw [zeros, String.toList_ofList]
  intro c hc
  rw [List.eq_of_mem_replicate hc]
  decide

theorem unbroken_signed (negative : Bool) (h : Unbroken s.toList) :
    Unbroken (signed negative s).toList := by
  unfold signed
  split
  · exact unbroken_append (by decide) h
  · exact h

theorem unbroken_pointBeforeLast (count : ℕ) (h : Unbroken s.toList) :
    Unbroken (pointBeforeLast count s).toList := by
  unfold pointBeforeLast
  refine unbroken_append (unbroken_append ?_ (by decide)) ?_
  · rw [String.toList_ofList]
    exact h.subset (List.take_subset _ _)
  · rw [String.toList_ofList]
    exact h.subset (List.drop_subset _ _)

theorem unbroken_pointAfterFirst (h : Unbroken s.toList) :
    Unbroken (pointAfterFirst s).toList := by
  unfold pointAfterFirst
  split
  · exact h
  · exact unbroken_pointBeforeLast _ h

theorem unbroken_positional {wholeEnd : String} (h : Unbroken wholeEnd.toList) (d : Digits) :
    Unbroken (positional wholeEnd d).toList := by
  have hdigits : Unbroken (toString d.digits).toList := unbroken_toString_nat d.digits
  unfold positional
  dsimp only
  split
  · exact unbroken_append (unbroken_append hdigits (unbroken_zeros _)) h
  · split
    · exact unbroken_pointBeforeLast _ hdigits
    · exact unbroken_append (unbroken_append (by decide) (unbroken_zeros _)) hdigits

theorem unbroken_signedExponent (power : ℤ) : Unbroken (signedExponent power).toList := by
  unfold signedExponent
  split
  · exact unbroken_append (by decide) (unbroken_toString_int power)
  · exact unbroken_toString_int power

/-! ## 3. Numbers -/

/-- **A rounded number holds no blank.** -/
theorem unbroken_places (after : ℕ) (x : Float) : Unbroken (places after x).toList := by
  unfold places
  split
  · decide
  · exact unbroken_signed _ (by decide)
  · exact unbroken_signed _ (unbroken_pointBeforeLast _
      (unbroken_append (unbroken_zeros _) (unbroken_toString_nat _)))

/-- **And neither does a number in data.** -/
theorem unbroken_dataNumber {x : Float} (h : dataNumber x = some s) : Unbroken s.toList := by
  unfold dataNumber at h
  split at h
  · cases h
  · cases h
  · cases h
    refine unbroken_signed _ ?_
    split
    · decide
    · dsimp only
      split
      · exact unbroken_positional (by decide) _
      · exact unbroken_append (unbroken_append (unbroken_pointAfterFirst (unbroken_toString_nat _))
          (by decide)) (unbroken_signedExponent _)

end Decimal

end ForestRescoring
