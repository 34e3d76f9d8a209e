/-
# Scoring with real numbers

The real numbers that scores are taken from in exact arithmetic are a type of their own, so that the
operations of a score are those of `Scalar` and no others.  A statement about such scores is proved
with the arithmetic of the reals: `ExactReal.toReal` is the way there, and takes each operation
to the one of that name.

All of them can be compared, and addition respects the order, so the real numbers are ordered as
a search needs it.
-/
import Mathlib
import ForestRescoring.Proofs.Scalar.Exact
import ForestRescoring.Proofs.Scalar.Order

namespace ForestRescoring

namespace ExactReal

/-- The real number that a score is. -/
def toReal (x : ExactReal) : ℝ := x

variable (x y : ExactReal)

/-! ## 1. Operations -/

@[simp] theorem toReal_add : (x + y).toReal = x.toReal + y.toReal := rfl

@[simp] theorem toReal_sub : (x - y).toReal = x.toReal - y.toReal := rfl

@[simp] theorem toReal_mul : (x * y).toReal = x.toReal * y.toReal := rfl

@[simp] theorem toReal_div : (x / y).toReal = x.toReal / y.toReal := rfl

@[simp] theorem toReal_ofNat (n : ℕ) : (Scalar.ofNat n : ExactReal).toReal = n := rfl

@[simp] theorem toReal_zero : (Scalar.zero : ExactReal).toReal = 0 := Nat.cast_zero

@[simp] theorem toReal_one : (Scalar.one : ExactReal).toReal = 1 := Nat.cast_one

@[simp] theorem toReal_emptySum : (Scalar.emptySum : ExactReal).toReal = 0 := rfl

@[simp] theorem toReal_ln : (Scalar.ln x).toReal = Real.log x.toReal := rfl

@[simp] theorem toReal_exp : (Scalar.exp x).toReal = Real.exp x.toReal := rfl

variable {x y}

/-! ## 2. Comparisons -/

@[simp] theorem atLeast_iff : Scalar.atLeast x y = true ↔ y.toReal ≤ x.toReal := by
  show decide (y.toReal ≤ x.toReal) = true ↔ _
  exact decide_eq_true_iff

@[simp] theorem above_iff : Scalar.above x y = true ↔ y.toReal < x.toReal := by
  show decide (y.toReal < x.toReal) = true ↔ _
  exact decide_eq_true_iff

@[simp] theorem isZero_iff : Scalar.isZero x = true ↔ x.toReal = 0 := by
  show decide (x.toReal = (Scalar.zero : ExactReal).toReal) = true ↔ _
  rw [decide_eq_true_iff, toReal_zero]

/-- Every real number can be compared. -/
theorem comparable (x : ExactReal) : Scalar.Comparable x := atLeast_iff.mpr (le_refl x.toReal)

instance : Scalar.Ordered ExactReal where
  comparable_of_atLeast := fun _ => ⟨comparable _, comparable _⟩
  total := fun {x y} _ _ => by
    rw [atLeast_iff, atLeast_iff]
    exact le_total y.toReal x.toReal
  trans := fun {x y z} hxy hyz => by
    rw [atLeast_iff] at hxy hyz ⊢
    exact hyz.trans hxy
  comparable_of_add := fun _ => ⟨comparable _, comparable _⟩
  add_mono := fun {x x' y y'} hx hy _ _ => by
    rw [atLeast_iff] at hx hy ⊢
    exact add_le_add hx hy

end ExactReal

end ForestRescoring
