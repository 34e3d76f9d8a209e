/-
# Exact arithmetic

Some statements hold of exact numbers only: that the score of a derivation is the scalar product of its
features with the weights, for instance, takes the sums of one apart and puts them together in
another order.  `Scalar.Exact` lists the laws of addition and multiplication that such statements
need.  Nothing is asked of logarithms, of exponentials and of comparisons, so a statement about
exact numbers holds whatever the BLEU of an edge is.

The real numbers are exact (`ExactReal`).
-/
import Mathlib
import ForestRescoring.Scalar

namespace ForestRescoring

namespace Scalar

/-- Numbers whose sums and products are not rounded. -/
class Exact (K : Type) [Scalar K] : Prop where
  add_assoc : ∀ x y z : K, x + y + z = x + (y + z)
  add_comm : ∀ x y : K, x + y = y + x
  add_zero : ∀ x : K, x + zero = x
  mul_comm : ∀ x y : K, x * y = y * x
  mul_zero : ∀ x : K, x * zero = zero
  mul_add : ∀ x y z : K, x * (y + z) = x * y + x * z
  emptySum_eq : (emptySum : K) = zero

variable {K : Type} [Scalar K] [Exact K]

instance : Std.Associative (α := K) (· + ·) := ⟨Exact.add_assoc⟩

instance : Std.Commutative (α := K) (· + ·) := ⟨Exact.add_comm⟩

theorem zero_add (x : K) : zero + x = x := by
  rw [Exact.add_comm, Exact.add_zero]

/-! ## Sums -/

/-- What a sum starts with is one of its terms. -/
theorem foldl_add (x : K) (terms : List K) : terms.foldl (· + ·) x = x + sum terms := by
  have hstart : ∀ x y : K, terms.foldl (· + ·) (x + y) = x + terms.foldl (· + ·) y := by
    induction terms with
    | nil => exact fun x y => rfl
    | cons t terms ih =>
      intro x y
      rw [List.foldl_cons, List.foldl_cons, Exact.add_assoc, ih]
  rw [sum, Exact.emptySum_eq, ← hstart, Exact.add_zero]

theorem sum_cons (x : K) (terms : List K) : sum (x :: terms) = x + sum terms := by
  rw [sum, List.foldl_cons, foldl_add, Exact.emptySum_eq, zero_add]

theorem sum_append (xs ys : List K) : sum (xs ++ ys) = sum xs + sum ys := by
  rw [sum, List.foldl_append, foldl_add]
  rfl

/-- A sum of sums is a sum of all their terms. -/
theorem sum_map_add {α : Type} (g h : α → K) (as : List α) :
    sum (as.map fun a => g a + h a) = sum (as.map g) + sum (as.map h) := by
  induction as with
  | nil => rw [List.map_nil, List.map_nil, List.map_nil, sum_nil, Exact.emptySum_eq, Exact.add_zero]
  | cons a as ih =>
    rw [List.map_cons, List.map_cons, List.map_cons, sum_cons, sum_cons, sum_cons, ih]
    ac_rfl

theorem sum_map_zero {α : Type} {g : α → K} {as : List α} (h : ∀ a ∈ as, g a = zero) :
    sum (as.map g) = zero := by
  induction as with
  | nil => exact Exact.emptySum_eq
  | cons a as ih =>
    obtain ⟨ha, has⟩ := List.forall_mem_cons.mp h
    rw [List.map_cons, sum_cons, ha, ih has, Exact.add_zero]

end Scalar

/-! ## The real numbers -/

/-- The real numbers, to score with. -/
def ExactReal : Type := ℝ

noncomputable instance : Scalar ExactReal where
  add := fun x y : ℝ => x + y
  sub := fun x y : ℝ => x - y
  mul := fun x y : ℝ => x * y
  div := fun x y : ℝ => x / y
  ofNat := fun n => (n : ℝ)
  emptySum := (0 : ℝ)
  ln := Real.log
  exp := Real.exp
  atLeast := fun x y : ℝ => decide (y ≤ x)
  above := fun x y : ℝ => decide (y < x)
  same := fun x y : ℝ => decide (x = y)

instance : Scalar.Exact ExactReal where
  add_assoc := fun x y z : ℝ => add_assoc x y z
  add_comm := fun x y : ℝ => add_comm x y
  add_zero := fun x : ℝ => by
    have h : x + ((0 : ℕ) : ℝ) = x := by rw [Nat.cast_zero, add_zero]
    exact h
  mul_comm := fun x y : ℝ => mul_comm x y
  mul_zero := fun x : ℝ => by
    have h : x * ((0 : ℕ) : ℝ) = ((0 : ℕ) : ℝ) := by rw [Nat.cast_zero, mul_zero]
    exact h
  mul_add := fun x y z : ℝ => mul_add x y z
  emptySum_eq := by
    have h : (0 : ℝ) = ((0 : ℕ) : ℝ) := Nat.cast_zero.symm
    exact h

end ForestRescoring
