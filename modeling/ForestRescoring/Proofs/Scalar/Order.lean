/-
# Numbers in order

What the search needs of its numbers is little: those that can be compared with themselves are in a
total order up to equality, and addition respects the order as far as sums can be compared.
64-bit binary numbers have both, though their addition is not associative; what cannot be compared is
NaN, and a sum with it is NaN again.
-/
import Mathlib
import ForestRescoring.Scalar

namespace ForestRescoring

namespace Scalar

variable {K : Type} [Scalar K]

/-- The number can be compared, which it can if it can be compared with itself: it is not NaN. -/
def Comparable (x : K) : Prop := atLeast x x = true

instance (x : K) : Decidable (Comparable x) := inferInstanceAs (Decidable (atLeast x x = true))

/-- Numbers that are in order, with an addition that respects it. -/
class Ordered (K : Type) [Scalar K] : Prop where
  comparable_of_atLeast : ∀ {x y : K}, atLeast x y = true → Comparable x ∧ Comparable y
  total : ∀ {x y : K}, Comparable x → Comparable y → atLeast x y = true ∨ atLeast y x = true
  trans : ∀ {x y z : K}, atLeast x y = true → atLeast y z = true → atLeast x z = true
  comparable_of_add : ∀ {x y : K}, Comparable (x + y) → Comparable x ∧ Comparable y
  add_mono : ∀ {x x' y y' : K}, atLeast x' x = true → atLeast y' y = true →
    Comparable (x + y) → Comparable (x' + y') → atLeast (x' + y') (x + y) = true

variable [Ordered K]

/-- A sum of several terms can be compared only if its start and its terms can. -/
theorem comparable_of_foldl_add {α : Type} {g : α → K} {cs : List α} {x : K}
    (h : Comparable (cs.foldl (fun x c => x + g c) x)) :
    Comparable x ∧ ∀ c ∈ cs, Comparable (g c) := by
  induction cs generalizing x with
  | nil => exact ⟨h, fun c hc => by cases hc⟩
  | cons c cs ih =>
    obtain ⟨hsum, hrest⟩ := ih h
    obtain ⟨hx, hc⟩ := Ordered.comparable_of_add hsum
    exact ⟨hx, List.forall_mem_cons.mpr ⟨hc, hrest⟩⟩

end Scalar

end ForestRescoring
