/-
# The scalar product is linear

In exact arithmetic the scalar product does not depend on the vector that it walks over
(`FeatureVector.dot_eq_dotAlong`), and adding feature vectors adds their scalar products
(`FeatureVector.add_dot`).

The walk over one vector reads the other name by name.  So it is the read vector in which the product
is seen to be linear, since adding vectors adds the numbers of each name (`get_add`); that the two
walks agree carries this over to the other vector.
-/
import Mathlib
import ForestRescoring.FeatureVector.Basic
import ForestRescoring.Proofs.Scalar.Exact

namespace ForestRescoring

namespace FeatureVector

variable {K : Type} [Scalar K]

/-! ## 1. Rows of pairs -/

/-- The number that a row of pairs has for a name, zero if it has none. -/
def numberIn (name : String) (row : List (String × K)) : K := (row.lookup name).getD Scalar.zero

theorem numberIn_nil (name : String) : numberIn name ([] : List (String × K)) = Scalar.zero := rfl

theorem numberIn_eq_zero {name : String} {row : List (String × K)} (h : ∀ e ∈ row, e.1 ≠ name) :
    numberIn name row = Scalar.zero := by
  have hnone : row.lookup name = none := by
    rw [List.lookup_eq_none_iff]
    intro e he
    exact bne_iff_ne.mpr (h e he).symm
  rw [numberIn, hnone]
  rfl

omit [Scalar K] in
/-- In a row of ascending names none stands twice. -/
theorem ne_of_ascending {e : String × K} {row : List (String × K)}
    (h : (e :: row).Pairwise fun a b => a.1 < b.1) : ∀ d ∈ row, d.1 ≠ e.1 :=
  fun d hd heq => String.lt_irrefl e.1 (heq ▸ (List.pairwise_cons.mp h).1 d hd)

variable [Scalar.Exact K]

/-- A pair gives its number to its own name, in front of a row without that name. -/
theorem numberIn_cons {name k : String} {x : K} {row : List (String × K)}
    (h : ∀ e ∈ row, e.1 ≠ k) :
    numberIn name ((k, x) :: row) = (if name = k then x else Scalar.zero) + numberIn name row := by
  by_cases hname : name = k
  · subst hname
    rw [if_pos rfl, numberIn_eq_zero h, Scalar.Exact.add_zero, numberIn, List.lookup_cons_self]
    rfl
  · rw [if_neg hname, Scalar.zero_add, numberIn, lookup_cons_of_ne hname]
    rfl

/-- The products of the numbers of a row with what `g` gives to their names, added up. -/
def sumAlong (row : List (String × K)) (g : String → K) : K :=
  Scalar.sum (row.map fun e => e.2 * g e.1)

theorem sumAlong_add (row : List (String × K)) (g h : String → K) :
    sumAlong row (fun name => g name + h name) = sumAlong row g + sumAlong row h := by
  rw [sumAlong, sumAlong, sumAlong, ← Scalar.sum_map_add]
  simp only [Scalar.Exact.mul_add]

theorem sumAlong_zero (row : List (String × K)) :
    sumAlong row (fun _ => Scalar.zero) = Scalar.zero :=
  Scalar.sum_map_zero fun e _ => Scalar.Exact.mul_zero e.2

/-- Where a single name has a number, one product is left. -/
theorem sumAlong_single {row : List (String × K)} (h : row.Pairwise fun a b => a.1 < b.1)
    (k : String) (x : K) :
    sumAlong row (fun name => if name = k then x else Scalar.zero) = x * numberIn k row := by
  induction row with
  | nil => rw [sumAlong, List.map_nil, Scalar.sum_nil, Scalar.Exact.emptySum_eq, numberIn_nil,
      Scalar.Exact.mul_zero]
  | cons e row ih =>
    have hne := ne_of_ascending h
    have hrow := (List.pairwise_cons.mp h).2
    have hcons : sumAlong (e :: row) (fun name => if name = k then x else Scalar.zero) =
        e.2 * (if e.1 = k then x else Scalar.zero) + x * numberIn k row := by
      rw [← ih hrow, sumAlong, List.map_cons, Scalar.sum_cons]
      rfl
    rw [hcons, numberIn_cons hne, Scalar.Exact.mul_add]
    by_cases hk : e.1 = k
    · rw [if_pos hk, if_pos hk.symm, Scalar.Exact.mul_comm e.2]
    · rw [if_neg hk, if_neg (Ne.symm hk), Scalar.Exact.mul_zero, Scalar.Exact.mul_zero]

/-- **Either row can be walked over**, the other being read. -/
theorem sumAlong_comm {row row' : List (String × K)} (h : row.Pairwise fun a b => a.1 < b.1)
    (h' : row'.Pairwise fun a b => a.1 < b.1) :
    sumAlong row (numberIn · row') = sumAlong row' (numberIn · row) := by
  induction row with
  | nil => exact Scalar.Exact.emptySum_eq.trans (sumAlong_zero row').symm
  | cons e row ih =>
    have hne := ne_of_ascending h
    have hrow := (List.pairwise_cons.mp h).2
    have hcons : (numberIn · (e :: row)) = fun name =>
        (if name = e.1 then e.2 else Scalar.zero) + numberIn name row :=
      funext fun name => numberIn_cons hne
    rw [hcons, sumAlong_add, sumAlong_single h', ← ih hrow, sumAlong, List.map_cons,
      Scalar.sum_cons]
    rfl

/-! ## 2. Vectors -/

/-- Adding vectors adds the numbers of each name. -/
theorem get_add (v w : FeatureVector K) (name : String) :
    (v.add w).get name = v.get name + w.get name := by
  have hfold : ∀ (row : List (String × K)) (v : FeatureVector K),
      row.Pairwise (fun a b => a.1 < b.1) →
      (row.foldl (fun v e => v.alter e.1 fun old => old.getD Scalar.zero + e.2) v).get name =
        v.get name + numberIn name row := by
    intro row
    induction row with
    | nil => exact fun v _ => (Scalar.Exact.add_zero _).symm
    | cons e row ih =>
      intro v h
      have hne := ne_of_ascending h
      have hrow := (List.pairwise_cons.mp h).2
      rw [List.foldl_cons, ih _ hrow, numberIn_cons hne, ← Scalar.Exact.add_assoc]
      refine congrArg (· + numberIn name row) ?_
      rw [get, get?_alter, get]
      by_cases hk : name = e.1
      · rw [if_pos hk, if_pos hk, hk]
        rfl
      · rw [if_neg hk, if_neg hk, Scalar.Exact.add_zero]
  exact hfold w.entries v w.ascending

/-- **The scalar product can be taken along the second vector.** -/
theorem dot_eq_dotAlong (v w : FeatureVector K) : v.dot w = w.dotAlong v := by
  rw [dot]
  split
  · exact sumAlong_comm v.ascending w.ascending
  · rfl

/-- **Adding vectors adds their scalar products.** -/
theorem add_dot (v u w : FeatureVector K) : (v.add u).dot w = v.dot w + u.dot w := by
  have hget : (v.add u).get = fun name => v.get name + u.get name := funext (get_add v u)
  rw [dot_eq_dotAlong, dot_eq_dotAlong, dot_eq_dotAlong, dotAlong, hget]
  exact sumAlong_add w.entries v.get u.get

/-- The vector without names has no products. -/
theorem empty_dot (w : FeatureVector K) : (empty : FeatureVector K).dot w = Scalar.zero := by
  rw [dot_eq_dotAlong]
  exact sumAlong_zero w.entries

end FeatureVector

end ForestRescoring
