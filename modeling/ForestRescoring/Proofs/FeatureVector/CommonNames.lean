/-
# The scalar product has a term for each common name

The scalar product walks over the vector with fewer names, or the first if they have equally many, and
takes zero for a name that the other vector does not have.  So which terms it adds up depends on the
vector that it walks over, and of two vectors with equally many names the products in either order
have different terms.

The terms that differ are finite numbers times zero.  Without them the same terms are left in the same
order, one for each name that both vectors have (`alike_dotAlong`), and this is what the scalar product
is, up to the sign of a zero, whichever vector is walked over (`dot_of_commonNames`).
-/
import Mathlib
import ForestRescoring.FeatureVector.Basic
import ForestRescoring.Proofs.Scalar.Zeros
import ForestRescoring.Proofs.Text.ByteOrder

namespace ForestRescoring

namespace FeatureVector

/-! ## 1. Common names -/

section Names

variable {K : Type}

/-- The names of a vector, ascending. -/
def names (v : FeatureVector K) : List String := v.entries.map Prod.fst

/-- The names that both vectors have, ascending. -/
def commonNames (v w : FeatureVector K) : List String :=
  v.names.filter fun name => (w.get? name).isSome

/-- A name has the number that it is entered with. -/
theorem get?_eq_some_iff {v : FeatureVector K} {name : String} {x : K} :
    v.get? name = some x ↔ (name, x) ∈ v.entries := by
  rw [get?, List.lookup_eq_some_iff]
  constructor
  · rintro ⟨front, back, hsplit, -⟩
    rw [hsplit]
    exact List.mem_append_right _ List.mem_cons_self
  · intro h
    obtain ⟨front, back, hsplit⟩ := List.append_of_mem h
    have hascending := v.ascending
    rw [hsplit] at hascending
    refine ⟨front, back, hsplit, fun e he => bne_iff_ne.mpr fun heq => ?_⟩
    have hlt : e.1 < name := (List.pairwise_append.mp hascending).2.2 e he _ List.mem_cons_self
    exact String.lt_irrefl name (heq ▸ hlt)

theorem mem_names {v : FeatureVector K} {name : String} :
    name ∈ v.names ↔ (v.get? name).isSome = true := by
  rw [names, List.mem_map, Option.isSome_iff_exists]
  simp only [get?_eq_some_iff]
  constructor
  · rintro ⟨e, he, rfl⟩
    exact ⟨e.2, he⟩
  · rintro ⟨x, hx⟩
    exact ⟨(name, x), hx, rfl⟩

theorem mem_commonNames {v w : FeatureVector K} {name : String} :
    name ∈ v.commonNames w ↔ (v.get? name).isSome = true ∧ (w.get? name).isSome = true := by
  rw [commonNames, List.mem_filter, mem_names]

theorem ascending_commonNames (v w : FeatureVector K) :
    (v.commonNames w).Pairwise (· < ·) :=
  (List.pairwise_map.mpr v.ascending).filter _

/-- The common names are the same whichever vector comes first. -/
theorem commonNames_comm (v w : FeatureVector K) : v.commonNames w = w.commonNames v :=
  (ascending_commonNames v w).eq_of_mem_iff (ascending_commonNames w v) fun name => by
    rw [mem_commonNames, mem_commonNames, and_comm]

end Names

/-! ## 2. Products -/

section Products

variable {v w : FeatureVector Float}

/-- All numbers of the vector are finite. -/
def AllFinite (v : FeatureVector Float) : Prop := ∀ e ∈ v.entries, e.2.isFinite = true

instance (v : FeatureVector Float) : Decidable v.AllFinite :=
  inferInstanceAs (Decidable (∀ e ∈ v.entries, e.2.isFinite = true))

/-- The products of the numbers of the common names, added in the order of the names. -/
def commonProducts (v w : FeatureVector Float) : Float :=
  Scalar.sum ((v.commonNames w).map fun name => v.get name * w.get name)

theorem commonProducts_comm (v w : FeatureVector Float) :
    v.commonProducts w = w.commonProducts v := by
  rw [commonProducts, commonProducts, commonNames_comm]
  simp only [Binary.mul_comm]

/-- **A walk over finite numbers adds up the products of the common names.** -/
theorem alike_dotAlong (hv : v.AllFinite) : Binary.Alike (v.dotAlong w) (v.commonProducts w) := by
  have hget : ∀ e ∈ v.entries, v.get e.1 = e.2 := by
    intro e he
    rw [get, get?_eq_some_iff.mpr he]
    rfl
  have hproducts : v.commonProducts w =
      Scalar.sum ((v.entries.filter fun e => (w.get? e.1).isSome).map
        fun e => e.2 * w.get e.1) := by
    rw [commonProducts, commonNames, names, List.filter_map, List.map_map]
    refine congrArg Scalar.sum (List.map_congr_left fun e he => ?_)
    rw [Function.comp_apply, hget e (List.mem_of_mem_filter he)]
  rw [hproducts, dotAlong]
  refine Binary.alike_sum_filter fun e he habsent => ?_
  have hzero : w.get e.1 = Scalar.zero := by
    rw [get, Option.eq_none_of_isNone (Option.isSome_eq_false_iff.mp habsent)]
    rfl
  rw [hzero]
  exact Binary.units_mul_zero (hv e he) rfl

/-- Of two vectors with finite numbers, either one can be walked over. -/
theorem alike_dot (hv : v.AllFinite) (hw : w.AllFinite) :
    Binary.Alike (v.dot w) (v.commonProducts w) := by
  rw [dot]
  split
  · exact alike_dotAlong hv
  · rw [commonProducts_comm]
    exact alike_dotAlong hw

/-- **The scalar product adds up the products of the common names**, in either order of two vectors with
finite numbers.  The names are those that both vectors have, in the order of their bytes, and nothing else
is added.  The sums are the same number up to the sign of a zero, or all of them are NaN. -/
theorem dot_of_commonNames (hv : v.AllFinite) (hw : w.AllFinite) :
    ((v.commonNames w).Pairwise fun a b => a.toUTF8.data.toList < b.toUTF8.data.toList) ∧
    (∀ name, name ∈ v.commonNames w ↔
      (v.get? name).isSome = true ∧ (w.get? name).isSome = true) ∧
    Binary.Alike (v.dot w)
      (Scalar.sum ((v.commonNames w).map fun name => v.get name * w.get name)) ∧
    Binary.Alike (w.dot v)
      (Scalar.sum ((v.commonNames w).map fun name => v.get name * w.get name)) ∧
    Binary.Alike (v.dot w) (w.dot v) := by
  have hdot : Binary.Alike (v.dot w) (v.commonProducts w) := alike_dot hv hw
  have hdot' : Binary.Alike (w.dot v) (v.commonProducts w) := by
    rw [commonProducts_comm]
    exact alike_dot hw hv
  have hbytes := (ascending_commonNames v w).imp Text.toUTF8_lt_iff.mpr
  exact ⟨hbytes, fun name => mem_commonNames, hdot, hdot', hdot.trans hdot'.symm⟩

namespace Sample

/-- A vector with two names. -/
def features : FeatureVector Float := ofList [("lm", -2.0), ("tm", 1.5)]

/-- Another one, with as many names, one of them the same. -/
def weights : FeatureVector Float := ofList [("lm", 0.5), ("wp", 3.0)]

end Sample

/-- Each walk meets a name that the other one does not. -/
theorem dot_of_commonNames_apart :
    Sample.features.AllFinite ∧ Sample.weights.AllFinite ∧
    Sample.features.size = Sample.weights.size ∧
    Sample.features.commonNames Sample.weights = ["lm"] ∧
    Binary.Alike (Sample.features.dot Sample.weights) (-1.0) ∧
    Binary.Alike (Sample.weights.dot Sample.features) (-1.0) := by
  have hv : Sample.features.AllFinite := by decide +kernel
  have hw : Sample.weights.AllFinite := by decide +kernel
  have hnames : Sample.features.commonNames Sample.weights = ["lm"] := by decide +kernel
  have hone : Scalar.sum (["lm"].map fun name =>
      Sample.features.get name * Sample.weights.get name) = -1.0 := by decide +kernel
  obtain ⟨-, -, hdot, hdot', -⟩ := dot_of_commonNames hv hw
  rw [hnames, hone] at hdot hdot'
  exact ⟨hv, hw, by decide +kernel, hnames, hdot, hdot'⟩

/-- The sign of a zero does depend on the order. -/
example : ((ofList [("x", (-1.0 : Float))]).dot (ofList [("y", 1.0)])).toBits ≠
    ((ofList [("y", (1.0 : Float))]).dot (ofList [("x", -1.0)])).toBits := by
  decide +kernel

end Products

end FeatureVector

end ForestRescoring
