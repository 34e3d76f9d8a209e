/-
# Rounding to 53 binary digits

Every finite binary number is a whole multiple of the smallest positive one, so rounding can be said
of natural numbers: the digits of a number behind the first 53 are rounded off, a half to the even
neighbour (`rounded`).  The larger of two numbers stays at least as large (`rounded_mono`), also
where the two lose a different number of digits, as the rounded smaller one does not exceed the
power of two that parts them.
-/
import Mathlib
import ForestRescoring.Decimal.Binary

namespace ForestRescoring.Decimal

/-! ## 1. Rounded quotients -/

/-- Larger numbers have larger rounded quotients. -/
theorem roundHalfEven_mono {a b : ℕ} (d : ℕ) (h : a ≤ b) :
    roundHalfEven a d ≤ roundHalfEven b d := by
  have hdiv : a / d ≤ b / d := Nat.div_le_div_right h
  rcases Nat.lt_or_eq_of_le hdiv with hlt | heq
  · have hup : roundHalfEven a d ≤ a / d + 1 := by
      rw [roundHalfEven]
      split_ifs <;> omega
    have hdown : b / d ≤ roundHalfEven b d := by
      rw [roundHalfEven]
      split_ifs <;> omega
    omega
  · have ha := Nat.div_add_mod a d
    have hb := Nat.div_add_mod b d
    rw [heq] at ha
    rw [roundHalfEven, roundHalfEven, heq]
    split_ifs <;> omega

/-- A whole quotient is left as it is. -/
theorem roundHalfEven_mul (q : ℕ) {d : ℕ} (hd : 0 < d) : roundHalfEven (q * d) d = q := by
  rw [roundHalfEven]
  rw [Nat.mul_mod_left, Nat.mul_div_cancel q hd, if_pos (by omega)]

/-- A multiple of the denominator is left as it is. -/
theorem roundHalfEven_mul_of_dvd {n d : ℕ} (hd : 0 < d) (h : d ∣ n) : roundHalfEven n d * d = n := by
  obtain ⟨q, rfl⟩ := h
  rw [Nat.mul_comm d q, roundHalfEven_mul q hd]

/-- Factors that numerator and denominator share do not matter. -/
theorem roundHalfEven_mul_mul_right (a d : ℕ) {c : ℕ} (hc : 0 < c) :
    roundHalfEven (a * c) (d * c) = roundHalfEven a d := by
  have hlt : ∀ x y : ℕ, x * c < y * c ↔ x < y := fun x y => Nat.mul_lt_mul_right hc
  rw [roundHalfEven, roundHalfEven]
  rw [Nat.mul_mod_mul_right, Nat.mul_div_mul_right a d hc, ← Nat.mul_assoc]
  simp only [hlt]

/-! ## 2. Rounded numbers -/

/-- The number of binary digits behind the first 53. -/
def surplus (n : ℕ) : ℕ := n.log2 + 1 - 53

/-- The digits behind the first 53 rounded off. -/
def rounded (n : ℕ) : ℕ := roundHalfEven n (2 ^ surplus n) * 2 ^ surplus n

theorem lt_two_pow_surplus (n : ℕ) : n < 2 ^ (53 + surplus n) := by
  have h : n < 2 ^ (n.log2 + 1) := Nat.lt_log2_self
  exact h.trans_le (Nat.pow_le_pow_right (by decide) (by rw [surplus]; omega))

theorem two_pow_surplus_le {n : ℕ} (h : 0 < surplus n) : 2 ^ (52 + surplus n) ≤ n := by
  have hn : n ≠ 0 := by
    rintro rfl
    exact absurd h (by decide)
  refine (Nat.pow_le_pow_right (by decide) ?_).trans (Nat.log2_self_le hn)
  rw [surplus] at h ⊢
  omega

theorem surplus_mono {a b : ℕ} (h : a ≤ b) : surplus a ≤ surplus b := by
  have hlog : a.log2 ≤ b.log2 := by
    by_cases ha : a = 0
    · subst ha
      exact Nat.zero_le _
    · exact (Nat.le_log2 (by omega)).mpr ((Nat.log2_self_le ha).trans h)
  rw [surplus, surplus]
  omega

/-- The first 53 digits, rounded, are 53 digits or the power of two that has 54. -/
theorem roundHalfEven_surplus_le (n : ℕ) : roundHalfEven n (2 ^ surplus n) ≤ 2 ^ 53 := by
  have hle : n ≤ 2 ^ 53 * 2 ^ surplus n := by
    rw [← Nat.pow_add]
    exact (lt_two_pow_surplus n).le
  calc roundHalfEven n (2 ^ surplus n)
      ≤ roundHalfEven (2 ^ 53 * 2 ^ surplus n) (2 ^ surplus n) :=
        roundHalfEven_mono _ hle
    _ = 2 ^ 53 := roundHalfEven_mul _ (Nat.two_pow_pos _)

/-- Where digits are rounded off, 53 are left. -/
theorem le_roundHalfEven_surplus {n : ℕ} (h : 0 < surplus n) :
    2 ^ 52 ≤ roundHalfEven n (2 ^ surplus n) := by
  have hle : 2 ^ 52 * 2 ^ surplus n ≤ n := by
    rw [← Nat.pow_add]
    exact two_pow_surplus_le h
  calc 2 ^ 52 = roundHalfEven (2 ^ 52 * 2 ^ surplus n) (2 ^ surplus n) :=
        (roundHalfEven_mul _ (Nat.two_pow_pos _)).symm
    _ ≤ roundHalfEven n (2 ^ surplus n) := roundHalfEven_mono _ hle

/-- **Rounding keeps the order.** -/
theorem rounded_mono {a b : ℕ} (h : a ≤ b) : rounded a ≤ rounded b := by
  rcases Nat.lt_or_eq_of_le (surplus_mono h) with hlt | heq
  · calc rounded a ≤ 2 ^ 53 * 2 ^ surplus a := Nat.mul_le_mul_right _ (roundHalfEven_surplus_le a)
      _ = 2 ^ (53 + surplus a) := (Nat.pow_add 2 53 _).symm
      _ ≤ 2 ^ (52 + surplus b) := Nat.pow_le_pow_right (by decide) (by omega)
      _ = 2 ^ 52 * 2 ^ surplus b := Nat.pow_add 2 52 _
      _ ≤ rounded b :=
          Nat.mul_le_mul_right _ (le_roundHalfEven_surplus (Nat.zero_lt_of_lt hlt))
  · rw [rounded, rounded, heq]
    exact Nat.mul_le_mul_right _ (roundHalfEven_mono _ h)

/-- Doubling adds a binary digit. -/
theorem log2_mul_two_pow {m : ℕ} (hm : m ≠ 0) (j : ℕ) : (m * 2 ^ j).log2 = m.log2 + j := by
  have hpos : 0 < 2 ^ j := Nat.two_pow_pos j
  rw [Nat.log2_eq_iff (Nat.mul_ne_zero hm hpos.ne')]
  constructor
  · rw [Nat.pow_add]
    exact Nat.mul_le_mul_right _ (Nat.log2_self_le hm)
  · rw [Nat.add_right_comm, Nat.pow_add]
    exact Nat.mul_lt_mul_of_pos_right Nat.lt_log2_self hpos

/-- A number with at most 53 digits and then zeros is left as it is. -/
theorem rounded_mul_two_pow {m : ℕ} (h : m < 2 ^ 53) (j : ℕ) :
    rounded (m * 2 ^ j) = m * 2 ^ j := by
  have hdvd : 2 ^ surplus (m * 2 ^ j) ∣ m * 2 ^ j := by
    by_cases hm : m = 0
    · rw [hm, Nat.zero_mul]
      exact Nat.dvd_zero _
    · have hlog : m.log2 < 53 := (Nat.log2_lt hm).mpr h
      refine (Nat.pow_dvd_pow 2 ?_).trans (Nat.dvd_mul_left _ m)
      rw [surplus, log2_mul_two_pow hm]
      omega
  rw [rounded, roundHalfEven_mul_of_dvd (Nat.two_pow_pos _) hdvd]

end ForestRescoring.Decimal
