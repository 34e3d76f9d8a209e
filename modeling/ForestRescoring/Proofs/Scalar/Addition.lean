/-
# Sums of 64-bit binary numbers

A sum is worth the sum of what its terms are worth, rounded to 53 digits, or an infinity if that is
too much (`Binary.units_add`).  Rounding keeps the order, and so does taking an infinity for what is
too much, so addition respects the order (`Scalar.Ordered Float`).
-/
import Mathlib
import ForestRescoring.Proofs.Scalar.Binary
import ForestRescoring.Proofs.Scalar.Rounding

namespace ForestRescoring.Binary

open Float.Model Float.Model.UnpackedFloat Decimal

/-! ## 1. Rounding -/

/-- The bit behind a shifted mantissa says whether half of its last digit is lost, and the other one
whether anything beside that is. -/
theorem shiftRight_eq (m k : ℕ) : ExtendedMantissa.ofMantissaAndAccuracy m .exact >>> k =
    ⟨m / 2 ^ k, decide (2 ^ k ≤ 2 * (m % 2 ^ k)), decide (2 * (m % 2 ^ k) % 2 ^ k ≠ 0)⟩ := by
  induction k with
  | zero =>
    rw [Nat.pow_zero, Nat.div_one, Nat.mod_one]
    rfl
  | succ k ih =>
    have hpos : 0 < 2 ^ k := Nat.two_pow_pos k
    have hrest : m % 2 ^ k < 2 ^ k := Nat.mod_lt _ hpos
    have hmod : m % 2 ^ (k + 1) = m % 2 ^ k + 2 ^ k * (m / 2 ^ k % 2) := by
      rw [Nat.pow_succ, Nat.mod_mul]
    have hround : (m / 2 ^ k % 2 != 0) = decide (2 ^ (k + 1) ≤ 2 * (m % 2 ^ (k + 1))) := by
      rw [hmod, Nat.pow_succ]
      rcases Nat.mod_two_eq_zero_or_one (m / 2 ^ k) with h | h
      · rw [h, decide_eq_false (by omega)]
        rfl
      · rw [h, decide_eq_true (by omega)]
        rfl
    have hsticky : (decide (2 ^ k ≤ 2 * (m % 2 ^ k)) || decide (2 * (m % 2 ^ k) % 2 ^ k ≠ 0)) =
        decide (2 * (m % 2 ^ (k + 1)) % 2 ^ (k + 1) ≠ 0) := by
      have hlost : 2 * (m % 2 ^ (k + 1)) % 2 ^ (k + 1) = 2 * (m % 2 ^ k) := by
        rw [hmod, Nat.pow_succ, Nat.mul_comm (2 ^ k) 2, Nat.mul_mod_mul_left,
          Nat.add_mul_mod_self_left, Nat.mod_mod]
      rw [hlost, ← Bool.decide_or, decide_eq_decide]
      rcases Nat.lt_or_ge (2 * (m % 2 ^ k)) (2 ^ k) with h | h
      · rw [Nat.mod_eq_of_lt h]
        omega
      · omega
    change ExtendedMantissa.shiftRightOne
      (ExtendedMantissa.ofMantissaAndAccuracy m .exact >>> k) = _
    rw [ih, ExtendedMantissa.shiftRightOne]
    dsimp only
    rw [hround, hsticky, Nat.div_div_eq_div_mul, ← Nat.pow_succ]

/-- What is lost is rounded off, a half to the even neighbour. -/
theorem roundedMantissa_shiftRight (m k : ℕ) :
    (ExtendedMantissa.ofMantissaAndAccuracy m .exact >>> k).roundedMantissa =
      roundHalfEven m (2 ^ k) := by
  have hrest : m % 2 ^ k < 2 ^ k := Nat.mod_lt _ (Nat.two_pow_pos k)
  rw [shiftRight_eq, roundHalfEven]
  rcases lt_trichotomy (2 * (m % 2 ^ k)) (2 ^ k) with h | h | h
  · rw [if_pos h, decide_eq_false (by omega)]
    cases decide (2 * (m % 2 ^ k) % 2 ^ k ≠ 0) <;> rfl
  · rw [h, if_neg (lt_irrefl _), if_neg (lt_irrefl _), decide_eq_true le_rfl,
      Nat.mod_self, decide_eq_false (by omega)]
    rfl
  · have hsticky : 2 * (m % 2 ^ k) % 2 ^ k ≠ 0 := by
      rw [Nat.mod_eq_sub_mod h.le, Nat.mod_eq_of_lt (by omega)]
      omega
    rw [if_neg h.not_gt, if_pos h, decide_eq_true h.le, decide_eq_true hsticky]
    rfl

/-- The exponent that a number is rounded to. -/
theorem targetExponent_eq (m : ℕ) (e : ℤ) :
    Format.binary64.targetExponent (totalExponent m e) = max (m.log2 + 1 + e - 53) (-1074) := rfl

/-- A rounded mantissa has one digit too many only if it is a power of two, and then shifting it loses
nothing. -/
theorem canonical_shiftToTargetExponent {m : ℕ} {e : ℤ} (hm : m ≤ 2 ^ 53) (he : -1074 ≤ e)
    (hleading : 2 ^ 52 ≤ m ∨ e = -1074) :
    ∃ em e', shiftToTargetExponent .binary64 m e .exact = (em, e') ∧ Canonical em.mantissa e' ∧
      magnitude em.mantissa e' = magnitude m e := by
  refine ⟨_, _, rfl, ?_⟩
  rw [targetExponent_eq, shiftRight_eq]
  rcases Nat.lt_or_eq_of_le hm with hlt | heq
  · have hlog : m.log2 < 53 := by
      by_cases hzero : m = 0
      · rw [hzero]
        decide
      · exact (Nat.log2_lt hzero).mpr hlt
    have hkeep : (max ((m.log2 : ℤ) + 1 + e - 53) (-1074) - e).toNat = 0 := by omega
    rw [hkeep, Nat.pow_zero, Nat.div_one, Int.natCast_zero, add_zero]
    exact ⟨⟨hlt, he, hleading⟩, rfl⟩
  · have hlog : m.log2 = 53 := by
      rw [heq]
      exact Nat.log2_two_pow
    have hshift : (max ((m.log2 : ℤ) + 1 + e - 53) (-1074) - e).toNat = 1 := by omega
    have hexp : (e + 1 + 1074).toNat = (e + 1074).toNat + 1 := by omega
    have hhalf : 2 ^ 53 / 2 ^ 1 = 2 ^ 52 := by decide
    rw [hshift, heq, hhalf]
    refine ⟨⟨by decide, by omega, .inl le_rfl⟩, ?_⟩
    rw [magnitude, magnitude, Int.natCast_one, hexp, ← Nat.pow_add, ← Nat.pow_add]
    exact congrArg (2 ^ ·) (by omega)

/-- **Rounding keeps 53 digits.** -/
theorem roundWithAccuracy_spec (s : Sign) {m : ℕ} {e : ℤ} (hm : 0 < m) (he : -1074 ≤ e)
    (ht : e ≤ Format.binary64.targetExponent (totalExponent m e)) :
    Rounded (roundWithAccuracy .binary64 s m e .exact) ∧
      worth (roundWithAccuracy .binary64 s m e .exact) =
        some (s.apply (rounded (magnitude m e))) := by
  rw [targetExponent_eq] at ht
  obtain ⟨j, hj⟩ : ∃ j, (e + 1074).toNat = j := ⟨_, rfl⟩
  obtain ⟨k, hk⟩ : ∃ k, (max ((m.log2 : ℤ) + 1 + e - 53) (-1074) - e).toNat = k := ⟨_, rfl⟩
  have hsurplus : surplus (magnitude m e) = k + j := by
    rw [magnitude, hj, surplus, log2_mul_two_pow hm.ne']
    omega
  have hquotient : roundHalfEven m (2 ^ k) =
      roundHalfEven (magnitude m e) (2 ^ surplus (magnitude m e)) := by
    rw [hsurplus, Nat.pow_add, magnitude, hj, roundHalfEven_mul_mul_right _ _ (Nat.two_pow_pos j)]
  have hle : roundHalfEven m (2 ^ k) ≤ 2 ^ 53 := hquotient ▸ roundHalfEven_surplus_le _
  have hleading : 2 ^ 52 ≤ roundHalfEven m (2 ^ k) ∨ e + k = -1074 := by
    rcases Nat.eq_zero_or_pos (surplus (magnitude m e)) with h | h
    · exact .inr (by omega)
    · exact .inl (hquotient ▸ le_roundHalfEven_surplus h)
  have hrounded : magnitude (roundHalfEven m (2 ^ k)) (e + k) = rounded (magnitude m e) := by
    have hexp : (e + k + 1074).toNat = surplus (magnitude m e) := by omega
    rw [rounded, ← hquotient, magnitude, hexp]
  obtain ⟨em, e', hfinal, hcanonical, hmagnitude⟩ :=
    canonical_shiftToTargetExponent hle (by omega) hleading
  have hshift : shiftToTargetExponent .binary64 m e .exact =
      (ExtendedMantissa.ofMantissaAndAccuracy m .exact >>> k, e + k) := by
    rw [shiftToTargetExponent, targetExponent_eq, shiftToExponent, hk]
  rw [roundWithAccuracy, hshift]
  dsimp only
  rw [roundedMantissa_shiftRight, hfinal]
  dsimp only
  rw [← hrounded, ← hmagnitude]
  split_ifs with hzero
  · rw [hzero, magnitude, Nat.zero_mul]
    cases s <;> exact ⟨trivial, rfl⟩
  · exact ⟨hcanonical, rfl⟩

theorem magnitude_mul_two_pow (m : ℕ) {e : ℤ} {k : ℕ} (h : -1074 ≤ e - k) :
    magnitude (m * 2 ^ k) (e - k) = magnitude m e := by
  have hexp : (e + 1074).toNat = k + (e - k + 1074).toNat := by omega
  rw [magnitude, magnitude, hexp, Nat.pow_add, Nat.mul_assoc]

/-- **A finite number is rounded to 53 digits**, whatever its mantissa. -/
theorem round_spec (s : Sign) {m : ℕ} {e : ℤ} (hm : 0 < m) (he : -1074 ≤ e) :
    Rounded (UnpackedFloat.round .binary64 s m e) ∧
      worth (UnpackedFloat.round .binary64 s m e) = some (s.apply (rounded (magnitude m e))) := by
  obtain ⟨k, hk⟩ : ∃ k, (e - Format.binary64.targetExponent (totalExponent m e)).toNat = k :=
    ⟨_, rfl⟩
  have hpos : 0 < m * 2 ^ k := Nat.mul_pos hm (Nat.two_pow_pos k)
  have htarget := targetExponent_eq m e
  have htarget' := targetExponent_eq (m * 2 ^ k) (e - k)
  rw [log2_mul_two_pow hm.ne'] at htarget'
  rw [UnpackedFloat.round, decreaseExponent, hk, Nat.shiftLeft_eq,
    ← magnitude_mul_two_pow m (k := k) (by omega)]
  exact roundWithAccuracy_spec s hpos (by omega) (by omega)

/-! ## 2. Sums -/

/-- Units rounded to 53 digits. -/
def nearest (z : ℤ) : ℤ := if 0 ≤ z then rounded z.toNat else -rounded (-z).toNat

theorem nearest_mono {y z : ℤ} (h : y ≤ z) : nearest y ≤ nearest z := by
  rw [nearest, nearest]
  split_ifs with hy hz hz
  · exact Int.ofNat_le.mpr (rounded_mono (by omega))
  · omega
  · omega
  · exact neg_le_neg (Int.ofNat_le.mpr (rounded_mono (by omega)))

theorem nearest_apply (s : Sign) (n : ℕ) : nearest (s.apply n) = s.apply (rounded n) := by
  cases s with
  | negative =>
    change nearest (-(n : ℤ)) = -(rounded n : ℤ)
    rcases Nat.eq_zero_or_pos n with rfl | hpos
    · rfl
    · rw [nearest, if_neg (by omega), neg_neg, Int.toNat_natCast]
  | positive =>
    change nearest (n : ℤ) = rounded n
    rw [nearest, if_pos (by omega), Int.toNat_natCast]

/-- A sum with an infinity is too much for a finite number. -/
theorem overflow_nearest (s : Sign) {z : ℤ} (h : (limit : ℤ) ≤ s.apply z) :
    overflow (nearest z) = s.apply (2 * limit : ℕ) := by
  obtain ⟨n, hn, hlimit⟩ : ∃ n : ℕ, z = s.apply n ∧ limit ≤ n := by
    have hpos := limit_pos
    cases s with
    | negative =>
      have h : (limit : ℤ) ≤ -z := h
      refine ⟨(-z).toNat, ?_, by omega⟩
      change z = -((-z).toNat : ℤ)
      omega
    | positive =>
      have h : (limit : ℤ) ≤ z := h
      refine ⟨z.toNat, ?_, by omega⟩
      change z = (z.toNat : ℤ)
      omega
  have hrounded : limit ≤ rounded n := by
    have hexact : rounded (1 * 2 ^ digits) = 1 * 2 ^ digits := rounded_mul_two_pow (by decide) _
    rw [Nat.one_mul] at hexact
    exact hexact.symm.le.trans (rounded_mono hlimit)
  rw [hn, nearest_apply, overflow_of_le s hrounded]

theorem apply_magnitude (s : Sign) (m : ℕ) (e : ℤ) :
    s.apply (magnitude m e) = s.apply m * (2 ^ (e + 1074).toNat : ℕ) := by
  cases s with
  | negative =>
    change -(magnitude m e : ℤ) = -(m : ℤ) * _
    rw [magnitude, Nat.cast_mul, neg_mul]
  | positive =>
    change (magnitude m e : ℤ) = (m : ℤ) * _
    rw [magnitude, Nat.cast_mul]

/-- An exact sum is rounded once. -/
theorem normalize_spec (z : ℤ) {e : ℤ} (he : -1074 ≤ e) :
    Rounded (UnpackedFloat.normalize .binary64 z e .positive) ∧
      worth (UnpackedFloat.normalize .binary64 z e .positive) =
        some (nearest (z * (2 ^ (e + 1074).toNat : ℕ))) := by
  have hspec : ∀ (s : Sign) {n : ℕ}, 0 < n → Rounded (UnpackedFloat.round .binary64 s n e) ∧
      worth (UnpackedFloat.round .binary64 s n e) =
        some (nearest (s.apply n * (2 ^ (e + 1074).toNat : ℕ))) := by
    intro s n hn
    rw [← apply_magnitude, nearest_apply]
    exact round_spec s hn he
  rw [UnpackedFloat.normalize]
  rcases lt_trichotomy z 0 with hz | rfl | hz
  · obtain ⟨n, rfl⟩ : ∃ n : ℕ, z = -n := ⟨(-z).toNat, by omega⟩
    rw [compare_lt_iff_lt.mpr hz, neg_neg, Int.toNat_natCast]
    exact hspec .negative (by omega)
  · rw [compare_eq_iff_eq.mpr rfl, zero_mul]
    exact ⟨trivial, rfl⟩
  · obtain ⟨n, rfl⟩ : ∃ n : ℕ, z = n := ⟨z.toNat, by omega⟩
    rw [compare_gt_iff_gt.mpr hz, Int.toNat_natCast]
    exact hspec .positive (by omega)

/-- A mantissa shifted to a smaller exponent is worth the same. -/
theorem apply_decreaseExponent (s : Sign) (m : ℕ) {e e' : ℤ} (h : -1074 ≤ e') (he : e' ≤ e) :
    s.apply (decreaseExponent m e e').1 * (2 ^ (e' + 1074).toNat : ℕ) =
      s.apply (magnitude m e) := by
  have hexp : e - ((e - e').toNat : ℤ) = e' := by omega
  have hmagnitude := magnitude_mul_two_pow m (e := e) (k := (e - e').toNat) (by omega)
  rw [hexp] at hmagnitude
  rw [decreaseExponent, Nat.shiftLeft_eq, ← hmagnitude, apply_magnitude]

/-- An infinity absorbs whatever does not cancel it. -/
theorem overflow_infinity_add (s : Sign) {b : ℤ} (hb : -(limit : ℤ) ≤ s.apply b) :
    overflow (nearest (s.apply (2 * limit : ℕ) + b)) = overflow (s.apply (2 * limit : ℕ)) := by
  rw [overflow_of_le s (by omega)]
  refine overflow_nearest s ?_
  cases s with
  | negative =>
    have hb : -(limit : ℤ) ≤ -b := hb
    change (limit : ℤ) ≤ -(-((2 * limit : ℕ) : ℤ) + b)
    omega
  | positive =>
    have hb : -(limit : ℤ) ≤ b := hb
    change (limit : ℤ) ≤ ((2 * limit : ℕ) : ℤ) + b
    omega

theorem neg_limit_le_apply (s s' : Sign) {n : ℕ} (h : n ≤ limit) :
    -(limit : ℤ) ≤ s.apply (s'.apply n) := by
  cases s <;> cases s' <;> dsimp only [Sign.apply] <;> omega

theorem overflow_infinity_add_self (s : Sign) :
    overflow (nearest (s.apply (2 * limit : ℕ) + s.apply (2 * limit : ℕ))) =
      overflow (s.apply (2 * limit : ℕ)) := by
  refine overflow_infinity_add s ?_
  cases s <;> dsimp only [Sign.apply] <;> omega

/-- What can be stored is not rounded. -/
theorem nearest_of_canonical (s : Sign) {m : ℕ} {e : ℤ} (h : Canonical m e) :
    nearest (s.apply (magnitude m e)) = s.apply (magnitude m e) := by
  rw [nearest_apply, magnitude, rounded_mul_two_pow h.lt]

/-- **A sum is worth the sum of what its terms are worth, rounded.** -/
theorem add_spec {x y : UnpackedFloat} {c : ℤ} (hx : Stored x) (hy : Stored y)
    (hc : worth (UnpackedFloat.add .binary64 x y) = some c) :
    Rounded (UnpackedFloat.add .binary64 x y) ∧
      ∃ a b, worth x = some a ∧ worth y = some b ∧ overflow (nearest (a + b)) = overflow c := by
  cases x with
  | notANumber => cases hc
  | infinity s =>
    cases y with
    | notANumber => cases hc
    | infinity s' =>
      rw [UnpackedFloat.add] at hc ⊢
      split_ifs at hc ⊢ with hsame
      · have hsame : s = s' := by cases s <;> cases s' <;> first | rfl | cases hsame
        subst hsame
        rw [← Option.some.inj hc]
        exact ⟨trivial, _, _, rfl, rfl, overflow_infinity_add_self s⟩
      · cases hc
    | zero s' =>
      cases hc
      exact ⟨trivial, _, 0, rfl, rfl,
        overflow_infinity_add s (neg_limit_le_apply s .positive (Nat.zero_le _))⟩
    | finite s' m' e' hm' =>
      cases hc
      exact ⟨trivial, _, _, rfl, rfl,
        overflow_infinity_add s (neg_limit_le_apply s s' hy.2.le)⟩
  | zero s =>
    cases y with
    | notANumber => cases hc
    | infinity s' =>
      cases hc
      refine ⟨trivial, 0, _, rfl, rfl, ?_⟩
      rw [add_comm]
      exact overflow_infinity_add s' (neg_limit_le_apply s' .positive (Nat.zero_le _))
    | zero s' =>
      have hzero : Rounded (UnpackedFloat.add .binary64 (.zero s) (.zero s')) ∧ c = 0 := by
        cases s <;> cases s' <;> cases hc <;> exact ⟨trivial, rfl⟩
      obtain ⟨hrounded, rfl⟩ := hzero
      exact ⟨hrounded, 0, 0, rfl, rfl, rfl⟩
    | finite s' m' e' hm' =>
      cases hc
      refine ⟨hy.1, 0, _, rfl, rfl, ?_⟩
      rw [zero_add, nearest_of_canonical s' hy.1]
  | finite s m e hm =>
    cases y with
    | notANumber => cases hc
    | infinity s' =>
      cases hc
      refine ⟨trivial, _, _, rfl, rfl, ?_⟩
      rw [add_comm]
      exact overflow_infinity_add s' (neg_limit_le_apply s' s hx.2.le)
    | zero s' =>
      cases hc
      refine ⟨hx.1, _, 0, rfl, rfl, ?_⟩
      rw [add_zero, nearest_of_canonical s hx.1]
    | finite s' m' e' hm' =>
      have hleast : -1074 ≤ min e e' := le_min hx.1.least hy.1.least
      have hspec := normalize_spec (s.apply (decreaseExponent m e (min e e')).1 +
        s'.apply (decreaseExponent m' e' (min e e')).1) hleast
      rw [add_mul, apply_decreaseExponent s m hleast (min_le_left e e'),
        apply_decreaseExponent s' m' hleast (min_le_right e e')] at hspec
      refine ⟨hspec.1, _, _, rfl, rfl, ?_⟩
      have hworth := hspec.2.symm.trans hc
      rw [Option.some.inj hworth]

/-! ## 3. Order -/

/-- **A sum that is not NaN is worth the sum of what its terms are worth, rounded to 53 digits.** -/
theorem units_add {x y : Float} {c : ℤ} (hc : units (x + y) = some c) :
    ∃ a b, units x = some a ∧ units y = some b ∧ c = overflow (nearest (a + b)) := by
  have hadd : units (x + y) = worth (UnpackedFloat.unpack .binary64 (UnpackedFloat.pack .binary64
      (UnpackedFloat.add .binary64 x.toModel.unpack y.toModel.unpack))) := rfl
  rw [hadd] at hc
  cases hsum : worth (UnpackedFloat.add .binary64 x.toModel.unpack y.toModel.unpack) with
  | none =>
    rw [eq_notANumber_of_worth hsum] at hc
    cases hc
  | some c' =>
    obtain ⟨hrounded, a, b, ha, hb, hover⟩ := add_spec (stored_toModel x) (stored_toModel y) hsum
    rw [worth_unpack_pack hrounded, hsum, Option.map_some] at hc
    exact ⟨a, b, ha, hb, (hover.trans (Option.some.inj hc)).symm⟩

/-- Addition respects the order, since rounding and overflow do. -/
theorem le_of_units_add {x x' y y' : Float} {a a' b b' c c' : ℤ} (ha : units x = some a)
    (hb : units y = some b) (hc : units (x + y) = some c) (ha' : units x' = some a')
    (hb' : units y' = some b') (hc' : units (x' + y') = some c') (hle : a ≤ a') (hle' : b ≤ b') :
    c ≤ c' := by
  obtain ⟨a₁, b₁, ha₁, hb₁, rfl⟩ := units_add hc
  obtain ⟨a₂, b₂, ha₂, hb₂, rfl⟩ := units_add hc'
  cases ha.symm.trans ha₁
  cases hb.symm.trans hb₁
  cases ha'.symm.trans ha₂
  cases hb'.symm.trans hb₂
  exact overflow_mono (nearest_mono (add_le_add hle hle'))

/-- **Binary numbers are in order**, and rounding does not disturb it. -/
instance : Scalar.Ordered Float where
  comparable_of_atLeast := by
    intro x y h
    obtain ⟨a, b, ha, hb, -⟩ := (atLeast_iff x y).mp h
    exact ⟨(comparable_iff x).mpr ⟨a, ha⟩, (comparable_iff y).mpr ⟨b, hb⟩⟩
  total := by
    intro x y hx hy
    obtain ⟨a, ha⟩ := (comparable_iff x).mp hx
    obtain ⟨b, hb⟩ := (comparable_iff y).mp hy
    rcases le_total b a with h | h
    · exact .inl ((atLeast_iff x y).mpr ⟨a, b, ha, hb, h⟩)
    · exact .inr ((atLeast_iff y x).mpr ⟨b, a, hb, ha, h⟩)
  trans := by
    intro x y z hxy hyz
    obtain ⟨a, b, ha, hb, hba⟩ := (atLeast_iff x y).mp hxy
    obtain ⟨b', c, hb', hc, hcb⟩ := (atLeast_iff y z).mp hyz
    cases hb.symm.trans hb'
    exact (atLeast_iff x z).mpr ⟨a, c, ha, hc, hcb.trans hba⟩
  comparable_of_add := by
    intro x y h
    obtain ⟨c, hc⟩ := (comparable_iff _).mp h
    obtain ⟨a, b, ha, hb, -⟩ := units_add hc
    exact ⟨(comparable_iff x).mpr ⟨a, ha⟩, (comparable_iff y).mpr ⟨b, hb⟩⟩
  add_mono := by
    intro x x' y y' hx hy hsum hsum'
    obtain ⟨a', a, ha', ha, hle⟩ := (atLeast_iff x' x).mp hx
    obtain ⟨b', b, hb', hb, hle'⟩ := (atLeast_iff y' y).mp hy
    obtain ⟨c, hc⟩ := (comparable_iff _).mp hsum
    obtain ⟨c', hc'⟩ := (comparable_iff _).mp hsum'
    have hle'' := le_of_units_add ha hb hc ha' hb' hc' hle hle'
    exact (atLeast_iff _ _).mpr ⟨c', c, hc', hc, hle''⟩

end ForestRescoring.Binary
