/-
# 64-bit binary numbers

A number that is not NaN is worth a whole number of units, where the unit is the smallest positive
number, and numbers are compared by what they are worth (`Binary.atLeast_iff`).  A number with more
digits than 64 bits can hold is not worth the same when it is stored, but what is finite and has
53 digits is, unless it is too much (`Binary.worth_unpack_pack`).

An infinity is worth twice as much as the least number of units that no finite number is worth.  What
it is worth added to what a finite number is worth is then still too much, and infinities need no
case of their own in a sum.
-/
import Mathlib
import ForestRescoring.Proofs.Scalar.Order

namespace ForestRescoring.Binary

open Float.Model Float.Model.UnpackedFloat

/-! ## 1. What a number is worth -/

/-- The number of units in a mantissa with an exponent. -/
def magnitude (m : ℕ) (e : ℤ) : ℕ := m * 2 ^ (e + 1074).toNat

/-- The number of binary digits that the largest finite number has in units. -/
def digits : ℕ := 2098

/-- The least number of units that is too much for a finite number. -/
def limit : ℕ := 2 ^ digits

theorem limit_pos : 0 < limit := Nat.two_pow_pos digits

/-- How many units a number is worth, if it is not NaN. -/
def worth : UnpackedFloat → Option ℤ
  | .notANumber => none
  | .infinity s => some (s.apply (2 * limit : ℕ))
  | .zero _ => some 0
  | .finite s m e _ => some (s.apply (magnitude m e))

theorem eq_notANumber_of_worth {x : UnpackedFloat} (h : worth x = none) : x = .notANumber := by
  cases x with
  | notANumber => rfl
  | infinity s => cases h
  | zero s => cases h
  | finite s m e hm => cases h

/-- A mantissa has at most 53 digits, and no fewer unless the exponent is the least. -/
structure Canonical (m : ℕ) (e : ℤ) : Prop where
  lt : m < 2 ^ 53
  least : -1074 ≤ e
  leading : 2 ^ 52 ≤ m ∨ e = -1074

/-- Mantissa and exponent of a finite number are canonical. -/
def Rounded : UnpackedFloat → Prop
  | .finite _ m e _ => Canonical m e
  | _ => True

/-- The number is one that 64 bits can hold. -/
def Stored : UnpackedFloat → Prop
  | .finite _ m e _ => Canonical m e ∧ magnitude m e < limit
  | _ => True

/-! ## 2. Comparison -/

theorem magnitude_pos {m : ℕ} (hm : 0 < m) (e : ℤ) : 0 < magnitude m e :=
  Nat.mul_pos hm (Nat.two_pow_pos _)

/-- Below an exponent are only numbers below those that have it. -/
theorem magnitude_lt {m m' : ℕ} {e e' : ℤ} (h : Canonical m e) (h' : Canonical m' e')
    (he : e < e') : magnitude m e < magnitude m' e' := by
  have hleading : 2 ^ 52 ≤ m' := by
    refine h'.leading.resolve_right ?_
    have hleast := h.least
    omega
  have hexp : 53 + (e + 1074).toNat ≤ 52 + (e' + 1074).toNat := by
    have hleast := h.least
    omega
  calc magnitude m e < 2 ^ 53 * 2 ^ (e + 1074).toNat :=
        Nat.mul_lt_mul_of_pos_right h.lt (Nat.two_pow_pos _)
    _ = 2 ^ (53 + (e + 1074).toNat) := (Nat.pow_add 2 53 _).symm
    _ ≤ 2 ^ (52 + (e' + 1074).toNat) := Nat.pow_le_pow_right (by decide) hexp
    _ = 2 ^ 52 * 2 ^ (e' + 1074).toNat := Nat.pow_add 2 52 _
    _ ≤ magnitude m' e' := Nat.mul_le_mul_right _ hleading

theorem compare_of_strictMono {α β : Type} [LinearOrder α] [LinearOrder β] {g : α → β}
    (hg : StrictMono g) (a b : α) : compare (g a) (g b) = compare a b := by
  rw [← cmp_eq_compare, ← cmp_eq_compare]
  exact hg.cmp_map_eq a b

theorem compare_neg (a b : ℤ) : compare (-a) (-b) = (compare a b).swap := by
  have hanti : StrictAnti (Neg.neg : ℤ → ℤ) := fun _ _ h => neg_lt_neg h
  rw [← cmp_eq_compare, ← cmp_eq_compare, cmp_swap]
  exact hanti.cmp_map_eq a b

/-- Finite numbers compare by exponent, then by mantissa. -/
theorem compare_magnitude {m m' : ℕ} {e e' : ℤ} (h : Canonical m e) (h' : Canonical m' e') :
    (compare e e').then (compare m m') = compare (magnitude m e : ℤ) (magnitude m' e') := by
  rw [compare_of_strictMono Nat.strictMono_cast]
  rcases lt_trichotomy e e' with he | rfl | he
  · rw [compare_lt_iff_lt.mpr he, compare_lt_iff_lt.mpr (magnitude_lt h h' he)]
    rfl
  · have hmono : StrictMono fun m : ℕ => magnitude m e :=
      fun _ _ hlt => Nat.mul_lt_mul_of_pos_right hlt (Nat.two_pow_pos _)
    rw [compare_eq_iff_eq.mpr rfl, compare_of_strictMono hmono]
    rfl
  · rw [compare_gt_iff_gt.mpr he, compare_gt_iff_gt.mpr (magnitude_lt h' h he)]
    rfl

theorem some_eq_compare {o : Ordering} {a b : ℤ}
    (h : match o with | .lt => a < b | .eq => a = b | .gt => b < a) :
    some o = some (compare a b) := by
  cases o with
  | lt => rw [compare_lt_iff_lt.mpr h]
  | eq => rw [compare_eq_iff_eq.mpr h]
  | gt => rw [compare_gt_iff_gt.mpr h]

theorem compare_finite {s s' : Sign} {m m' : ℕ} {e e' : ℤ} (hm : 0 < m) (hm' : 0 < m')
    (h : Canonical m e) (h' : Canonical m' e') :
    (UnpackedFloat.finite s m e hm).compare (.finite s' m' e' hm') =
      some (compare (s.apply (magnitude m e)) (s'.apply (magnitude m' e'))) := by
  have hpos := magnitude_pos hm e
  have hpos' := magnitude_pos hm' e'
  have hcompare := compare_magnitude h h'
  cases s with
  | negative =>
    cases s' with
    | negative =>
      change some ((compare e e').then (compare m m')).swap =
        some (compare (-(magnitude m e : ℤ)) (-(magnitude m' e' : ℤ)))
      rw [hcompare, compare_neg]
    | positive => exact some_eq_compare (by dsimp only [Sign.apply]; omega)
  | positive =>
    cases s' with
    | negative => exact some_eq_compare (by dsimp only [Sign.apply]; omega)
    | positive =>
      change some ((compare e e').then (compare m m')) =
        some (compare (magnitude m e : ℤ) (magnitude m' e'))
      rw [hcompare]

/-- **Numbers compare as what they are worth.** -/
theorem compare_eq {x y : UnpackedFloat} {a b : ℤ} (hx : Stored x) (hy : Stored y)
    (ha : worth x = some a) (hb : worth y = some b) : x.compare y = some (compare a b) := by
  have hlimit := limit_pos
  -- Unless both are finite, the signs decide and sizes only show that they decide rightly.
  cases x with
  | notANumber => cases ha
  | infinity s =>
    cases y with
    | notANumber => cases hb
    | infinity s' =>
      cases ha
      cases hb
      cases s with
      | negative =>
        cases s' with
        | negative => exact some_eq_compare (o := .eq) rfl
        | positive => exact some_eq_compare (o := .lt) (by dsimp only [Sign.apply]; omega)
      | positive =>
        cases s' with
        | negative => exact some_eq_compare (o := .gt) (by dsimp only [Sign.apply]; omega)
        | positive => exact some_eq_compare (o := .eq) rfl
    | zero s' =>
      cases ha
      cases hb
      cases s <;> exact some_eq_compare (by dsimp only [Sign.apply]; omega)
    | finite s' m' e' hm' =>
      cases ha
      cases hb
      have hlt := hy.2
      cases s <;> cases s' <;> exact some_eq_compare (by dsimp only [Sign.apply]; omega)
  | zero s =>
    cases y with
    | notANumber => cases hb
    | infinity s' =>
      cases ha
      cases hb
      cases s' <;> exact some_eq_compare (by dsimp only [Sign.apply]; omega)
    | zero s' =>
      cases ha
      cases hb
      exact some_eq_compare rfl
    | finite s' m' e' hm' =>
      cases ha
      cases hb
      have hpos := magnitude_pos hm' e'
      cases s' <;> exact some_eq_compare (by dsimp only [Sign.apply]; omega)
  | finite s m e hm =>
    cases y with
    | notANumber => cases hb
    | infinity s' =>
      cases ha
      cases hb
      have hlt := hx.2
      cases s <;> cases s' <;> exact some_eq_compare (by dsimp only [Sign.apply]; omega)
    | zero s' =>
      cases ha
      cases hb
      have hpos := magnitude_pos hm e
      cases s <;> exact some_eq_compare (by dsimp only [Sign.apply]; omega)
    | finite s' m' e' hm' =>
      cases ha
      cases hb
      exact compare_finite hm hm' hx.1 hy.1

/-! ## 3. Stored numbers -/

theorem magnitude_lt_limit {m : ℕ} {e : ℤ} (hm : m < 2 ^ 53) (he : e ≤ 971) :
    magnitude m e < limit :=
  calc magnitude m e < 2 ^ 53 * 2 ^ (e + 1074).toNat :=
        Nat.mul_lt_mul_of_pos_right hm (Nat.two_pow_pos _)
    _ = 2 ^ (53 + (e + 1074).toNat) := (Nat.pow_add 2 53 _).symm
    _ ≤ limit := Nat.pow_le_pow_right (by decide) (by rw [digits]; omega)

theorem limit_le_magnitude {m : ℕ} {e : ℤ} (hm : 2 ^ 52 ≤ m) (he : 972 ≤ e) :
    limit ≤ magnitude m e :=
  calc limit ≤ 2 ^ (52 + (e + 1074).toNat) :=
        Nat.pow_le_pow_right (by decide) (by rw [digits]; omega)
    _ = 2 ^ 52 * 2 ^ (e + 1074).toNat := Nat.pow_add 2 52 _
    _ ≤ magnitude m e := Nat.mul_le_mul_right _ hm

theorem toNat_one_append (v : BitVec 52) : (1#1 ++ v).toNat = 2 ^ 52 + v.toNat := by
  rw [BitVec.toNat_append, ← Nat.shiftLeft_add_eq_or_of_lt v.isLt]
  rfl

/-- What is unpacked can be stored. -/
theorem stored_unpack (bits : BitVec Format.binary64.numBits) :
    Stored (UnpackedFloat.unpack .binary64 bits) := by
  rw [UnpackedFloat.unpack]
  have hm : (unpackMantissa bits).toNat < 2 ^ 52 := (unpackMantissa bits).isLt
  have he : (unpackExponent bits).toNat < 2 ^ 11 := (unpackExponent bits).isLt
  have hone : (1#1 ++ unpackMantissa bits).toNat = 2 ^ 52 + (unpackMantissa bits).toNat :=
    toNat_one_append (unpackMantissa bits)
  have hbias : ((Format.binary64.exponentBias : ℕ) : ℤ) = 1023 := rfl
  dsimp only
  split_ifs with hones hzero hleast hnone
  · trivial
  · trivial
  · trivial
  · have hexp : (unpackExponent bits).toNat = 0 := by rw [hleast]; rfl
    refine ⟨⟨by omega, by omega, .inr (by omega)⟩, magnitude_lt_limit (by omega) (by omega)⟩
  · have hexp : (unpackExponent bits).toNat ≠ 2047 := fun h => hones (BitVec.eq_of_toNat_eq h)
    have hexp' : (unpackExponent bits).toNat ≠ 0 := fun h => hleast (BitVec.eq_of_toNat_eq h)
    refine ⟨⟨by omega, by omega, .inl (by omega)⟩, magnitude_lt_limit (by omega) (by omega)⟩

/-- What is too much for a finite number is an infinity. -/
def overflow (z : ℤ) : ℤ :=
  if (limit : ℤ) ≤ z then 2 * limit else if z ≤ -limit then -(2 * limit) else z

theorem overflow_mono {y z : ℤ} (h : y ≤ z) : overflow y ≤ overflow z := by
  have hlimit := limit_pos
  rw [overflow, overflow]
  split_ifs <;> omega

theorem overflow_of_lt (s : Sign) {n : ℕ} (h : n < limit) : overflow (s.apply n) = s.apply n := by
  cases s with
  | negative =>
    change overflow (-(n : ℤ)) = -(n : ℤ)
    rw [overflow, if_neg (by omega), if_neg (by omega)]
  | positive =>
    change overflow (n : ℤ) = n
    rw [overflow, if_neg (by omega), if_neg (by omega)]

theorem overflow_of_le (s : Sign) {n : ℕ} (h : limit ≤ n) :
    overflow (s.apply n) = s.apply (2 * limit : ℕ) := by
  have hlimit := limit_pos
  cases s with
  | negative =>
    change overflow (-(n : ℤ)) = -((2 * limit : ℕ) : ℤ)
    rw [overflow, if_neg (by omega), if_pos (by omega)]
    omega
  | positive =>
    change overflow (n : ℤ) = (2 * limit : ℕ)
    rw [overflow, if_pos (by omega)]
    omega

theorem ofBitVec_unpackSign (s : Sign) (exponent : BitVec 11) (mantissa : BitVec 52) :
    Sign.ofBitVec (unpackSign (packComponents .binary64 s exponent mantissa)) = s := by
  rw [unpackSign, packComponents, BitVec.extractLsb, BitVec.extractLsb'_append_eq_of_le (by decide),
    BitVec.extractLsb'_append_eq_of_le (by decide)]
  cases s <;> rfl

theorem worth_unpack_normal (s : Sign) {exponent : BitVec 11} (mantissa : BitVec 52)
    (h : exponent.toNat < 2047) (hpos : 0 < exponent.toNat) :
    worth (UnpackedFloat.unpack .binary64 (packComponents .binary64 s exponent mantissa)) =
      some (s.apply (magnitude (2 ^ 52 + mantissa.toNat) (exponent.toNat - 1075))) := by
  have hones : exponent ≠ -1#_ := by
    rintro rfl
    exact absurd h (by decide)
  have hleast : exponent ≠ 0#_ := by
    rintro rfl
    exact absurd hpos (by decide)
  have hbias : ((Format.binary64.exponentBias : ℕ) : ℤ) + (52 : ℕ) = 1075 := rfl
  rw [UnpackedFloat.unpack]
  simp only [unpackMantissa_packComponents, unpackExponent_packComponents, ofBitVec_unpackSign]
  rw [if_neg hones, if_neg hleast, worth, toNat_one_append, hbias]

theorem worth_unpack_subnormal (s : Sign) {mantissa : BitVec 52} (h : mantissa ≠ 0#52) :
    worth (UnpackedFloat.unpack .binary64 (packComponents .binary64 s 0#11 mantissa)) =
      some (s.apply (magnitude mantissa.toNat (-1074))) := by
  have hones : 0#11 ≠ -1#11 := by decide
  rw [UnpackedFloat.unpack]
  simp only [unpackMantissa_packComponents, unpackExponent_packComponents, ofBitVec_unpackSign]
  rw [if_neg hones, if_pos trivial, dif_neg h]
  rfl

/-- A finite number is packed as a normal or a subnormal number, or as an infinity. -/
theorem worth_unpack_pack_finite (s : Sign) {m : ℕ} {e : ℤ} (hm : 0 < m) (h : Canonical m e) :
    worth (UnpackedFloat.unpack .binary64 (UnpackedFloat.pack .binary64 (.finite s m e hm))) =
      some (overflow (s.apply (magnitude m e))) := by
  have hlt := h.lt
  have hleast := h.least
  have hleading := h.leading
  have hbias : e + ((Format.binary64.exponentBias : ℕ) : ℤ) + (52 : ℕ) = e + 1075 := by
    have hbias : ((Format.binary64.exponentBias : ℕ) : ℤ) = 1023 := rfl
    omega
  have hlog : m.log2 + 1 = Format.binary64.mantissaBits ↔ 2 ^ 52 ≤ m := by
    have hupper : m.log2 < 53 := (Nat.log2_lt hm.ne').mpr hlt
    have hlower : 52 ≤ m.log2 ↔ 2 ^ 52 ≤ m := Nat.le_log2 hm.ne'
    have hbits : Format.binary64.mantissaBits = 53 := rfl
    omega
  rw [UnpackedFloat.pack]
  dsimp only
  rw [hbias]
  split_ifs with hlarge hnormal
  · have hle : limit ≤ magnitude m e := limit_le_magnitude (by omega) (by omega)
    rw [overflow_of_le s hle]
    cases s <;> rfl
  · have hexp : (BitVec.ofNat 11 (e + 1075).toNat).toNat = (e + 1075).toNat := by
      rw [BitVec.toNat_ofNat, Nat.mod_eq_of_lt (by omega)]
    have hmantissa : 2 ^ 52 + (BitVec.ofNat 52 m).toNat = m := by
      have hleading := hlog.mp hnormal
      rw [BitVec.toNat_ofNat]
      omega
    have hexp' : ((e + 1075).toNat : ℤ) - 1075 = e := by omega
    have hlt : magnitude m e < limit := magnitude_lt_limit hlt (by omega)
    have hnormal : (BitVec.ofNat 11 (e + 1075).toNat).toNat < 2047 := by omega
    have hpos : 0 < (BitVec.ofNat 11 (e + 1075).toNat).toNat := by omega
    have hworth := worth_unpack_normal s (BitVec.ofNat 52 m) hnormal hpos
    rw [hmantissa, hexp, hexp'] at hworth
    rw [overflow_of_lt s hlt]
    exact hworth
  · have hsmall : m < 2 ^ 52 := by omega
    have hmantissa : (BitVec.ofNat 52 m).toNat = m := by
      rw [BitVec.toNat_ofNat, Nat.mod_eq_of_lt hsmall]
    have hnonzero : BitVec.ofNat 52 m ≠ 0#52 := by
      intro h
      rw [h] at hmantissa
      exact hm.ne hmantissa
    have hexp : e = -1074 := hleading.resolve_left (by omega)
    have hlt : magnitude m e < limit := magnitude_lt_limit hlt (by omega)
    have hworth := worth_unpack_subnormal s hnonzero
    rw [hmantissa, ← hexp] at hworth
    rw [overflow_of_lt s hlt]
    exact hworth

/-- **What is packed is worth the same**, or an infinity if it is too much. -/
theorem worth_unpack_pack {x : UnpackedFloat} (hx : Rounded x) :
    worth (UnpackedFloat.unpack .binary64 (UnpackedFloat.pack .binary64 x)) =
      (worth x).map overflow := by
  cases x with
  | notANumber => rfl
  | infinity s =>
    have hlimit := limit_pos
    rw [worth, Option.map_some, overflow_of_le s (by omega)]
    cases s <;> rfl
  | zero s =>
    have hover : overflow 0 = 0 := overflow_of_lt .positive limit_pos
    rw [worth, Option.map_some, hover]
    cases s <;> rfl
  | finite s m e hm => exact worth_unpack_pack_finite s hm hx

/-! ## 4. The order -/

/-- What a 64-bit number is worth, if it is not NaN. -/
def units (x : Float) : Option ℤ := worth x.toModel.unpack

theorem stored_toModel (x : Float) : Stored x.toModel.unpack :=
  stored_unpack x.toModel.toBits.toBitVec

/-- **Numbers are in the order of what they are worth.** -/
theorem atLeast_iff (x y : Float) :
    Scalar.atLeast x y = true ↔ ∃ a b, units x = some a ∧ units y = some b ∧ b ≤ a := by
  have hle : Scalar.atLeast x y = true ↔ y.toModel.unpack.le x.toModel.unpack = true := by
    change decide (y ≤ x) = true ↔ _
    rw [decide_eq_true_iff]
    exact decide_eq_true_iff
  have hcompare : ∀ a b, units x = some a → units y = some b →
      (y.toModel.unpack.le x.toModel.unpack = true ↔ b ≤ a) := by
    intro a b ha hb
    rw [UnpackedFloat.le, compare_eq (stored_toModel y) (stored_toModel x) hb ha]
    exact Std.isLE_compare
  rw [hle]
  constructor
  · intro h
    cases ha : units x with
    | none =>
      rw [eq_notANumber_of_worth ha, UnpackedFloat.le] at h
      cases hy : y.toModel.unpack <;> rw [hy] at h <;> cases h
    | some a =>
      cases hb : units y with
      | none =>
        rw [eq_notANumber_of_worth hb] at h
        cases h
      | some b => exact ⟨a, b, rfl, rfl, (hcompare a b ha hb).mp h⟩
  · rintro ⟨a, b, ha, hb, hba⟩
    exact (hcompare a b ha hb).mpr hba

theorem comparable_iff (x : Float) : Scalar.Comparable x ↔ ∃ a, units x = some a := by
  rw [Scalar.Comparable, atLeast_iff]
  constructor
  · rintro ⟨a, b, ha, hb, -⟩
    exact ⟨a, ha⟩
  · rintro ⟨a, ha⟩
    exact ⟨a, a, ha, ha, le_rfl⟩

/-- What cannot be compared is NaN. -/
theorem isNaN_eq_false_iff (x : Float) : x.isNaN = false ↔ Scalar.Comparable x := by
  rw [comparable_iff, units]
  show x.toModel.unpack.isNaN = false ↔ _
  cases x.toModel.unpack with
  | notANumber =>
    constructor
    · rintro ⟨⟩
    · rintro ⟨a, ⟨⟩⟩
  | infinity s => exact ⟨fun _ => ⟨_, rfl⟩, fun _ => rfl⟩
  | zero s => exact ⟨fun _ => ⟨_, rfl⟩, fun _ => rfl⟩
  | finite s m e hm => exact ⟨fun _ => ⟨_, rfl⟩, fun _ => rfl⟩

end ForestRescoring.Binary
