/-
# Zeros among 64-bit binary numbers

There are two zeros, and a sum or a product that is zero may be either of them.  Numbers are alike if
they are equal, the zeros being one number, or if both are NaN (`Binary.Alike`).  They are then worth
the same (`alike_iff`), and up to this a zero is what it is in exact arithmetic:

* a finite number times zero is a zero (`units_mul_zero`);
* adding a zero to a number leaves it worth the same (`units_add_zero`).

So terms that are zeros do not matter in a sum, wherever they stand (`alike_sum_filter`).  Nothing is put
in another order for that, which rounding would not allow.
-/
import Mathlib
import ForestRescoring.Proofs.Scalar.Addition

namespace ForestRescoring.Binary

open Float.Model Float.Model.UnpackedFloat

/-! ## 1. Alike -/

/-- The numbers are equal, whatever the sign of a zero, or both are NaN. -/
def Alike (x y : Float) : Prop := (x == y) = true ∨ x.isNaN = true ∧ y.isNaN = true

theorem beq_iff (x y : Float) : (x == y) = true ↔ ∃ a, units x = some a ∧ units y = some a := by
  have hbeq : (x == y) = (x.toModel.unpack.compare y.toModel.unpack == some .eq) := rfl
  have hcompare : ∀ a b, units x = some a → units y = some b → ((x == y) = true ↔ a = b) := by
    intro a b ha hb
    rw [hbeq, compare_eq (stored_toModel x) (stored_toModel y) ha hb, beq_iff_eq, Option.some_inj]
    exact compare_eq_iff_eq
  constructor
  · intro h
    cases ha : units x with
    | none =>
      rw [hbeq, eq_notANumber_of_worth ha] at h
      cases h
    | some a =>
      cases hb : units y with
      | none =>
        rw [hbeq, eq_notANumber_of_worth hb] at h
        cases hx : x.toModel.unpack <;> rw [hx] at h <;> cases h
      | some b => exact ⟨a, rfl, congrArg some ((hcompare a b ha hb).mp h).symm⟩
  · rintro ⟨a, ha, hb⟩
    exact (hcompare a a ha hb).mpr rfl

theorem isNaN_iff (x : Float) : x.isNaN = true ↔ units x = none := by
  rw [← Bool.not_eq_false, isNaN_eq_false_iff, comparable_iff, Option.eq_none_iff_forall_ne_some]
  exact not_exists

/-- **Numbers are alike if they are worth the same.** -/
theorem alike_iff (x y : Float) : Alike x y ↔ units x = units y := by
  rw [Alike, beq_iff, isNaN_iff, isNaN_iff]
  constructor
  · rintro (⟨a, ha, hb⟩ | ⟨ha, hb⟩)
    · rw [ha, hb]
    · rw [ha, hb]
  · intro h
    cases ha : units x with
    | none => exact .inr ⟨rfl, h.symm.trans ha⟩
    | some a => exact .inl ⟨a, rfl, h.symm.trans ha⟩

theorem Alike.refl (x : Float) : Alike x x := (alike_iff x x).mpr rfl

theorem Alike.symm {x y : Float} (h : Alike x y) : Alike y x :=
  (alike_iff y x).mpr ((alike_iff x y).mp h).symm

theorem Alike.trans {x y z : Float} (hxy : Alike x y) (hyz : Alike y z) : Alike x z :=
  (alike_iff x z).mpr (((alike_iff x y).mp hxy).trans ((alike_iff y z).mp hyz))

/-! ## 2. What is worth nothing -/

theorem apply_ne_zero {s : Sign} {a : ℕ} (ha : 0 < a) : s.apply a ≠ 0 := by
  cases s <;> dsimp only [Sign.apply] <;> omega

/-- What is worth nothing is one of the zeros. -/
theorem eq_zero_of_worth {x : UnpackedFloat} (h : worth x = some 0) : ∃ s, x = .zero s := by
  cases x with
  | notANumber => cases h
  | infinity s =>
    have hpos : 0 < 2 * limit := Nat.mul_pos Nat.two_pos limit_pos
    exact absurd (Option.some.inj h) (apply_ne_zero hpos)
  | zero s => exact ⟨s, rfl⟩
  | finite s m e hm => exact absurd (Option.some.inj h) (apply_ne_zero (magnitude_pos hm e))

/-- What can be stored is worth the same when it is. -/
theorem worth_repack {x : UnpackedFloat} (hx : Stored x) :
    worth (UnpackedFloat.unpack .binary64 (UnpackedFloat.pack .binary64 x)) = worth x := by
  have hlimit := limit_pos
  cases x with
  | notANumber => rfl
  | infinity s => cases s <;> rfl
  | zero s => cases s <;> rfl
  | finite s m e hm =>
    rw [worth_unpack_pack (x := .finite s m e hm) hx.1, worth, Option.map_some, overflow_of_lt s hx.2]

/-- A finite number times zero is worth nothing. -/
theorem units_mul_zero {x z : Float} (hx : x.isFinite = true) (hz : units z = some 0) :
    units (x * z) = some 0 := by
  obtain ⟨s, hs⟩ := eq_zero_of_worth hz
  have hmul : units (x * z) = worth (UnpackedFloat.unpack .binary64 (UnpackedFloat.pack .binary64
      (UnpackedFloat.mul .binary64 x.toModel.unpack z.toModel.unpack))) := rfl
  have hx : x.toModel.unpack.isFinite = true := hx
  obtain ⟨s', hs'⟩ : ∃ s',
      UnpackedFloat.mul .binary64 x.toModel.unpack z.toModel.unpack = .zero s' := by
    rw [hs]
    cases hu : x.toModel.unpack with
    | notANumber => rw [hu] at hx; cases hx
    | infinity t => rw [hu] at hx; cases hx
    | zero t => exact ⟨t * s, rfl⟩
    | finite t m e hm => exact ⟨t * s, rfl⟩
  rw [hmul, hs']
  exact worth_repack (x := .zero s') trivial

/-- Adding what is worth nothing leaves a number worth what it is. -/
theorem units_add_zero {z : Float} (hz : units z = some 0) (x : Float) :
    units (x + z) = units x := by
  obtain ⟨s, hs⟩ := eq_zero_of_worth hz
  have hadd : units (x + z) = worth (UnpackedFloat.unpack .binary64 (UnpackedFloat.pack .binary64
      (UnpackedFloat.add .binary64 x.toModel.unpack z.toModel.unpack))) := rfl
  have hstored := stored_toModel x
  rw [hadd, hs, units]
  cases hu : x.toModel.unpack with
  | notANumber => exact worth_repack (x := .notANumber) trivial
  | infinity t => exact worth_repack (x := .infinity t) trivial
  | zero t => cases t <;> cases s <;> exact worth_repack (x := .zero _) trivial
  | finite t m e hm =>
    rw [hu] at hstored
    exact worth_repack hstored

/-! ## 3. Either way round -/

theorem Sign.mul_comm (s t : Sign) : s * t = t * s := by
  cases s <;> cases t <;> rfl

protected theorem mul_comm (x y : Float) : x * y = y * x := by
  have hmul : ∀ a b : UnpackedFloat,
      UnpackedFloat.mul .binary64 a b = UnpackedFloat.mul .binary64 b a := by
    intro a b
    cases a <;> cases b <;> simp only [UnpackedFloat.mul, Sign.mul_comm, Nat.mul_comm, Int.add_comm]
  exact congrArg (fun a => Float.ofModel (Float.Model.pack a))
    (hmul x.toModel.unpack y.toModel.unpack)

protected theorem add_comm (x y : Float) : x + y = y + x := by
  have hadd : ∀ a b : UnpackedFloat,
      UnpackedFloat.add .binary64 a b = UnpackedFloat.add .binary64 b a := by
    intro a b
    cases a <;> cases b <;> simp only [UnpackedFloat.add, Int.add_comm, min_comm]
    case infinity.infinity s t => cases s <;> cases t <;> rfl
    case zero.zero s t => cases s <;> cases t <;> rfl
  exact congrArg (fun a => Float.ofModel (Float.Model.pack a))
    (hadd x.toModel.unpack y.toModel.unpack)

/-! ## 4. Sums -/

/-- Canonical mantissas and exponents are told apart by their magnitudes. -/
theorem magnitude_inj {m m' : ℕ} {e e' : ℤ} (h : Canonical m e) (h' : Canonical m' e')
    (heq : magnitude m e = magnitude m' e') : m = m' ∧ e = e' := by
  rcases lt_trichotomy e e' with he | rfl | he
  · exact absurd heq (magnitude_lt h h' he).ne
  · exact ⟨Nat.eq_of_mul_eq_mul_right (Nat.two_pow_pos _) heq, rfl⟩
  · exact absurd heq (magnitude_lt h' h he).ne'

/-- A number that is not zero is told apart by its sign and its magnitude. -/
theorem apply_inj {s t : Sign} {a b : ℕ} (ha : 0 < a) (h : s.apply a = t.apply b) :
    s = t ∧ a = b := by
  cases s <;> cases t <;> dsimp only [Sign.apply] at h
  case negative.negative => exact ⟨rfl, by omega⟩
  case positive.positive => exact ⟨rfl, by omega⟩
  all_goals omega

/-- What is worth the same is the same, unless it is worth nothing. -/
theorem eq_of_worth_eq {x y : UnpackedFloat} (hx : Stored x) (hy : Stored y)
    (h : worth x = worth y) (hzero : worth x ≠ some 0) : x = y := by
  have hlimit : 0 < 2 * limit := Nat.mul_pos Nat.two_pos limit_pos
  cases x with
  | notANumber => exact (eq_notANumber_of_worth h.symm).symm
  | zero s => exact absurd rfl hzero
  | infinity s =>
    cases y with
    | notANumber => cases h
    | zero t => exact absurd h hzero
    | infinity t => rw [(apply_inj hlimit (Option.some.inj h)).1]
    | finite t m e hm =>
      have hmagnitude := (apply_inj hlimit (Option.some.inj h)).2
      have hlt := hy.2
      omega
  | finite s m e hm =>
    have hpos := magnitude_pos hm e
    cases y with
    | notANumber => cases h
    | zero t => exact absurd h hzero
    | infinity t =>
      have hmagnitude := (apply_inj hpos (Option.some.inj h)).2
      have hlt := hx.2
      omega
    | finite t m' e' hm' =>
      obtain ⟨rfl, hmagnitude⟩ := apply_inj hpos (Option.some.inj h)
      obtain ⟨rfl, rfl⟩ := magnitude_inj hx.1 hy.1 hmagnitude
      rfl

/-- Sums with terms that are alike are alike. -/
theorem Alike.add {x x' : Float} (h : Alike x x') (y : Float) : Alike (x + y) (x' + y) := by
  rw [alike_iff] at h ⊢
  by_cases hzero : units x = some 0
  · rw [Binary.add_comm x, Binary.add_comm x', units_add_zero hzero, units_add_zero (h.symm.trans hzero)]
  · have heq := eq_of_worth_eq (stored_toModel x) (stored_toModel x') h hzero
    exact congrArg (fun a => worth (UnpackedFloat.unpack .binary64 (UnpackedFloat.pack .binary64
      (UnpackedFloat.add .binary64 a y.toModel.unpack)))) heq

/-- Zeros among the terms of a sum may be left out. -/
theorem alike_sum_filter {α : Type} {g : α → Float} {keep : α → Bool} {as : List α}
    (h : ∀ a ∈ as, keep a = false → units (g a) = some 0) :
    Alike (Scalar.sum (as.map g)) (Scalar.sum ((as.filter keep).map g)) := by
  have hfrom : ∀ x x' : Float, Alike x x' →
      Alike ((as.map g).foldl (· + ·) x) (((as.filter keep).map g).foldl (· + ·) x') := by
    induction as with
    | nil => exact fun x x' hx => hx
    | cons a as ih =>
      obtain ⟨ha, has⟩ := List.forall_mem_cons.mp h
      intro x x' hx
      cases hkeep : keep a with
      | true =>
        rw [List.filter_cons_of_pos hkeep]
        exact ih has _ _ (hx.add (g a))
      | false =>
        have hadd : Alike (x + g a) x := (alike_iff _ _).mpr (units_add_zero (ha hkeep) x)
        rw [List.filter_cons_of_neg (by rw [hkeep]; exact Bool.false_ne_true)]
        exact ih has _ _ (hadd.trans hx)
  exact hfrom _ _ (Alike.refl _)

end ForestRescoring.Binary
