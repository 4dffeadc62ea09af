import BasicEncoding.Proofs.Real.RoundTrip
import Mathlib.Algebra.Order.Field.Power
import Mathlib.Algebra.Order.Field.Rat
import Mathlib.Tactic.NormNum
import Mathlib.Tactic.Positivity
import Mathlib.Tactic.Ring

/-! The numbers that words stand for, as rational numbers. Every finite number but zero is one word
only: the scale of a significand is as low as it can be, so no other scale has the same number. -/
namespace BasicEncoding.Binary64

def sign (negative : Bool) : ℚ :=
  if negative then -1 else 1

def value (x : Binary64) : ℚ :=
  sign x.isNegative * x.significand * 2 ^ x.scale

variable {x y : Binary64}

theorem sign_ne_zero (negative : Bool) : sign negative ≠ 0 := by
  cases negative <;> norm_num [sign]

theorem abs_sign (negative : Bool) : |sign negative| = 1 := by
  cases negative <;> norm_num [sign]

theorem scale_ge (x : Binary64) : -1074 ≤ x.scale := by
  unfold scale subnormalExponent exponentBias fractionBits
  split <;> omega

theorem significand_ge (h : -1074 < x.scale) : 2 ^ 52 ≤ x.significand := by
  have hfield : x.field ≠ 0 := by
    intro hzero
    have hlowest : x.scale = -1074 := if_pos hzero
    omega
  rw [significand_of_normal hfield]
  omega

/-- Words of one magnitude have one scale: twice a significand with its leading one is too large to
be a significand. -/
theorem scale_le_of_magnitude
    (h : (x.significand : ℚ) * 2 ^ x.scale = y.significand * 2 ^ y.scale) :
    y.scale ≤ x.scale := by
  by_contra hlt
  obtain ⟨k, hk⟩ := Int.le.dest (show x.scale + 1 ≤ y.scale by omega)
  have hexponent : y.scale = (k + 1 : ℕ) + x.scale := by omega
  have hpow : (2 : ℚ) ^ y.scale = (2 ^ (k + 1) : ℕ) * 2 ^ x.scale := by
    rw [hexponent, zpow_add₀ two_ne_zero, zpow_natCast, Nat.cast_pow, Nat.cast_ofNat]
  have hshift : x.significand = y.significand * 2 ^ (k + 1) := by
    rw [hpow, ← mul_assoc] at h
    exact_mod_cast mul_right_cancel₀ (zpow_ne_zero _ two_ne_zero) h
  have hleading : 2 ^ 52 ≤ y.significand := by
    have hlowest := x.scale_ge
    exact significand_ge (by omega)
  have hlarge : 2 ^ 52 * 2 ^ 1 ≤ x.significand := by
    have htwice : 2 ^ 1 ≤ 2 ^ (k + 1) := Nat.pow_le_pow_right (by decide) (by omega)
    exact hshift ▸ Nat.mul_le_mul hleading htwice
  have hsmall := x.significand_lt
  omega

theorem scale_eq_of_magnitude
    (h : (x.significand : ℚ) * 2 ^ x.scale = y.significand * 2 ^ y.scale) :
    x.scale = y.scale ∧ x.significand = y.significand := by
  have hscale : x.scale = y.scale :=
    Int.le_antisymm (scale_le_of_magnitude h.symm) (scale_le_of_magnitude h)
  refine ⟨hscale, ?_⟩
  rw [hscale] at h
  exact_mod_cast mul_right_cancel₀ (zpow_ne_zero _ two_ne_zero) h

theorem fields_of_scale (hscale : x.scale = y.scale) (hsignificand : x.significand = y.significand) :
    x.field = y.field ∧ x.fraction = y.fraction := by
  have hx := x.fraction_lt
  have hy := y.fraction_lt
  unfold scale subnormalExponent exponentBias fractionBits at hscale
  unfold significand at hsignificand
  by_cases hxsmall : x.field = 0 <;> by_cases hysmall : y.field = 0
  all_goals
    simp only [hxsmall, hysmall, if_true, if_false] at hscale hsignificand
    omega

theorem abs_value (x : Binary64) : |x.value| = x.significand * 2 ^ x.scale := by
  rw [value, abs_mul, abs_mul, abs_sign, one_mul, Nat.abs_cast, abs_of_pos (by positivity)]

theorem isNegative_iff (h : x.value ≠ 0) : x.isNegative = true ↔ x.value < 0 := by
  have hpos : 0 < (x.significand : ℚ) * 2 ^ x.scale := by
    rw [← abs_value]
    exact abs_pos.mpr h
  rw [value, mul_assoc]
  cases x.isNegative with
  | false => simp [sign, hpos.le]
  | true => simp [sign, hpos]

theorem value_ofFields {negative : Bool} {field fraction : Nat} (h : field ≠ 0)
    (hfield : field < 2 ^ 11) (hfraction : fraction < 2 ^ 52) :
    (ofFields negative field fraction).value =
      sign negative * ((2 ^ 52 + fraction : ℕ) / 2 ^ 52) * 2 ^ ((field : ℤ) - exponentBias) := by
  have hstored : (ofFields negative field fraction).field = field := field_ofFields hfield hfraction
  have hnormal : (ofFields negative field fraction).field ≠ 0 := hstored.symm ▸ h
  have hplace : (2 : ℚ) ^ ((field : ℤ) - exponentBias - fractionBits) =
      2 ^ ((field : ℤ) - exponentBias) / 2 ^ 52 := by
    rw [zpow_sub₀ two_ne_zero, zpow_natCast]
    rfl
  rw [value, significand_of_normal hnormal, scale, if_neg hnormal, hstored, hplace,
    isNegative_ofFields hfield hfraction, fraction_ofFields hfield hfraction]
  ring

theorem eq_of_value (h : x.value = y.value) (h0 : x.value ≠ 0) : x = y := by
  have hmagnitude : (x.significand : ℚ) * 2 ^ x.scale = y.significand * 2 ^ y.scale := by
    rw [← abs_value x, ← abs_value y, h]
  obtain ⟨hscale, hsignificand⟩ := scale_eq_of_magnitude hmagnitude
  obtain ⟨hfield, hfraction⟩ := fields_of_scale hscale hsignificand
  have hsign : x.isNegative = y.isNegative := by
    rw [Bool.eq_iff_iff, isNegative_iff h0, isNegative_iff (h ▸ h0), h]
  rw [← ofFields_fields x, ← ofFields_fields y, hsign, hfield, hfraction]

end BasicEncoding.Binary64
