import BasicEncoding.Proofs.Real.Exact
import BasicEncoding.Proofs.Real.Making

/-! Where the parts of a number stand in its contents, and what each of them says of the number. The
exponent is the place of its highest bit, for subnormal numbers as for normal ones, and the mantissa
is the one odd number that has its bits. Nothing else goes into the contents, so no two numbers
share theirs. -/
namespace BasicEncoding.Real

open Integer (Minimal)

/-- The parts of the contents of a number: the bits of the first octet, the exponent `e` and the
mantissa `m`. -/
structure Layout (x : Binary64) (first : UInt8) (exponent mantissa : Octets) (e : ℤ) (m : ℕ) :
    Prop where
  binary : first &&& 0x80 ≠ 0
  sign : first &&& 0x40 ≠ 0 ↔ x.value < 0
  unscaled : first &&& 0x3C = 0
  width_le : (first &&& 0x03).toNat ≤ 1
  width : exponent.length = (first &&& 0x03).toNat + 1
  highest : 2 ^ e ≤ |x.value| ∧ |x.value| < 2 ^ (e + 1)
  exponent_minimal : Minimal e exponent
  odd : m % 2 = 1
  below : m < 2 ^ 53
  exact : |x.value| = m / 2 ^ m.log2 * 2 ^ e
  only : ∀ other : ℕ, other % 2 = 1 → |x.value| = other / 2 ^ other.log2 * 2 ^ e → other = m
  mantissa_minimal : Minimal m mantissa

variable {x y : Binary64} {first : UInt8} {exponent mantissa front behind : Octets} {e k : ℤ}
  {m n : ℕ}

theorem value_ne_zero (h0 : x.isZero = false) : x.value ≠ 0 := by
  have hne : (x.significand : ℚ) ≠ 0 := Nat.cast_ne_zero.mpr (Binary64.significand_ne_zero h0)
  have hmagnitude : (x.significand : ℚ) * 2 ^ x.scale ≠ 0 :=
    mul_ne_zero hne (zpow_ne_zero _ two_ne_zero)
  rwa [← Binary64.abs_value, abs_ne_zero] at hmagnitude

theorem exponent_highest (h0 : x.isZero = false) :
    2 ^ x.exponent ≤ |x.value| ∧ |x.value| < 2 ^ (x.exponent + 1) := by
  obtain ⟨hlow, hhigh⟩ := (Nat.log2_eq_iff (Binary64.significand_ne_zero h0)).mp rfl
  have hscale : (0 : ℚ) < 2 ^ x.scale := by positivity
  have hplace : ∀ n : ℕ, (2 : ℚ) ^ ((n : ℤ) + x.scale) = (2 ^ n : ℕ) * 2 ^ x.scale := by
    intro n
    rw [zpow_add₀ two_ne_zero, zpow_natCast, Nat.cast_pow, Nat.cast_ofNat]
  have hnext : x.exponent + 1 = ((x.significand.log2 + 1 : ℕ) : ℤ) + x.scale := by
    rw [Binary64.exponent, Nat.cast_add_one]
    ring
  rw [hnext, Binary64.exponent, hplace, hplace, Binary64.abs_value]
  constructor
  · exact mul_le_mul_of_nonneg_right (Nat.cast_le.mpr hlow) hscale.le
  · exact mul_lt_mul_of_pos_right (Nat.cast_lt.mpr hhigh) hscale

/-- The odd part of a significand, with its highest bit at place zero, and the exponent give the
number. -/
theorem abs_value_eq (h0 : x.isZero = false) :
    |x.value| = oddPart x.significand / 2 ^ (oddPart x.significand).log2 * 2 ^ x.exponent := by
  have hplace : (2 : ℚ) ^ x.exponent = 2 ^ x.significand.log2 * 2 ^ x.scale := by
    rw [Binary64.exponent, zpow_add₀ two_ne_zero, zpow_natCast]
  rw [← ratio_oddPart (Binary64.significand_ne_zero h0), hplace, ← mul_assoc,
    div_mul_cancel₀ _ (pow_ne_zero _ two_ne_zero), Binary64.abs_value]

theorem odd_eq_of_ratio (hm : m % 2 = 1) (hn : n % 2 = 1)
    (h : (m : ℚ) / 2 ^ m.log2 = n / 2 ^ n.log2) : m = n := by
  have hcross : m * 2 ^ n.log2 = n * 2 ^ m.log2 := by
    rw [div_eq_div_iff (pow_ne_zero _ two_ne_zero) (pow_ne_zero _ two_ne_zero)] at h
    exact_mod_cast h
  rw [← oddPart_odd_mul_pow hm n.log2, hcross, oddPart_odd_mul_pow hn]

theorem firstOctet_bits (negative : Bool) {width : ℕ} (h : width = 1 ∨ width = 2) :
    firstOctet negative width &&& 0x80 ≠ 0 ∧
      (firstOctet negative width &&& 0x40 ≠ 0 ↔ negative = true) ∧
      firstOctet negative width &&& 0x3C = 0 ∧
      (firstOctet negative width &&& 0x03).toNat + 1 = width := by
  rcases h with rfl | rfl <;> cases negative <;> decide

theorem layout_encode (hfinite : x.field ≠ 2047) (h0 : x.isZero = false) :
    Layout x (firstOctet x.isNegative (Integer.encode (Int64.ofInt x.exponent)).length)
      (Integer.encode (Int64.ofInt x.exponent))
      (Integer.encode (Int64.ofNat (oddPart x.significand)))
      x.exponent (oddPart x.significand) := by
  have hwidth := length_exponent hfinite h0
  obtain ⟨hbinary, hsign, hunscaled, hcount⟩ := firstOctet_bits x.isNegative hwidth
  have hodd := oddPart_odd (Binary64.significand_ne_zero h0)
  have hle := oddPart_le x.significand
  have hlt := x.significand_lt
  have hexponent := Integer.encode_minimal (Int64.ofInt x.exponent)
  have hmantissa := Integer.encode_minimal (Int64.ofNat (oddPart x.significand))
  rw [toInt_exponent hfinite h0] at hexponent
  rw [toInt_oddPart_significand] at hmantissa
  refine ⟨hbinary, hsign.trans (Binary64.isNegative_iff (value_ne_zero h0)), hunscaled, by omega,
    hcount.symm, exponent_highest h0, hexponent, hodd, by omega, abs_value_eq h0, ?_, hmantissa⟩
  intro other hother hexact
  rw [abs_value_eq h0] at hexact
  exact odd_eq_of_ratio hother hodd
    (mul_right_cancel₀ (zpow_ne_zero _ two_ne_zero) hexact.symm)

theorem Layout.length (h : Layout x first exponent mantissa e m) :
    2 ≤ (exponent ++ mantissa).length ∧ (exponent ++ mantissa).length ≤ 9 := by
  have hbelow := h.below
  have hwithin : Integer.Within 128 6 m := by constructor <;> omega
  have hle := h.mantissa_minimal.length_le hwithin
  have hpos := List.length_pos_iff.mpr h.mantissa_minimal.ne_nil
  have hwidth := h.width
  have hwidth_le := h.width_le
  rw [List.length_append]
  omega

/-- Numbers of one magnitude and one sign are one number. -/
theorem value_eq_of_abs (hx : x.value ≠ 0) (habs : |x.value| = |y.value|)
    (hsign : x.value < 0 ↔ y.value < 0) : x.value = y.value := by
  rcases abs_eq_abs.mp habs with heq | hneg
  · exact heq
  · rw [hneg, neg_lt_zero] at hsign
    have hy : y.value = 0 := le_antisymm (not_lt.mp fun hpos => lt_asymm hpos (hsign.mp hpos))
      (not_lt.mp fun hlt => lt_asymm hlt (hsign.mpr hlt))
    rw [hneg, hy, neg_zero] at hx
    exact absurd rfl hx

/-- Octets that are laid out from two numbers leave no difference between them. -/
theorem Layout.eq (h : Layout x first exponent mantissa e m)
    (h' : Layout y first front behind k n) (hx : x.value ≠ 0)
    (hoctets : exponent ++ mantissa = front ++ behind) : x = y := by
  have hlength : exponent.length = front.length := h.width.trans h'.width.symm
  obtain ⟨rfl, rfl⟩ := List.append_inj hoctets hlength
  have hexponent : e = k := h.exponent_minimal.spells.symm.trans h'.exponent_minimal.spells
  have hmantissa : m = n :=
    Int.ofNat_inj.mp (h.mantissa_minimal.spells.symm.trans h'.mantissa_minimal.spells)
  subst hexponent hmantissa
  have habs : |x.value| = |y.value| := h.exact.trans h'.exact.symm
  have hsign : x.value < 0 ↔ y.value < 0 := h.sign.symm.trans h'.sign
  exact Binary64.eq_of_value (value_eq_of_abs hx habs hsign) hx

/-- The contents of every finite number but zero are laid out like this and are not longer than ten
octets. The loops over its bits end with them and with nothing else, and no other number has the
same contents. -/
theorem encode_layout (x : Binary64) (hfinite : x.isFinite = true) (h0 : x.isZero = false) :
    (∃ first exponent mantissa e m, encode x = first :: (exponent ++ mantissa) ∧
      Layout x first exponent mantissa e m) ∧
    3 ≤ (encode x).length ∧ (encode x).length ≤ 10 ∧
    (∀ octets, Makes x octets ↔ octets = encode x) ∧
    ∀ y : Binary64, y.isFinite = true → y.isZero = false → encode y = encode x → y = x := by
  have hfield : x.field ≠ 2047 := of_decide_eq_true hfinite
  have hencode := encode_of_number hfield h0
  have hlayout := layout_encode hfield h0
  obtain ⟨hlow, hhigh⟩ := hlayout.length
  have hlength := congrArg List.length hencode
  rw [List.length_cons] at hlength
  refine ⟨⟨_, _, _, _, _, hencode, hlayout⟩, by omega, by omega, fun _ => makes_iff hfield h0, ?_⟩
  intro y hfinite' h0' hsame
  have hfield' : y.field ≠ 2047 := of_decide_eq_true hfinite'
  have hlayout' := layout_encode hfield' h0'
  rw [hencode, encode_of_number hfield' h0', List.cons.injEq] at hsame
  rw [hsame.1] at hlayout'
  exact hlayout'.eq hlayout (value_ne_zero h0') hsame.2

/-- Three times the least number above zero: an exponent of two octets far below those of normal
numbers. -/
theorem encode_three_least :
    encode (.ofFields false 0 3) = [0x81, 0xFB, 0xCF, 0x03] ∧
      Makes (.ofFields false 0 3) [0x81, 0xFB, 0xCF, 0x03] ∧
      Layout (.ofFields false 0 3) 0x81 [0xFB, 0xCF] [0x03] (-1073) 3 := by
  have hencode : encode (.ofFields false 0 3) = [0x81, 0xFB, 0xCF, 0x03] := by decide
  obtain ⟨⟨first, exponent, mantissa, e, m, hparts, hlayout⟩, -, -, hmakes, -⟩ :=
    encode_layout (.ofFields false 0 3) (by decide) (by decide)
  refine ⟨hencode, (hmakes _).mpr hencode.symm, ?_⟩
  rw [hencode, List.cons.injEq] at hparts
  obtain ⟨rfl, hoctets⟩ := hparts
  have hcut : [0xFB, 0xCF] ++ [0x03] = exponent ++ mantissa := hoctets
  have hwidth : exponent.length = 2 := hlayout.width
  obtain ⟨rfl, rfl⟩ := List.append_inj hcut hwidth.symm
  have hback : signedValue [0xFB, 0xCF] = -1073 ∧ signedValue [0x03] = (3 : ℕ) := by decide
  have hexponent : e = -1073 := hlayout.exponent_minimal.spells.symm.trans hback.1
  have hmantissa : (m : ℤ) = (3 : ℕ) := hlayout.mantissa_minimal.spells.symm.trans hback.2
  rwa [hexponent, Int.ofNat_inj.mp hmantissa] at hlayout

end BasicEncoding.Real
