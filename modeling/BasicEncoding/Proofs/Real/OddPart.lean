import BasicEncoding.Real

/-! The odd part of a mantissa: what a number is when its factors 2 are out. It does not change when
a number is shifted, and a significand of a given height is determined by it. -/
namespace BasicEncoding.Real

theorem exists_odd_mul_pow {m : Nat} (h : m ≠ 0) : ∃ o k, o % 2 = 1 ∧ m = o * 2 ^ k := by
  induction m using Nat.strongRecOn with
  | ind m ih =>
      by_cases hodd : m % 2 = 1
      · exact ⟨m, 0, hodd, by rw [Nat.pow_zero, Nat.mul_one]⟩
      · obtain ⟨o, k, ho, hk⟩ := ih (m / 2) (by omega) (by omega)
        refine ⟨o, k + 1, ho, ?_⟩
        rw [Nat.pow_succ, ← Nat.mul_assoc, ← hk]
        omega

theorem coprime_of_odd {o : Nat} (ho : o % 2 = 1) (n : Nat) : o.gcd (2 ^ n) = 1 := by
  apply Nat.Coprime.pow_right
  change o.gcd 2 = 1
  rw [Nat.gcd_comm, Nat.gcd_rec, ho]
  rfl

theorem log2_mul_pow {o : Nat} (ho : o ≠ 0) (k : Nat) : (o * 2 ^ k).log2 = o.log2 + k := by
  have hpos : 0 < 2 ^ k := Nat.two_pow_pos k
  have hne : o * 2 ^ k ≠ 0 := Nat.mul_ne_zero ho (by omega)
  rw [Nat.log2_eq_iff hne]
  constructor
  · rw [Nat.pow_add]
    exact Nat.mul_le_mul_right _ (Nat.log2_self_le ho)
  · rw [Nat.add_right_comm, Nat.pow_add]
    exact Nat.mul_lt_mul_of_pos_right Nat.lt_log2_self hpos

theorem oddPart_odd_mul_pow {o : Nat} (ho : o % 2 = 1) (k : Nat) : oddPart (o * 2 ^ k) = o := by
  have hne : o ≠ 0 := by omega
  have hpow : 2 ^ (o.log2 + k) = 2 ^ o.log2 * 2 ^ k := Nat.pow_add 2 o.log2 k
  rw [oddPart, log2_mul_pow hne, hpow, Nat.gcd_mul_right, coprime_of_odd ho, Nat.one_mul]
  exact Nat.mul_div_cancel _ (Nat.two_pow_pos k)

variable {m : Nat}

theorem oddPart_odd (h : m ≠ 0) : oddPart m % 2 = 1 := by
  obtain ⟨o, k, ho, rfl⟩ := exists_odd_mul_pow h
  rwa [oddPart_odd_mul_pow ho]

theorem exists_eq_oddPart_mul (h : m ≠ 0) : ∃ k, m = oddPart m * 2 ^ k := by
  obtain ⟨o, k, ho, rfl⟩ := exists_odd_mul_pow h
  exact ⟨k, by rw [oddPart_odd_mul_pow ho]⟩

theorem oddPart_ne_zero (h : m ≠ 0) : oddPart m ≠ 0 := by
  have hodd := oddPart_odd h
  omega

theorem oddPart_le (m : Nat) : oddPart m ≤ m := Nat.div_le_self _ _

theorem oddPart_mul_pow (m k : Nat) : oddPart (m * 2 ^ k) = oddPart m := by
  by_cases h : m = 0
  · rw [h, Nat.zero_mul]
  · obtain ⟨o, j, ho, rfl⟩ := exists_odd_mul_pow h
    rw [Nat.mul_assoc, ← Nat.pow_add, oddPart_odd_mul_pow ho, oddPart_odd_mul_pow ho]

theorem oddPart_of_odd (h : m % 2 = 1) : oddPart m = m := by
  have hself := oddPart_odd_mul_pow h 0
  rwa [Nat.pow_zero, Nat.mul_one] at hself

theorem oddPart_oddPart (m : Nat) : oddPart (oddPart m) = oddPart m := by
  by_cases h : m = 0
  · rw [h]
    rfl
  · exact oddPart_of_odd (oddPart_odd h)

theorem eq_oddPart_mul_of_log2 {n : Nat} (h : m ≠ 0) (hlog : m.log2 = n) :
    m = oddPart m * 2 ^ (n - (oddPart m).log2) := by
  obtain ⟨k, hk⟩ := exists_eq_oddPart_mul h
  have hshift : m.log2 = (oddPart m).log2 + k := by
    rw [← log2_mul_pow (oddPart_ne_zero h), ← hk]
  have hplace : n - (oddPart m).log2 = k := by omega
  rw [hplace]
  exact hk

end BasicEncoding.Real
