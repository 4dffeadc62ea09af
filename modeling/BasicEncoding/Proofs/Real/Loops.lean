import BasicEncoding.Proofs.Real.OddPart
import BasicEncoding.Proofs.Words

/-! The loops that strip a significand and that bring a mantissa back to its place, on words with a
sign as they are shifted and masked. Each ends, and what it ends with is told by the odd part of
the number it starts with. -/
namespace BasicEncoding.Real

/-- While the test holds of a word the step is taken. Start and end are related, so a loop that
goes on forever relates nothing. -/
inductive Loop (again : Int64 → Prop) (step : Int64 → Int64) : Int64 → Int64 → Prop
  | stop {word : Int64} (h : ¬again word) : Loop again step word word
  | turn {word last : Int64} (h : again word) (more : Loop again step (step word) last) :
      Loop again step word last

/-- Takes off low octets that are clear. -/
def StripOctets : Int64 → Int64 → Prop :=
  Loop (fun word => word &&& 0xFF = 0) (· >>> 8)

/-- Takes off low bits that are clear while there are more than 53. A loop that stops at a word of
more than 53 bits refuses it. -/
def Narrow : Int64 → Int64 → Prop :=
  Loop (fun word => word >>> 53 ≠ 0 ∧ word &&& 1 = 0) (· >>> 1)

def RaiseOctets : Int64 → Int64 → Prop :=
  Loop (fun word => word &&& Binary64.exponentMask >>> 8 = 0) (· <<< 8)

def RaiseBits : Int64 → Int64 → Prop :=
  Loop (fun word => word &&& Binary64.exponentMask = 0) (· <<< 1)

/-- A mantissa that loses only clear bits until it has 53, is brought to its place and loses its
leading one. -/
def Normalizes (mantissa fraction : Int64) : Prop :=
  ∃ narrow high placed, Narrow mantissa narrow ∧ narrow >>> 53 = 0 ∧ RaiseOctets narrow high ∧
    RaiseBits high placed ∧ placed &&& Binary64.fractionMask = fraction

/-- A mantissa that has more than 53 bits when its lowest bit is reached. -/
def TooWide (mantissa : Int64) : Prop :=
  ∃ narrow, Narrow mantissa narrow ∧ narrow >>> 53 ≠ 0

/-- A number below a bound, other than zero, with a given odd part. Shifts that drop nothing but
clear bits lead from one to another. -/
structure Shifted (odd bound m : Nat) : Prop where
  ne_zero : m ≠ 0
  lt_bound : m < bound
  oddPart_eq : oddPart m = odd

theorem Shifted.mul {odd bound m : Nat} (h : Shifted odd bound m) {k : Nat}
    (hm : m * 2 ^ k < bound) : Shifted odd bound (m * 2 ^ k) where
  ne_zero := Nat.mul_ne_zero h.ne_zero (Nat.ne_of_gt (Nat.two_pow_pos k))
  lt_bound := hm
  oddPart_eq := by rw [oddPart_mul_pow, h.oddPart_eq]

theorem Shifted.div {odd bound m : Nat} (h : Shifted odd bound m) {k : Nat}
    (hm : m % 2 ^ k = 0) : Shifted odd bound (m / 2 ^ k) := by
  have hshift : m / 2 ^ k * 2 ^ k = m := Nat.div_mul_cancel (Nat.dvd_of_mod_eq_zero hm)
  refine ⟨?_, Nat.lt_of_le_of_lt (Nat.div_le_self m (2 ^ k)) h.lt_bound, ?_⟩
  · intro hzero
    rw [hzero, Nat.zero_mul] at hshift
    exact h.ne_zero hshift.symm
  · rw [← h.oddPart_eq, ← oddPart_mul_pow (m / 2 ^ k) k, hshift]

/-- A loop whose turns keep a property of a number and make a measure of it smaller ends, and the
property holds there. -/
theorem Loop.exists_end {again : Int64 → Prop} {step : Int64 → Int64} {keeps : Nat → Prop}
    (next measure : Nat → Nat)
    (hturn : ∀ n, keeps n → again (Int64.ofNat n) →
      step (Int64.ofNat n) = Int64.ofNat (next n) ∧ keeps (next n) ∧ measure (next n) < measure n)
    {n : Nat} (h : keeps n) :
    ∃ m, Loop again step (Int64.ofNat n) (Int64.ofNat m) ∧ keeps m ∧ ¬again (Int64.ofNat m) := by
  induction hm : measure n using Nat.strongRecOn generalizing n with
  | ind size ih =>
      by_cases hagain : again (Int64.ofNat n)
      · obtain ⟨hstep, hkeeps, hless⟩ := hturn n h hagain
        obtain ⟨m, hloop, hend⟩ := ih _ (hm ▸ hless) hkeeps rfl
        rw [← hstep] at hloop
        exact ⟨m, .turn hagain hloop, hend⟩
      · exact ⟨n, .stop hagain, h, hagain⟩

theorem word_and_low_eq_zero_iff {n : Nat} (hn : n < 2 ^ 63) (k : Nat) :
    Int64.ofNat n &&& Int64.ofNat (2 ^ k - 1) = 0 ↔ n % 2 ^ k = 0 := by
  have hle := Nat.mod_le n (2 ^ k)
  rw [word_and, Nat.and_two_pow_sub_one_eq_mod, word_eq_zero_iff (by omega)]

/-- A mask of eleven bits from place `k` up tells whether a number reaches this place, for numbers
that do not reach above the mask. -/
theorem word_and_field_eq_zero_iff {n k : Nat} (hk : k ≤ 52) (hn : n / 2 ^ k < 2 ^ 11) :
    Int64.ofNat n &&& Int64.ofNat (2047 * 2 ^ k) = 0 ↔ n < 2 ^ k := by
  have hpos : 0 < 2 ^ k := Nat.two_pow_pos k
  have hpow : 2 ^ k ≤ 2 ^ 52 := Nat.pow_le_pow_right (by decide) hk
  have hfield : n / 2 ^ k &&& 2047 = n / 2 ^ k := by
    have hmod := Nat.and_two_pow_sub_one_eq_mod (n / 2 ^ k) 11
    rwa [Nat.mod_eq_of_lt hn] at hmod
  have hle : n / 2 ^ k * 2 ^ k < 2 ^ 63 :=
    calc n / 2 ^ k * 2 ^ k < 2 ^ 11 * 2 ^ k := Nat.mul_lt_mul_of_pos_right hn hpos
      _ ≤ 2 ^ 11 * 2 ^ 52 := Nat.mul_le_mul_left _ hpow
  rw [word_and, and_mul_pow, hfield, word_eq_zero_iff hle, Nat.mul_eq_zero,
    or_iff_left (by omega), Nat.div_eq_zero_iff_lt hpos]

variable {odd n : Nat} {again : Int64 → Prop} {step : Int64 → Int64}

theorem Loop.exists_end_down (k : Nat)
    (hstep : ∀ m, m < 2 ^ 63 → step (Int64.ofNat m) = Int64.ofNat (m / 2 ^ (k + 1)))
    (hclear : ∀ m, m < 2 ^ 63 → again (Int64.ofNat m) → m % 2 ^ (k + 1) = 0)
    (h : Shifted odd (2 ^ 63) n) :
    ∃ m, Loop again step (Int64.ofNat n) (Int64.ofNat m) ∧ Shifted odd (2 ^ 63) m ∧
      ¬again (Int64.ofNat m) := by
  apply Loop.exists_end (· / 2 ^ (k + 1)) id ?_ h
  intro m hm hagain
  have hless : m / 2 ^ (k + 1) < m :=
    Nat.div_lt_self (Nat.pos_of_ne_zero hm.ne_zero) (Nat.one_lt_two_pow (Nat.succ_ne_zero k))
  exact ⟨hstep m hm.lt_bound, hm.div (hclear m hm.lt_bound hagain), hless⟩

theorem Loop.exists_end_up (k : Nat)
    (hstep : ∀ m, step (Int64.ofNat m) = Int64.ofNat (m * 2 ^ (k + 1)))
    (hroom : ∀ m, m < 2 ^ 53 → again (Int64.ofNat m) → m * 2 ^ (k + 1) < 2 ^ 53)
    (h : Shifted odd (2 ^ 53) n) :
    ∃ m, Loop again step (Int64.ofNat n) (Int64.ofNat m) ∧ Shifted odd (2 ^ 53) m ∧
      ¬again (Int64.ofNat m) := by
  apply Loop.exists_end (· * 2 ^ (k + 1)) (2 ^ 53 - ·) ?_ h
  intro m hm hagain
  have hfits : m * 2 ^ (k + 1) < 2 ^ 53 := hroom m hm.lt_bound hagain
  have hgrows : m * 1 < m * 2 ^ (k + 1) :=
    Nat.mul_lt_mul_of_pos_left (Nat.one_lt_two_pow (Nat.succ_ne_zero k))
      (Nat.pos_of_ne_zero hm.ne_zero)
  have hless : 2 ^ 53 - m * 2 ^ (k + 1) < 2 ^ 53 - m := by omega
  exact ⟨hstep m, hm.mul hfits, hless⟩

theorem exists_stripOctets (h : Shifted odd (2 ^ 63) n) :
    ∃ m, StripOctets (Int64.ofNat n) (Int64.ofNat m) ∧ Shifted odd (2 ^ 63) m ∧ m % 256 ≠ 0 := by
  have hagain : ∀ m, m < 2 ^ 63 → (Int64.ofNat m &&& 0xFF = 0 ↔ m % 256 = 0) := by
    intro m hm
    exact word_and_low_eq_zero_iff hm 8
  have hend : ∃ m, StripOctets (Int64.ofNat n) (Int64.ofNat m) ∧ Shifted odd (2 ^ 63) m ∧
      ¬Int64.ofNat m &&& 0xFF = 0 :=
    Loop.exists_end_down 7 (fun m hm => word_shiftRight hm 8) (fun m hm => (hagain m hm).mp) h
  obtain ⟨m, hloop, hm, hstop⟩ := hend
  exact ⟨m, hloop, hm, mt (hagain m hm.lt_bound).mpr hstop⟩

theorem word_fits_iff (hn : n < 2 ^ 63) : Int64.ofNat n >>> 53 = 0 ↔ n < 2 ^ 53 := by
  have hshift : Int64.ofNat n >>> 53 = Int64.ofNat (n / 2 ^ 53) := word_shiftRight hn 53
  rw [hshift, word_eq_zero_iff (by omega)]
  omega

theorem exists_narrow (h : Shifted odd (2 ^ 63) n) :
    ∃ m, Narrow (Int64.ofNat n) (Int64.ofNat m) ∧ Shifted odd (2 ^ 63) m ∧
      (m < 2 ^ 53 ∨ m = odd) := by
  have heven : ∀ m, m < 2 ^ 63 → (Int64.ofNat m &&& 1 = 0 ↔ m % 2 = 0) := by
    intro m hm
    exact word_and_low_eq_zero_iff hm 1
  have hend : ∃ m, Narrow (Int64.ofNat n) (Int64.ofNat m) ∧ Shifted odd (2 ^ 63) m ∧
      ¬(Int64.ofNat m >>> 53 ≠ 0 ∧ Int64.ofNat m &&& 1 = 0) :=
    Loop.exists_end_down 0 (fun m hm => word_shiftRight hm 1)
      (fun m hm hagain => (heven m hm).mp hagain.2) h
  obtain ⟨m, hloop, hm, hstop⟩ := hend
  refine ⟨m, hloop, hm, ?_⟩
  rw [ne_eq, word_fits_iff hm.lt_bound, heven m hm.lt_bound] at hstop
  by_cases hfits : m < 2 ^ 53
  · exact .inl hfits
  · have hself : oddPart m = m := oddPart_of_odd (by omega)
    exact .inr (hself ▸ hm.oddPart_eq)

theorem exists_raiseOctets (h : Shifted odd (2 ^ 53) n) :
    ∃ m, RaiseOctets (Int64.ofNat n) (Int64.ofNat m) ∧ Shifted odd (2 ^ 53) m := by
  have hroom : ∀ m, m < 2 ^ 53 → Int64.ofNat m &&& Binary64.exponentMask >>> 8 = 0 →
      m * 2 ^ 8 < 2 ^ 53 := by
    intro m hm hlow
    have hfield : m / 2 ^ 44 < 2 ^ 11 := by omega
    have hreach : m < 2 ^ 44 := (word_and_field_eq_zero_iff (by decide) hfield).mp hlow
    omega
  have hend : ∃ m, RaiseOctets (Int64.ofNat n) (Int64.ofNat m) ∧ Shifted odd (2 ^ 53) m ∧
      ¬Int64.ofNat m &&& Binary64.exponentMask >>> 8 = 0 :=
    Loop.exists_end_up 7 (fun m => word_shiftLeft m 8) hroom h
  obtain ⟨m, hloop, hm, -⟩ := hend
  exact ⟨m, hloop, hm⟩

theorem exists_raiseBits (h : Shifted odd (2 ^ 53) n) :
    ∃ m, RaiseBits (Int64.ofNat n) (Int64.ofNat m) ∧ Shifted odd (2 ^ 53) m ∧ 2 ^ 52 ≤ m := by
  have hagain : ∀ m, m < 2 ^ 53 → (Int64.ofNat m &&& Binary64.exponentMask = 0 ↔ m < 2 ^ 52) := by
    intro m hm
    have hfield : m / 2 ^ 52 < 2 ^ 11 := by omega
    exact word_and_field_eq_zero_iff (by decide) hfield
  have hroom : ∀ m, m < 2 ^ 53 → Int64.ofNat m &&& Binary64.exponentMask = 0 →
      m * 2 ^ 1 < 2 ^ 53 := by
    intro m hm hlow
    have hreach : m < 2 ^ 52 := (hagain m hm).mp hlow
    omega
  have hend : ∃ m, RaiseBits (Int64.ofNat n) (Int64.ofNat m) ∧ Shifted odd (2 ^ 53) m ∧
      ¬Int64.ofNat m &&& Binary64.exponentMask = 0 :=
    Loop.exists_end_up 0 (fun m => word_shiftLeft m 1) hroom h
  obtain ⟨m, hloop, hm, hstop⟩ := hend
  rw [hagain m hm.lt_bound] at hstop
  exact ⟨m, hloop, hm, by omega⟩

/-- The word that the loops put in its place: its odd part, shifted up to bit 52. -/
theorem eq_placed (h : Shifted odd (2 ^ 53) n) (hn : 2 ^ 52 ≤ n) :
    n = odd * 2 ^ (52 - odd.log2) := by
  have hlog : n.log2 = 52 := (Nat.log2_eq_iff h.ne_zero).mpr ⟨hn, h.lt_bound⟩
  rw [← h.oddPart_eq]
  exact eq_oddPart_mul_of_log2 h.ne_zero hlog

theorem normalizes_of_fits (h : Shifted odd (2 ^ 63) n) (hfits : odd < 2 ^ 53) :
    Normalizes (Int64.ofNat n) (Int64.ofNat (odd * 2 ^ (52 - odd.log2) - 2 ^ 52)) := by
  obtain ⟨narrow, hnarrow, hn, hsize⟩ := exists_narrow h
  have hlt : narrow < 2 ^ 53 := by omega
  obtain ⟨high, hhigh, hh⟩ := exists_raiseOctets ⟨hn.ne_zero, hlt, hn.oddPart_eq⟩
  obtain ⟨placed, hplaced, hp, hreach⟩ := exists_raiseBits hh
  refine ⟨_, _, _, hnarrow, (word_fits_iff hn.lt_bound).mpr hlt, hhigh, hplaced, ?_⟩
  have hmask : Int64.ofNat placed &&& Binary64.fractionMask = Int64.ofNat (placed % 2 ^ 52) := by
    rw [← Nat.and_two_pow_sub_one_eq_mod]
    exact word_and placed (2 ^ 52 - 1)
  have hlow : placed % 2 ^ 52 = placed - 2 ^ 52 := by
    have hlt := hp.lt_bound
    omega
  rw [hmask, hlow, ← eq_placed hp hreach]

theorem tooWide_of_not_fits (h : Shifted odd (2 ^ 63) n) (hwide : 2 ^ 53 ≤ odd) :
    TooWide (Int64.ofNat n) := by
  obtain ⟨narrow, hnarrow, hn, hsize⟩ := exists_narrow h
  refine ⟨_, hnarrow, ?_⟩
  have hle : odd ≤ narrow := hn.oddPart_eq ▸ oddPart_le narrow
  rw [ne_eq, word_fits_iff hn.lt_bound]
  omega

theorem assemble_normal (negative : Bool) {exponent : Int} {mantissa : Nat}
    (hlow : -Binary64.exponentBias < exponent) (hhigh : exponent ≤ Binary64.exponentBias)
    (hne : mantissa ≠ 0) :
    assemble negative exponent mantissa =
      if 2 ^ 53 ≤ oddPart mantissa then .error .realMantissaTooWide
      else .ok (.ofFields negative (exponent + Binary64.exponentBias).toNat
        (oddPart mantissa * 2 ^ (52 - (oddPart mantissa).log2) - 2 ^ 52)) := by
  have hspecial : exponent ≠ Binary64.specialExponent := by
    rw [Binary64.specialExponent]
    omega
  have hrange : ¬(exponent ≤ -Binary64.exponentBias ∨ Binary64.exponentBias < exponent) := by
    omega
  rw [assemble, if_neg hspecial, if_neg hrange, if_neg hne]

/-- For every exponent in the range of the numbers and every mantissa that a field can give, what is
assembled is what the loops end with, and a mantissa is refused where they end at a word that is too
wide. -/
theorem assemble_by_loops (negative : Bool) {exponent : Int} {mantissa : Nat}
    (hlow : -Binary64.exponentBias < exponent) (hhigh : exponent ≤ Binary64.exponentBias)
    (hne : mantissa ≠ 0) (hword : mantissa < 2 ^ 63) :
    (∃ fraction, Normalizes (Int64.ofNat mantissa) (Int64.ofNat fraction) ∧
      assemble negative exponent mantissa =
        .ok (.ofFields negative (exponent + Binary64.exponentBias).toNat fraction)) ∨
    (TooWide (Int64.ofNat mantissa) ∧
      assemble negative exponent mantissa = .error .realMantissaTooWide) := by
  have hstart : Shifted (oddPart mantissa) (2 ^ 63) mantissa := ⟨hne, hword, rfl⟩
  rw [assemble_normal negative hlow hhigh hne]
  by_cases hwide : 2 ^ 53 ≤ oddPart mantissa
  · exact .inr ⟨tooWide_of_not_fits hstart hwide, if_pos hwide⟩
  · exact .inl ⟨_, normalizes_of_fits hstart (by omega), if_neg hwide⟩

end BasicEncoding.Real
