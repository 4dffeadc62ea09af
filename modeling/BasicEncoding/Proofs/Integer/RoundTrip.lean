import BasicEncoding.Proofs.Integer.Exact

/-! The field written for a word spells that word and is no longer than it has to be. Widths are
judged by the quotient of a number by a power of 256: the top octet shows the sign exactly where
this quotient lies between -128 and 127. -/
namespace BasicEncoding.Integer

/-- A number between the negative and the positive `scale * 256 ^ n`, the upper bound excluded. -/
def Within (scale n : Nat) (v : Int) : Prop :=
  -(scale * 256 ^ n) ≤ v ∧ v < scale * 256 ^ n

theorem power_pos (n : Nat) : (0 : Int) < 256 ^ n := Int.pow_pos (by decide)

theorem power_le {n m : Nat} (h : n ≤ m) : (256 : Int) ^ n ≤ 256 ^ m := by
  have hle := Int.ofNat_le.mpr (Nat.pow_le_pow_right (by decide : 256 > 0) h)
  rwa [Int.natCast_pow, Int.natCast_pow] at hle

theorem within_iff {scale n : Nat} {v : Int} :
    Within scale n v ↔ -scale ≤ v / 256 ^ n ∧ v / 256 ^ n < scale := by
  rw [Int.le_ediv_iff_mul_le (power_pos n), Int.ediv_lt_iff_lt_mul (power_pos n), Int.neg_mul]
  exact Iff.rfl

theorem within_succ {n : Nat} {v : Int} : Within 1 (n + 1) v ↔ Within 256 n v := by
  unfold Within
  rw [Int.pow_succ]
  constructor <;> rintro ⟨hlow, hhigh⟩ <;> constructor <;> omega

theorem nonneg_quotient_iff {n : Nat} {v : Int} : 0 ≤ v / 256 ^ n ↔ 0 ≤ v := by
  rw [Int.le_ediv_iff_mul_le (power_pos n), Int.zero_mul]

theorem octetAt_eq_filler_iff {n : Nat} {v : Int} :
    octetAt v n = filler v ↔ v / 256 ^ n % 256 = if v < 0 then 255 else 0 := by
  have hfiller : ((filler v).toNat : Int) = if v < 0 then 255 else 0 := by
    unfold filler
    split <;> rfl
  rw [← UInt8.toNat_inj, ← hfiller, ← toNat_octetAt]
  exact Int.ofNat_inj.symm

theorem within_of_filler {n : Nat} {v : Int} (h : Within 1 (n + 1) v)
    (hf : octetAt v n = filler v) : Within 1 n v := by
  have hq := within_iff.mp (within_succ.mp h)
  have hsign := nonneg_quotient_iff (n := n) (v := v)
  rw [octetAt_eq_filler_iff] at hf
  rw [within_iff]
  split at hf <;> omega

theorem within_topPlace {n : Nat} {v : Int} (h : Within 1 (n + 1) v) :
    Within 1 (topPlace v n + 1) v := by
  induction n with
  | zero => exact h
  | succ n ih =>
      rw [topPlace]
      split
      · next hf => exact ih (within_of_filler h hf)
      · exact h

theorem topPlace_le {n : Nat} {v : Int} (h : ∀ j, n < j → octetAt v j = filler v) (k : Nat) :
    topPlace v k ≤ n := by
  induction k with
  | zero => exact Nat.zero_le n
  | succ k ih =>
      rw [topPlace]
      split
      · exact ih
      · next hf => exact Nat.le_of_not_lt fun hlt => hf (h (k + 1) hlt)

theorem octetAt_eq_filler {j : Nat} {v : Int} (h : Within 1 j v) : octetAt v j = filler v := by
  have hq := within_iff.mp h
  have hsign := nonneg_quotient_iff (n := j) (v := v)
  rw [octetAt_eq_filler_iff]
  split <;> omega

def signedPlace (v : Int) : Nat :=
  let place := topPlace v 7
  if 128 ≤ (octetAt v place).toNat ↔ 0 ≤ v then place + 1 else place

theorem octetsFrom_place (v : Int64) (n : Nat) :
    octetsFrom v (octetBits * n) = lowOctets v.toInt (n + 1) := by
  rw [octetsFrom, width, Nat.mul_mod_right, Int.pow_zero, Int.ediv_one,
    Nat.mul_div_cancel_left _ (by decide)]

theorem encode_eq (v : Int64) : encode v = lowOctets v.toInt (signedPlace v.toInt + 1) := by
  have hshift : startShift v true = octetBits * signedPlace v.toInt := by
    simp only [startShift, signedPlace, true_and, octetBits, topShift, wordBits]
  rw [encode, hshift, octetsFrom_place]

theorem length_encode (v : Int64) : (encode v).length = signedPlace v.toInt + 1 := by
  rw [encode_eq, length_lowOctets]

theorem encode_ne_nil (v : Int64) : encode v ≠ [] := by
  intro h
  have hlen := length_encode v
  rw [h] at hlen
  exact Nat.succ_ne_zero _ hlen.symm

/-- The top bit of the first octet shows the sign. -/
theorem within_signedPlace {v : Int} (h : Within 1 8 v) : Within 128 (signedPlace v) v := by
  have htop : Within 256 (topPlace v 7) v := within_succ.mp (within_topPlace h)
  unfold signedPlace
  dsimp only
  split
  · have hnext : Within 1 (topPlace v 7 + 1) v := within_succ.mpr htop
    rw [within_iff] at hnext ⊢
    omega
  · next hbit =>
    have hoctet := toNat_octetAt v (topPlace v 7)
    have hsign := nonneg_quotient_iff (n := topPlace v 7) (v := v)
    rw [within_iff] at htop ⊢
    omega

/-- A number that a field of `n + 1` octets holds is not written in a longer one. -/
theorem signedPlace_le {n : Nat} {v : Int} (h : Within 128 n v) : signedPlace v ≤ n := by
  have hfill : ∀ j, n < j → octetAt v j = filler v := by
    intro j hj
    apply octetAt_eq_filler
    have hpow : (256 : Int) ^ (n + 1) ≤ 256 ^ j := power_le hj
    rw [Int.pow_succ] at hpow
    have hp := power_pos n
    obtain ⟨hlow, hhigh⟩ := h
    constructor <;> omega
  have hle : topPlace v 7 ≤ n := topPlace_le hfill 7
  unfold signedPlace
  dsimp only
  split
  · next hbit =>
    have hne : topPlace v 7 ≠ n := by
      intro heq
      have hoctet := toNat_octetAt v (topPlace v 7)
      have hsign := nonneg_quotient_iff (n := topPlace v 7) (v := v)
      rw [← heq, within_iff] at h
      omega
    omega
  · exact hle

theorem within_word (v : Int64) : Within 1 8 v.toInt := by
  have hlow := v.le_toInt
  have hhigh := v.toInt_lt
  constructor <;> omega

/-- The octets of a field spell the number where the first one shows its sign. -/
theorem signedValue_lowOctets {n : Nat} {v : Int} (h : Within 128 n v) :
    signedValue (lowOctets v (n + 1)) = v := by
  have hq := within_iff.mp h
  have hoctet := toNat_octetAt v n
  have hdiv : 256 ^ n * (v / 256 ^ n) + v % 256 ^ n = v := Int.mul_ediv_add_emod v (256 ^ n)
  rw [lowOctets, signedValue, unsignedValue_cons, length_lowOctets, Int.natCast_add,
    Int.natCast_mul, unsignedValue_lowOctets, Int.natCast_pow, Int.pow_succ]
  by_cases hneg : v / 256 ^ n < 0
  · have htop : ((octetAt v n).toNat : Int) = v / 256 ^ n + 256 := by omega
    rw [if_pos (by omega), htop]
    grind
  · have htop : ((octetAt v n).toNat : Int) = v / 256 ^ n := by omega
    rw [if_neg (by omega), htop]
    grind

theorem signedValue_encode (v : Int64) : signedValue (encode v) = v.toInt := by
  rw [encode_eq, signedValue_lowOctets (within_signedPlace (within_word v))]

theorem unsignedValue_encode {v : Int64} (h : 0 ≤ v.toInt) :
    (unsignedValue (encode v) : Int) = v.toInt := by
  have hhold := within_signedPlace (within_word v)
  have hhigh : v.toInt < 256 ^ (signedPlace v.toInt + 1) := by
    have hp := power_pos (signedPlace v.toInt)
    rw [Int.pow_succ]
    have := hhold.2
    omega
  rw [encode_eq, unsignedValue_lowOctets, Int.emod_eq_of_lt h hhigh]

theorem read_encode (v : Int64) : read true (encode v) = .ok v := by
  rw [read_signed (encode_ne_nil v), signedValue_encode, ofValue_toInt]

theorem read_unsigned_encode {v : Int64} (h : 0 ≤ v.toInt) : read false (encode v) = .ok v := by
  rw [read_unsigned (encode_ne_nil v), unsignedValue_encode h, ofValue_toInt]

theorem decode_encode (v : Int64) : decode (encode v) = .ok v := by
  have hcons : (encode v).isEmpty = false := List.isEmpty_eq_false_iff.mpr (encode_ne_nil v)
  rw [decode, hcons]
  exact read_encode v

end BasicEncoding.Integer
