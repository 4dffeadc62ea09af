import BasicEncoding.Powers

/-! Words with a sign under shifts, masks and joins, told by the natural numbers that they are made
from. A shift to the left may drop bits and is the word of the product all the same; a shift to the
right is told for words without a sign only. -/
namespace BasicEncoding

theorem exists_word (word : Int64) : ∃ n, n < 2 ^ 64 ∧ word = Int64.ofNat n := by
  refine ⟨word.toBitVec.toNat, word.toBitVec.isLt, ?_⟩
  apply Int64.toBitVec_inj.mp
  simp [Int64.ofNat]

theorem toInt_word {n : Nat} (hn : n < 2 ^ 64) :
    (Int64.ofNat n).toInt = if n < 2 ^ 63 then (n : Int) else n - 2 ^ 64 := by
  have hval : (Int64.ofNat n).toBitVec.toNat = n := Nat.mod_eq_of_lt hn
  rw [← Int64.toInt_toBitVec, BitVec.toInt_eq_toNat_cond, hval]
  split <;> split <;> omega

theorem word_and (n m : Nat) : Int64.ofNat n &&& Int64.ofNat m = Int64.ofNat (n &&& m) := by
  apply Int64.toBitVec_inj.mp
  rw [Int64.toBitVec_and]
  exact BitVec.ofNat_and.symm

theorem word_or (n m : Nat) : Int64.ofNat n ||| Int64.ofNat m = Int64.ofNat (n ||| m) := by
  apply Int64.toBitVec_inj.mp
  rw [Int64.toBitVec_or]
  exact BitVec.ofNat_or.symm

theorem word_shiftLeft (n : Nat) (k : Int64) :
    Int64.ofNat n <<< k = Int64.ofNat (n * 2 ^ (k.toBitVec.smod 64).toNat) := by
  apply Int64.toBitVec_inj.mp
  apply BitVec.eq_of_toNat_eq
  rw [Int64.toBitVec_shiftLeft, BitVec.shiftLeft_eq', BitVec.toNat_shiftLeft, Nat.shiftLeft_eq]
  exact Nat.mod_mul_mod n _ _

theorem word_shiftRight {n : Nat} (hn : n < 2 ^ 63) (k : Int64) :
    Int64.ofNat n >>> k = Int64.ofNat (n / 2 ^ (k.toBitVec.smod 64).toNat) := by
  have hval : (Int64.ofNat n).toBitVec.toNat = n := Nat.mod_eq_of_lt (by omega)
  have hmsb : (Int64.ofNat n).toBitVec.msb = false := by
    rw [BitVec.msb_eq_false_iff_two_mul_lt, hval]
    omega
  have hle := Nat.div_le_self n (2 ^ (k.toBitVec.smod 64).toNat)
  apply Int64.toBitVec_inj.mp
  apply BitVec.eq_of_toNat_eq
  rw [Int64.toBitVec_shiftRight, BitVec.toNat_sshiftRight'_of_msb_false hmsb, hval,
    Nat.shiftRight_eq_div_pow]
  exact (Nat.mod_eq_of_lt (by omega)).symm

theorem word_eq_iff {n m : Nat} (hn : n < 2 ^ 63) (hm : m < 2 ^ 63) :
    Int64.ofNat n = Int64.ofNat m ↔ n = m := by
  rw [← Int64.toInt_inj, Int64.toInt_ofNat_of_lt hn, Int64.toInt_ofNat_of_lt hm, Int.ofNat_inj]

theorem word_eq_zero_iff {n : Nat} (hn : n < 2 ^ 63) : Int64.ofNat n = 0 ↔ n = 0 :=
  word_eq_iff hn (by decide)

theorem word_shiftRight_place {n place : Nat} (hn : n < 2 ^ 63) (hplace : place < 64) :
    Int64.ofNat n >>> Int64.ofNat place = Int64.ofNat (n / 2 ^ place) := by
  have hshift : ∀ k < 64, ((Int64.ofNat k).toBitVec.smod 64).toNat = k := by decide
  rw [word_shiftRight hn, hshift place hplace]

theorem and_mul_pow (n m k : Nat) : n &&& m * 2 ^ k = (n / 2 ^ k &&& m) * 2 ^ k := by
  apply Nat.eq_of_testBit_eq
  intro i
  rw [← Nat.shiftLeft_eq, ← Nat.shiftLeft_eq, ← Nat.shiftRight_eq_div_pow, Nat.testBit_and,
    Nat.testBit_shiftLeft, Nat.testBit_shiftLeft, Nat.testBit_and, Nat.testBit_shiftRight]
  by_cases hi : k ≤ i
  · rw [Nat.add_sub_cancel' hi]
    simp only [hi, decide_true, Bool.true_and]
  · simp only [hi, decide_false, Bool.false_and, Bool.and_false]

/-- An octet joined on below a shifted word is added to it, whatever the shift drops. -/
theorem word_shiftLeft_or (word : Int64) (octet : UInt8) :
    word <<< 8 ||| Int64.ofNat octet.toNat = word * 256 + Int64.ofNat octet.toNat := by
  obtain ⟨n, -, rfl⟩ := exists_word word
  have hoctet : octet.toNat < 2 ^ 8 := octet.toNat_lt
  have hshift : Int64.ofNat n <<< 8 = Int64.ofNat (n * 2 ^ 8) := word_shiftLeft n 8
  have hjoin : n * 2 ^ 8 ||| octet.toNat = n * 2 ^ 8 + octet.toNat := by
    rw [← Nat.shiftLeft_eq]
    exact (Nat.shiftLeft_add_eq_or_of_lt hoctet n).symm
  rw [hshift, word_or, hjoin, Int64.ofNat_add, Int64.ofNat_mul]
  rfl

end BasicEncoding
